import Mathlib.Data.List.Infix
import Syzy.Cache

/-!
The sealer's uploads of one origin's changesets, interleaved with their feed. The watermark that the
journal's garbage collection trusts starts at the first epoch uploaded, so it is sound as long as
nothing below the first changeset is fed.
-/

namespace Syzy

open UInt64 List

/-- A changeset as the drain hands it to its listeners. -/
structure Encoded where
  seq : Seq
  bytes : Bytes
deriving DecidableEq

structure Pending where
  records : List Encoded
  bytes : ℕ
  minSeq : Seq
  maxSeq : Seq
  openedAt : ℤ
  sealed : Bool

namespace Pending

def opened (now : ℤ) : Pending := ⟨[],0,0,0,now,false⟩

def add (p : Pending) (cs : Encoded) : Pending :=
  { p with
    records := p.records++[cs]
    bytes := p.bytes+cs.bytes.length
    minSeq := if p.records = [] then cs.seq else p.minSeq
    maxSeq := cs.seq }

end Pending

structure SealerConfig where
  maxBytes : ℕ
  maxAge : ℤ

/-- Where a flush returns to: the loop, the changeset whose gap caused it, or the end of the run. -/
inductive Resume where
  | loop
  | enqueue (cs : Encoded)
  | exit
deriving DecidableEq

inductive Control where
  | select
  | flushing (resume : Resume)
  | stopped
deriving DecidableEq

/-- The sealer's state for one origin, with the objects it uploaded and, for the record, every seq
that was fed. -/
structure Sealer where
  cfg : SealerConfig
  inbox : List Encoded
  queue : List Pending
  failed : Bool
  uploaded : Seq
  contiguous : Option Seq
  control : Control
  bucket : List (List Encoded)
  fed : List Seq

inductive SealerEvent where
  | onEncoded (cs : Encoded)
  | receive (now : ℤ)
  | put (ok : Bool) (now : ℤ)
  | tick (now : ℤ)
  | stop

namespace Sealer

variable (s : Sealer) (q : List Pending) (cs : Encoded)

def new (cfg : SealerConfig) : Sealer := ⟨cfg,[],[],false,0,none,.select,[],[]⟩

def contiguousSealedSeq : Seq := s.contiguous.getD 0

def recordUpload (minSeq maxSeq : Seq) : Sealer :=
  { s with
    uploaded := if s.uploaded < maxSeq then maxSeq else s.uploaded
    contiguous := match s.contiguous with
      | none => some maxSeq
      | some cur => if minSeq ≤ cur+1 ∧ cur < maxSeq then some maxSeq else some cur }

def sealTail : List Pending :=
  match q.getLast? with
  | none => q
  | some tail => q.dropLast++[{ tail with sealed := true }]

def flushOrigin (includeOpen : Bool) (resume : Resume) : Sealer :=
  { s with
    queue := if includeOpen then sealTail s.queue else s.queue
    failed := false
    control := .flushing resume }

/-- The epoch a changeset is buffered in: the open tail when it abuts it, else a new one. -/
def slotFor (now : ℤ) : List Pending × Pending :=
  match q.getLast? with
  | none => (q,Pending.opened now)
  | some tail =>
    if tail.sealed ∨ cs.seq ≠ tail.maxSeq+1 then (q,Pending.opened now) else (q.dropLast,tail)

def enqueue (now : ℤ) : Sealer :=
  let slot := slotFor s.queue cs now
  let tail := slot.2.add cs
  let s := { s with queue := slot.1++[tail],control := .select }
  if s.cfg.maxBytes ≤ tail.bytes ∧ ¬s.failed then s.flushOrigin true .loop else s

def flushDone (resume : Resume) (now : ℤ) : Sealer :=
  let s := { s with failed := if s.queue = [] then false else s.failed }
  match resume with
  | .loop => { s with control := .select }
  | .enqueue cs => s.enqueue cs now
  | .exit => { s with control := .stopped }

/-- One turn of the flush loop; `ok` is what the bucket answers to the upload. -/
def flushTurn (resume : Resume) (ok : Bool) (now : ℤ) : Sealer :=
  match s.queue with
  | [] => s.flushDone resume now
  | p::rest =>
    if ¬p.sealed then s.flushDone resume now
    else if ok then
      { s.recordUpload p.minSeq p.maxSeq with queue := rest,bucket := s.bucket++[p.records] }
    else ({ s with failed := true } : Sealer).flushDone resume now

def receiveOne (now : ℤ) : Sealer :=
  if cs.seq ≤ s.uploaded then s
  else match s.queue.getLast? with
    | none => s.enqueue cs now
    | some tail =>
      if ¬tail.sealed ∧ cs.seq ≠ tail.maxSeq+1 then s.flushOrigin true (.enqueue cs)
      else s.enqueue cs now

def receive (now : ℤ) : Sealer :=
  match s.control,s.inbox with
  | .select,cs::rest => ({ s with inbox := rest } : Sealer).receiveOne cs now
  | _,_ => s

def tickOne (now : ℤ) : Sealer :=
  match s.queue.getLast? with
  | none => s
  | some tail =>
    if ¬tail.sealed ∧ s.cfg.maxAge ≤ now-tail.openedAt then s.flushOrigin true .loop
    else if s.failed then s.flushOrigin false .loop
    else s

/-- One action of the feed or of the sealer's goroutine; one that is not due changes nothing. -/
def step : SealerEvent → Sealer
  | .onEncoded cs => { s with inbox := s.inbox++[cs],fed := s.fed++[cs.seq] }
  | .receive now => s.receive now
  | .put ok now =>
    match s.control with
    | .flushing resume => s.flushTurn resume ok now
    | _ => s
  | .tick now => if s.control = .select then s.tickOne now else s
  | .stop => if s.control = .select then s.flushOrigin true .exit else s

def run (events : List SealerEvent) : Sealer := events.foldl step s

def Stored (n : Seq) : Prop := ∃ e ∈ s.bucket,∃ r ∈ e,r.seq = n

end Sealer

/-- A journal segment with its seek index: no record lies above the indexed ceiling. -/
structure IndexedSegment where
  seqs : List Seq
  maxSeq : Seq
  le_maxSeq : ∀ q ∈ seqs,q ≤ maxSeq

/-- Drop the leading segments that lie below the sealed tip, never the newest. -/
def retainSealed (sealedTip : Seq) : List IndexedSegment → List IndexedSegment
  | [] => []
  | [seg] => [seg]
  | seg::next::segs =>
    if sealedTip < seg.maxSeq then seg::next::segs else retainSealed sealedTip (next::segs)

/-- Whether an origin's journal may be collected below its marker. -/
def gcSafeFor (c : Cache) (sealer : Option Seq) (o : Origin) : Bool :=
  let next := c.senderNextSeq.getD o
  if ¬(o = c.self ∨ 1 < next) then true
  else match sealer with
    | none => false
    | some contiguous =>
      let ourHead := if 0 < next then next-1
        else ((c.frontier.lookup o).map FrontierEntry.lastSeq).getD 0
      if ourHead = 0 then false else ourHead ≤ contiguous

namespace Pending

/-- A buffered epoch is a run of fed changesets without a hole. -/
structure Run (fed : List Seq) (p : Pending) : Prop where
  fed_mem : ∀ r ∈ p.records,r.seq ∈ fed
  min_le : ∀ r ∈ p.records,p.minSeq ≤ r.seq
  min_le_max : p.minSeq ≤ p.maxSeq
  covers : ∀ n,p.minSeq ≤ n → n ≤ p.maxSeq → ∃ r ∈ p.records,r.seq = n

variable {fed : List Seq} {p : Pending}

theorem Run.ne_nil (h : p.Run fed) : p.records ≠ [] := by
  intro hnil
  obtain ⟨r,hr,-⟩ := h.covers p.minSeq (le_refl _) h.min_le_max
  rw [hnil] at hr
  exact not_mem_nil hr

theorem Run.mono {fed' : List Seq} (h : p.Run fed) (hsub : fed ⊆ fed') :
    p.Run fed' :=
  ⟨fun r hr => hsub (h.fed_mem r hr),h.min_le,h.min_le_max,h.covers⟩

theorem run_add_opened {cs : Encoded} (now : ℤ) (hcs : cs.seq ∈ fed) :
    ((opened now).add cs).Run fed := by
  refine ⟨?_,?_,?_,?_⟩
  · intro r hr
    rw [mem_singleton.mp hr]
    exact hcs
  · intro r hr
    rw [mem_singleton.mp hr]
    exact le_refl cs.seq
  · exact le_refl cs.seq
  · intro n hlo hhi
    exact ⟨cs,mem_singleton.mpr rfl,le_antisymm hlo hhi⟩

theorem Run.minSeq_add (h : p.Run fed) (cs : Encoded) :
    (p.add cs).minSeq = p.minSeq := if_neg h.ne_nil

theorem Run.add (h : p.Run fed) {cs : Encoded} (hcs : cs.seq ∈ fed) (hzero : cs.seq ≠ 0)
    (hnext : cs.seq = p.maxSeq+1) : (p.add cs).Run fed := by
  have hmax : p.maxSeq.toNat+1 = cs.seq.toNat := by
    have hne : cs.seq.toNat ≠ 0 := fun h0 => hzero (UInt64.toNat_inj.mp h0)
    rw [hnext,UInt64.toNat_add] at hne ⊢
    have h1 : (1 : UInt64).toNat = 1 := rfl
    have hp := p.maxSeq.toNat_lt
    omega
  have hle : p.minSeq ≤ cs.seq := by
    have hmin := le_iff_toNat_le.mp h.min_le_max
    rw [le_iff_toNat_le]
    omega
  refine ⟨?_,?_,?_,?_⟩
  · intro r hr
    rcases mem_concat.mp hr with hr | rfl
    · exact h.fed_mem r hr
    · exact hcs
  · intro r hr
    rw [h.minSeq_add]
    rcases mem_concat.mp hr with hr | rfl
    · exact h.min_le r hr
    · exact hle
  · rw [h.minSeq_add]
    exact hle
  · intro n hlo hhi
    rw [h.minSeq_add] at hlo
    by_cases hn : n ≤ p.maxSeq
    · obtain ⟨r,hr,hseq⟩ := h.covers n hlo hn
      exact ⟨r,mem_append_left _ hr,hseq⟩
    · refine ⟨cs,mem_append_right _ (mem_singleton.mpr rfl),le_antisymm ?_ hhi⟩
      rw [le_iff_toNat_le] at hn ⊢
      omega

end Pending

namespace Sealer

def oldest (queue : List Pending) (inbox : List Encoded) : Option Seq :=
  (queue.head?.map Pending.minSeq).or (inbox.head?.map Encoded.seq)

/-- Until the first upload the queue starts with the first changeset fed; from then on everything
between it and the watermark is stored. -/
structure Inv (s : Sealer) : Prop where
  runs : ∀ p ∈ s.queue,p.Run s.fed
  inbox_fed : ∀ cs ∈ s.inbox,cs.seq ∈ s.fed ∧ cs.seq ≠ 0
  resume_fed : ∀ cs,s.control = .flushing (.enqueue cs) → cs.seq ∈ s.fed ∧ cs.seq ≠ 0
  bucket_fed : ∀ n,s.Stored n → n ∈ s.fed
  fed_ne_zero : ∀ n ∈ s.fed,n ≠ 0
  unanchored : s.contiguous = none →
    s.bucket = [] ∧ s.uploaded = 0 ∧ oldest s.queue s.inbox = s.fed.head? ∧
      ∀ cs,s.control = .flushing (.enqueue cs) → s.queue ≠ []
  anchored : ∀ c,s.contiguous = some c →
    ∃ f,s.fed.head? = some f ∧ f ≤ c ∧ ∀ n,f ≤ n → n ≤ c → s.Stored n

theorem inv_new (cfg : SealerConfig) : (new cfg).Inv where
  runs := by simp [new]
  inbox_fed := by simp [new]
  resume_fed := by simp [new]
  bucket_fed := by simp [new,Stored]
  fed_ne_zero := by simp [new]
  unanchored := by simp [new,oldest]
  anchored := by simp [new]

variable {fed : List Seq} {inbox : List Encoded} {q : List Pending} {resume : Resume}

theorem run_sealTail (h : ∀ p ∈ q,p.Run fed) :
    ∀ p ∈ sealTail q,p.Run fed := by
  unfold sealTail
  cases hlast : q.getLast? with
  | none => exact h
  | some tail =>
    intro p hp
    rcases mem_append.mp hp with hp | hp
    · exact h p (mem_of_mem_dropLast hp)
    · have htail := h tail (mem_of_getLast? hlast)
      rw [mem_singleton.mp hp]
      exact ⟨htail.fed_mem,htail.min_le,htail.min_le_max,htail.covers⟩

theorem head_concat_dropLast {tail tail' : Pending} (hlast : q.getLast? = some tail)
    (hmin : tail'.minSeq = tail.minSeq) :
    (q.dropLast++[tail']).head?.map Pending.minSeq = q.head?.map Pending.minSeq := by
  obtain ⟨init,rfl⟩ := getLast?_eq_some_iff.mp hlast
  rw [dropLast_concat]
  cases init with
  | nil => simp [hmin]
  | cons p init => simp

theorem head_sealTail (q : List Pending) :
    (sealTail q).head?.map Pending.minSeq = q.head?.map Pending.minSeq := by
  unfold sealTail
  cases hlast : q.getLast? with
  | none => rfl
  | some tail => exact head_concat_dropLast hlast rfl

theorem sealTail_eq_nil : sealTail q = [] ↔ q = [] := by
  unfold sealTail
  cases hlast : q.getLast? with
  | none => rfl
  | some tail =>
    have hq : q ≠ [] := by
      rintro rfl
      simp at hlast
    simp [hq]

theorem Inv.flushOrigin {s : Sealer} (h : s.Inv) (includeOpen : Bool)
    (hfed : ∀ cs,resume = .enqueue cs → cs.seq ∈ s.fed ∧ cs.seq ≠ 0)
    (hqueue : ∀ cs,resume = .enqueue cs → s.queue ≠ []) : (s.flushOrigin includeOpen resume).Inv where
  runs := by
    cases includeOpen with
    | true => exact run_sealTail h.runs
    | false => exact h.runs
  inbox_fed := h.inbox_fed
  resume_fed cs hcs := hfed cs (by injection hcs)
  bucket_fed := h.bucket_fed
  fed_ne_zero := h.fed_ne_zero
  unanchored hnone := by
    obtain ⟨hbucket,huploaded,hhead,-⟩ := h.unanchored hnone
    refine ⟨hbucket,huploaded,?_,fun cs hcs => ?_⟩
    · refine Eq.trans ?_ hhead
      cases includeOpen with
      | true =>
        exact congrArg (fun o : Option Seq => o.or (s.inbox.head?.map Encoded.seq))
          (head_sealTail s.queue)
      | false => rfl
    · have hne := hqueue cs (by injection hcs)
      cases includeOpen with
      | true => exact mt sealTail_eq_nil.mp hne
      | false => exact hne
  anchored := h.anchored

theorem Inv.of_control {s : Sealer} (h : s.Inv) (failed : Bool) {control : Control}
    (hcontrol : ∀ cs,control ≠ .flushing (.enqueue cs)) :
    ({ s with failed := failed,control := control } : Sealer).Inv where
  runs := h.runs
  inbox_fed := h.inbox_fed
  resume_fed cs hcs := absurd hcs (hcontrol cs)
  bucket_fed := h.bucket_fed
  fed_ne_zero := h.fed_ne_zero
  unanchored hnone := by
    obtain ⟨hbucket,huploaded,hhead,-⟩ := h.unanchored hnone
    exact ⟨hbucket,huploaded,hhead,fun cs hcs => absurd hcs (hcontrol cs)⟩
  anchored := h.anchored

theorem run_slotFor (h : ∀ p ∈ q,p.Run fed) {cs : Encoded} (hcs : cs.seq ∈ fed)
    (hzero : cs.seq ≠ 0) (now : ℤ) :
    ∀ p ∈ (slotFor q cs now).1++[(slotFor q cs now).2.add cs],p.Run fed := by
  have hnew : ∀ p ∈ q++[(Pending.opened now).add cs],p.Run fed := by
    intro p hp
    rcases mem_concat.mp hp with hp | rfl
    · exact h p hp
    · exact Pending.run_add_opened now hcs
  unfold slotFor
  cases hlast : q.getLast? with
  | none => exact hnew
  | some tail =>
    dsimp only
    split_ifs with hopen
    · exact hnew
    · intro p hp
      rcases mem_concat.mp hp with hp | rfl
      · exact h p (mem_of_mem_dropLast hp)
      · exact (h tail (mem_of_getLast? hlast)).add hcs hzero
          (not_not.mp (not_or.mp hopen).2)

theorem head_slotFor (h : ∀ p ∈ q,p.Run fed) (cs : Encoded) (now : ℤ) :
    ((slotFor q cs now).1++[(slotFor q cs now).2.add cs]).head?.map Pending.minSeq =
      some (((q.head?.map Pending.minSeq)).getD cs.seq) := by
  have hnew : (q++[(Pending.opened now).add cs]).head?.map Pending.minSeq =
      some (((q.head?.map Pending.minSeq)).getD cs.seq) := by
    cases q with
    | nil | cons => rfl
  unfold slotFor
  cases hlast : q.getLast? with
  | none => exact hnew
  | some tail =>
    dsimp only
    split_ifs with hopen
    · exact hnew
    · rw [head_concat_dropLast hlast ((h tail (mem_of_getLast? hlast)).minSeq_add cs)]
      cases q with
      | nil => simp at hlast
      | cons p q => rfl

/-- Buffering a changeset that left the inbox last, or whose flush has just ended. -/
theorem Inv.enqueue {s : Sealer} (h : s.Inv) {cs : Encoded} (hcs : cs.seq ∈ s.fed ∧ cs.seq ≠ 0)
    (hinbox : inbox ⊆ s.inbox)
    (hfirst : s.contiguous = none → s.queue = [] → s.inbox.head? = some cs) (now : ℤ) :
    (({ s with inbox := inbox } : Sealer).enqueue cs now).Inv := by
  have hinv : ({ s with
      inbox := inbox
      queue := (slotFor s.queue cs now).1++[(slotFor s.queue cs now).2.add cs]
      control := .select } : Sealer).Inv := by
    refine ⟨run_slotFor h.runs hcs.1 hcs.2 now,fun c hc => h.inbox_fed c (hinbox hc),
      fun c hc => (nomatch hc),h.bucket_fed,h.fed_ne_zero,fun hnone => ?_,h.anchored⟩
    obtain ⟨hbucket,huploaded,hhead,-⟩ := h.unanchored hnone
    refine ⟨hbucket,huploaded,?_,fun c hc => (nomatch hc)⟩
    rw [← hhead,oldest,head_slotFor h.runs,Option.some_or,oldest]
    cases hq : s.queue with
    | nil => simp [hfirst hnone hq]
    | cons p q => simp
  unfold Sealer.enqueue
  dsimp only
  split_ifs
  · exact hinv.flushOrigin true (fun c hc => (nomatch hc)) fun c hc => nomatch hc
  · exact hinv

theorem Inv.flushDone {s : Sealer} (h : s.Inv) (hcontrol : s.control = .flushing resume) (now : ℤ) :
    (s.flushDone resume now).Inv := by
  cases resume with
  | loop | exit => exact h.of_control _ fun c hc => nomatch hc
  | enqueue cs =>
    have hinv : ({ s with failed := if s.queue = [] then false else s.failed } : Sealer).Inv :=
      ⟨h.runs,h.inbox_fed,h.resume_fed,h.bucket_fed,h.fed_ne_zero,h.unanchored,h.anchored⟩
    refine hinv.enqueue (h.resume_fed cs hcontrol) (Subset.refl _) (fun hnone hq => ?_) now
    exact absurd hq ((h.unanchored hnone).2.2.2 cs hcontrol)

/-- A successful upload: the first one starts the watermark, an abutting one moves it. -/
theorem Inv.recordUpload {s : Sealer} (h : s.Inv) {p : Pending} {rest : List Pending}
    (hq : s.queue = p::rest) :
    ({ s.recordUpload p.minSeq p.maxSeq with queue := rest,bucket := s.bucket++[p.records] }
      : Sealer).Inv := by
  have hp : p.Run s.fed := h.runs p (by simp [hq])
  have hnew : ∀ n,p.minSeq ≤ n → n ≤ p.maxSeq → ∃ e ∈ s.bucket++[p.records],∃ r ∈ e,r.seq = n := by
    intro n hlo hhi
    exact ⟨p.records,by simp,hp.covers n hlo hhi⟩
  have hold : ∀ n,s.Stored n → ∃ e ∈ s.bucket++[p.records],∃ r ∈ e,r.seq = n := by
    intro n ⟨e,he,hr⟩
    exact ⟨e,mem_append_left _ he,hr⟩
  refine ⟨fun q hmem => h.runs q (by simp [hq,hmem]),h.inbox_fed,h.resume_fed,?_,h.fed_ne_zero,?_,?_⟩
  · intro n ⟨e,he,r,hr,hseq⟩
    rcases mem_concat.mp he with he | rfl
    · exact h.bucket_fed n ⟨e,he,r,hr,hseq⟩
    · rw [← hseq]
      exact hp.fed_mem r hr
  · intro hnone
    dsimp only [Sealer.recordUpload] at hnone
    cases hc : s.contiguous with
    | none => simp [hc] at hnone
    | some cur =>
      rw [hc] at hnone
      dsimp only at hnone
      split_ifs at hnone
  · intro c hc
    dsimp only [Sealer.recordUpload] at hc ⊢
    cases hcur : s.contiguous with
    | none =>
      rw [hcur] at hc
      obtain ⟨-,-,hhead,-⟩ := h.unanchored hcur
      have hmax : p.maxSeq = c := Option.some.inj hc
      rw [oldest,hq] at hhead
      exact ⟨p.minSeq,hhead.symm,hmax ▸ hp.min_le_max,fun n hlo hhi => hnew n hlo (hmax ▸ hhi)⟩
    | some cur =>
      rw [hcur] at hc
      obtain ⟨f,hf,hle,hstored⟩ := h.anchored cur hcur
      dsimp only at hc
      split_ifs at hc with hnext
      · have hmax : p.maxSeq = c := Option.some.inj hc
        refine ⟨f,hf,le_trans hle (hmax ▸ hnext.2.le),fun n hlo hhi => ?_⟩
        by_cases hn : n ≤ cur
        · exact hold n (hstored n hlo hn)
        · refine hnew n (le_trans hnext.1 ?_) (hmax ▸ hhi)
          have hlt := lt_iff_toNat_lt.mp (not_le.mp hn)
          have h1 : (1 : UInt64).toNat = 1 := rfl
          rw [le_iff_toNat_le,UInt64.toNat_add]
          omega
      · have hcur' : cur = c := Option.some.inj hc
        exact ⟨f,hf,hcur' ▸ hle,fun n hlo hhi => hold n (hstored n hlo (hcur' ▸ hhi))⟩

theorem Inv.flushTurn {s : Sealer} (h : s.Inv) (hcontrol : s.control = .flushing resume)
    (ok : Bool) (now : ℤ) :
    (s.flushTurn resume ok now).Inv := by
  have hfailed : ({ s with failed := true } : Sealer).Inv :=
    ⟨h.runs,h.inbox_fed,h.resume_fed,h.bucket_fed,h.fed_ne_zero,h.unanchored,h.anchored⟩
  unfold Sealer.flushTurn
  cases hq : s.queue with
  | nil => exact h.flushDone hcontrol now
  | cons p rest =>
    dsimp only
    have hdone := hfailed.flushDone hcontrol now
    rw [hq] at hdone
    split_ifs
    · exact h.recordUpload hq
    · exact hdone
    · exact h.flushDone hcontrol now

theorem Inv.of_inbox {s : Sealer} (h : s.Inv) (hinbox : inbox ⊆ s.inbox)
    (hqueue : s.contiguous = none → s.queue ≠ []) : ({ s with inbox := inbox } : Sealer).Inv where
  runs := h.runs
  inbox_fed c hc := h.inbox_fed c (hinbox hc)
  resume_fed := h.resume_fed
  bucket_fed := h.bucket_fed
  fed_ne_zero := h.fed_ne_zero
  unanchored hnone := by
    obtain ⟨hbucket,huploaded,hhead,hresume⟩ := h.unanchored hnone
    refine ⟨hbucket,huploaded,?_,hresume⟩
    obtain ⟨p,q,hq⟩ := exists_cons_of_ne_nil (hqueue hnone)
    rw [← hhead,oldest,oldest,hq]
    rfl
  anchored := h.anchored

theorem Inv.receiveOne {s : Sealer} (h : s.Inv) {cs : Encoded} {rest : List Encoded}
    (hinbox : s.inbox = cs::rest) (now : ℤ) :
    (({ s with inbox := rest } : Sealer).receiveOne cs now).Inv := by
  have hcs := h.inbox_fed cs (by simp [hinbox])
  have hsub : rest ⊆ s.inbox := by
    rw [hinbox]
    exact subset_cons_self _ _
  have henqueue := h.enqueue hcs hsub (fun _ _ => by rw [hinbox]; rfl) now
  unfold Sealer.receiveOne
  split_ifs with huploaded
  · refine h.of_inbox hsub fun hnone _ => hcs.2 ?_
    rw [(h.unanchored hnone).2.1] at huploaded
    exact le_antisymm huploaded (UInt64.zero_le)
  · dsimp only
    cases hlast : s.queue.getLast? with
    | none => exact henqueue
    | some tail =>
      have hne : s.queue ≠ [] := by
        intro hnil
        simp [hnil] at hlast
      dsimp only
      split_ifs
      · refine (h.of_inbox hsub fun _ => hne).flushOrigin true (fun c hc => ?_) fun _ _ => hne
        injection hc with hc
        exact hc ▸ hcs
      · exact henqueue

theorem Inv.tickOne {s : Sealer} (h : s.Inv) (now : ℤ) : (s.tickOne now).Inv := by
  have hflush : ∀ includeOpen,(s.flushOrigin includeOpen .loop).Inv := fun b =>
    h.flushOrigin b (fun c hc => (nomatch hc)) fun c hc => (nomatch hc)
  unfold Sealer.tickOne
  cases s.queue.getLast? with
  | none => exact h
  | some tail =>
    dsimp only
    split_ifs
    · exact hflush true
    · exact hflush false
    · exact h

theorem Inv.onEncoded {s : Sealer} (h : s.Inv) {cs : Encoded} (hcs : cs.seq ≠ 0) :
    (s.step (.onEncoded cs)).Inv where
  runs p hp := (h.runs p hp).mono (subset_append_left _ _)
  inbox_fed c hc := by
    rcases mem_concat.mp hc with hc | rfl
    · exact ⟨mem_append_left _ (h.inbox_fed c hc).1,(h.inbox_fed c hc).2⟩
    · exact ⟨mem_append_right _ (mem_singleton.mpr rfl),hcs⟩
  resume_fed c hc := ⟨mem_append_left _ (h.resume_fed c hc).1,(h.resume_fed c hc).2⟩
  bucket_fed n hn := mem_append_left _ (h.bucket_fed n hn)
  fed_ne_zero n hn := by
    rcases mem_append.mp hn with hn | hn
    · exact h.fed_ne_zero n hn
    · rwa [mem_singleton.mp hn]
  unanchored hnone := by
    obtain ⟨hbucket,huploaded,hhead,hresume⟩ := h.unanchored hnone
    refine ⟨hbucket,huploaded,?_,hresume⟩
    change oldest s.queue (s.inbox++[cs]) = (s.fed++[cs.seq]).head?
    rw [head?_append,← hhead,oldest,oldest,head?_append,Option.map_or,Option.or_assoc]
    rfl
  anchored c hc := by
    obtain ⟨f,hf,hle,hstored⟩ := h.anchored c hc
    refine ⟨f,?_,hle,hstored⟩
    change (s.fed++[cs.seq]).head? = some f
    rw [head?_append,hf]
    rfl

end Sealer

def SealerEvent.Valid : SealerEvent → Prop
  | .onEncoded cs => cs.seq ≠ 0
  | _ => True

instance (e : SealerEvent) : Decidable e.Valid := by
  cases e <;> unfold SealerEvent.Valid <;> infer_instance

namespace Sealer

theorem Inv.step {s : Sealer} (h : s.Inv) {e : SealerEvent} (he : e.Valid) : (s.step e).Inv := by
  cases e with
  | onEncoded cs => exact h.onEncoded he
  | receive now =>
    change (s.receive now).Inv
    unfold Sealer.receive
    split
    · next hinbox => exact h.receiveOne hinbox now
    · exact h
  | put ok now =>
    unfold Sealer.step
    cases hcontrol : s.control with
    | select | stopped => exact h
    | flushing resume => exact h.flushTurn hcontrol ok now
  | tick now =>
    unfold Sealer.step
    split_ifs
    · exact h.tickOne now
    · exact h
  | stop =>
    unfold Sealer.step
    split_ifs
    · exact h.flushOrigin true (fun c hc => (nomatch hc)) fun c hc => (nomatch hc)
    · exact h

theorem inv_run (cfg : SealerConfig) {events : List SealerEvent} (h : ∀ e ∈ events,e.Valid) :
    ((new cfg).run events).Inv := by
  induction events using reverseRecOn with
  | nil => exact inv_new cfg
  | append_singleton events e ih =>
    rw [run,foldl_concat]
    exact (ih fun e' he' => h e' (by simp [he'])).step (h e (by simp))

/-- At no moment may the watermark vouch for a fed changeset that no object holds, one of `old` from
before or one of its own: neither to a reader of it, nor to the journal's collection, nor to the
trimming of the self-log. -/
structure Sound (old : List Seq) (s : Sealer) : Prop where
  watermark : ∀ n ∈ s.fed,n ≤ s.contiguousSealedSeq → n ∈ old ∨ s.Stored n
  collects : ∀ (c : Cache) (o : Origin),(∀ n ∈ s.fed,n < c.senderNextSeq.getD o) →
    gcSafeFor c (some s.contiguousSealedSeq) o = true → ∀ n ∈ s.fed,n ∈ old ∨ s.Stored n
  trims : ∀ segs,∀ seg ∈ segs,∀ n ∈ seg.seqs,n ∈ s.fed →
    (∀ kept ∈ retainSealed s.contiguousSealedSeq segs,n ∉ kept.seqs) → n ∈ old ∨ s.Stored n

/-- Nothing new below the first changeset was fed, unless nothing is uploaded yet. -/
def Anchored (old : List Seq) (s : Sealer) : Prop :=
  s.bucket = [] ∨ ∀ f ∈ s.fed.head?,∀ n ∈ s.fed,n ∈ old ∨ f ≤ n

instance (old : List Seq) (s : Sealer) : Decidable (s.Anchored old) :=
  have : DecidablePred fun f => ∀ n ∈ s.fed,n ∈ old ∨ f ≤ n := fun f =>
    decidableBAll (fun n => n ∈ old ∨ f ≤ n) s.fed
  have : Decidable (∀ f ∈ s.fed.head?,∀ n ∈ s.fed,n ∈ old ∨ f ≤ n) :=
    Option.decidableForallMem s.fed.head?
  inferInstanceAs (Decidable (_ ∨ _))

variable {old : List Seq}

theorem le_of_retainSealed {tip : Seq} {segs : List IndexedSegment} {seg : IndexedSegment}
    (hseg : seg ∈ segs) {n : Seq} (hn : n ∈ seg.seqs)
    (hdropped : ∀ kept ∈ retainSealed tip segs,n ∉ kept.seqs) : n ≤ tip := by
  induction segs with
  | nil => exact absurd hseg not_mem_nil
  | cons first segs ih =>
    cases segs with
    | nil => exact absurd hn (hdropped seg hseg)
    | cons second segs =>
      unfold retainSealed at hdropped
      split_ifs at hdropped with htip
      · exact absurd hn (hdropped seg hseg)
      · rcases mem_cons.mp hseg with rfl | hseg
        · exact le_trans (seg.le_maxSeq n hn) (not_lt.mp htip)
        · exact ih hseg hdropped

theorem le_of_gcSafeFor {c : Cache} {o : Origin} {contiguous n : Seq} (hzero : n ≠ 0)
    (hn : n < c.senderNextSeq.getD o) (h : gcSafeFor c (some contiguous) o = true) :
    n ≤ contiguous := by
  unfold gcSafeFor at h
  generalize c.senderNextSeq.getD o = next at h hn
  have hn' := lt_iff_toNat_lt.mp hn
  have hpos : 0 < n.toNat := Nat.pos_of_ne_zero fun h0 => hzero (UInt64.toNat_inj.mp h0)
  have h1 : (1 : UInt64).toNat = 1 := rfl
  have hone : 1 < next := by
    rw [lt_iff_toNat_lt]
    omega
  have hnext : 0 < next := by
    rw [lt_iff_toNat_lt]
    change 0 < next.toNat
    omega
  rw [if_neg (not_not.mpr (.inr hone))] at h
  dsimp only at h
  rw [if_pos hnext] at h
  split_ifs at h
  refine le_trans ?_ (of_decide_eq_true h)
  rw [le_iff_toNat_le,UInt64.toNat_sub_of_le _ _ hone.le]
  omega

theorem Inv.sound {s : Sealer} (h : s.Inv)
    (hmark : ∀ n ∈ s.fed,n ≤ s.contiguousSealedSeq → n ∈ old ∨ s.Stored n) : s.Sound old where
  watermark := hmark
  collects _ _ hnext hgc n hn := hmark n hn (le_of_gcSafeFor (h.fed_ne_zero n hn) (hnext n hn) hgc)
  trims _ _ hseg n hmem hn hdropped := hmark n hn (le_of_retainSealed hseg hmem hdropped)

theorem Inv.sound_of_anchored {s : Sealer} (h : s.Inv) (ha : s.Anchored old) : s.Sound old := by
  refine h.sound fun n hn hle => ?_
  rw [contiguousSealedSeq] at hle
  cases hc : s.contiguous with
  | none =>
    rw [hc] at hle
    exact absurd (le_antisymm hle UInt64.zero_le) (h.fed_ne_zero n hn)
  | some c =>
    rw [hc] at hle
    obtain ⟨f,hf,hfc,hstored⟩ := h.anchored c hc
    obtain ⟨e,he,-⟩ := hstored f (le_refl f) hfc
    rcases ha with hnil | ha
    · rw [hnil] at he
      exact absurd he not_mem_nil
    · exact (ha f hf n hn).imp_right fun hfn => hstored n hfn hle

section Frame

variable (s : Sealer) (cs : Encoded) (now : ℤ)

variable (resume : Resume)

@[simp] theorem fed_enqueue : (s.enqueue cs now).fed = s.fed := by
  unfold enqueue
  dsimp only
  split_ifs <;> rfl

@[simp] theorem bucket_enqueue : (s.enqueue cs now).bucket = s.bucket := by
  unfold enqueue
  dsimp only
  split_ifs <;> rfl

@[simp] theorem fed_flushDone : (s.flushDone resume now).fed = s.fed := by
  cases resume <;> simp [flushDone]

@[simp] theorem bucket_flushDone : (s.flushDone resume now).bucket = s.bucket := by
  cases resume <;> simp [flushDone]

theorem frame_flushTurn (ok : Bool) : (s.flushTurn resume ok now).fed = s.fed ∧
      ((s.flushTurn resume ok now).bucket = s.bucket ∨
        ∃ p ∈ s.queue.head?,(s.flushTurn resume ok now).bucket = s.bucket++[p.records]) := by
  unfold flushTurn
  cases s.queue with
  | nil => simp
  | cons p rest =>
    dsimp only
    split_ifs
    · exact ⟨rfl,.inr ⟨p,rfl,rfl⟩⟩
    · simp
    · simp

theorem frame_receiveOne : (s.receiveOne cs now).fed = s.fed ∧
    (s.receiveOne cs now).bucket = s.bucket := by
  unfold receiveOne
  split_ifs
  · exact ⟨rfl,rfl⟩
  · split
    · simp
    · split_ifs
      · exact ⟨rfl,rfl⟩
      · simp

theorem frame_tickOne : (s.tickOne now).fed = s.fed ∧ (s.tickOne now).bucket = s.bucket := by
  unfold tickOne
  split
  · exact ⟨rfl,rfl⟩
  · split_ifs <;> exact ⟨rfl,rfl⟩

end Frame

theorem frame_step (s : Sealer) (e : SealerEvent) :
    (∃ n,(s.step e).fed = s.fed++[n] ∧ (s.step e).bucket = s.bucket) ∨
      ((s.step e).fed = s.fed ∧ ((s.step e).bucket = s.bucket ∨
        ∃ p ∈ s.queue.head?,(s.step e).bucket = s.bucket++[p.records])) := by
  cases e with
  | onEncoded cs => exact .inl ⟨cs.seq,rfl,rfl⟩
  | receive now =>
    refine .inr ?_
    change (s.receive now).fed = _ ∧ ((s.receive now).bucket = _ ∨ _)
    unfold receive
    split
    · obtain ⟨hfed,hbucket⟩ := frame_receiveOne _ _ now
      exact ⟨hfed,.inl hbucket⟩
    · exact ⟨rfl,.inl rfl⟩
  | put ok now =>
    refine .inr ?_
    unfold step
    cases s.control with
    | select | stopped => exact ⟨rfl,.inl rfl⟩
    | flushing resume => exact s.frame_flushTurn now resume ok
  | tick now =>
    refine .inr ?_
    unfold step
    split_ifs
    · exact ⟨(s.frame_tickOne now).1,.inl (s.frame_tickOne now).2⟩
    · exact ⟨rfl,.inl rfl⟩
  | stop =>
    refine .inr ?_
    unfold step
    split_ifs <;> exact ⟨rfl,.inl rfl⟩

/-- A step that keeps the watermark sound feeds nothing below an uploaded start, and uploads no start
above something fed. -/
theorem Anchored.step {s : Sealer} (ha : s.Anchored old) (h : s.Inv) {e : SealerEvent}
    (hinv : (s.step e).Inv) (hsound : (s.step e).Sound old) : (s.step e).Anchored old := by
  by_cases hbucket : (s.step e).bucket = []
  · exact .inl hbucket
  refine .inr fun f hf n hn => or_iff_not_imp_left.mpr fun hnew => le_of_not_gt fun hlt => ?_
  obtain ⟨c,hc⟩ : ∃ c,(s.step e).contiguous = some c :=
    Option.ne_none_iff_exists'.mp fun hnone => hbucket (hinv.unanchored hnone).1
  obtain ⟨f',hf',hfc,-⟩ := hinv.anchored c hc
  have hff : f' = f := Option.mem_unique hf' hf
  have hstored : (s.step e).Stored n := by
    refine (hsound.watermark n hn ?_).resolve_left hnew
    rw [contiguousSealedSeq,hc]
    exact le_trans hlt.le (hff ▸ hfc)
  rcases s.frame_step e with ⟨m,hfed,hsame⟩ | ⟨hfed,hgrown⟩
  · -- The first changeset is an older one, and the bucket holds none but older ones.
    have hold : n ∈ s.fed := by
      refine h.bucket_fed n ?_
      rwa [Stored,hsame] at hstored
    have hhead : f ∈ s.fed.head? := by
      rw [hfed,head?_append] at hf
      cases hs : s.fed.head? with
      | none => simp [head?_eq_none_iff.mp hs] at hold
      | some f₀ =>
        rw [hs] at hf
        exact hf
    rcases ha with hnil | ha
    · exact hbucket (hsame.trans hnil)
    · exact absurd ((ha f hhead n hold).resolve_left hnew) (not_le.mpr hlt)
  · rw [hfed] at hf hn
    rcases ha with hnil | ha
    · rcases hgrown with hsame | ⟨p,hp,hput⟩
      · exact hbucket (hsame.trans hnil)
      · obtain ⟨rest,hq⟩ := head?_eq_some_iff.mp hp
        have hnone : s.contiguous = none := by
          refine Option.eq_none_iff_forall_ne_some.mpr fun c₀ hc₀ => ?_
          obtain ⟨f₀,-,hfc₀,hst⟩ := h.anchored c₀ hc₀
          obtain ⟨e₀,he₀,-⟩ := hst f₀ (le_refl _) hfc₀
          rw [hnil] at he₀
          exact not_mem_nil he₀
        have hmin : p.minSeq = f := by
          have hhead := (h.unanchored hnone).2.2.1
          rw [oldest,hq] at hhead
          exact Option.some.inj (hhead.trans hf)
        obtain ⟨e₀,he₀,r,hr,hseq⟩ := hstored
        rw [hput,hnil,nil_append] at he₀
        rw [mem_singleton.mp he₀] at hr
        have hle := (h.runs p (by simp [hq])).min_le r hr
        rw [hmin,hseq] at hle
        exact absurd hle (not_le.mpr hlt)
    · exact absurd ((ha f hf n hn).resolve_left hnew) (not_le.mpr hlt)

theorem sound_iff_anchored (cfg : SealerConfig) (old : List Seq) {events : List SealerEvent}
    (hvalid : ∀ e ∈ events,e.Valid) :
    (∀ es,es <+: events → ((new cfg).run es).Sound old) ↔
      ∀ es,es <+: events → ((new cfg).run es).Anchored old := by
  have hinv : ∀ es,es <+: events → ((new cfg).run es).Inv := fun es hes =>
    inv_run cfg fun e he => hvalid e (hes.subset he)
  constructor
  · intro hsound es
    induction es using reverseRecOn with
    | nil => exact fun _ => .inl rfl
    | append_singleton es e ih =>
      intro hes
      have hpre : es <+: events := (prefix_append es [e]).trans hes
      have hs := hsound _ hes
      have hi := hinv _ hes
      rw [run,foldl_concat] at hs hi ⊢
      exact (ih hpre).step (hinv es hpre) hi hs
  · intro hanchored es hes
    exact (hinv es hes).sound_of_anchored (hanchored es hes)

namespace SealerSample

def cfg : SealerConfig := ⟨1000,100⟩

/-- Changesets 1 to 3 are fed, the second one last; the first upload fails once. -/
def outOfOrder : List SealerEvent :=
  [.onEncoded ⟨1,[]⟩,.receive 0,.onEncoded ⟨3,[]⟩,.receive 1,.put false 2,.onEncoded ⟨2,[]⟩,.tick 3,
    .put true 4,.put true 5,.receive 6,.put true 7,.put true 8,.tick 200,.put true 201]

theorem sound_of_outOfOrder : (∀ es ∈ outOfOrder.inits,((new cfg).run es).Anchored []) ∧
      ((new cfg).run outOfOrder).contiguousSealedSeq = 2 ∧
      ∀ es,es <+: outOfOrder → ((new cfg).run es).Sound [] := by
  have hanchored : ∀ es ∈ outOfOrder.inits,((new cfg).run es).Anchored [] := by decide
  have hvalid : ∀ e ∈ outOfOrder,e.Valid := by decide
  refine ⟨hanchored,by decide,(sound_iff_anchored cfg [] hvalid).mpr fun es hes => ?_⟩
  exact hanchored es ((mem_inits es outOfOrder).mpr hes)

/-- A live changeset reaches the sealer before the replay of the self-log does. -/
def liveFirst : List SealerEvent :=
  [.onEncoded ⟨10,[]⟩,.receive 0,.onEncoded ⟨1,[]⟩,.receive 1,.put true 2,.put true 3,
    .onEncoded ⟨2,[]⟩,.receive 4]

theorem live_changeset_seals_unsaved :
    ((new cfg).run liveFirst).contiguousSealedSeq = 10 ∧ ((new cfg).run liveFirst).fed = [10,1,2] ∧
      ((new cfg).run liveFirst).bucket = [[⟨10,[]⟩]] ∧ ((new cfg).run liveFirst).inbox = [] ∧
      ((new cfg).run liveFirst).queue.map Pending.records = [[⟨1,[]⟩]] ∧
      ¬((new cfg).run liveFirst).Sound [] := by
  refine ⟨by decide,by decide,by decide,by decide,by decide,fun hsound => ?_⟩
  have hstored := (hsound.watermark 2 (by decide) (by decide)).resolve_left not_mem_nil
  obtain ⟨e,he,r,hr,hseq⟩ := hstored
  have hbucket : ((new cfg).run liveFirst).bucket = [[⟨10,[]⟩]] := by decide
  rw [hbucket,mem_singleton] at he
  rw [he,mem_singleton] at hr
  rw [hr] at hseq
  exact absurd hseq (by decide)

end SealerSample

end Sealer

end Syzy
