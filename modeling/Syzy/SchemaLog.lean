import Syzy.FinMap
import Syzy.Identity
import Syzy.Machine

/-! The schema log of a cluster: a list in one process, and one object for each event in a store
whose readers fetch them one after another. -/

namespace Syzy.SchemaLog

open Machine List

structure Event where
  schemaSeq : UInt64
  parentSeq : UInt64
  catalogOp : Bytes
  rawSQL : Bytes

inductive LogError where
  | headMoved
  | truncatedBody
  | wrongSeq (seq found : UInt64)
  | backend

def eventHeaderSize : ℕ := 8+8+4+4
def maxFrameSize : ℕ := 64*2^20
def eventEncodedSize (e : Event) : ℕ := eventHeaderSize+e.catalogOp.length+e.rawSQL.length

abbrev Local := List Event

namespace Local

def head (l : Local) : UInt64 := (l.getLast?.map Event.schemaSeq).getD 0

def append (l : Local) (parentSeq : UInt64) (op raw : Bytes) : Local×Except LogError UInt64 :=
  if parentSeq ≠ l.head then (l,.error .headMoved)
  else (l++[⟨l.head+1,parentSeq,op,raw⟩],.ok (l.head+1))

def read (l : Local) (fromSeq : UInt64) (limit : ℤ) : List Event :=
  (l.filter fun e => fromSeq < e.schemaSeq).take limit.toNat

end Local

abbrev Bucket := FinMap UInt64 Event

/-- One conditional request: the object of the next seq is created if it is absent. The request may
fail with an error of the store, and may have landed even so. -/
def Bucket.append (b : Bucket) (fault : Option (Bool×LogError)) (parentSeq : UInt64) (op raw : Bytes) :
    Bucket×Except LogError UInt64 :=
  let next := parentSeq+1
  let put := if next ∈ b then b else b.insert next ⟨next,parentSeq,op,raw⟩
  match fault with
  | some (landed,e) => (if landed then put else b,.error e)
  | none => (put,if next ∈ b then .error .headMoved else .ok next)

/-- No more than a frame of the object is read, so the decoder misses the end of a longer one. -/
def Bucket.getEvent (b : Bucket) (seq : UInt64) : Except LogError (Option Event) :=
  match b.lookup seq with
  | some e => if maxFrameSize < eventEncodedSize e then .error .truncatedBody else .ok (some e)
  | none => .ok none

structure Reader where
  fromSeq : UInt64
  limit : ℤ
  seq : UInt64
  out : List Event
  attempt : ℕ

/-- One turn of the read loop with one request, which may fail: the read goes on, or it returns. A
request is tried again as long as the budget lasts. -/
def Reader.turn (attempts : ℕ) (b : Bucket) (fault : Option LogError) (r : Reader) :
    Reader⊕Except LogError (List Event) :=
  -- The seq after the last one is zero.
  if r.seq = 0 ∨ r.limit ≤ r.out.length then .inr (.ok r.out)
  else match fault.elim (b.getEvent r.seq) .error with
    | .error e => if attempts ≤ r.attempt then .inr (.error e) else .inl {r with attempt := r.attempt+1}
    | .ok none => .inr (.ok r.out)
    | .ok (some ev) =>
      if ev.schemaSeq ≠ r.seq then .inr (.error (.wrongSeq r.seq ev.schemaSeq))
      else .inl {r with seq := r.seq+1,out := r.out++[ev],attempt := 1}

inductive Act where
  | append (fault : Option (Bool×LogError)) (parentSeq : UInt64) (op raw : Bytes)
  | read (fromSeq : UInt64) (limit : ℤ)
  | turn (fault : Option LogError) (i : ℕ)

/-- The store, and the reads in flight at all nodes of the cluster. -/
structure S3 where
  bucket : Bucket
  readers : List Reader

def S3.step (attempts : ℕ) (s : S3) : Act → S3
  | .append fault p op raw => {s with bucket := (s.bucket.append fault p op raw).1}
  | .read fromSeq limit => {s with readers := s.readers++[⟨fromSeq,limit,fromSeq+1,[],1⟩]}
  | .turn fault i => match s.readers[i]?.map (Reader.turn attempts s.bucket fault) with
    | none => s
    | some (.inl r) => {s with readers := s.readers.set i r}
    | some (.inr _) => {s with readers := s.readers.eraseIdx i}

/-- A request that failed counts as an append where it landed. -/
def Local.step (l : Local) : Act → Local
  | .append fault p op raw => if fault.all Prod.fst then (l.append p op raw).1 else l
  | _ => l

/-- An appender names a position that it has read, and its event fits a frame. -/
def Follows (s : S3) : Act → Prop
  | .append _ p op raw => (p = 0 ∨ p ∈ s.bucket) ∧ p.toNat+1 < 2^64 ∧
      eventHeaderSize+op.length+raw.length ≤ maxFrameSize
  | _ => True

/-- The events are numbered from one on, each after the one before, and fit a frame. -/
def Chained (l : Local) : Prop := ∀ i e,l[i]? = some e →
  e.schemaSeq.toNat = i+1 ∧ e.parentSeq.toNat = i ∧ eventEncodedSize e ≤ maxFrameSize

/-- A read in flight has the events up to its position. -/
structure Reading (l : Local) (r : Reader) : Prop where
  out : r.out <+: l.drop r.fromSeq.toNat
  bound : r.out.length ≤ r.limit.toNat
  seq : r.seq.toNat = (r.fromSeq.toNat+r.out.length+1)%2^64

/-- A turn adds the next event, or returns what the log in one process would. A failed request is
tried again, and its error returned when the budget is spent. -/
def Reader.Turned (attempts : ℕ) (l : Local) (fault : Option LogError) (r : Reader) :
    Reader⊕Except LogError (List Event) → Prop
  | .inl r' => Reading l r' ∧ (r'.out.length = r.out.length+1 ∨
      fault.isSome ∧ r.attempt < attempts ∧ r' = {r with attempt := r.attempt+1})
  | .inr a => a = .ok (l.read r.fromSeq r.limit) ∨ ∃ e ∈ fault,attempts ≤ r.attempt ∧ a = .error e

structure Holds (s : S3) (l : Local) : Prop where
  chained : Chained l
  stored : ∀ {seq : UInt64} {i : ℕ},seq.toNat = i+1 → s.bucket.lookup seq = l[i]?
  reading : ∀ r ∈ s.readers,Reading l r

section

variable {attempts : ℕ} {s : S3} {l : Local}

theorem getElem?_concat_eq (e : Event) (i : ℕ) :
    (l++[e])[i]? = if i = l.length then some e else l[i]? := by
  grind

theorem Chained.head_eq (h : Chained l) : l.head.toNat = l.length := by
  rcases eq_nil_or_concat l with rfl | ⟨l',e,rfl⟩
  · rfl
  · simpa [Local.head] using (h l'.length e (by simp)).1

theorem Chained.filter_eq (h : Chained l) (fromSeq : UInt64) :
    (l.filter fun e => fromSeq < e.schemaSeq) = l.drop fromSeq.toNat := by
  induction l using reverseRecOn with
  | nil => simp
  | append_singleton l e ih =>
    have he := (h l.length e (by simp)).1
    rw [filter_append,drop_append,ih fun i e' hi => h i e' (by grind)]
    congr 1
    simp only [filter_cons,filter_nil,UInt64.lt_iff_toNat_lt,he,decide_eq_true_eq]
    split_ifs
    · rw [Nat.sub_eq_zero_of_le (by omega),drop_zero]
    · exact (drop_of_length_le (by simp; omega)).symm

theorem Holds.turn (h : Holds s l) (attempts : ℕ) {r : Reader} (hr : Reading l r)
    (fault : Option LogError) :
    r.Turned attempts l fault (r.turn attempts s.bucket fault) := by
  obtain ⟨hpre,hbound,hseq⟩ := hr
  have hout := prefix_iff_eq_take.mp hpre
  have hroom : l.length < 2^64 := h.chained.head_eq ▸ l.head.toNat_lt
  have hfrom := r.fromSeq.toNat_lt
  have hlen := hpre.length_le
  rw [length_drop] at hlen
  -- At the limit or at the end of the log nothing is left to read.
  have hall (hend : r.limit.toNat ≤ r.out.length ∨ l.length ≤ r.fromSeq.toNat+r.out.length) :
      r.out = l.read r.fromSeq r.limit := by
    rw [Local.read,h.chained.filter_eq,hout,take_eq_take_iff,length_drop]
    omega
  unfold Reader.turn
  by_cases hstop : r.seq = 0 ∨ r.limit ≤ r.out.length
  · rw [if_pos hstop]
    rcases hstop with h0 | hlim
    · rw [h0,UInt64.toNat_zero] at hseq
      exact .inl (congrArg Except.ok (hall (by omega)))
    · exact .inl (congrArg Except.ok (hall (by omega)))
  rw [if_neg hstop]
  cases fault with
  | some e =>
    simp only [Option.elim_some]
    split_ifs with hspent
    · exact .inr ⟨e,rfl,hspent,rfl⟩
    · exact ⟨⟨hpre,hbound,hseq⟩,.inr ⟨rfl,not_le.mp hspent,rfl⟩⟩
  | none =>
    have hpos : r.seq.toNat ≠ 0 := fun hz => hstop (.inl (UInt64.toNat_inj.mp hz))
    have hnext : r.seq.toNat = r.fromSeq.toNat+r.out.length+1 := by omega
    rw [Option.elim_none,Bucket.getEvent,h.stored hnext]
    cases hev : l[r.fromSeq.toNat+r.out.length]? with
    | none => exact .inl (congrArg Except.ok (hall (.inr (getElem?_eq_none_iff.mp hev))))
    | some ev =>
      have hsame : ev.schemaSeq = r.seq :=
        UInt64.toNat_inj.mp ((h.chained _ ev hev).1.trans hnext.symm)
      simp only [(h.chained _ ev hev).2.2.not_gt,hsame,ne_eq,not_true_eq_false,if_false]
      refine ⟨⟨?_,by simp; omega,by simp [UInt64.toNat_add,hnext]; omega⟩,.inl (by simp)⟩
      rw [prefix_iff_eq_take,length_append,length_singleton,take_add_one,← hout,getElem?_drop,hev]
      rfl

theorem Holds.append (h : Holds s l) {p : UInt64} {op raw : Bytes}
    (hf : Follows s (.append none p op raw)) :
    (s.bucket.append none p op raw).2 = (l.append p op raw).2 ∧
      Holds {s with bucket := (s.bucket.append none p op raw).1} (l.append p op raw).1 := by
  obtain ⟨hknown,hwrap,hsize⟩ := hf
  have hnext : (p+1).toNat = p.toNat+1 := (UInt64.toNat_add p 1).trans (Nat.mod_eq_of_lt hwrap)
  have hle : p.toNat ≤ l.length := by
    rcases hknown with rfl | hmem
    · simp
    · by_contra hlt
      rw [← Finmap.lookup_isSome,h.stored (i := p.toNat-1) (by omega)] at hmem
      simp at hmem
      omega
  have hhead : p = l.head ↔ p.toNat = l.length := by
    rw [← UInt64.toNat_inj,h.chained.head_eq]
  have hmem : p+1 ∈ s.bucket ↔ p ≠ l.head := by
    simp [hhead,← Finmap.lookup_isSome,h.stored hnext]
    omega
  by_cases hlast : p = l.head
  · simp only [Bucket.append,Local.append,hmem,← hlast,ne_eq,not_true_eq_false,if_false,true_and]
    rw [hhead] at hlast
    refine ⟨fun i e hi => ?_,fun {seq i} hi => ?_,fun r hr => ?_⟩
    · rw [getElem?_concat_eq] at hi
      split_ifs at hi with hil
      · cases hi
        exact ⟨hnext.trans (by omega),hlast.trans hil.symm,hsize⟩
      · exact h.chained i e hi
    · have hiff : seq = p+1 ↔ i = l.length := by
        rw [← UInt64.toNat_inj]
        omega
      simp only [FinMap.lookup_insert_eq,getElem?_concat_eq,hiff,h.stored hi]
    · obtain ⟨hout,hbound,hseq⟩ := h.reading r hr
      refine ⟨hout.trans ?_,hbound,hseq⟩
      rw [drop_append]
      exact prefix_append ..
  · simpa only [Bucket.append,Local.append,hmem,if_pos hlast,true_and] using h

theorem Holds.step (h : Holds s l) {a : Act} (hf : Follows s a) :
    Holds (s.step attempts a) (l.step a) := by
  cases a with
  | append fault p op raw =>
    have hput := (h.append hf).2
    rcases fault with _ | ⟨landed | landed,e⟩
    · exact hput
    · exact h
    · exact hput
  | read fromSeq limit =>
    refine {h with reading := fun r hr => ?_}
    rcases mem_concat.mp hr with hr | rfl
    · exact h.reading r hr
    · exact ⟨ nil_prefix,by simp,by simp [UInt64.toNat_add]⟩
  | turn fault i =>
    unfold S3.step
    dsimp only
    split
    · exact h
    · next r' hi =>
      obtain ⟨r,hr,ht⟩ := Option.map_eq_some_iff.mp hi
      have hturn := h.turn attempts (h.reading r (mem_of_getElem? hr)) fault
      rw [ht] at hturn
      refine {h with reading := fun q hq => ?_}
      rcases mem_or_eq_of_mem_set hq with hq | rfl
      · exact h.reading q hq
      · exact hturn.1
    · exact {h with reading := fun q hq => h.reading q (mem_of_mem_eraseIdx hq)}

theorem Holds.run {acts : List Act} (hs : Holds s l)
    (h : Permitted (S3.step attempts) Follows s acts) :
    Holds (acts.foldl (S3.step attempts) s) (acts.foldl Local.step l) := by
  induction acts generalizing s l with
  | nil => exact hs
  | cons a acts ih => exact ih (hs.step h.1) h.2

end

/-- However the appends and the requests of the reads interleave and fail, the object store answers
as one list in one process does at that moment, but for the errors of the failed requests. -/
theorem object_log_is_local_log (attempts : ℕ) (acts : List Act)
    (h : Permitted (S3.step attempts) Follows ⟨∅,[]⟩ acts) :
    let s := acts.foldl (S3.step attempts) ⟨∅,[]⟩
    let l := acts.foldl Local.step []
    Chained l ∧
    (∀ p op raw,Follows s (.append none p op raw) →
      (s.bucket.append none p op raw).2 = (l.append p op raw).2) ∧
    ∀ r ∈ s.readers,∀ fault,r.Turned attempts l fault (r.turn attempts s.bucket fault) := by
  have hnew : Holds ⟨∅,[]⟩ [] := ⟨by simp [Chained],by simp,by simp⟩
  have hrun := hnew.run h
  exact ⟨hrun.chained,fun p op raw hf => (hrun.append hf).1,
    fun r hr => hrun.turn attempts (hrun.reading r hr)⟩

/-- A node whose append landed without an answer tries again. -/
theorem object_log_of_lost_answer :
    ((S3.step 6 ⟨∅,[]⟩ (.append (some (true,.backend)) 0 [1] [])).bucket.append none 0 [1] []).2 =
      (Local.append (Local.step [] (.append none 0 [1] [])) 0 [1] []).2 :=
  (object_log_is_local_log 6 [.append (some (true,.backend)) 0 [1] []]
    ⟨⟨.inl rfl,by decide⟩,trivial⟩).2.1 0 [1] [] ⟨.inl rfl,by decide⟩

end Syzy.SchemaLog
