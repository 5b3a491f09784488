import Syzy.PgFold

/-!
The self-log of a Postgres node. A fold appends its changeset, a checkpoint saves the clocks and retires
entries, and recovery replays what is left over the saved clocks. Replay writes whole rows only.
-/

namespace Syzy.Pg

open List RowClock

variable {π : Type} {κ : π → Type} [∀ k,Fintype (κ k)]

/-- The accumulated rows of a transaction, in the order of their first change. -/
structure PgTxn (π : Type) (κ : π → Type) where
  order : List π
  rows : (k : π) → Option (RowAccum (κ k))
  order_rows : ∀ k,k ∈ order ↔ (rows k).isSome = true

structure SelfEntry (π : Type) (κ : π → Type) where
  seq : ℕ
  stamp : Stamp
  records : (k : π) → List (PgRecord (κ k))

/-- A node that folds: live clocks and next seq, the self-log, and what the last checkpoint saved. -/
structure FoldNode (π : Type) (κ : π → Type) where
  clocks : (k : π) → RowClock (κ k)
  nextSeq : ℕ
  last : Stamp
  log : List (SelfEntry π κ)
  savedClocks : (k : π) → RowClock (κ k)
  savedSeq : ℕ

def foldAt (sh : (k : π) → PgShape (κ k)) (stamp : Stamp) (clocks : (k : π) → RowClock (κ k))
    (t : PgTxn π κ) (k : π) : Option (List (PgRecord (κ k)) × (RowClock (κ k) → RowClock (κ k))) :=
  (t.rows k).elim (some ([],id)) (foldRow (sh k) stamp (clocks k))

inductive FoldAction (π : Type) (κ : π → Type)
  | fold (stamp : Stamp) (t : PgTxn π κ)
  | checkpoint (retired : ℕ)

/-- The record leaves columns of its row to other writers. -/
def PgRecord.partly {κ : Type} [Fintype κ] (sh : PgShape κ) : PgRecord κ → Bool
  | .update _ p => sh.cellGroup && !PgPatch.covers p
  | _ => false

namespace FoldNode

variable (sh : (k : π) → PgShape (κ k))

variable (n : FoldNode π κ)

omit [∀ k,Fintype (κ k)] in
def init : FoldNode π κ := ⟨fun _ => zero,1,Stamp.zero,[],fun _ => zero,1⟩

/-- A fold that fails, or that leaves no record, changes nothing. -/
def foldCommit (stamp : Stamp) (t : PgTxn π κ) : FoldNode π κ :=
  if t.order.any fun k => (foldAt sh stamp n.clocks t k).isNone then n
  else
    let records := fun k => (foldAt sh stamp n.clocks t k).elim [] Prod.fst
    if t.order.all fun k => (records k).isEmpty then n
    else { n with
      clocks := fun k => (foldAt sh stamp n.clocks t k).elim (n.clocks k) fun x => x.2 (n.clocks k)
      nextSeq := n.nextSeq+1
      last := stamp
      log := n.log++[⟨n.nextSeq,stamp,records⟩] }

/-- The entries that the retention bound has passed are unlinked. -/
def checkpoint (retired : ℕ) : FoldNode π κ :=
  { n with log := n.log.drop retired,savedClocks := n.clocks,savedSeq := n.nextSeq }

def run : FoldAction π κ → FoldNode π κ
  | .fold stamp t => n.foldCommit sh stamp t
  | .checkpoint retired => n.checkpoint retired

def Admits : FoldAction π κ → Prop
  | .fold stamp _ => n.last < stamp
  | .checkpoint _ => True

end FoldNode

def replayRecord {κ : Type} (stamp : Stamp) (rs : RowClock κ) (r : PgRecord κ) : RowClock κ :=
  if rs.dominatedBy r.cl stamp then rs.putRowState r.cl stamp else rs

def replayEntry (x : ((k : π) → RowClock (κ k)) × ℕ) (e : SelfEntry π κ) :
    ((k : π) → RowClock (κ k)) × ℕ :=
  (fun k => (e.records k).foldl (replayRecord e.stamp) (x.1 k),max x.2 (e.seq+1))

def FoldNode.recoverSelf (n : FoldNode π κ) : ((k : π) → RowClock (κ k)) × ℕ :=
  n.log.foldl replayEntry (n.savedClocks,n.savedSeq)

/-- What the log still holds was written to whole rows; where the checkpoint holds column stamps, the
entries behind it begin with another generation. -/
structure FoldNode.WholeRows (sh : (k : π) → PgShape (κ k)) (n : FoldNode π κ) : Prop where
  whole : ∀ e ∈ n.log,∀ k,∀ r ∈ e.records k,r.partly (sh k) = false
  saved : ∀ e ∈ n.log,n.savedSeq ≤ e.seq → ∀ k,∀ r ∈ e.records k,r.cl = (n.savedClocks k).cl →
    (n.savedClocks k).cells = fun _ => none

section Row

variable {κ : Type} {rs : RowClock κ} {stamp s : Stamp} {cl c : ℕ}

theorem replayRecord_eq (r : PgRecord κ) : replayRecord stamp rs r = rs.putRowState r.cl stamp := by
  unfold replayRecord putRowState
  split_ifs <;> rfl

theorem replayRecord_beyond {r : PgRecord κ} (h : rs.dominatedBy r.cl stamp = false) :
    replayRecord stamp rs r = rs := if_neg (by simp [h])

namespace RowClock

theorem putRowState_eq (h : cl = rs.cl → rs.cells = fun _ => none) :
    rs.putRowState cl stamp = rs.putCleared cl stamp := by
  by_cases hc : cl = rs.cl
  · exact putRowState_eq_putCleared (h hc)
  · cases hd : rs.dominatedBy cl stamp with
    | false => simp [putRowState,putCleared,hd]
    | true =>
      have hlt : rs.cl < cl := by simpa [dominatedBy,hc] using hd
      rw [putRowState_of_lt hlt,putCleared_of_dominated hd]

theorem beyond_putCleared (h : rs.dominatedBy c s = false) :
    (rs.putCleared cl stamp).dominatedBy c s = false := by
  unfold putCleared
  split_ifs with hd
  · rw [dominatedBy_false_iff] at h ⊢
    obtain hlt | ⟨heq,hlt⟩ := dominatedBy_iff.mp hd
    · exact .inl (by show c < cl; omega)
    · obtain h | ⟨hc,hs⟩ := h
      · exact .inl (by show c < cl; omega)
      · exact .inr ⟨by show c = cl; omega,hs.trans hlt.le⟩
  · exact h

theorem putCleared_beyond (h : rs.dominatedBy cl stamp = true) :
    (rs.putCleared cl stamp).dominatedBy cl stamp = false := by
  rw [putCleared_of_dominated h,dominatedBy_false_iff]
  exact .inr ⟨rfl,le_rfl⟩

end RowClock

variable [Fintype κ] {sh : PgShape κ} {a : RowAccum κ} {recs : List (PgRecord κ)}
  {f : RowClock κ → RowClock κ}

inductive RowWrite (sh : PgShape κ) (stamp : Stamp) (rs : RowClock κ) :
    List (PgRecord κ) → (RowClock κ → RowClock κ) → Prop
  | nothing : RowWrite sh stamp rs [] id
  | whole (r : PgRecord κ) (hwhole : r.partly sh = false) (hle : rs.cl ≤ r.cl) :
    RowWrite sh stamp rs [r] fun k => k.putCleared r.cl stamp
  | recreated (i : PgPatch κ) :
    RowWrite sh stamp rs [.delete rs.tombCL,.insert (rs.tombCL+1) i] fun k => k.putCleared (rs.tombCL+1) stamp
  | partly (diff : PgPatch κ) (hpart : (PgRecord.update rs.nextLiveCL diff).partly sh = true) :
    RowWrite sh stamp rs [.update rs.nextLiveCL diff] (stageUpdate stamp rs diff)

theorem foldRow_write (h : foldRow sh stamp rs a = some (recs,f)) : RowWrite sh stamp rs recs f := by
  have hnext := rs.nextLiveCL_ge
  have htomb := rs.tombCL_gt.le
  obtain ⟨first,last,image,old⟩ := a
  by_cases hl : last = .del
  · subst hl
    cases first with
    | ins =>
      cases h
      exact .nothing
    | upd | del =>
      cases h
      exact .whole (.delete rs.tombCL) rfl htomb
  · cases first with
    | ins =>
      have h' : foldRow sh stamp rs ⟨.ins,.ins,image,old⟩ = some (recs,f) := by
        cases last <;> first | exact absurd rfl hl | exact h
      cases h'
      exact .whole (.insert rs.nextLiveCL _) rfl hnext
    | del =>
      have h' : foldRow sh stamp rs ⟨.del,.ins,image,old⟩ = some (recs,f) := by
        cases last <;> first | exact absurd rfl hl | exact h
      cases h'
      exact .recreated _
    | upd =>
      have h' : foldRow sh stamp rs ⟨.upd,.upd,image,old⟩ = some (recs,f) := by
        cases last <;> first | exact absurd rfl hl | exact h
      simp only [foldRow] at h'
      split_ifs at h' with hcell
      · obtain ⟨diff,-,hdiff⟩ := Option.map_eq_some_iff.mp h'
        split_ifs at hdiff with hempty
        · cases hdiff
          exact .nothing
        · cases hdiff
          cases hcov : PgPatch.covers diff with
          | true =>
            have hstage : stageUpdate stamp rs diff = fun k => k.putCleared rs.nextLiveCL stamp := by
              simp [stageUpdate,hcov]
            rw [hstage]
            exact .whole (.update rs.nextLiveCL diff) (by simp [PgRecord.partly,hcov]) hnext
          | false => exact .partly diff (by simp [PgRecord.partly,hcell,hcov])
      · cases h'
        exact .whole (.update rs.nextLiveCL _) (by simp [PgRecord.partly,hcell]) hnext

namespace RowWrite

variable (h : RowWrite sh stamp rs recs f)

include h in
theorem beyond {k : RowClock κ} (hk : k.dominatedBy c s = false) : (f k).dominatedBy c s = false := by
  cases h with
  | nothing => exact hk
  | whole | recreated => exact beyond_putCleared hk
  | partly diff =>
    unfold stageUpdate
    split_ifs with hcov hlt
    · exact beyond_putCleared hk
    · exact beyond_putCleared hk
    · exact hk

include h in
theorem base_le (hz : Stamp.zero ≤ stamp) (hb : rs.base ≤ stamp) : (f rs).base ≤ stamp := by
  have hput : ∀ cl s,s ≤ stamp → (rs.putCleared cl s).base ≤ stamp := by
    intro cl s hs
    unfold putCleared
    split_ifs
    · exact hs
    · exact hb
  cases h with
  | nothing => exact hb
  | whole | recreated => exact hput _ _ le_rfl
  | partly diff =>
    unfold stageUpdate
    split_ifs with hcov hlt
    · exact hput _ _ le_rfl
    · exact hput _ _ hz
    · exact hb

include h in
theorem passes (hb : rs.base < stamp) {r : PgRecord κ} (hr : r ∈ recs) (hwhole : r.partly sh = false) :
    (f rs).dominatedBy r.cl stamp = false := by
  have htomb := rs.tombCL_gt
  cases h with
  | nothing => cases hr
  | whole r' _ hle =>
    obtain rfl := mem_singleton.mp hr
    exact putCleared_beyond (dominatedBy_of_le hle hb)
  | recreated i =>
    have hd : rs.dominatedBy (rs.tombCL+1) stamp = true := dominatedBy_of_lt (by omega)
    obtain rfl | rfl : r = .delete rs.tombCL ∨ r = .insert (rs.tombCL+1) i := by simpa using hr
    · show (rs.putCleared (rs.tombCL+1) stamp).dominatedBy rs.tombCL stamp = false
      rw [putCleared_of_dominated hd,dominatedBy_false_iff]
      exact .inl (Nat.lt_succ_self _)
    · exact putCleared_beyond hd
  | partly diff hpart =>
    obtain rfl := mem_singleton.mp hr
    simp [hwhole] at hpart

include h in
/-- Replay does what the fold did if it wrote the whole row and no column stamps outlive it. -/
theorem replay (hb : rs.base < stamp) (hwhole : ∀ r ∈ recs,r.partly sh = false)
    (hcells : ∀ r ∈ recs,r.cl = rs.cl → rs.cells = fun _ => none) :
    recs.foldl (replayRecord stamp) rs = f rs ∧ (f rs = rs ∨ (f rs).cells = fun _ => none) := by
  have htomb := rs.tombCL_gt
  cases h with
  | nothing => exact ⟨rfl,.inl rfl⟩
  | whole r _ hle =>
    refine ⟨?_,.inr ?_⟩
    · rw [foldl_cons,foldl_nil,replayRecord_eq,putRowState_eq (hcells r (by simp))]
    · simp only [putCleared_of_dominated (dominatedBy_of_le hle hb)]
  | recreated i =>
    have hd : rs.dominatedBy (rs.tombCL+1) stamp = true := dominatedBy_of_lt (by omega)
    refine ⟨?_,.inr (by simp only [putCleared_of_dominated hd])⟩
    simp only [foldl_cons,foldl_nil,replayRecord_eq,PgRecord.cl]
    rw [putRowState_of_lt htomb,putCleared_of_dominated hd]
    exact putRowState_of_lt (Nat.lt_succ_self _)
  | partly diff hpart => simp [hwhole _ (mem_singleton.mpr rfl)] at hpart

end RowWrite

end Row

variable {sh : (k : π) → PgShape (κ k)}

theorem foldAt_write {stamp : Stamp} {clocks : (k : π) → RowClock (κ k)} {t : PgTxn π κ} {k : π}
    {x : List (PgRecord (κ k)) × (RowClock (κ k) → RowClock (κ k))}
    (h : foldAt sh stamp clocks t k = some x) : RowWrite (sh k) stamp (clocks k) x.1 x.2 := by
  unfold foldAt at h
  cases hrow : t.rows k with
  | none =>
    rw [hrow] at h
    cases h
    exact .nothing
  | some a =>
    rw [hrow] at h
    exact foldRow_write h

namespace FoldNode

variable (sh) in
theorem foldCommit_cases (n : FoldNode π κ) (stamp : Stamp) (t : PgTxn π κ) :
    n.foldCommit sh stamp t = n ∨
      ∃ (recs : (k : π) → List (PgRecord (κ k))) (f : (k : π) → RowClock (κ k) → RowClock (κ k)),
        (∀ k,RowWrite (sh k) stamp (n.clocks k) (recs k) (f k)) ∧
        n.foldCommit sh stamp t = { n with
          clocks := fun k => f k (n.clocks k)
          nextSeq := n.nextSeq+1
          last := stamp
          log := n.log++[⟨n.nextSeq,stamp,recs⟩] } := by
  simp only [foldCommit]
  split_ifs with hfail
  · exact .inl rfl
  · exact .inl rfl
  · have hsome : ∀ k,∃ x,foldAt sh stamp n.clocks t k = some x := by
      intro k
      by_cases hk : k ∈ t.order
      · refine Option.ne_none_iff_exists'.mp fun hnone => hfail ?_
        exact any_eq_true.mpr ⟨k,hk,by simp [hnone]⟩
      · rw [t.order_rows,Bool.not_eq_true,Option.isSome_eq_false_iff,Option.isNone_iff_eq_none] at hk
        exact ⟨([],id),by simp [foldAt,hk]⟩
    choose x hx using hsome
    refine .inr ⟨fun k => (x k).1,fun k => (x k).2,fun k => foldAt_write (hx k),?_⟩
    simp only [hx,Option.elim_some]

/-- The log splits into what the checkpoint covers and what replay has to bring back. -/
structure Split (sh : (k : π) → PgShape (κ k)) (n : FoldNode π κ) (covered fresh : List (SelfEntry π κ)) :
    Prop where
  log : n.log = covered++fresh
  saved_le : n.savedSeq ≤ n.nextSeq
  covered_seq : ∀ e ∈ covered,e.seq < n.savedSeq
  covered_passed : ∀ e ∈ covered,∀ k,∀ r ∈ e.records k,r.partly (sh k) = false →
    (n.savedClocks k).dominatedBy r.cl e.stamp = false
  fresh_seq : ∀ e ∈ fresh,n.savedSeq ≤ e.seq
  seq : (fresh.foldl replayEntry (n.savedClocks,n.savedSeq)).2 = n.nextSeq
  clocks : (∀ e ∈ fresh,∀ k,∀ r ∈ e.records k,r.partly (sh k) = false ∧
      (r.cl = (n.savedClocks k).cl → (n.savedClocks k).cells = fun _ => none)) →
    ∀ k,(fresh.foldl replayEntry (n.savedClocks,n.savedSeq)).1 k = n.clocks k ∧
      (n.clocks k = n.savedClocks k ∨ (n.clocks k).cells = fun _ => none)

structure Sound (sh : (k : π) → PgShape (κ k)) (n : FoldNode π κ) : Prop where
  pos : Stamp.zero ≤ n.last
  below : ∀ k,(n.clocks k).base ≤ n.last
  numbered : ∀ e ∈ n.log,e.seq < n.nextSeq
  passed : ∀ e ∈ n.log,∀ k,∀ r ∈ e.records k,r.partly (sh k) = false →
    (n.clocks k).dominatedBy r.cl e.stamp = false
  split : ∃ covered fresh,Split sh n covered fresh

theorem sound_init : Sound sh init where
  pos := le_rfl
  below _ := le_rfl
  numbered := by simp [init]
  passed := by simp [init]
  split := ⟨[],[],rfl,le_rfl,by simp,by simp,by simp,rfl,fun _ _ => ⟨rfl,.inl rfl⟩⟩

variable {n : FoldNode π κ}

theorem Sound.checkpoint (h : Sound sh n) (retired : ℕ) : Sound sh (n.checkpoint retired) where
  pos := h.pos
  below := h.below
  numbered e he := h.numbered e (mem_of_mem_drop he)
  passed e he := h.passed e (mem_of_mem_drop he)
  split := ⟨n.log.drop retired,[],(append_nil _).symm,le_rfl,
    fun e he => h.numbered e (mem_of_mem_drop he),fun e he => h.passed e (mem_of_mem_drop he),
    by simp,rfl,fun _ _ => ⟨rfl,.inl rfl⟩⟩

theorem Split.fold {stamp : Stamp} {covered fresh : List (SelfEntry π κ)}
    {recs : (k : π) → List (PgRecord (κ k))} {f : (k : π) → RowClock (κ k) → RowClock (κ k)}
    (h : Split sh n covered fresh) (hbelow : ∀ k,(n.clocks k).base < stamp)
    (hwrite : ∀ k,RowWrite (sh k) stamp (n.clocks k) (recs k) (f k)) :
    Split sh { n with
      clocks := fun k => f k (n.clocks k)
      nextSeq := n.nextSeq+1
      last := stamp
      log := n.log++[⟨n.nextSeq,stamp,recs⟩] } covered (fresh++[⟨n.nextSeq,stamp,recs⟩]) where
  log := by simp [h.log]
  saved_le := Nat.le_succ_of_le h.saved_le
  covered_seq := h.covered_seq
  covered_passed := h.covered_passed
  fresh_seq := by
    intro e he
    obtain he | rfl := mem_concat.mp he
    · exact h.fresh_seq e he
    · exact h.saved_le
  seq := by simp [replayEntry,h.seq]
  clocks := by
    intro hall k
    obtain ⟨hreplay,hcells⟩ := h.clocks (fun e he => hall e (by simp [he])) k
    have hlast := hall ⟨n.nextSeq,stamp,recs⟩ (by simp) k
    have hgen : ∀ r ∈ recs k,r.cl = (n.clocks k).cl → (n.clocks k).cells = fun _ => none := by
      intro r hr hcl
      obtain hsame | hnone := hcells
      · rw [hsame] at hcl ⊢
        exact (hlast r hr).2 hcl
      · exact hnone
    obtain ⟨hrecs,hkept⟩ := (hwrite k).replay (hbelow k) (fun r hr => (hlast r hr).1) hgen
    refine ⟨?_,?_⟩
    · simp only [foldl_append,foldl_cons,foldl_nil,replayEntry,hreplay]
      exact hrecs
    · obtain hkept | hnone := hkept
      · simp only [hkept]
        exact hcells
      · exact .inr hnone

theorem Sound.fold (h : Sound sh n) {stamp : Stamp} (hs : n.last < stamp) (t : PgTxn π κ) :
    Sound sh (n.foldCommit sh stamp t) := by
  obtain hsame | ⟨recs,f,hwrite,hnext⟩ := foldCommit_cases sh n stamp t
  · exact hsame.symm ▸ h
  have hbelow : ∀ k,(n.clocks k).base < stamp := fun k => (h.below k).trans_lt hs
  have hpos := h.pos.trans hs.le
  obtain ⟨covered,fresh,hsplit⟩ := h.split
  rw [hnext]
  refine ⟨hpos,fun k => (hwrite k).base_le hpos (hbelow k).le,?_,?_,covered,_,hsplit.fold hbelow hwrite⟩
  · intro e he
    obtain he | rfl := mem_concat.mp he
    · exact Nat.lt_succ_of_lt (h.numbered e he)
    · exact Nat.lt_succ_self _
  · intro e he k r hr hwhole
    obtain he | rfl := mem_concat.mp he
    · exact (hwrite k).beyond (h.passed e he k r hr hwhole)
    · exact (hwrite k).passes (hbelow k) hr hwhole

theorem Sound.run (h : Sound sh n) {a : FoldAction π κ} (ha : n.Admits a) : Sound sh (n.run sh a) := by
  cases a with
  | fold stamp t => exact h.fold ha t
  | checkpoint retired => exact h.checkpoint retired

omit [∀ k,Fintype (κ k)] in
theorem replay_covered {covered : List (SelfEntry π κ)} {clocks : (k : π) → RowClock (κ k)} {seq : ℕ}
    (hseq : ∀ e ∈ covered,e.seq < seq)
    (hpassed : ∀ e ∈ covered,∀ k,∀ r ∈ e.records k,(clocks k).dominatedBy r.cl e.stamp = false) :
    covered.foldl replayEntry (clocks,seq) = (clocks,seq) := by
  induction covered with
  | nil => rfl
  | cons e covered ih =>
    have hrow : ∀ k,(e.records k).foldl (replayRecord e.stamp) (clocks k) = clocks k := by
      intro k
      have hk := hpassed e (by simp) k
      generalize e.records k = recs at hk
      induction recs with
      | nil => rfl
      | cons r recs ihr =>
        rw [foldl_cons,replayRecord_beyond (hk r (by simp))]
        exact ihr fun r' hr' => hk r' (by simp [hr'])
    have hone : replayEntry (clocks,seq) e = (clocks,seq) := by
      have := hseq e (by simp)
      simp only [replayEntry,hrow,Prod.mk.injEq,true_and]
      omega
    rw [foldl_cons,hone]
    exact ih (fun e' he' => hseq e' (by simp [he'])) fun e' he' => hpassed e' (by simp [he'])

/-- Wherever the node stops with whole rows in its log, recovery returns its clocks and its next seq. -/
theorem recoverSelf_eq {acts : List (FoldAction π κ)}
    (hacts : Machine.Permitted (run sh) Admits init acts) (hwhole : (acts.foldl (run sh) init).WholeRows sh) :
    (acts.foldl (run sh) init).recoverSelf =
      ((acts.foldl (run sh) init).clocks,(acts.foldl (run sh) init).nextSeq) := by
  have hsound : Sound sh (acts.foldl (run sh) init) :=
    hacts.invariant (I := Sound sh) (fun _ _ h ha => h.run ha) sound_init
  generalize acts.foldl (run sh) init = n at hwhole hsound
  obtain ⟨covered,fresh,h⟩ := hsound.split
  have hcov : ∀ e ∈ covered,e ∈ n.log := fun e he => h.log ▸ mem_append_left _ he
  have hfresh : ∀ e ∈ fresh,e ∈ n.log := fun e he => h.log ▸ mem_append_right _ he
  rw [recoverSelf,h.log,foldl_append,replay_covered h.covered_seq fun e he k r hr =>
    h.covered_passed e he k r hr (hwhole.whole e (hcov e he) k r hr)]
  refine Prod.ext (funext fun k => (h.clocks (fun e he k r hr => ?_) k).1) h.seq
  exact ⟨hwhole.whole e (hfresh e he) k r hr,
    hwhole.saved e (hfresh e he) (h.fresh_seq e he) k r hr⟩

end FoldNode

namespace SelfLogSample

open PgFoldSample FoldNode

def txn (a : RowAccum (Fin 2)) : PgTxn Unit fun _ => Fin 2 := ⟨[()],fun _ => some a,by simp⟩

def inserted : PgTxn Unit fun _ => Fin 2 := txn ⟨.ins,.ins,some (pair (some 5) (some 10)),fun _ => none⟩

def touched : PgTxn Unit fun _ => Fin 2 :=
  txn ⟨.upd,.upd,some (pair (some 6) none),pair (some 5) (some 10)⟩

def removed : PgTxn Unit fun _ => Fin 2 := txn ⟨.upd,.del,none,fun _ => none⟩

abbrev shape : Unit → PgShape (Fin 2) := fun _ => tallied

/-- The partial update is behind the checkpoint and its entry retired; the delete begins another
generation. -/
def retired : List (FoldAction Unit fun _ => Fin 2) :=
  [.fold (stampAt 1) inserted,.fold (stampAt 2) touched,.checkpoint 2,.fold (stampAt 3) removed,
    .fold (stampAt 4) inserted]

theorem retired_recovers :
    ((retired.foldl (run shape) init).clocks ()).cl = 3 ∧ (retired.foldl (run shape) init).nextSeq = 5 ∧
      (retired.foldl (run shape) init).recoverSelf =
        ((retired.foldl (run shape) init).clocks,(retired.foldl (run shape) init).nextSeq) := by
  refine ⟨by decide +kernel,by decide +kernel,?_⟩
  refine recoverSelf_eq ⟨?_,?_,trivial,?_,?_,trivial⟩ ⟨?_,?_⟩
  · show Stamp.zero < stampAt 1
    decide +kernel
  · show stampAt 1 < stampAt 2
    decide
  · show stampAt 2 < stampAt 3
    decide
  · show stampAt 3 < stampAt 4
    decide
  · have h : ∀ e ∈ (retired.foldl (run shape) init).log,∀ r ∈ e.records (),r.partly tallied = false := by
      decide
    exact fun e he _ => h e he
  · have h : ∀ e ∈ (retired.foldl (run shape) init).log,∀ r ∈ e.records (),
        r.cl ≠ ((retired.foldl (run shape) init).savedClocks ()).cl := by decide +kernel
    exact fun e he _ _ r hr hcl => absurd hcl (h e he r hr)

def partlyLogged : FoldNode Unit fun _ => Fin 2 :=
  [FoldAction.fold (stampAt 1) inserted,.fold (stampAt 2) touched].foldl (run shape) init

/-- Column 1 was last written by the insert; after recovery it has the stamp of the update. -/
theorem partlyLogged_raised : (partlyLogged.clocks ()).effectiveStamp 1 = stampAt 1 ∧
      (partlyLogged.recoverSelf.1 ()).effectiveStamp 1 = stampAt 2 := by
  decide

end SelfLogSample

end Syzy.Pg
