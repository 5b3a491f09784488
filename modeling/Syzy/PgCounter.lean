import Mathlib.Algebra.BigOperators.Group.Finset.Basic
import Mathlib.Data.Finset.Lattice.Fold
import Mathlib.Order.Lattice.Nat
import Syzy.PgFold

/-!
Counters of a Postgres table under redelivery. An applied marker is written with the contributions it
certifies; a crash keeps the table and the markers and goes back to the clocks of the last checkpoint.
-/

namespace Syzy.Pg

variable {π κ : Type} [Fintype κ]

namespace PgRecord

/-- A record of a counter table as its writer folds it: live generations, whole images, and on counters
contributions only. -/
def Counted (sh : PgShape κ) : PgRecord κ → Prop
  | insert cl p => cl%2 = 1 ∧ (∀ c v,p c = some v → v.isDelta = false) ∧
      ∀ c,sh.counter c = true → (p c).isSome = true
  | update cl p => cl%2 = 1 ∧ PgPatch.empty p = false ∧
      ∀ c,sh.counter c = true → ∀ v,p c = some v → v.isDelta = true
  | delete _ => False

omit [Fintype κ] in
def patch : PgRecord κ → PgPatch κ
  | insert _ p => p
  | update _ p => p
  | delete _ => fun _ => none

omit [Fintype κ] in
def part (r : PgRecord κ) (c : κ) : ℤ := (r.patch c).elim 0 PgValue.opening

omit [Fintype κ] in
/-- A certified update loses its contributions; a certified insert is rendered without adding them. -/
def stripped : PgRecord κ → PgRecord κ
  | update cl p => update cl fun c => (p c).filter fun v => !v.isDelta
  | r => r

omit [Fintype κ] in
/-- An update that opens a generation decides every counter. -/
def OpensWhole (sh : PgShape κ) (row : Option (PgImage κ)) (rs : RowClock κ) : PgRecord κ → Prop
  | update cl p => rs.cl < cl → ∀ c,sh.counter c = true → (p c).isSome = true ∨ row = none ∧ sh.fill c = 0
  | _ => True

omit [Fintype κ] in
@[simp] theorem stripped_cl (r : PgRecord κ) : r.stripped.cl = r.cl := by cases r <;> rfl

end PgRecord

section Row

variable {sh : PgShape κ} {stamp : Stamp} {rs : RowClock κ} {row : Option (PgImage κ)} {rec : PgRecord κ}
  {r : PgImage κ} {certified : Bool}

theorem receive_single : receive sh stamp certified (row,rs) [rec] =
    ((applyRecord sh stamp certified rs row rec).1,(applyRecord sh stamp certified rs row rec).2 rs) := rfl

theorem PgRecord.Counted.odd (h : rec.Counted sh) : rec.cl%2 = 1 := by
  cases rec with
  | insert | update => exact h.1
  | delete cl => exact h.elim

theorem applyCellUpdate_cl {cl : ℕ} (p : PgPatch κ) (h : rs.cl ≤ cl) :
    ((applyCellUpdate sh stamp certified rs row cl p).2 rs).cl = cl := by
  have hput := fun s => RowClock.putCleared_cl h s
  simp only [applyCellUpdate]
  obtain hlt | rfl := Nat.lt_or_eq_of_le h
  · have hwin : PgPatch.empty (fun c => (p c).map fun v => PgValue.abs v.opening) = PgPatch.empty p := by
      simp [PgPatch.empty]
    simp only [hlt,if_true,hwin]
    split_ifs <;> exact hput _
  · simp only [lt_irrefl,if_false]
    split_ifs
    · rfl
    · rfl
    · exact hput _
    · rfl

theorem applyRecord_cl (hcell : sh.cellGroup = true) (rec : PgRecord κ) :
    ((applyRecord sh stamp certified rs row rec).2 rs).cl = max rs.cl rec.cl := by
  have hdom : rs.dominatedBy rec.cl stamp = false → rec.cl ≤ rs.cl := by
    rw [RowClock.dominatedBy_false_iff]
    omega
  simp only [applyRecord,hcell,if_true]
  cases hup : asCellUpdate sh rs rec with
  | some x =>
    obtain ⟨cl,p⟩ := x
    have hcl : cl = rec.cl := by
      cases rec with
      | insert cl' q =>
        simp only [asCellUpdate] at hup
        split_ifs at hup
        cases hup
        rfl
      | update cl' q =>
        cases hup
        rfl
      | delete cl' => cases hup
    subst hcl
    dsimp only
    split_ifs with hgate
    · have hle : rec.cl ≤ rs.cl := by
        simp only [Bool.or_eq_true,decide_eq_true_eq,Bool.and_eq_true,Bool.not_eq_true'] at hgate
        obtain hlt | ⟨-,hd⟩ := hgate
        · exact hlt.le
        · exact hdom hd
      exact (max_eq_left hle).symm
    · have hle : rs.cl ≤ rec.cl := by
        simp only [Bool.or_eq_true,decide_eq_true_eq,not_or,not_lt] at hgate
        exact hgate.1
      rw [applyCellUpdate_cl p hle,max_eq_right hle]
  | none =>
    split_ifs with hd
    · have hle : rs.cl ≤ rec.cl := by
        obtain h | ⟨h,-⟩ := RowClock.dominatedBy_iff.mp hd <;> omega
      simp [RowClock.putRowState,hd,max_eq_right hle]
    · exact (max_eq_left (hdom (Bool.not_eq_true _ ▸ hd))).symm

theorem applyCellUpdate_open {cl : ℕ} {p : PgPatch κ} (hlt : rs.cl < cl) (hp : PgPatch.empty p = false) :
    (applyCellUpdate sh stamp certified rs row cl p).1 =
        some (upsertRow sh certified (fun c => (p c).map fun v => .abs v.opening) row) := by
  have hwin : PgPatch.empty (fun c => (p c).map fun v => PgValue.abs v.opening) = false := by
    simpa [PgPatch.empty] using hp
  simp only [applyCellUpdate,hp,hlt,hwin,if_true,Bool.false_eq_true,if_false]

variable (sh stamp rs r certified) in
/-- Within a generation the contributions and the columns that win are written. -/
theorem applyCellUpdate_within (p : PgPatch κ) :
    ∃ winners : PgPatch κ,
      (∀ c,winners c = p c ∨ winners c = none ∧ ∀ v,p c = some v → v.isDelta = false) ∧
      (applyCellUpdate sh stamp certified rs (some r) rs.cl p).1 = some (upsertRow sh certified winners (some r)) := by
  let winners : PgPatch κ := fun c =>
    (p c).filter fun v => v.isDelta || stamp.dominates (rs.effectiveStamp c)
  have hcols : ∀ c,winners c = p c ∨ winners c = none ∧ ∀ v,p c = some v → v.isDelta = false := by
    intro c
    cases hv : p c with
    | none => exact .inl (by simp [winners,hv])
    | some v =>
      cases hd : v.isDelta || stamp.dominates (rs.effectiveStamp c) with
      | true => exact .inl (by simp [winners,hv,hd])
      | false => exact .inr ⟨by simpa [winners,hv] using hd,by simp_all⟩
  have hnone : ∀ q : PgPatch κ,PgPatch.empty q = true → r = upsertRow sh certified q (some r) := by
    intro q hq
    have hq : ∀ c,q c = none := by simpa [PgPatch.empty] using hq
    funext c
    simp [upsertRow,hq c]
  refine ⟨winners,hcols,?_⟩
  simp only [applyCellUpdate,lt_irrefl,if_false]
  split_ifs with hempty hwin
  · have hwin : PgPatch.empty winners = true := by
      have hp : ∀ c,p c = none := by simpa [PgPatch.empty] using hempty
      simp [PgPatch.empty,winners,hp]
    exact congrArg some (hnone _ hwin)
  · exact congrArg some (hnone _ hwin)
  · rfl
  · rfl

theorem applyRecord_below (hcell : sh.cellGroup = true) (hlt : rec.cl < rs.cl) :
    (applyRecord sh stamp certified rs row rec).1 = row := by
  have hdom : rs.dominatedBy rec.cl stamp = false := RowClock.dominatedBy_false_iff.mpr (.inl hlt)
  cases rec with
  | insert cl p =>
    have hne : ¬cl = rs.cl := fun h => absurd hlt (by simp [PgRecord.cl,h])
    have hdom : rs.dominatedBy cl stamp = false := hdom
    simp [applyRecord,hcell,asCellUpdate,hne,PgRecord.cl,hdom]
  | update cl p =>
    have hlt : cl < rs.cl := hlt
    simp [applyRecord,hcell,asCellUpdate,hlt]
  | delete cl =>
    have hdom : rs.dominatedBy cl stamp = false := hdom
    simp [applyRecord,hcell,asCellUpdate,PgRecord.cl,hdom]

variable (sh stamp rs r certified) in
/-- A patch of the row's own generation adds its contributions, or leaves the counters alone if they
have been counted. -/
theorem applyCellUpdate_counters (q : PgPatch κ)
    (hq : ∀ c,sh.counter c = true → ∀ v,q c = some v → v.isDelta = true) :
    ∃ r',(if (rs.cl < rs.cl || (!q.hasCounter && !rs.dominatedBy rs.cl stamp)) = true then (some r,id)
        else applyCellUpdate sh stamp certified rs (some r) rs.cl q).1 = some r' ∧
      ∀ c,sh.counter c = true → r' c = r c+if certified then 0 else (q c).elim 0 PgValue.opening := by
  split_ifs with hgate hcert hcert
  · exact ⟨r,rfl,by simp⟩
  · have hno : ∀ c v,q c = some v → v.isDelta = false := by
      have hno : q.hasCounter = false := by
        simp only [lt_irrefl,decide_false,Bool.false_or,Bool.and_eq_true,Bool.not_eq_true'] at hgate
        exact hgate.1
      intro c v hv
      have := of_decide_eq_false hno
      simp only [not_exists] at this
      simpa [hv] using this c
    refine ⟨r,rfl,fun c hc => ?_⟩
    cases hv : q c with
    | none => simp
    | some v => exact absurd (hq c hc v hv) (by simp [hno c v hv])
  all_goals
    obtain ⟨winners,hcols,heq⟩ := applyCellUpdate_within sh stamp rs r certified q
    refine ⟨_,heq,fun c hc => ?_⟩
    have hwin : winners c = q c := by
      obtain h | ⟨h,hv⟩ := hcols c
      · exact h
      · cases hqc : q c with
        | none => rw [h]
        | some v => exact absurd (hq c hc v hqc) (by simp [hv v hqc])
    cases hqc : q c with
    | none => simp [upsertRow,hwin,hqc]
    | some v =>
      obtain ⟨d,rfl⟩ : ∃ d,v = .delta d := by
        cases v with
        | abs x => exact absurd (hq c hc _ hqc) (by simp [PgValue.isDelta])
        | delta d => exact ⟨d,rfl⟩
      simp [upsertRow,hwin,hqc,hc,hcert,PgValue.onto,PgValue.opening]

omit [Fintype κ] in
theorem counterDeltas_isDelta {p : PgPatch κ} (c : κ) (hc : sh.counter c = true) (v : PgValue)
    (hv : counterDeltas sh p c = some v) : v.isDelta = true := by
  obtain ⟨w,-,rfl⟩ := Option.map_eq_some_iff.mp hv
  simp [hc,PgValue.isDelta]

omit [Fintype κ] in
theorem counterDeltas_opening (p : PgPatch κ) (c : κ) (hc : sh.counter c = true) :
    (counterDeltas sh p c).elim 0 PgValue.opening = (p c).elim 0 PgValue.opening := by
  cases hv : p c <;> simp [counterDeltas,hv,hc,PgValue.opening]

variable (stamp r) in
theorem applyRecord_within (hcell : sh.cellGroup = true) (hrec : rec.Counted sh) (hcl : rec.cl = rs.cl) :
    ∃ r',(applyRecord sh stamp false rs (some r) rec).1 = some r' ∧
      ∀ c,sh.counter c = true → r' c = r c+rec.part c := by
  cases rec with
  | insert cl p =>
    obtain rfl : cl = rs.cl := hcl
    have hlive : rs.isLive = true := by simp [RowClock.isLive,hrec.1]
    simp only [applyRecord,hcell,asCellUpdate,hlive,if_true,Bool.true_and,decide_true]
    obtain ⟨r',heq,hr'⟩ := applyCellUpdate_counters sh stamp rs r false (counterDeltas sh p)
      counterDeltas_isDelta
    exact ⟨r',heq,fun c hc => by rw [hr' c hc,if_neg (by simp),counterDeltas_opening p c hc]; rfl⟩
  | update cl p =>
    obtain rfl : cl = rs.cl := hcl
    simp only [applyRecord,hcell,asCellUpdate,if_true]
    exact applyCellUpdate_counters sh stamp rs r false p hrec.2.2
  | delete cl => exact hrec.elim

variable (stamp) in
theorem applyRecord_opening (hcell : sh.cellGroup = true) (hrec : rec.Counted sh)
    (hopen : rec.OpensWhole sh row rs) (hlt : rs.cl < rec.cl)
    (hfirst : rs.isLive = false → rec.cl = rs.nextLiveCL → row = none) :
    ∃ r',(applyRecord sh stamp false rs row rec).1 = some r' ∧
      ∀ c,sh.counter c = true → r' c = rec.part c := by
  cases rec with
  | insert cl p =>
    have hlt : rs.cl < cl := hlt
    have hdom : rs.dominatedBy cl stamp = true := RowClock.dominatedBy_of_lt hlt
    have hne : ¬cl = rs.cl := by omega
    simp only [applyRecord,hcell,asCellUpdate,hne,if_true,Bool.and_false,decide_false,Bool.false_eq_true,
      if_false,PgRecord.cl,hdom]
    refine ⟨_,rfl,fun c hc => ?_⟩
    obtain ⟨v,hv⟩ := Option.isSome_iff_exists.mp (hrec.2.2 c hc)
    obtain ⟨x,rfl⟩ : ∃ x,v = .abs x := by
      cases v with
      | abs x => exact ⟨x,rfl⟩
      | delta d => exact absurd (hrec.2.1 c _ hv) (by simp [PgValue.isDelta])
    have hpart : (PgRecord.insert cl p).part c = x := by simp [PgRecord.part,PgRecord.patch,hv,PgValue.opening]
    rw [hpart]
    unfold insertImage
    split_ifs with h₁ h₂
    · exact absurd h₁ (by simp)
    · simp only [Bool.and_eq_true,Bool.not_eq_true',decide_eq_true_eq] at h₂
      rw [hfirst h₂.1.2 h₂.2]
      simp [upsertRow,counterDeltas,hv,hc,PgValue.opening]
    · cases row <;> simp [upsertRow,hv,PgValue.opening,PgValue.onto]
  | update cl p =>
    have hlt : rs.cl < cl := hlt
    have hdom : rs.dominatedBy cl stamp = true := RowClock.dominatedBy_of_lt hlt
    simp only [applyRecord,hcell,asCellUpdate,if_true,hdom,hlt.not_gt,decide_false,Bool.not_true,Bool.and_false,
      Bool.or_false,Bool.false_eq_true,if_false]
    refine ⟨_,applyCellUpdate_open hlt hrec.2.1,fun c hc => ?_⟩
    cases hv : p c with
    | none =>
      obtain h | ⟨rfl,hfill⟩ := hopen hlt c hc
      · exact absurd h (by simp [hv])
      · simp [upsertRow,hv,hfill,PgRecord.part,PgRecord.patch]
    | some v => cases row <;> simp [upsertRow,hv,PgValue.opening,PgValue.onto,PgRecord.part,PgRecord.patch]
  | delete cl => exact hrec.elim

variable (stamp rs r) in
theorem applyRecord_certified (hcell : sh.cellGroup = true) (hrec : rec.Counted sh) :
    ∃ r',(applyRecord sh stamp true rs (some r) rec.stripped).1 = some r' ∧
      ∀ c,sh.counter c = true → r' c = r c := by
  have hnone : ∀ p : PgPatch κ,(∀ c,sh.counter c = true → ∀ v,p c = some v → v.isDelta = true) →
      ∀ c,sh.counter c = true → (p c).filter (fun v => !v.isDelta) = none := by
    intro p hp c hc
    cases hv : p c with
    | none => rfl
    | some v => simp [hp c hc v hv]
  obtain hlt | heq | hgt := Nat.lt_trichotomy rec.cl rs.cl
  · exact ⟨r,applyRecord_below hcell (by simpa using hlt),fun _ _ => rfl⟩
  · cases rec with
    | insert cl p =>
      obtain rfl : cl = rs.cl := heq
      have hlive : rs.isLive = true := by simp [RowClock.isLive,hrec.1]
      simp only [applyRecord,hcell,PgRecord.stripped,asCellUpdate,hlive,if_true,Bool.true_and,decide_true]
      obtain ⟨r',heq,hr'⟩ := applyCellUpdate_counters sh stamp rs r true (counterDeltas sh p)
        counterDeltas_isDelta
      exact ⟨r',heq,fun c hc => by rw [hr' c hc,if_pos rfl,add_zero]⟩
    | update cl p =>
      obtain rfl : cl = rs.cl := heq
      simp only [applyRecord,hcell,PgRecord.stripped,asCellUpdate,if_true]
      obtain ⟨r',heq,hr'⟩ := applyCellUpdate_counters sh stamp rs r true _ fun c hc v hv =>
        absurd ((hnone p hrec.2.2 c hc).symm.trans hv) (by simp)
      exact ⟨r',heq,fun c hc => by rw [hr' c hc,if_pos rfl,add_zero]⟩
    | delete cl => exact hrec.elim
  · have hdom : rs.dominatedBy rec.cl stamp = true := RowClock.dominatedBy_of_lt hgt
    cases rec with
    | insert cl p =>
      have hdom : rs.dominatedBy cl stamp = true := hdom
      have hne : ¬cl = rs.cl := Nat.ne_of_gt hgt
      simp only [applyRecord,hcell,PgRecord.stripped,asCellUpdate,hne,if_true,Bool.and_false,decide_false,
        Bool.false_eq_true,if_false,PgRecord.cl,hdom]
      refine ⟨_,rfl,fun c hc => ?_⟩
      have hcounters : sh.hasCounters = true := decide_eq_true ⟨c,hc⟩
      cases hv : p c <;> simp [insertImage,hcounters,upsertRow,hv,hc]
    | update cl p =>
      have hlt : rs.cl < cl := hgt
      have hdom : rs.dominatedBy cl stamp = true := hdom
      simp only [applyRecord,hcell,PgRecord.stripped,asCellUpdate,if_true,hdom,hlt.not_gt,decide_false,
        Bool.not_true,Bool.and_false,Bool.or_false,Bool.false_eq_true,if_false]
      cases hempty : PgPatch.empty (fun c => (p c).filter fun v => !v.isDelta) with
      | true => exact ⟨r,by simp [applyCellUpdate,hempty],fun _ _ => rfl⟩
      | false =>
        refine ⟨_,applyCellUpdate_open hlt hempty,fun c hc => ?_⟩
        simp [upsertRow,hnone p hrec.2.2 c hc]
    | delete cl => exact hrec.elim

end Row

abbrev PgDot := Origin × ℕ

/-- A changeset of a counter table, at most one record a row. -/
structure CounterSet (π : Type) (sh : PgShape κ) where
  stamp : Stamp
  records : π → Option (PgRecord κ)
  counted : ∀ k rec,records k = some rec → rec.Counted sh
  bearing : ∃ k rec,records k = some rec ∧ ∃ c,sh.counter c = true ∧ (rec.patch c).isSome = true

/-- A node: the table with its applied markers, the clocks and the applied set of the cache, and their
last checkpoint. `landed` names the changesets whose contributions the table has. -/
structure CounterNode (π κ : Type) where
  table : π → Option (PgImage κ)
  markers : PgDot → Bool
  clocks : π → RowClock κ
  applied : PgDot → Bool
  persisted : Origin → ℕ
  prevPersisted : Origin → ℕ
  savedClocks : π → RowClock κ
  savedApplied : PgDot → Bool
  landed : Finset PgDot

inductive CounterAction
  | deliver (d : PgDot)
  | checkpoint (frontier : Origin → ℕ)
  | crash

namespace CounterNode

variable {sh : PgShape κ} (log : PgDot → CounterSet π sh)

omit [Fintype κ] in
def init : CounterNode π κ :=
  ⟨fun _ => none,fun _ => false,fun _ => RowClock.zero,fun _ => false,fun _ => 0,fun _ => 0,
    fun _ => RowClock.zero,fun _ => false,∅⟩

def receiveRow (n : CounterNode π κ) (d : PgDot) (k : π) : Option (PgImage κ) × RowClock κ :=
  ((log d).records k).elim (n.table k,n.clocks k) fun rec =>
    receive sh (log d).stamp (n.markers d) (n.table k,n.clocks k) [if n.markers d then rec.stripped else rec]

omit [Fintype κ] in
/-- Write the marker, and prune those that the persisted frontier covers. -/
def writeAppliedMarker (n : CounterNode π κ) (d : PgDot) : PgDot → Bool :=
  let bound := if d.2 ≤ n.prevPersisted d.1 then d.2-1 else n.prevPersisted d.1
  fun e => (n.markers e || e = d) && !(e.1 = d.1 && e.2 ≤ bound)

def run (n : CounterNode π κ) : CounterAction → CounterNode π κ
  | .deliver d =>
    if n.applied d then n
    else { n with
      table := fun k => (n.receiveRow log d k).1
      clocks := fun k => (n.receiveRow log d k).2
      markers := if n.markers d then n.markers else n.writeAppliedMarker d
      applied := fun e => n.applied e || e = d
      landed := insert d n.landed }
  | .checkpoint frontier => { n with
      savedClocks := n.clocks
      savedApplied := n.applied
      persisted := fun o => max (n.persisted o) (frontier o)
      prevPersisted := fun o => if n.persisted o < frontier o then n.persisted o else n.prevPersisted o }
  | .crash => { n with
      clocks := n.savedClocks
      applied := n.savedApplied
      persisted := fun _ => 0
      prevPersisted := fun _ => 0 }

def clAt (d : PgDot) (k : π) : ℕ := ((log d).records k).elim 0 PgRecord.cl

def gen (L : Finset PgDot) (k : π) : ℕ := L.sup fun d => clAt log d k

/-- What one changeset contributes to a counter of a generation. -/
def share (k : π) (g : ℕ) (c : κ) (d : PgDot) : ℤ :=
  if clAt log d k = g then ((log d).records k).elim 0 fun rec => rec.part c else 0

/-- Dots count from one; the persisted frontier is a prefix of what was applied. A changeset that is
applied for the first time opens generations whole, and meets no row whose clock is behind the
generation that the table has of it, unless its own is later. -/
def Admits (n : CounterNode π κ) : CounterAction → Prop
  | .deliver d => 1 ≤ d.2 ∧ (n.applied d = false → n.markers d = false → ∀ k rec,
      (log d).records k = some rec → rec.OpensWhole sh (n.table k) (n.clocks k) ∧
        (gen log n.landed k ≤ (n.clocks k).cl ∨ gen log n.landed k < rec.cl))
  | .checkpoint frontier => ∀ o s,1 ≤ s → s ≤ frontier o → n.applied (o,s) = true
  | .crash => True

/-- A clock that is the generation of what it knows. -/
structure ClockOf (L : Finset PgDot) (applied : PgDot → Bool) (clocks : π → RowClock κ) : Prop where
  le_gen : ∀ k,(clocks k).cl ≤ gen log L k
  odd : ∀ k,(clocks k).cl = 0 ∨ (clocks k).cl%2 = 1
  knows : ∀ d,applied d = true → ∀ k,clAt log d k ≤ (clocks k).cl

structure RowSums (L : Finset PgDot) (k : π) (row : Option (PgImage κ)) : Prop where
  present : row = none ↔ gen log L k = 0
  sums : ∀ r,row = some r → ∀ c,sh.counter c = true → r c = ∑ d ∈ L,share log k (gen log L k) c d

structure Counting (n : CounterNode π κ) : Prop where
  rows : ∀ k,RowSums log n.landed k (n.table k)
  live : ClockOf log n.landed n.applied n.clocks
  saved : ClockOf log n.landed n.savedApplied n.savedClocks
  saved_applied : ∀ d,n.savedApplied d = true → n.applied d = true
  applied_landed : ∀ d,n.applied d = true → d ∈ n.landed
  marked_landed : ∀ d,n.markers d = true → d ∈ n.landed
  landed_known : ∀ d ∈ n.landed,1 ≤ d.2 ∧ (n.markers d = true ∨ n.savedApplied d = true)
  persisted : ∀ o s,1 ≤ s → s ≤ n.persisted o → n.savedApplied (o,s) = true
  prev_le : ∀ o,n.prevPersisted o ≤ n.persisted o

variable {log} {n : CounterNode π κ} {L : Finset PgDot} {d : PgDot} {k : π} {rec : PgRecord κ}

theorem gen_insert (d : PgDot) (L : Finset PgDot) (k : π) :
    gen log (insert d L) k = max (clAt log d k) (gen log L k) := Finset.sup_insert

variable (log) in
theorem clAt_le_gen (hd : d ∈ L) (k : π) : clAt log d k ≤ gen log L k :=
  Finset.le_sup (f := fun d => clAt log d k) hd

theorem clAt_eq (h : (log d).records k = some rec) : clAt log d k = rec.cl := by simp [clAt,h]

theorem share_eq (h : (log d).records k = some rec) (g : ℕ) (c : κ) :
    share log k g c d = if rec.cl = g then rec.part c else 0 := by simp [share,clAt,h]

theorem RowSums.absent {row : Option (PgImage κ)} (h : RowSums log L k row) (hrec : (log d).records k = none) (hd : d ∉ L) :
    RowSums log (insert d L) k row := by
  have hgen : gen log (insert d L) k = gen log L k := by simp [gen_insert,clAt,hrec]
  refine ⟨by rw [hgen,h.present],fun r hr c hc => ?_⟩
  rw [hgen,Finset.sum_insert hd,h.sums r hr c hc]
  simp [share,hrec]

/-- The first time a record lands, its contributions are counted in the row's generation. -/
theorem RowSums.first {row : Option (PgImage κ)} {rs : RowClock κ} {stamp : Stamp} (hcell : sh.cellGroup = true)
    (h : RowSums log L k row) (hd : d ∉ L) (hrec : (log d).records k = some rec)
    (hopen : rec.OpensWhole sh row rs) (hle : rs.cl ≤ gen log L k) (hodd : rs.cl = 0 ∨ rs.cl%2 = 1)
    (hclock : gen log L k ≤ rs.cl ∨ gen log L k < rec.cl) :
    RowSums log (insert d L) k (applyRecord sh stamp false rs row rec).1 := by
  have hcounted := (log d).counted k rec hrec
  have hpos : rec.cl ≠ 0 := by
    have := hcounted.odd
    omega
  have hgen : gen log (insert d L) k = max rec.cl (gen log L k) := by rw [gen_insert,clAt_eq hrec]
  have hrow : gen log L k ≠ 0 → ∃ r,row = some r := fun hne =>
    Option.ne_none_iff_exists'.mp fun hnone => hne (h.present.mp hnone)
  obtain hlt | heq | hgt := Nat.lt_trichotomy rec.cl (gen log L k)
  · obtain ⟨r,rfl⟩ := hrow (by omega)
    rw [applyRecord_below hcell (by omega)]
    refine ⟨by rw [hgen]; simp; omega,fun r' hr' c hc => ?_⟩
    rw [hgen,max_eq_right hlt.le,Finset.sum_insert hd,share_eq hrec,if_neg hlt.ne,zero_add]
    exact h.sums r' hr' c hc
  · obtain ⟨r,rfl⟩ := hrow (by omega)
    obtain ⟨r₁,happly,hr₁⟩ := applyRecord_within stamp r hcell hcounted (show rec.cl = rs.cl by omega)
    rw [happly]
    refine ⟨by rw [hgen]; simp; omega,fun r' hr' c hc => ?_⟩
    cases hr'
    rw [hgen,max_eq_right heq.le,Finset.sum_insert hd,share_eq hrec,if_pos heq,hr₁ c hc,h.sums r rfl c hc]
    exact add_comm _ _
  · have hfirst : rs.isLive = false → rec.cl = rs.nextLiveCL → row = none := by
      intro hlive hcl
      rw [RowClock.nextLiveCL,if_neg (by simp [hlive])] at hcl
      have : rs.cl%2 ≠ 1 := by simpa [RowClock.isLive] using hlive
      exact h.present.mpr (by omega)
    obtain ⟨r₁,happly,hr₁⟩ := applyRecord_opening stamp hcell hcounted hopen (by omega) hfirst
    rw [happly]
    refine ⟨by rw [hgen]; simp; omega,fun r' hr' c hc => ?_⟩
    cases hr'
    have hold : ∑ e ∈ L,share log k rec.cl c e = 0 := by
      refine Finset.sum_eq_zero fun e he => ?_
      have := clAt_le_gen log he k
      exact if_neg (by omega)
    rw [hgen,max_eq_left hgt.le,Finset.sum_insert hd,share_eq hrec,if_pos rfl,hr₁ c hc,hold,add_zero]

theorem RowSums.again {row : Option (PgImage κ)} {rs : RowClock κ} {stamp : Stamp} (hcell : sh.cellGroup = true)
    (h : RowSums log L k row) (hd : d ∈ L) (hrec : (log d).records k = some rec) :
    RowSums log L k (applyRecord sh stamp true rs row rec.stripped).1 := by
  have hcounted := (log d).counted k rec hrec
  have hne : gen log L k ≠ 0 := by
    have hle := clAt_le_gen log hd k
    have hodd := hcounted.odd
    rw [clAt_eq hrec] at hle
    omega
  obtain ⟨r,rfl⟩ := Option.ne_none_iff_exists'.mp fun hnone => hne (h.present.mp hnone)
  obtain ⟨r₁,happly,hr₁⟩ := applyRecord_certified stamp rs r hcell hcounted
  rw [happly]
  refine ⟨by simpa using hne,fun r' hr' c hc => ?_⟩
  cases hr'
  rw [hr₁ c hc,h.sums r rfl c hc]

theorem counting_init : Counting log init where
  rows _ := ⟨by simp [init,gen],by simp [init]⟩
  live := ⟨by simp [init,RowClock.zero],by simp [init,RowClock.zero],by simp [init]⟩
  saved := ⟨by simp [init,RowClock.zero],by simp [init,RowClock.zero],by simp [init]⟩
  saved_applied := by simp [init]
  applied_landed := by simp [init]
  marked_landed := by simp [init]
  landed_known := by simp [init]
  persisted := by
    simp only [init]
    omega
  prev_le := by simp [init]

theorem ClockOf.mono {L' : Finset PgDot} {applied : PgDot → Bool} {clocks : π → RowClock κ}
    (h : ClockOf log L applied clocks) (hL : L ⊆ L') : ClockOf log L' applied clocks :=
  ⟨fun k => (h.le_gen k).trans (Finset.sup_mono hL),h.odd,h.knows⟩

/-- Whatever the marker says, the clock of a row takes the generation of the record. -/
theorem receiveRow_cl (hcell : sh.cellGroup = true) (n : CounterNode π κ) (d : PgDot) (k : π) :
    (n.receiveRow log d k).2.cl = max (n.clocks k).cl (clAt log d k) := by
  unfold receiveRow clAt
  cases (log d).records k with
  | none => simp
  | some rec =>
    show ((applyRecord sh _ _ _ _ _).2 _).cl = _
    rw [applyRecord_cl hcell]
    split_ifs <;> simp

theorem ClockOf.deliver (hcell : sh.cellGroup = true) (h : ClockOf log n.landed n.applied n.clocks) :
    ClockOf log (insert d n.landed) (fun e => n.applied e || e = d) fun k => (n.receiveRow log d k).2 where
  le_gen k := by
    rw [receiveRow_cl hcell,gen_insert,max_comm]
    exact max_le_max_left _ (h.le_gen k)
  odd k := by
    rw [receiveRow_cl hcell]
    have hclock := h.odd k
    have hcl : clAt log d k = 0 ∨ clAt log d k%2 = 1 := by
      cases hrec : (log d).records k with
      | none => exact .inl (by simp [clAt,hrec])
      | some rec => exact .inr (clAt_eq hrec ▸ ((log d).counted k rec hrec).odd)
    omega
  knows e he k := by
    rw [receiveRow_cl hcell]
    obtain he | he := (Bool.or_eq_true _ _).mp he
    · exact (h.knows e he k).trans (le_max_left _ _)
    · exact of_decide_eq_true he ▸ le_max_right _ _

theorem writeAppliedMarker_eq (h : Counting log n) (d e : PgDot) (he : n.writeAppliedMarker d e = false)
    (hknown : n.markers e = true ∨ e = d) (hpos : 1 ≤ e.2) : n.savedApplied e = true := by
  obtain ⟨o,q⟩ := e
  have hprev := h.prev_le d.1
  have hin : (n.markers (o,q) || decide ((o,q) = d)) = true := by simpa using hknown
  simp only [writeAppliedMarker,hin,Bool.true_and,Bool.not_eq_false',Bool.and_eq_true,decide_eq_true_eq] at he
  obtain ⟨rfl,hle⟩ := he
  refine h.persisted d.1 q hpos ?_
  split_ifs at hle
  · omega
  · omega

section

variable (hcell : sh.cellGroup = true) (h : Counting log n)
include hcell h

theorem Counting.receive_rows (ha : n.Admits log (.deliver d)) (happ : n.applied d = false)
    (k : π) : RowSums log (insert d n.landed) k (n.receiveRow log d k).1 := by
  cases hmark : n.markers d with
  | true =>
    have hin := h.marked_landed d hmark
    rw [Finset.insert_eq_of_mem hin]
    cases hrec : (log d).records k with
    | none => simpa [receiveRow,hrec] using h.rows k
    | some rec => simpa [receiveRow,hrec,receive_single,hmark] using (h.rows k).again hcell hin hrec
  | false =>
    have hout : d ∉ n.landed := by
      intro hin
      obtain hm | hs := (h.landed_known d hin).2
      · exact absurd hm (by simp [hmark])
      · exact absurd (h.saved_applied d hs) (by simp [happ])
    cases hrec : (log d).records k with
    | none => simpa [receiveRow,hrec] using (h.rows k).absent hrec hout
    | some rec =>
      obtain ⟨hopen,hclock⟩ := ha.2 happ hmark k rec hrec
      simpa [receiveRow,hrec,receive_single,hmark] using
        (h.rows k).first hcell hout hrec hopen (h.live.le_gen k) (h.live.odd k) hclock

theorem Counting.deliver (ha : n.Admits log (.deliver d)) :
    Counting log (n.run log (.deliver d)) := by
  rw [run]
  by_cases happ : n.applied d = true
  · rwa [if_pos happ]
  rw [if_neg happ]
  refine ⟨h.receive_rows hcell ha (by simpa using happ),h.live.deliver hcell,
    h.saved.mono (Finset.subset_insert _ _),?_,?_,?_,?_,h.persisted,h.prev_le⟩
  · intro e he
    simp [h.saved_applied e he]
  · intro e he
    obtain he | he := (Bool.or_eq_true _ _).mp he
    · exact Finset.mem_insert_of_mem (h.applied_landed e he)
    · exact of_decide_eq_true he ▸ Finset.mem_insert_self _ _
  · intro e he
    split_ifs at he
    · exact Finset.mem_insert_of_mem (h.marked_landed e he)
    · simp only [writeAppliedMarker,Bool.and_eq_true,Bool.or_eq_true,decide_eq_true_eq] at he
      obtain he | rfl := he.1
      · exact Finset.mem_insert_of_mem (h.marked_landed e he)
      · exact Finset.mem_insert_self _ _
  · intro e he
    have hpos : 1 ≤ e.2 := by
      obtain rfl | he := Finset.mem_insert.mp he
      · exact ha.1
      · exact (h.landed_known e he).1
    have hknown : n.savedApplied e = true ∨ n.markers e = true ∨ e = d := by
      obtain rfl | he := Finset.mem_insert.mp he
      · exact .inr (.inr rfl)
      · exact (h.landed_known e he).2.symm.imp_right .inl
    refine ⟨hpos,?_⟩
    obtain hs | hknown := hknown
    · exact .inr hs
    dsimp only
    split_ifs with hmark
    · exact .inl (hknown.elim id fun heq => heq ▸ hmark)
    · cases hw : n.writeAppliedMarker d e with
      | true => exact .inl rfl
      | false => exact .inr (writeAppliedMarker_eq h d e hw hknown hpos)

theorem Counting.step {a : CounterAction} (ha : n.Admits log a) : Counting log (n.run log a) := by
  cases a with
  | deliver d => exact h.deliver hcell ha
  | checkpoint frontier =>
    refine ⟨h.rows,h.live,h.live,fun _ => id,h.applied_landed,h.marked_landed,?_,?_,?_⟩
    · intro d hd
      exact ⟨(h.landed_known d hd).1,(h.landed_known d hd).2.imp_right (h.saved_applied d)⟩
    · intro o q hq hle
      obtain hle | hle := le_max_iff.mp hle
      · exact h.saved_applied _ (h.persisted o q hq hle)
      · exact ha o q hq hle
    · intro o
      have := h.prev_le o
      show (if _ then _ else _) ≤ max _ _
      split_ifs <;> omega
  | crash =>
    refine ⟨h.rows,h.saved,h.saved,fun _ => id,fun d hd => h.applied_landed d (h.saved_applied d hd),
      h.marked_landed,h.landed_known,?_,fun _ => le_rfl⟩
    intro o q hq hle
    exact absurd hle (by show ¬q ≤ 0; omega)

end

theorem landed_subset {all : Finset PgDot} {acts : List CounterAction} (hn : n.landed ⊆ all)
    (hsent : ∀ d,.deliver d ∈ acts → d ∈ all) : (acts.foldl (run log) n).landed ⊆ all := by
  induction acts generalizing n with
  | nil => exact hn
  | cons a acts ih =>
    refine ih ?_ fun d hd => hsent d (by simp [hd])
    cases a with
    | deliver d =>
      rw [run]
      by_cases happ : n.applied d = true
      · rwa [if_pos happ]
      · rw [if_neg happ]
        exact Finset.insert_subset (hsent d (by simp)) hn
    | checkpoint | crash => exact hn

/-- When every changeset that was sent has been applied, the rows with records are present and their
counters hold the sums of the contributions of their generations. -/
theorem counters_exact (hcell : sh.cellGroup = true) {acts : List CounterAction}
    (hacts : Machine.Permitted (run log) (Admits log) init acts) {all : Finset PgDot}
    (hsent : ∀ d,.deliver d ∈ acts → d ∈ all)
    (hall : ∀ d ∈ all,(acts.foldl (run log) init).applied d = true) (k : π) :
    ((acts.foldl (run log) init).clocks k).cl = all.sup (fun d => clAt log d k) ∧
      ((acts.foldl (run log) init).table k = none ↔ ((acts.foldl (run log) init).clocks k).cl = 0) ∧
      ∀ r,(acts.foldl (run log) init).table k = some r → ∀ c,sh.counter c = true →
        r c = ∑ d ∈ all,share log k ((acts.foldl (run log) init).clocks k).cl c d := by
  have h : Counting log (acts.foldl (run log) init) :=
    hacts.invariant (I := Counting log) (fun _ _ h ha => h.step hcell ha) counting_init
  have hsame : (acts.foldl (run log) init).landed = all :=
    (landed_subset (Finset.empty_subset _) hsent).antisymm fun d hd => h.applied_landed d (hall d hd)
  have hcl : ((acts.foldl (run log) init).clocks k).cl = gen log all k :=
    le_antisymm (hsame ▸ h.live.le_gen k) (Finset.sup_le fun d hd => h.live.knows d (hall d hd) k)
  refine ⟨hcl,?_,fun r hr c hc => ?_⟩
  · rw [hcl,(h.rows k).present,hsame]
  · rw [hcl,(h.rows k).sums r hr c hc,hsame]

end CounterNode

namespace CounterSample

open PgFoldSample CounterNode PgValue

def shape : PgShape (Fin 2) := ⟨true,fun _ => true,fun _ => 0,fun _ _ => rfl⟩

def inserted (n : ℤ) (cl : ℕ) (h : cl%2 = 1) (a b : ℤ) : CounterSet Unit shape where
  stamp := stampAt n
  records _ := some (.insert cl (pair (some (.abs a)) (some (.abs b))))
  counted := by
    rintro _ _ ⟨⟩
    exact ⟨h,by simp [Fin.forall_fin_two,pair,isDelta],by simp [Fin.forall_fin_two,pair]⟩
  bearing := ⟨(),_,rfl,0,rfl,rfl⟩

def raised (n : ℤ) (cl : ℕ) (h : cl%2 = 1) (d : ℤ) : CounterSet Unit shape where
  stamp := stampAt n
  records _ := some (.update cl (pair (some (.delta d)) none))
  counted := by
    rintro _ _ ⟨⟩
    exact ⟨h,rfl,by simp [pair,isDelta]⟩
  bearing := ⟨(),_,rfl,0,rfl,rfl⟩

def log : PgDot → CounterSet Unit shape
  | (_,1) => inserted 1 1 rfl 5 7
  | (_,2) => raised 2 1 rfl 3
  | (_,3) => raised 3 3 rfl 2
  | _ => inserted 4 3 rfl 0 0

def cells (acts : List CounterAction) : Option (ℤ × ℤ) :=
  ((acts.foldl (run log) init).table ()).map fun r => (r 0,r 1)

/-- The insert is delivered again before the update arrives. -/
def redelivered : List CounterAction := [.deliver (1,1),.crash,.deliver (1,1),.deliver (1,2)]

theorem redelivered_exact :
    cells redelivered = some (8,7) ∧ ((redelivered.foldl (run log) init).clocks ()).cl =
        ({(1,1),(1,2)} : Finset PgDot).sup (fun d => clAt log d ()) ∧
      ((redelivered.foldl (run log) init).table () = none ↔
        ((redelivered.foldl (run log) init).clocks ()).cl = 0) ∧
      ∀ r,(redelivered.foldl (run log) init).table () = some r → ∀ c,shape.counter c = true →
        r c = ∑ d ∈ {(1,1),(1,2)},share log () ((redelivered.foldl (run log) init).clocks ()).cl c d := by
  have hacts : Machine.Permitted (run log) (Admits log) init redelivered := by
    refine ⟨⟨le_rfl,?_⟩,trivial,⟨le_rfl,?_⟩,⟨by decide,?_⟩,trivial⟩
    · rintro - - ⟨⟩ _ ⟨⟩
      exact ⟨trivial,.inl (by decide)⟩
    · intro _ h
      exact absurd h (by decide)
    · rintro - - ⟨⟩ _ ⟨⟩
      exact ⟨fun h => absurd h (by decide),.inl (by decide)⟩
  refine ⟨by decide,counters_exact rfl hacts ?_ (by decide) ()⟩
  intro d hd
  simp only [redelivered,List.mem_cons,CounterAction.deliver.injEq,reduceCtorEq,List.not_mem_nil,or_false,
    false_or] at hd
  obtain rfl | rfl | rfl := hd <;> decide

/-- After a crash the first update of the generation that arrives is taken for its opening. Without
one, an update that opens a generation leaves the other counter at its old value, to which the
insert adds. -/
theorem contributions_lost :
    cells [.deliver (1,1),.crash,.deliver (1,2),.deliver (1,1)] = some (3,7) ∧
      (∑ d ∈ {(1,1),(1,2)},share log () 1 0 d) = 8 ∧
      cells [.deliver (1,1),.deliver (1,3),.deliver (1,4)] = some (2,7) ∧
      (∑ d ∈ {(1,1),(1,3),(1,4)},share log () 3 1 d) = 0 := by
  decide

end CounterSample

end Syzy.Pg
