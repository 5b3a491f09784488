import Syzy.BlobReconcile

/-! The stamp that governs a byte of a column: range entry, column override, base of the row. -/

namespace Syzy

open List IntervalMap

namespace RowState

variable {r : RowState} {col : ColumnID} {off : ℕ} {rng : ByteRange}

/-- The documented fall-through from the entry that covers the byte over the column to the base. -/
def layeredStamp (r : RowState) (col : ColumnID) (off : ℕ) : Stamp :=
  match (r.ranges.lookup col).bind fun m => m.find? fun e => e.range.Covers off with
  | some e => e.stamp
  | none => (r.cells.lookup col).getD r.base

def MapsWellFormed (r : RowState) : Prop :=
  ∀ col m,r.ranges.lookup col = some m → ∃ n,WellFormed n m

/-- No override of the row is dominated by its base. -/
structure AboveBase (r : RowState) : Prop where
  cells : ∀ col s,r.cells.lookup col = some s → r.base ≤ s
  ranges : ∀ col m,r.ranges.lookup col = some m → ∀ e ∈ m,r.base ≤ e.stamp

theorem AboveBase.layeredStamp (h : r.AboveBase) : r.base ≤ r.layeredStamp col off := by
  unfold RowState.layeredStamp
  split
  · next e he =>
    obtain ⟨m,hm,he⟩ := Option.bind_eq_some_iff.mp he
    exact h.ranges col m hm e (mem_of_find?_eq_some he)
  · cases hc : r.cells.lookup col with
    | none => exact le_rfl
    | some s => exact h.cells col s hc

theorem stampAt_of_find {m : IntervalMap} {n : ℕ} (h : WellFormed n m) {e : IntervalEntry}
    (he : m.find? (fun e => e.range.Covers off) = some e) : m.stampAt off = e.stamp := by
  have hcov : e.range.Covers off := by simpa using find?_some he
  have hin : stampIn m off = e.stamp :=
    (stampIn_eq_iff h.ascending).mpr ⟨e,mem_of_find?_eq_some he,hcov,rfl⟩
  rw [stampAt_eq h.ascending,hin]
  rfl

theorem stampAt_uncovered {m : IntervalMap} {n : ℕ} (h : WellFormed n m)
    (hcov : ¬∃ e ∈ m,e.range.Covers off) : m.stampAt off = Stamp.zero := by
  rw [stampAt_eq h.ascending]
  cases hs : stampIn m off with
  | bot => rfl
  | coe s =>
    obtain ⟨e,he,hc,-⟩ := (stampIn_eq_iff h.ascending).mp hs
    exact absurd ⟨e,he,hc⟩ hcov

/-- An entry of the column's map covers the byte, or the stamp that the map hides is zero. -/
def Answers (r : RowState) (col : ColumnID) (off : ℕ) : Prop :=
  ∀ m,r.ranges.lookup col = some m →
    (∃ e ∈ m,e.range.Covers off) ∨ (r.cells.lookup col).getD r.base = Stamp.zero

theorem effectiveStamp_eq_iff (hr : r.MapsWellFormed) (hrng : rng.empty = false) :
    r.effectiveStamp col rng = r.layeredStamp col rng.start ↔ r.Answers col rng.start := by
  unfold effectiveStamp layeredStamp Answers
  cases hm : r.ranges.lookup col with
  | none => cases hc : r.cells.lookup col <;> simp [hrng]
  | some m =>
    obtain ⟨n,hn⟩ := hr col m hm
    cases he : m.find? fun e => e.range.Covers rng.start with
    | some e =>
      have hcov : ∃ e ∈ m,e.range.Covers rng.start :=
        ⟨e,mem_of_find?_eq_some he,by simpa using find?_some he⟩
      simp [hrng,he,stampAt_of_find hn he,hcov]
    | none =>
      have hcov : ¬∃ e ∈ m,e.range.Covers rng.start := by simpa using he
      simp [hrng,he,stampAt_uncovered hn hcov,hcov,eq_comm]

theorem effectiveStamp_layered (hr : r.MapsWellFormed) (hrng : rng.empty = false) :
    (r.effectiveStamp col rng = r.layeredStamp col rng.start ↔ r.Answers col rng.start) ∧
      (r.Answers col rng.start → r.AboveBase →
        r.base.dominates (r.effectiveStamp col rng) = false) := by
  refine ⟨effectiveStamp_eq_iff hr hrng,fun hans habove => ?_⟩
  rw [(effectiveStamp_eq_iff hr hrng).mpr hans,← Bool.not_eq_true,Stamp.dominates_iff,not_lt]
  exact habove.layeredStamp

end RowState

namespace LayerSample

def stamp (t : ℤ) : Stamp := ⟨⟨t,0⟩,1⟩

/-- A row written as a whole, with a patch of the first byte of column 7. -/
def row : RowState := ⟨1,stamp 5,∅,Finmap.singleton 7 [⟨⟨0,1⟩,stamp 9⟩]⟩

theorem row_ranges {col : ColumnID} {m : IntervalMap} (h : row.ranges.lookup col = some m) :
    m = [⟨⟨0,1⟩,stamp 9⟩] := by
  obtain rfl := (Finmap.mem_singleton _ _ _).mp (Finmap.mem_of_lookup_eq_some h)
  cases h
  rfl

theorem row_maps : row.MapsWellFormed := fun col m hm => by
  rw [row_ranges hm]
  exact ⟨1,⟨le_rfl,Nat.one_pos,le_rfl⟩,trivial⟩

theorem row_aboveBase : row.AboveBase := by
  refine ⟨fun col s hs => by simp [row] at hs,fun col m hm => ?_⟩
  rw [row_ranges hm]
  decide

theorem patched_byte :
    row.effectiveStamp 7 ⟨0,3⟩ = row.layeredStamp 7 0 ∧
      row.base.dominates (row.effectiveStamp 7 ⟨0,3⟩) = false := by
  have hans : row.Answers 7 0 := fun m hm => by
    rw [row_ranges hm]
    exact .inl ⟨_,mem_cons_self,by decide⟩
  have hlayered := @RowState.effectiveStamp_layered row 7 ⟨0,3⟩ row_maps rfl
  exact ⟨hlayered.1.mpr hans,hlayered.2 hans row_aboveBase⟩

/-- Behind the patch the map answers zero, which the base of the row dominates. -/
theorem uncovered_byte_zero :
    row.MapsWellFormed ∧ row.AboveBase ∧ row.layeredStamp 7 1 = row.base ∧
      row.effectiveStamp 7 ⟨1,2⟩ = Stamp.zero ∧
      row.base.dominates (row.effectiveStamp 7 ⟨1,2⟩) = true := by
  exact ⟨row_maps,row_aboveBase,rfl,rfl,rfl⟩

end LayerSample

end Syzy
