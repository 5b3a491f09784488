import Mathlib.Algebra.GroupWithZero.Nat
import Mathlib.Data.Prod.Lex
import Mathlib.Order.Basic
import Syzy.Machine

/-! Dots, hybrid logical clocks and the stamps every last-writer-wins decision compares. -/

namespace Syzy

abbrev Byte := Fin 256
abbrev Bytes := List Byte
instance byteNeZero : NeZero 256 := ⟨by decide⟩

abbrev Origin := ℕ
abbrev Seq := UInt64
abbrev TableID := ℕ
abbrev ColumnID := ℕ
abbrev KeyID := ℕ
abbrev PKBlob := Bytes

instance : LinearOrder Seq where
  le_refl := UInt64.le_refl
  le_trans _ _ _ := UInt64.le_trans
  le_antisymm _ _ := UInt64.le_antisymm
  le_total := UInt64.le_total
  lt_iff_le_not_ge _ _ := by
    simp only [UInt64.lt_iff_toNat_lt,UInt64.le_iff_toNat_le]
    omega
  toDecidableLE := inferInstance

/-- One changeset's identity: the origin that committed it and its place in that origin's order. -/
structure Dot where
  origin : Origin
  seq : Seq
deriving DecidableEq

structure Clock where
  wallTime : ℤ
  logical : ℤ
deriving DecidableEq

instance : Inhabited Clock := ⟨⟨0,0⟩⟩

namespace Clock

def toLexKey (c : Clock) : ℤ ×ₗ ℤ := toLex (c.wallTime,c.logical)

theorem toLexKey_injective : Function.Injective toLexKey := by
  rintro ⟨w,l⟩ ⟨w',l'⟩ h
  simpa [toLexKey] using h

instance : LinearOrder Clock := LinearOrder.lift' toLexKey toLexKey_injective

def less (c other : Clock) : Bool :=
  if c.wallTime ≠ other.wallTime then c.wallTime < other.wallTime else c.logical < other.logical

theorem less_iff {c other : Clock} : c.less other = true ↔ c < other := by
  change _ ↔ toLexKey c < toLexKey other
  rw [toLexKey,toLexKey,Prod.Lex.toLex_lt_toLex]
  unfold less
  split_ifs with h
  · simp [h]
  · have heq : c.wallTime = other.wallTime := not_not.mp h
    simp [heq]

def forward (c other : Clock) : Clock := if c.less other then other else c

theorem forward_eq_max (c other : Clock) : c.forward other = max c other := by
  unfold forward
  by_cases h : c < other
  · rw [if_pos (less_iff.mpr h),max_eq_right h.le]
  · rw [if_neg (mt less_iff.mp h),max_eq_left (not_lt.mp h)]

end Clock

/-- A clock reading made unique by the origin that took it. -/
structure Stamp where
  clock : Clock
  origin : Origin
deriving DecidableEq

instance : Inhabited Stamp := ⟨⟨⟨0,0⟩,0⟩⟩

namespace Stamp

def zero : Stamp := default

def toLexKey (s : Stamp) : Clock ×ₗ ℕ := toLex (s.clock,s.origin)

theorem toLexKey_injective : Function.Injective toLexKey := by
  rintro ⟨c,o⟩ ⟨c',o'⟩ h
  simpa [toLexKey] using h

instance : LinearOrder Stamp := LinearOrder.lift' toLexKey toLexKey_injective

def dominates (a b : Stamp) : Bool :=
  if a.clock.wallTime ≠ b.clock.wallTime then b.clock.wallTime < a.clock.wallTime
  else if a.clock.logical ≠ b.clock.logical then b.clock.logical < a.clock.logical
  else b.origin < a.origin

theorem dominates_iff {a b : Stamp} : a.dominates b = true ↔ b < a := by
  change _ ↔ toLexKey b < toLexKey a
  rw [toLexKey,toLexKey,Prod.Lex.toLex_lt_toLex,← Clock.less_iff]
  unfold dominates Clock.less
  by_cases hw : a.clock.wallTime = b.clock.wallTime
  · by_cases hl : a.clock.logical = b.clock.logical
    · have hc : a.clock = b.clock := by
        cases ha : a.clock
        cases hb : b.clock
        simp_all
      simp [hc]
    · have hc : b.clock ≠ a.clock := fun h => hl (by rw [h])
      simp [hw,hl,hc]
  · have hw' : b.clock.wallTime ≠ a.clock.wallTime := fun h => hw h.symm
    have hc : b.clock ≠ a.clock := fun h => hw (by rw [h])
    simp [hw,hw',hc]

theorem not_dominates_iff {a b : Stamp} : a.dominates b = false ↔ a ≤ b := by
  rw [← Bool.not_eq_true,dominates_iff,not_lt]

end Stamp

end Syzy
