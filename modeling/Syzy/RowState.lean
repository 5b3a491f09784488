import Syzy.FinMap
import Syzy.Interval

/-!
The clock state of one row. `cl` is the causal length: zero before the first write, odd while the
row lives, even once it is deleted. `cells` and `ranges` override `base` for single columns and
byte ranges of the current generation; an absent Go map is the empty one.
-/

namespace Syzy

structure RowKey where
  table : TableID
  pk : PKBlob
deriving DecidableEq

structure RowState where
  cl : ℕ
  base : Stamp
  cells : FinMap ColumnID Stamp
  ranges : FinMap ColumnID IntervalMap
deriving DecidableEq

instance : Inhabited RowState := ⟨⟨0,Stamp.zero,∅,∅⟩⟩

namespace RowState

def ofBase (cl : ℕ) (base : Stamp) : RowState := ⟨cl,base,∅,∅⟩

@[simp] theorem default_cl : (default : RowState).cl = 0 := rfl
section

variable (cl : ℕ) (base : Stamp)

@[simp] theorem ofBase_cl : (ofBase cl base).cl = cl := rfl
@[simp] theorem ofBase_base : (ofBase cl base).base = base := rfl
@[simp] theorem ofBase_cells : (ofBase cl base).cells = ∅ := rfl
@[simp] theorem ofBase_ranges : (ofBase cl base).ranges = ∅ := rfl

end

def isLive (r : RowState) : Bool := 0 < r.cl ∧ r.cl%2 = 1
def isTombstoned (r : RowState) : Bool := 0 < r.cl ∧ r.cl%2 = 0

variable {cl : ℕ} {r : RowState} {s : Stamp}

theorem isLive_iff : r.isLive = true ↔ r.cl%2 = 1 := by
  simp only [isLive,decide_eq_true_eq]
  omega

def version (r : RowState) : ℕ ×ₗ Stamp := toLex (r.cl,r.base)

@[simp] theorem version_ofBase (cl : ℕ) (base : Stamp) :
    (ofBase cl base).version = toLex (cl,base) := rfl

def dominatedBy (r : RowState) (incCL : ℕ) (inc : Stamp) : Bool :=
  if incCL ≠ r.cl then r.cl < incCL else inc.dominates r.base

theorem dominatedBy_iff :
    r.dominatedBy cl s = true ↔ r.version < toLex (cl,s) := by
  rw [version,Prod.Lex.toLex_lt_toLex]
  by_cases h : cl = r.cl
  · simp [dominatedBy,h,Stamp.dominates_iff]
  · have h' : r.cl ≠ cl := fun e => h e.symm
    simp [dominatedBy,h,h']

theorem not_dominatedBy_iff :
    r.dominatedBy cl s = false ↔ toLex (cl,s) ≤ r.version := by
  rw [← Bool.not_eq_true,dominatedBy_iff,not_lt]

def nextLiveCL (r : RowState) : ℕ := if r.isLive then r.cl else r.cl+1
def nextTombCL (r : RowState) : ℕ := if r.isLive then r.cl+1 else r.cl

theorem le_nextLiveCL (r : RowState) : r.cl ≤ r.nextLiveCL := by
  unfold nextLiveCL
  split_ifs <;> omega

theorem le_nextTombCL (r : RowState) : r.cl ≤ r.nextTombCL := by
  unfold nextTombCL
  split_ifs <;> omega

/-- The stamp that governs a column, or a byte of it when the range is not empty. -/
def effectiveStamp (r : RowState) (col : ColumnID) (rng : ByteRange) : Stamp :=
  match rng.empty,r.ranges.lookup col,r.cells.lookup col with
  | false,some im,_ => im.stampAt rng.start
  | _,_,some cs => cs
  | _,_,none => r.base

def columnStamp (r : RowState) (col : ColumnID) : Stamp := r.effectiveStamp col ⟨0,0⟩

theorem columnStamp_eq (r : RowState) (col : ColumnID) :
    r.columnStamp col = (r.cells.lookup col).getD r.base := by
  unfold columnStamp effectiveStamp
  cases r.cells.lookup col <;> simp [ByteRange.empty]

end RowState

end Syzy
