import Mathlib.Data.Fintype.Basic
import Syzy.Identity

/-!
One row of a Postgres table with its clock, and what an inbound record makes of them. Row-group tables
arbitrate whole rows, cell-group tables single columns, and counter columns sum.
-/

namespace Syzy.Pg

/-- The columns of a table outside its primary key; `fill` is what an `INSERT` puts where it has no
value. -/
structure PgShape (κ : Type) where
  cellGroup : Bool
  counter : κ → Bool
  fill : κ → ℤ
  counters_cell : ∀ c,counter c = true → cellGroup = true

/-- A column's value on the wire: absolute, or a contribution to a counter. -/
inductive PgValue
  | abs (v : ℤ)
  | delta (d : ℤ)
deriving DecidableEq

namespace PgValue

def isDelta : PgValue → Bool
  | abs _ => false
  | delta _ => true

def opening : PgValue → ℤ
  | abs v => v
  | delta d => d

def onto (x : ℤ) : PgValue → ℤ
  | abs v => v
  | delta d => x+d

end PgValue

abbrev PgImage (κ : Type) := κ → ℤ

abbrev PgPatch (κ : Type) := κ → Option PgValue

inductive PgRecord (κ : Type)
  | insert (cl : ℕ) (image : PgPatch κ)
  | update (cl : ℕ) (changed : PgPatch κ)
  | delete (cl : ℕ)

def PgRecord.cl {κ : Type} : PgRecord κ → ℕ
  | insert cl _ => cl
  | update cl _ => cl
  | delete cl => cl

/-- The clock of one row; a column without an override has the row's stamp. -/
@[ext] structure RowClock (κ : Type) where
  cl : ℕ
  base : Stamp
  cells : κ → Option Stamp

namespace RowClock

variable {κ : Type} (k : RowClock κ) (cl : ℕ) (s : Stamp)

def zero : RowClock κ := ⟨0,Stamp.zero,fun _ => none⟩

def isLive : Bool := k.cl%2 = 1

def nextLiveCL : ℕ := if k.isLive then k.cl else k.cl+1

/-- The generation of a local delete; a row that is not live gets the next tombstone. -/
def tombCL : ℕ := if k.isLive then k.cl+1 else k.cl+2-k.cl%2

def dominatedBy : Bool := if cl ≠ k.cl then k.cl < cl else s.dominates k.base

def effectiveStamp (c : κ) : Stamp := (k.cells c).getD k.base

def putRowState : RowClock κ :=
  if k.dominatedBy cl s then ⟨cl,s,if k.cl < cl then fun _ => none else k.cells⟩ else k

/-- The same, with the overrides cleared when it lands. -/
def putCleared : RowClock κ := if k.dominatedBy cl s then ⟨cl,s,fun _ => none⟩ else k

def putCellStamps (p : κ → Bool) : RowClock κ :=
  { k with cells := fun c => if p c && s.dominates (k.effectiveStamp c) then some s else k.cells c }

end RowClock

variable {κ : Type} [Fintype κ]

namespace PgPatch

variable (p : PgPatch κ)

def hasCounter : Bool := decide (∃ c,(p c).any PgValue.isDelta = true)

def covers : Bool := decide (∀ c,(p c).isSome = true)

def empty : Bool := decide (∀ c,(p c).isNone = true)

end PgPatch

def PgShape.hasCounters (sh : PgShape κ) : Bool := decide (∃ c,sh.counter c = true)

def counterDeltas (sh : PgShape κ) (p : PgPatch κ) : PgPatch κ := fun c =>
  (p c).map fun v => if sh.counter c then .delta v.opening else v

/-- The rendered write: an absent row is created, a present one keeps what the image leaves out, and
its counters if they have been counted already. -/
def upsertRow (sh : PgShape κ) (keepCounters : Bool) (p : PgPatch κ) : Option (PgImage κ) → PgImage κ
  | none => fun c => (p c).elim (sh.fill c) PgValue.opening
  | some r => fun c => (p c).elim (r c) fun v => if keepCounters && sh.counter c then r c else v.onto (r c)

/-- A same-generation insert on a live row of a cell-group table is an update of its columns. -/
def asCellUpdate (sh : PgShape κ) (rs : RowClock κ) : PgRecord κ → Option (ℕ × PgPatch κ)
  | .update cl p => some (cl,p)
  | .insert cl p => if rs.isLive && cl = rs.cl then some (cl,counterDeltas sh p) else none
  | .delete _ => none

abbrev PgOutcome (κ : Type) := Option (PgImage κ) × (RowClock κ → RowClock κ)

/-- Columns win one by one within a generation; a new generation takes every column, and its
contributions open the counters. -/
def applyCellUpdate (sh : PgShape κ) (stamp : Stamp) (certified : Bool) (rs : RowClock κ)
    (row : Option (PgImage κ)) (cl : ℕ) (p : PgPatch κ) : PgOutcome κ :=
  if p.empty then (row,if rs.cl < cl then fun k => k.putCleared cl Stamp.zero else id)
  else
    let winners : PgPatch κ :=
      if rs.cl < cl then fun c => (p c).map fun v => .abs v.opening
      else fun c => (p c).filter fun v => v.isDelta || stamp.dominates (rs.effectiveStamp c)
    if PgPatch.empty winners then (row,id)
    else
      (some (upsertRow sh certified winners row),
        if PgPatch.covers winners then fun k => k.putCleared cl stamp
        else fun k => (if rs.cl < cl then k.putCleared cl Stamp.zero else k).putCellStamps stamp fun c =>
          (winners c).isSome && !sh.counter c)

def insertImage (sh : PgShape κ) (certified : Bool) (rs : RowClock κ) (cl : ℕ) (p : PgPatch κ)
    (row : Option (PgImage κ)) : PgImage κ :=
  if certified && sh.hasCounters then upsertRow sh true p row
  else if sh.hasCounters && !rs.isLive && cl = rs.nextLiveCL then
    upsertRow sh false (counterDeltas sh p) row
  else upsertRow sh false p row

/-- One inbound record on a row whose clock was `rs` when its changeset began. -/
def applyRecord (sh : PgShape κ) (stamp : Stamp) (certified : Bool) (rs : RowClock κ)
    (row : Option (PgImage κ)) (rec : PgRecord κ) : PgOutcome κ :=
  match if sh.cellGroup then asCellUpdate sh rs rec else none with
  | some (cl,p) =>
    if cl < rs.cl || (!p.hasCounter && !rs.dominatedBy cl stamp) then (row,id)
    else applyCellUpdate sh stamp certified rs row cl p
  | none =>
    if rs.dominatedBy rec.cl stamp then
      (match rec with
        | .insert cl p => some (insertImage sh certified rs cl p row)
        | .update _ p => some (upsertRow sh false p row)
        | .delete _ => none,fun k => k.putRowState rec.cl stamp)
    else (row,id)

/-- The records that a changeset has for one row; clocks are written when it commits. -/
def applyRecords (sh : PgShape κ) (stamp : Stamp) (certified : Bool) (rs : RowClock κ) :
    Option (PgImage κ) → List (PgRecord κ) → PgOutcome κ
  | row,[] => (row,id)
  | row,rec::recs =>
    let out := applyRecord sh stamp certified rs row rec
    let rest := applyRecords sh stamp certified rs out.1 recs
    (rest.1,rest.2 ∘ out.2)

def receive (sh : PgShape κ) (stamp : Stamp) (certified : Bool) (x : Option (PgImage κ) × RowClock κ)
    (recs : List (PgRecord κ)) : Option (PgImage κ) × RowClock κ :=
  let out := applyRecords sh stamp certified x.2 x.1 recs
  (out.1,out.2 x.2)

end Syzy.Pg
