import Mathlib.Data.List.Sort
import Syzy.Catalog
import Syzy.RowEvents

/-!
The touch buffer of one transaction: what SQLite's preupdate hook reports of each row event, the
drain's folding of the reports per table and rowid, and the evidence it derives from each fold.
-/

namespace Syzy

/-- The values of a row in the order of its table's columns. -/
abbrev Image := List ColValue

/-- Where a table keeps a row: at its rowid, or in a `WITHOUT ROWID` table at its key. -/
inductive RowAddress where
  | rowid (r : ℤ)
  | key (pk : PKBlob)
deriving DecidableEq

structure RowPlace where
  db : String
  table : TableID
  address : RowAddress
deriving DecidableEq

abbrev RowEvent := RowEvents.Event RowPlace Image

/-- The rowid SQLite reports; a `WITHOUT ROWID` table has none. -/
def RowPlace.reportedRowid (q : RowPlace) : ℤ :=
  match q.address with
  | .rowid r => r
  | .key _ => 0

inductive TouchOp where
  | insert
  | update
  | delete
deriving DecidableEq

structure TouchRec where
  op : TouchOp
  oldRowID : ℤ
  newRowID : ℤ
  dbName : String
  table : TableID
  values : Image
  newValues : Image

def journalAppendPreupdate : RowEvent → TouchRec
  | .insert q n => ⟨.insert,q.reportedRowid,q.reportedRowid,q.db,q.table,n,[]⟩
  | .update q q' o n => ⟨.update,q.reportedRowid,q'.reportedRowid,q.db,q.table,o,n⟩
  | .delete q o => ⟨.delete,q.reportedRowid,q.reportedRowid,q.db,q.table,o,[]⟩

namespace TouchRec

variable (r : TouchRec)

def rowid : ℤ := if r.op = .insert then r.newRowID else r.oldRowID

def newVals : Option Image :=
  match r.op with
  | .insert => some r.values
  | .update => some r.newValues
  | .delete => none

def oldVals : Option Image := if r.op = .insert then none else some r.values

end TouchRec

def assignColumnIDs : List Column → Image → Image
  | c::cs,v::vs => { v with column := c.id }::assignColumnIDs cs vs
  | _,vs => vs

structure Touched where
  firstOp : TouchOp
  firstOld : Option Image
  lastOp : TouchOp
  lastNew : Option Image

structure DedupSlot where
  table : TableID
  rowid : ℤ
  t : Touched

def touchedOf (tab : Table) (r : TouchRec) : Touched where
  firstOp := r.op
  firstOld := r.oldVals.map (assignColumnIDs tab.columns)
  lastOp := r.op
  lastNew := r.newVals.map (assignColumnIDs tab.columns)

/-- A later report of the same slot replaces the last one. -/
def DedupSlot.again (tab : Table) (r : TouchRec) (s : DedupSlot) : DedupSlot :=
  if s.rowid = r.rowid ∧ s.table = r.table then
    { s with t := { s.t with
      lastOp := r.op
      lastNew := r.newVals.map (assignColumnIDs tab.columns) } }
  else s

def dedupTouch (cat : Catalog) (slots : List DedupSlot) (r : TouchRec) : List DedupSlot :=
  if r.dbName ≠ "main" then slots
  else match cat.tableByID r.table with
    | none => slots
    | some tab =>
      if ∃ s ∈ slots,s.rowid = r.rowid ∧ s.table = r.table then slots.map (DedupSlot.again tab r)
      else slots++[⟨r.table,r.rowid,touchedOf tab r⟩]

def appendUvarint (n : ℕ) : Bytes :=
  if n < 128 then [Fin.ofNat 256 n] else Fin.ofNat 256 (n%128+128)::appendUvarint (n/128)
termination_by n

/-- One member of a key tuple; `NULL` has no canonical form. -/
def appendValue (v : ColValue) : Option Bytes :=
  if v.typeTag = colNull ∨ 255 < v.typeTag then none
  else some (beBytes 16 v.column++Fin.ofNat 256 v.typeTag::(appendUvarint v.bytes.length++v.bytes))

namespace Table

variable (t : Table) (cols : Image) (id : ColumnID)

def pk : List Column :=
  (t.columns.filter fun c => 0 < c.pkPos).insertionSort fun a b => a.pkPos ≤ b.pkPos

def colIndex : Option ℕ := t.columns.findIdx? fun c => c.id = id

def memberOf : Option ColValue :=
  (t.colIndex id).bind fun i => cols[i]?

def encodePKFromSlice : Option PKBlob :=
  (t.pk.mapM fun c => (t.memberOf cols c.id).bind fun v => appendValue { v with column := c.id }).map
    List.flatten

end Table

def fullImageSlice : List Column → Image → Image
  | c::cs,v::vs =>
    if 0 < c.pkPos then fullImageSlice cs vs else { v with column := c.id }::fullImageSlice cs vs
  | _,_ => []

def colValueEqual (a b : ColValue) : Bool := a.typeTag = b.typeTag ∧ a.bytes = b.bytes

def changedColumnsSlice : List Column → Image → Image → Image
  | c::cs,o::os,n::ns =>
    if 0 < c.pkPos ∨ colValueEqual o n then changedColumnsSlice cs os ns
    else { n with column := c.id }::changedColumnsSlice cs os ns
  | _,_,_ => []

def counterInt (v : ColValue) : Option ℤ :=
  if v.typeTag ≠ colInt ∨ v.bytes.length ≠ 8 then none else some (int64OfBytes v.bytes)

/-- The checked difference of two counter cells, as a contribution. -/
def counterDelta (old new : ColValue) : Option ColValue :=
  match counterInt old,counterInt new with
  | some o,some n =>
    let delta := (n-o).bmod (2^64)
    if (0 < o ∧ n < delta) ∨ (o < 0 ∧ delta < n) then none
    else some ⟨new.column,colInt,.delta,encodeInt64 delta⟩
  | _,_ => none

/-- Turn the entry of one counter column into its contribution. -/
def counterDeltaAt (c : Column) (old new : ColValue) (changed : Image) : Option Image :=
  if ¬c.counter ∨ ¬∃ v ∈ changed,v.column = c.id then some changed
  else (counterDelta old new).map fun d =>
    changed.map fun v => if v.column = c.id then { d with column := c.id } else v

def counterDeltasInPlace : List Column → Image → Image → Image → Option Image
  | c::cs,o::os,n::ns,changed =>
    (counterDeltaAt c o n changed).bind (counterDeltasInPlace cs os ns)
  | _,_,_,changed => some changed

inductive RecordEvidence where
  | insert (key : RowKey) (image : Image)
  | update (key : RowKey) (changed : Image)
  | delete (key : RowKey)
  | updatePKChange (oldKey newKey : RowKey) (image : Image)
  | blobPatch (key : RowKey) (col : ColumnID) (ranges : List PatchRange)
deriving DecidableEq

inductive CaptureError where
  | noNewValues
  | noOldValues
  | badKey
  | counterValue
deriving DecidableEq

def encodeKey (tab : Table) (cols : Image) : Except CaptureError RowKey :=
  (tab.encodePKFromSlice cols).elim (.error .badKey) fun pk => .ok ⟨tab.id,pk⟩

/-- The update of a row that keeps its key: a row-group table ships the full image, a cell-group
table the changed columns with its counters as contributions. -/
def evidenceForUpdate (tab : Table) (key : RowKey) (old new : Image) :
    Except CaptureError (Option RecordEvidence) :=
  let changed := changedColumnsSlice tab.columns old new
  if changed = [] then .ok none
  else if ¬tab.cellGroup then .ok (some (.update key (fullImageSlice tab.columns new)))
  else if tab.hasCounters then
    (counterDeltasInPlace tab.columns old new changed).elim (.error .counterValue)
      fun deltas => .ok (some (.update key deltas))
  else .ok (some (.update key changed))

/-- The net effect of one row's observations; nothing when they cancel out. -/
def evidenceForTouched (tab : Table) (t : Touched) : Except CaptureError (Option RecordEvidence) :=
  match t.firstOp,t.firstOld,t.lastOp,t.lastNew with
  | .insert,_,.delete,_ => .ok none
  | .insert,_,_,none => .error .noNewValues
  | .insert,_,_,some new => do
    let key ← encodeKey tab new
    return some (.insert key new)
  | _,none,_,_ => .error .noOldValues
  | _,some old,.delete,_ => do
    let key ← encodeKey tab old
    return some (.delete key)
  | .delete,some old,_,some new => do
    let oldKey ← encodeKey tab old
    let newKey ← encodeKey tab new
    return some (.updatePKChange oldKey newKey new)
  | .update,some old,_,some new => do
    let oldKey ← encodeKey tab old
    let newKey ← encodeKey tab new
    if oldKey ≠ newKey then return some (.updatePKChange oldKey newKey new)
    evidenceForUpdate tab newKey old new
  | _,some _,_,none => .error .noNewValues

/-- The evidence of one slot, under the table it was captured in. -/
def slotEvidence (cat : Catalog) (s : DedupSlot) : Except CaptureError (Option RecordEvidence) :=
  (cat.tableByID s.table).elim (.ok none) fun tab => evidenceForTouched tab s.t

/-- The evidence of a transaction's row events, slot by slot in the order they were first touched. -/
def buildRecordEvidence (cat : Catalog) (recs : List TouchRec) : Except CaptureError (List RecordEvidence) := do
  let evs ← (recs.foldl (dedupTouch cat) []).mapM (slotEvidence cat)
  return evs.reduceOption

end Syzy
