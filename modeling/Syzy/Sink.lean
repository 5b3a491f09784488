import Syzy.Apply
import Syzy.Touch

/-!
The drain's materialisation of one commit: records with their causal lengths from the evidence of
its rows, and the clock updates that go with them. Row states are read through the batch's own map,
which holds what earlier records of the batch decided.
-/

namespace Syzy

/-- The scratch a batch builds its changesets in. -/
structure SinkBatch where
  rowState : RowKey → RowState
  records : List Record
  clocks : List RowClockUpdate
  cellClocks : List CellClockUpdate

namespace SinkBatch

variable (b : SinkBatch) (cat : Catalog) (stamp : Stamp)

def new (rowState : RowKey → RowState) : SinkBatch := ⟨rowState,[],[],[]⟩

def setRowState (k : RowKey) (st : RowState) : SinkBatch :=
  { b with rowState := Function.update b.rowState k st }

/-- Add a record that takes its row to a state of its own. -/
def emit (r : Record) (st : RowState) (clearCells : Bool) : SinkBatch :=
  { b.setRowState r.key st with
    records := b.records++[r]
    clocks := b.clocks++[⟨r.key,st,clearCells⟩] }

/-- A cell-group update that leaves columns out moves the carried columns' stamps only. -/
def emitCells (k : RowKey) (cl : ℕ) (changed : Image) (stamp : Stamp) : SinkBatch :=
  let cur := b.rowState k
  { b.setRowState k (if cur.cl < cl then .ofBase cl Stamp.zero else cur) with
    records := b.records++[.update k cl changed]
    clocks := if cur.cl < cl then b.clocks++[⟨k,.ofBase cl Stamp.zero,true⟩] else b.clocks
    cellClocks := b.cellClocks++
      (changed.filter fun v => v.format ≠ .delta).map fun v => ⟨k,v.column,stamp⟩ }

def buildRecord (b : SinkBatch) : RecordEvidence → SinkBatch
  | .insert k image =>
    let cl := (b.rowState k).nextLiveCL
    b.emit (.insert k cl image) (.ofBase cl stamp) false
  | .update k changed =>
    let cl := (b.rowState k).nextLiveCL
    if (cat.tableByID k.table).any fun tab => tab.cellGroup && !coversAllNonPK tab changed
    then b.emitCells k cl changed stamp
    else b.emit (.update k cl changed) (.ofBase cl stamp) ((b.rowState k).cells ≠ ∅)
  | .delete k =>
    let cl := (b.rowState k).nextTombCL
    b.emit (.delete k cl) (.ofBase cl stamp) false
  | .updatePKChange oldKey newKey image =>
    let tomb := (b.rowState oldKey).nextTombCL
    let live := (b.rowState newKey).nextLiveCL
    (b.emit (.delete oldKey tomb) (.ofBase tomb stamp) false).emit
      (.insert newKey live image) (.ofBase live stamp) false
  | .blobPatch k col ranges =>
    let cl := (b.rowState k).cl
    { b with records := b.records++[.blobPatch k (if cl = 0 then 1 else cl) col ranges] }

def buildRecords (b : SinkBatch) (evs : List RecordEvidence) : SinkBatch :=
  evs.foldl (buildRecord cat stamp) b

end SinkBatch

end Syzy
