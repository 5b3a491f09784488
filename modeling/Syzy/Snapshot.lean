import Syzy.Cache

/-!
Snapshot passes. A pass captures what changed in the cache since the last one, writes it to the
metadata store in one transaction and then clears the dirty marks that the write covered, while the
cache may have moved on. A restart loads the cache from the store.
-/

namespace Syzy

structure RowClockEntry where
  cl : ℕ
  base : Stamp
deriving DecidableEq

/-- The tables of the metadata store that hold the cache's state. -/
structure Meta where
  senderSeqs : FinMap Origin Seq
  hlcLast : Clock
  frontier : FinMap Origin FrontierEntry
  rowClocks : FinMap RowKey RowClockEntry
  cellClocks : FinMap (RowKey × ColumnID) Stamp
  appliedGaps : FinMap Origin SeqSet
  snapshotMarkers : FinMap Origin Offset

def Meta.empty : Meta where
  senderSeqs := ∅
  hlcLast := default
  frontier := ∅
  rowClocks := ∅
  cellClocks := ∅
  appliedGaps := ∅
  snapshotMarkers := ∅

structure Snapshot where
  senderNextSeq : FinMap Origin Seq
  hlcLast : Clock
  metaDirty : Bool
  rows : FinMap RowKey RowClockEntry
  frontier : FinMap Origin FrontierEntry
  appliedGaps : FinMap Origin SeqSet
  markers : FinMap Origin Offset
  forgotten : Finset Origin
  /-- The rows to clear, with the epoch of the clear. -/
  clearedRows : FinMap RowKey ℕ
  /-- The cells to write, or to delete where there is no stamp. -/
  cells : FinMap (RowKey × ColumnID) (Option Stamp)

namespace Cache

def snapshotIncremental (c : Cache) : Snapshot where
  senderNextSeq := FinMap.ofFinset c.dirtySenderSeqs fun o => c.senderNextSeq.getD o
  hlcLast := c.hlcLast
  metaDirty := c.metaDirty
  rows := FinMap.ofFinset c.dirtyRows fun k => ⟨(c.rowState k).cl,(c.rowState k).base⟩
  frontier := c.frontier
  appliedGaps := c.appliedGaps
  markers := c.snapshotMarkers
  forgotten := c.forgottenOrigins
  clearedRows := c.dirtyClearedRows
  cells := FinMap.ofFinset c.dirtyCells fun e => (c.rowState e.1).cells.lookup e.2

end Cache

def snapshotHasWork (snap : Snapshot) : Bool :=
  snap.rows ≠ ∅ ∨ snap.cells ≠ ∅ ∨ snap.clearedRows ≠ ∅ ∨ snap.metaDirty

/-- Rows are put, cleared rows lose their cells, then the cells are put or deleted. The frontier and
the rest follow when anything of them changed. -/
def writeSnapshot (m : Meta) (snap : Snapshot) : Meta :=
  let m := { m with
    rowClocks := snap.rows ∪ m.rowClocks
    cellClocks := FinMap.overwrite snap.cells
      (FinMap.filter (fun e => e.1 ∉ snap.clearedRows) m.cellClocks) }
  if snap.metaDirty then { m with
    frontier := FinMap.filter (fun o => o ∉ snap.forgotten) (snap.frontier ∪ m.frontier)
    senderSeqs := snap.senderNextSeq ∪ m.senderSeqs
    hlcLast := snap.hlcLast
    appliedGaps := snap.appliedGaps
    snapshotMarkers := snap.markers }
  else m

namespace Cache

/-- The older of the last two persisted heads, and the last one, after a pass wrote this head. -/
def advancePersisted (c : Cache) (snap : Snapshot) : FinMap Origin Seq × FinMap Origin Seq :=
  let grown := FinMap.filter
    (fun o => c.persistedFrontier.getD o < (snap.frontier.getD o).lastSeq) snap.frontier
  (FinMap.ofFinset grown.keys (fun o => c.persistedFrontier.getD o) ∪ c.prevPersistedFrontier,
    FinMap.ofFinset grown.keys (fun o => (snap.frontier.getD o).lastSeq) ∪ c.persistedFrontier)

/-- A dirty mark is dropped where the cache still holds what the pass wrote: row clocks, sender seqs
and cells by value, frontiers by value, evictions unless the origin came back, clears by epoch. -/
def clearSnapshotDirty (c : Cache) (snap : Snapshot) : Cache :=
  let dirtyRows := c.dirtyRows.filter fun k =>
    ¬(k ∈ c.rowClock ∧ snap.rows.lookup k = some ⟨(c.rowState k).cl,(c.rowState k).base⟩)
  let dirtySenderSeqs := c.dirtySenderSeqs.filter fun o =>
    snap.senderNextSeq.lookup o ≠ some (c.senderNextSeq.getD o)
  let dirtyFrontiers := c.dirtyFrontiers.filter fun o =>
    snap.frontier.lookup o ≠ some (c.frontier.getD o)
  let forgottenOrigins := c.forgottenOrigins.filter fun o => ¬(o ∈ snap.forgotten ∧ o ∉ c.frontier)
  let dirtyClearedRows := FinMap.filter
    (fun k => snap.clearedRows.lookup k ≠ some (c.dirtyClearedRows.getD k)) c.dirtyClearedRows
  let dirtyCells := c.dirtyCells.filter fun e =>
    snap.cells.lookup e ≠ some ((c.rowState e.1).cells.lookup e.2)
  { c with
    dirtyRows,dirtySenderSeqs,dirtyFrontiers,forgottenOrigins,dirtyClearedRows,dirtyCells
    prevPersistedFrontier := (c.advancePersisted snap).1
    persistedFrontier := (c.advancePersisted snap).2
    metaDirty := c.metaDirty && !(dirtyRows = ∅ ∧ dirtyFrontiers = ∅ ∧ dirtySenderSeqs = ∅ ∧
      dirtyCells = ∅ ∧ dirtyClearedRows = ∅ ∧ forgottenOrigins = ∅ ∧ c.hlcLast = snap.hlcLast ∧
      c.frontier = snap.frontier ∧ c.appliedGaps = snap.appliedGaps ∧
      c.snapshotMarkers = snap.markers) }

def loadFromMeta (self : Origin) (m : Meta) : Cache :=
  { new self with
    senderNextSeq := m.senderSeqs
    hlcLast := m.hlcLast
    frontier := m.frontier
    rowClock := FinMap.ofFinset (m.rowClocks.keys ∪ m.cellClocks.keys.image Prod.fst) fun k =>
      { cl := ((m.rowClocks.lookup k).map RowClockEntry.cl).getD 0
        base := ((m.rowClocks.lookup k).map RowClockEntry.base).getD Stamp.zero
        cells := FinMap.collect m.cellClocks k
        ranges := ∅ }
    appliedGaps := m.appliedGaps
    snapshotMarkers := m.snapshotMarkers }

end Cache

end Syzy
