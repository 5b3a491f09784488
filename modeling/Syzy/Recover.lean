import Syzy.Apply
import Syzy.Snapshot

/-!
Recovery of the cache after a restart: the snapshot is loaded and every mirror journal is replayed
past its marker. Replay moves clocks only; the rows were committed before the journal was written.
-/

namespace Syzy

def updateHasDelta (changed : List ColValue) : Bool := changed.any fun v => v.format = .delta

/-- The table, when its updates replay column by column. -/
def cellGroupTable (cat : Catalog) (id : TableID) : Option Table :=
  (cat.tableByID id).filter fun tab => !tab.dropped && tab.cellGroup

def replayWinners (rs : RowState) (cl : ℕ) (stamp : Stamp) (changed : List ColValue) :
    List ColValue :=
  if rs.cl < cl then changed
  else changed.filter fun v => v.format = .delta ∨ stamp.dominates (rs.columnStamp v.column)

/-- The clock writes of a cell update, without its statement. -/
def replayCellClocks (c : Cache) (tab : Table) (k : RowKey) (cl : ℕ) (changed : List ColValue)
    (rs : RowState) (stamp : Stamp) : Cache :=
  let winners := replayWinners rs cl stamp changed
  if cl < rs.cl ∨ (¬updateHasDelta changed ∧ ¬rs.dominatedBy cl stamp) then c
  else if ¬rs.cl < cl ∧ winners = [] then c
  else if coversAllNonPK tab winners then c.publishRow ⟨k,.ofBase cl stamp,true⟩
  else
    (winners.filter fun v => ¬(tab.columnRole v.column).2).foldl
      (fun c v => c.putCellStamp k v.column stamp)
      (if rs.cl < cl then c.publishRow ⟨k,.ofBase cl Stamp.zero,true⟩ else c)

/-- The row-level replay of a record: its own version when it wins. -/
def replayRowClock (c : Cache) (k : RowKey) (cl : ℕ) (stamp : Stamp) : Cache :=
  if ¬(c.rowState k).dominatedBy cl stamp then c else (c.putRowState k (.ofBase cl stamp)).2

/-- Outside the catalog's cell-group tables a contribution moves the generation at most. -/
def replayOpaque (c : Cache) (stamp : Stamp) (r : Record) : Cache :=
  if r.isUpdate ∧ updateHasDelta r.values then
    if (c.rowState r.key).cl < r.cl then c.publishRow ⟨r.key,.ofBase r.cl Stamp.zero,true⟩ else c
  else replayRowClock c r.key r.cl stamp

def replayRecord (cat : Catalog) (stamp : Stamp) (c : Cache) (r : Record) : Cache :=
  match cellGroupTable cat r.key.table with
  | some tab =>
    match asCellUpdate tab r (c.rowState r.key) with
    | some changed => replayCellClocks c tab r.key r.cl changed (c.rowState r.key) stamp
    | none => replayRowClock c r.key r.cl stamp
  | none => replayOpaque c stamp r

/-- Replay one journal entry, unless the cache already counts it as applied. -/
def replayChangeset (cat : Catalog) (c : Cache) (cs : Changeset) : Cache :=
  if c.isAppliedRemote cs.dot.origin cs.dot.seq then c
  else (cs.records.foldl (replayRecord cat cs.stamp) c).markApplied cs.dot.origin cs.dot.seq
    cs.stamp.clock

/-- Replay an origin's journal from the snapshot's marker on. The node's own journal is no mirror. -/
def replayJournal (cat : Catalog) (mirror : FinMap Origin (List Changeset)) (c : Cache)
    (origin : Origin) : Cache :=
  if origin = c.self then c
  else ((mirror.getD origin).drop (c.snapshotMarkers.getD origin)).foldl
    (replayChangeset cat) c

/-- Replay the journals of the origins in the order they are listed. -/
def recoverMirror (cat : Catalog) (mirror : FinMap Origin (List Changeset)) (origins : List Origin)
    (c : Cache) : Cache :=
  origins.foldl (replayJournal cat mirror) c

namespace Cache

variable (c : Cache) (cat : Catalog) (stamp : Stamp)

theorem putCellStamp_sameFrontier (k : RowKey) (col : ColumnID) (stamp : Stamp) :
    c.SameFrontier (c.putCellStamp k col stamp) := c.publishCell_sameFrontier ⟨k,col,stamp⟩

theorem replayCellClocks_sameFrontier (tab : Table) (k : RowKey) (cl : ℕ)
    (changed : List ColValue) (rs : RowState) (stamp : Stamp) :
    c.SameFrontier (replayCellClocks c tab k cl changed rs stamp) := by
  have hopen : c.SameFrontier
      (if rs.cl < cl then c.publishRow ⟨k,.ofBase cl Stamp.zero,true⟩ else c) := by
    split_ifs
    · exact c.publishRow_sameFrontier _
    · exact .refl c
  have hcells : ∀ (c : Cache) (v : ColValue),c.SameFrontier (c.putCellStamp k v.column stamp) :=
    fun c v => c.putCellStamp_sameFrontier k v.column stamp
  rw [replayCellClocks]
  split
  · exact .refl c
  split
  · exact .refl c
  split
  · exact c.publishRow_sameFrontier _
  · exact hopen.trans (SameFrontier.foldl hcells _ _)

theorem replayRowClock_sameFrontier (k : RowKey) (cl : ℕ) (stamp : Stamp) :
    c.SameFrontier (replayRowClock c k cl stamp) := by
  unfold replayRowClock
  split_ifs
  · exact c.putRowState_sameFrontier k _
  · exact .refl c

theorem replayRecord_sameFrontier (c : Cache) (r : Record) :
    c.SameFrontier (replayRecord cat stamp c r) := by
  unfold replayRecord
  split
  · split
    · exact c.replayCellClocks_sameFrontier ..
    · exact c.replayRowClock_sameFrontier ..
  · unfold replayOpaque
    split_ifs
    · exact c.publishRow_sameFrontier _
    · exact .refl c
    · exact c.replayRowClock_sameFrontier ..

theorem replayRecords_sameFrontier (rs : List Record) (c : Cache) :
    c.SameFrontier (rs.foldl (replayRecord cat stamp) c) :=
  SameFrontier.foldl (replayRecord_sameFrontier cat stamp) rs c

end Cache

end Syzy
