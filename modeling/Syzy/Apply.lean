import Syzy.BlobPatch

/-!
The apply path of one changeset: every record arbitrates against the row clock the cache held when
the transaction began, the winning statements run in one transaction, and the clock updates go to
the cache after the commit.
-/

namespace Syzy

variable (tab : Table) (existing : BlobCols) (rows : Rows)

structure RowClockUpdate where
  key : RowKey
  state : RowState
  clearCells : Bool

/-- The interval maps a row is left with; none deletes its entry. -/
structure BlobMutation where
  key : RowKey
  cols : BlobCols

/-- What the open transaction has done so far. -/
structure Txn where
  rows : Rows
  updates : List RowClockUpdate
  cellUpdates : List CellClockUpdate
  blobMutations : List BlobMutation

def Txn.begin : Txn := ⟨rows,[],[],[]⟩

/-- The values a cell-group record arbitrates column by column: an update's, or the image of an
insert that lands on the live row of its own generation, whose counters become contributions. -/
def asCellUpdate (rec : Record) (rs : RowState) : Option (List ColValue) :=
  match rec with
  | .update _ _ changed => some changed
  | .insert _ cl image =>
    if ¬rs.isLive ∨ cl ≠ rs.cl then none
    else some ((image.filter fun v => ¬(tab.columnRole v.column).1).map fun v =>
      if (tab.columnRole v.column).2 ∧ v.typeTag = colInt ∧ v.bytes.length = 8
      then { v with format := .delta } else v)
  | _ => none

def coversAllNonPK (writes : List ColValue) : Bool :=
  tab.nonPKColumns.all fun id => writes.any fun v => v.column = id

def cellUpdateHasCounter (changed : List ColValue) : Bool := changed.any fun v => v.format = .delta

/-- The columns a cell update wins. A new generation wins every carried column and takes its
contributions as opening values; within a generation contributions always land. -/
def cellWinners (rs : RowState) (cl : ℕ) (stamp : Stamp) (changed : List ColValue) :
    List ColValue :=
  if rs.cl < cl then
    changed.map fun v => if v.format = .delta then { v with format := .text } else v
  else changed.filter fun v => v.format = .delta ∨ stamp.dominates (rs.columnStamp v.column)

/-- The clock updates that follow a cell update's statement. -/
def cellClockUpdates (k : RowKey) (cl : ℕ) (rs : RowState) (stamp : Stamp)
    (winners : List ColValue) : List RowClockUpdate × List CellClockUpdate :=
  if coversAllNonPK tab winners then ([⟨k,.ofBase cl stamp,true⟩],[])
  else
    (if rs.cl < cl then [⟨k,.ofBase cl Stamp.zero,true⟩] else [],
      (winners.filter fun v => ¬tab.isCounterColumn v.column).map fun v => ⟨k,v.column,stamp⟩)

/-- The statement of a cell update: an `UPDATE`, or the row itself when none matched. -/
def cellStatement (k : RowKey) (values : List ColValue) :
    Result Rows := do
  let r ← execRowUpdate tab rows k values
  if r.2 = some 0 then applyInsert tab r.1 k values else return r.1

def cellDML (k : RowKey) (values : List ColValue)
    (rs : RowState) (stamp : Stamp) : Result (Rows × BlobCols) :=
  if existing = ∅ then (cellStatement tab rows k values).map fun rows => (rows,∅)
  else applyDMLReconciled tab existing rows k false values rs stamp

def applyCellUpdate (cache : Cache) (tab : Table) (existing : BlobCols) (t : Txn) (k : RowKey)
    (cl : ℕ) (changed : List ColValue) (rs : RowState) (stamp : Stamp) : Result Txn := do
  validateCellCounterValues tab k changed
  let winners := cellWinners rs cl stamp changed
  if ¬rs.cl < cl ∧ winners = [] then return t
  let arb ← arbitrateWrites cache tab t.rows k winners stamp false
  let dml ← cellDML tab existing arb.2.2 (storedKey tab arb.2.2 k) arb.1 rs stamp
  let clocks := cellClockUpdates tab k cl rs stamp winners
  return {
    rows := dml.1
    updates := t.updates++clocks.1
    cellUpdates := t.cellUpdates++arb.2.1++clocks.2
    blobMutations := t.blobMutations++[⟨k,dml.2⟩] }

/-- The statement of a row-level record without patched blobs. -/
def rowStatement (rec : Record) : Result Rows :=
  match rec with
  | .insert k _ image => applyInsert tab rows k image
  | .update k _ changed => do
    let r ← execRowUpdate tab rows k changed
    if r.2 = some 0 then throw (.updateOutranInsert k) else return r.1
  | .delete k _ => applyDelete rows k
  | .blobPatch k _ _ _ => .error (.unsupportedRecord k)

/-- An insert that opens a generation on a counter table over a row the clock does not cover adds
its counters to the physical ones. -/
def mergeExisting (rs : RowState) (rec : Record) : Record :=
  match rec with
  | .insert k cl image =>
    if tab.hasCounters ∧ ¬rs.isLive ∧ cl = rs.nextLiveCL ∧ k ∈ rows
    then .update k cl (counterMergeUpdate tab image) else rec
  | _ => rec

def validateRecord (rec : Record) : Result Unit :=
  match rec with
  | .insert k _ image => validateInsertCounterImage tab k image
  | _ => .ok ()

/-- The statement of a row-level record, reconciled with the patches its row carries. A delete
drops them. -/
def rowDML (rec : Record) (rs : RowState) (stamp : Stamp) : Result (Rows × BlobCols) :=
  if existing = ∅ then (rowStatement tab rows rec).map fun rows => (rows,∅)
  else match rec with
    | .insert k _ image => applyDMLReconciled tab existing rows k true image rs stamp
    | .update k _ changed => applyDMLReconciled tab existing rows k false changed rs stamp
    | _ => (rowStatement tab rows rec).map fun rows => (rows,∅)

def applyRowRecord (cache : Cache) (tab : Table) (existing : BlobCols) (t : Txn) (rec : Record)
    (rs : RowState) (stamp : Stamp) : Result Txn := do
  validateRecord tab rec
  let arb ← arbitrate cache tab t.rows rec stamp
  let rec' := arb.1.atKey (storedKey tab arb.2.2 rec.key)
  let dml ← rowDML tab existing arb.2.2 (mergeExisting tab arb.2.2 rs rec') rs stamp
  return {
    rows := dml.1
    updates := t.updates++[⟨rec.key,.ofBase rec.cl stamp,false⟩]
    cellUpdates := t.cellUpdates++arb.2.1
    blobMutations := t.blobMutations++[⟨rec.key,dml.2⟩] }

def applyPatchRecord (t : Txn) (k : RowKey) (col : ColumnID)
    (ranges : List PatchRange) (rs : RowState) (stamp : Stamp) : Result Txn :=
  if rs.isTombstoned then .ok t
  else do
    let r ← applyBlobPatch tab existing t.rows (storedKey tab t.rows k) col ranges rs stamp
    return { t with rows := r.1,blobMutations := t.blobMutations++[⟨k,r.2⟩] }

/-- The row-level gate and the columnwise one of a cell-group table. -/
def applyGated (cache : Cache) (tab : Table) (existing : BlobCols) (t : Txn) (rec : Record)
    (rs : RowState) (stamp : Stamp) : Result Txn :=
  match if tab.cellGroup then asCellUpdate tab rec rs else none with
  | some changed =>
    if rec.cl < rs.cl ∨ (¬cellUpdateHasCounter changed ∧ ¬rs.dominatedBy rec.cl stamp) then .ok t
    else applyCellUpdate cache tab existing t rec.key rec.cl changed rs stamp
  | none =>
    if ¬rs.dominatedBy rec.cl stamp then .ok t
    else applyRowRecord cache tab existing t rec rs stamp

abbrev BlobRangeClock := FinMap RowKey BlobCols

instance : Inhabited BlobCols := ⟨∅⟩
@[simp] theorem default_blobCols : (default : BlobCols) = ∅ := rfl

/-- One record of the loop. The row clock and the stored blob clock are those from before the
transaction. -/
def applyRecord (cat : Catalog) (cache : Cache) (blob : BlobRangeClock) (stamp : Stamp) (t : Txn)
    (rec : Record) : Result Txn :=
  match cat.tableByID rec.key.table with
  | none => .error (.schemaBehind rec.key.table)
  | some tab =>
    if tab.dropped then .ok t
    else match rec with
      | .blobPatch k _ col ranges =>
        applyPatchRecord tab (blob.getD k) t k col ranges (cache.rowState k) stamp
      | _ => applyGated cache tab (blob.getD rec.key) t rec (cache.rowState rec.key) stamp

def applyRecords (cat : Catalog) (cache : Cache) (blob : BlobRangeClock) (stamp : Stamp)
    (rows : Rows) (records : List Record) : Result Txn :=
  records.foldlM (applyRecord cat cache blob stamp) (.begin rows)

def putBlobRangeClock (blob : BlobRangeClock) (m : BlobMutation) : BlobRangeClock :=
  if m.cols = ∅ then blob.erase m.key else blob.insert m.key m.cols

theorem foldl_putBlobRangeClock_empty {ms : List BlobMutation} (h : ∀ m ∈ ms,m.cols = ∅) :
    ms.foldl putBlobRangeClock ∅ = ∅ := by
  induction ms with
  | nil => rfl
  | cons m ms ih =>
    have hm : putBlobRangeClock ∅ m = ∅ := by
      refine Finmap.ext_lookup fun k => ?_
      simp [putBlobRangeClock,h m (by simp),FinMap.lookup_erase_eq]
    rw [List.foldl_cons,hm]
    exact ih fun m' hm' => h m' (by simp [hm'])

/-- Publish one row clock, with the collapse of its cells when it landed. -/
def Cache.publishRow (c : Cache) (u : RowClockUpdate) : Cache :=
  let r := c.putRowState u.key u.state
  if r.1 ∧ u.clearCells then r.2.clearCellsForRow u.key else r.2

def Cache.publishCell (c : Cache) (u : CellClockUpdate) : Cache :=
  c.putCellStamp u.key u.col u.stamp

/-- The clock writes of a committed transaction: rows first, then cells. -/
def Cache.publish (c : Cache) (t : Txn) : Cache :=
  t.cellUpdates.foldl publishCell (t.updates.foldl publishRow c)

/-- Two caches that differ in their clocks only: the books on what was applied are the same. -/
structure Cache.SameFrontier (c c' : Cache) : Prop where
  self : c'.self = c.self
  frontier : c'.frontier = c.frontier
  gaps : c'.appliedGaps = c.appliedGaps
  markers : c'.snapshotMarkers = c.snapshotMarkers
  forgotten : c'.forgottenOrigins = c.forgottenOrigins
  persisted : c'.persistedFrontier = c.persistedFrontier
  prevPersisted : c'.prevPersistedFrontier = c.prevPersistedFrontier
  metaDirty : c'.metaDirty = c.metaDirty
  senderNextSeq : c'.senderNextSeq = c.senderNextSeq
  dirtySenderSeqs : c'.dirtySenderSeqs = c.dirtySenderSeqs

namespace Cache

variable (c : Cache)

theorem SameFrontier.refl : c.SameFrontier c := ⟨rfl,rfl,rfl,rfl,rfl,rfl,rfl,rfl,rfl,rfl⟩

theorem SameFrontier.trans {a b c : Cache} (h : a.SameFrontier b) (h' : b.SameFrontier c) :
    a.SameFrontier c where
  self := h'.self.trans h.self
  frontier := h'.frontier.trans h.frontier
  gaps := h'.gaps.trans h.gaps
  markers := h'.markers.trans h.markers
  forgotten := h'.forgotten.trans h.forgotten
  persisted := h'.persisted.trans h.persisted
  prevPersisted := h'.prevPersisted.trans h.prevPersisted
  metaDirty := h'.metaDirty.trans h.metaDirty
  senderNextSeq := h'.senderNextSeq.trans h.senderNextSeq
  dirtySenderSeqs := h'.dirtySenderSeqs.trans h.dirtySenderSeqs

theorem SameFrontier.isAppliedRemote {c c' : Cache} (h : c.SameFrontier c') (o : Origin)
    (seq : Seq) : c'.isAppliedRemote o seq = c.isAppliedRemote o seq := by
  simp only [Cache.isAppliedRemote,h.self,h.frontier,h.gaps]

theorem SameFrontier.foldl {α : Type*} {f : Cache → α → Cache}
    (h : ∀ (c : Cache) a,c.SameFrontier (f c a)) (l : List α) (c : Cache) :
    c.SameFrontier (l.foldl f c) := by
  induction l generalizing c with
  | nil => exact .refl c
  | cons a l ih => exact (h c a).trans (ih _)

theorem putRowState_sameFrontier (k : RowKey) (st : RowState) :
    c.SameFrontier (c.putRowState k st).2 := by
  simp only [putRowState]
  split_ifs <;> exact ⟨rfl,rfl,rfl,rfl,rfl,rfl,rfl,rfl,rfl,rfl⟩

theorem publishRow_sameFrontier (u : RowClockUpdate) :
    c.SameFrontier (c.publishRow u) := by
  simp only [publishRow]
  split_ifs
  · exact (putRowState_sameFrontier c u.key u.state).trans ⟨rfl,rfl,rfl,rfl,rfl,rfl,rfl,rfl,rfl,rfl⟩
  · exact putRowState_sameFrontier c u.key u.state

theorem publishCell_sameFrontier (u : CellClockUpdate) :
    c.SameFrontier (c.publishCell u) := by
  simp only [publishCell,putCellStamp]
  split_ifs <;> exact ⟨rfl,rfl,rfl,rfl,rfl,rfl,rfl,rfl,rfl,rfl⟩

theorem publish_sameFrontier (t : Txn) : c.SameFrontier (c.publish t) := by
  exact (SameFrontier.foldl publishRow_sameFrontier t.updates c).trans
    (SameFrontier.foldl publishCell_sameFrontier t.cellUpdates _)

end Cache

/-- The data one node replicates: its rows with their clocks. -/
structure Data where
  rows : Rows
  cache : Cache
  blob : BlobRangeClock

/-- Apply a changeset's records in one transaction and publish its clocks; an error rolls the whole
changeset back. -/
def applyData (cat : Catalog) (d : Data) (stamp : Stamp) (records : List Record) : Result Data := do
  let t ← applyRecords cat d.cache d.blob stamp d.rows records
  return ⟨t.rows,d.cache.publish t,t.blobMutations.foldl putBlobRangeClock d.blob⟩

variable {cat : Catalog} {records : List Record} {stamp : Stamp}

/-- A committed changeset is its transaction followed by the publication of its clocks. -/
theorem applyData_eq_ok {d d' : Data} :
    applyData cat d stamp records = .ok d' ↔
      ∃ t,applyRecords cat d.cache d.blob stamp d.rows records = .ok t ∧
        d' = ⟨t.rows,d.cache.publish t,t.blobMutations.foldl putBlobRangeClock d.blob⟩ := by
  unfold applyData
  cases h : applyRecords cat d.cache d.blob stamp d.rows records with
  | error e => simp [bind,Except.bind]
  | ok t => simp [bind,Except.bind,pure,Except.pure,eq_comm]

theorem applyData_sameFrontier {d d' : Data} (h : applyData cat d stamp records = .ok d') :
    d.cache.SameFrontier d'.cache := by
  obtain ⟨t,-,rfl⟩ := applyData_eq_ok.mp h
  exact d.cache.publish_sameFrontier t

end Syzy
