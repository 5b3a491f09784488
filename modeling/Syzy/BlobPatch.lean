import Syzy.Unique

/-!
Blob patches and the reconciliation of a full-row write with the byte ranges patched before it.
A blob cell keeps its storage class, and its length is its byte count.
-/

namespace Syzy

variable (tab : Table) (rows : Rows) (k : RowKey)

/-- The per-column interval maps of one row, as stored in `blob_range_clock`. -/
abbrev BlobCols := FinMap ColumnID IntervalMap

def blobBytes : SqlValue → Option Bytes
  | .text b | .blob b => some b
  | _ => none

/-- `COALESCE(length(col),0)` of a text, blob or null cell. -/
def blobLength (v : SqlValue) : ℕ := ((blobBytes v).getD []).length

def withBytes (v : SqlValue) (b : Bytes) : SqlValue :=
  match v with
  | .text _ => .text b
  | _ => .blob b

/-- Rebuild each column's map by applying its stored entries to an empty one. -/
def reloadMap (m : IntervalMap) : IntervalMap :=
  m.foldl (fun acc e => (acc.apply e.range.start e.range.stop e.stamp Stamp.zero).1) []

def loadIntervalMaps (cols : BlobCols) : BlobCols :=
  FinMap.ofFinset cols.keys fun c => reloadMap ((cols.lookup c).getD [])

def entriesFromMaps (cols : BlobCols) : BlobCols :=
  FinMap.filter (fun c => cols.lookup c ≠ some []) cols

/-- `INSERT OR IGNORE` of a row with empty blobs and defaults elsewhere. -/
def ensureRowPlaceholder : Result Rows := do
  bindPK k
  let blobs : Cells :=
    (tab.columns.filter fun c => c.pkPos = 0 ∧ c.isBlob).map fun c => (c.id,.blob [])
  return insertOrIgnore tab rows k (overlay (defaultRow tab) blobs)

/-- Extend a blob cell to `n` bytes with zeros; a number in its place cannot be patched. -/
def ensureBlobLen (col : ColumnID) (n : ℕ) : Result Rows :=
  match rows.lookup k with
  | none => .ok rows
  | some row =>
    match row col with
    | .int _ | .real _ => .error (.openBlob k col)
    | v =>
      if blobLength v < n then
        let b := (blobBytes v).getD []
        (updateRow tab rows k [(col,withBytes v (b++List.replicate (n-b.length) 0))]).map Prod.fst
      else .ok rows

def shrinkBlobColumn (col : ColumnID) (n : ℕ) :
    Result Rows :=
  match rows.lookup k with
  | none => .ok rows
  | some row =>
    match blobBytes (row col) with
    | some b => (updateRow tab rows k [(col,withBytes (row col) (b.take n))]).map Prod.fst
    | none => .ok rows

/-- Overwrite bytes from `off` on, within the blob's size. -/
def writeBytes (b : Bytes) (off : ℕ) (data : Bytes) : Option Bytes :=
  if off+data.length ≤ b.length then some (b.take off++data++b.drop (off+data.length)) else none

/-- The bytes of `data`, which starts at offset `base`, that fall in a won range. -/
def sliceRange (data : Bytes) (base : ℕ) (w : ByteRange) : Bytes :=
  (data.take (w.stop-base)).drop (w.start-base)

def writeWon (data : Bytes) (base : ℕ) (b : Bytes) (won : List ByteRange) : Option Bytes :=
  won.foldlM (fun b w => writeBytes b w.start (sliceRange data base w)) b

/-- Apply the ranges of a patch to the interval map and to the open blob. -/
def applyPatchRanges (stamp baseline : Stamp) (m : IntervalMap) (b : Bytes)
    (ranges : List PatchRange) : Option (IntervalMap × Bytes) :=
  ranges.foldlM (fun (s : IntervalMap × Bytes) r =>
    let applied := s.1.apply r.offset r.stop stamp baseline
    (writeWon r.bytes r.offset s.2 applied.2).map fun b => (applied.1,b)) (m,b)

/-- Write the bytes a patch wins and return the row's new interval maps. The blob grows to the end
of the last range whether or not the patch wins there. -/
def applyBlobPatch (existing : BlobCols) (rows : Rows) (k : RowKey) (col : ColumnID)
    (ranges : List PatchRange) (rs : RowState) (stamp : Stamp) : Result (Rows × BlobCols) :=
  if (tab.columnByID col).isNone then .ok (rows,∅)
  else do
    let rows ← ensureRowPlaceholder tab rows k
    if k ∉ rows then return (rows,∅)
    let maxEnd := ranges.foldl (fun n r => max n r.stop) 0
    let rows ← if 0 < maxEnd then ensureBlobLen tab rows k col maxEnd else pure rows
    let maps := loadIntervalMaps existing
    match rows.lookup k with
    | none => return (rows,∅)
    | some row =>
      match blobBytes (row col) with
      | none => throw (.openBlob k col)
      | some b =>
        match applyPatchRanges stamp (rs.columnStamp col) ((maps.lookup col).getD []) b ranges with
        | none => throw (.openBlob k col)
        | some r =>
          return (rows.insert k (Function.update row col (withBytes (row col) r.2)),
            entriesFromMaps (maps.insert col r.1))

/-- Zero the bytes from `cur` to `hi` that no surviving entry covers. -/
def zeroFillFrom (lo hi : ℕ) : ℕ → List IntervalEntry → Bytes → Option Bytes
  | cur,[],b => if cur < hi then writeBytes b cur (List.replicate (hi-cur) 0) else some b
  | cur,e::es,b =>
    if e.range.stop ≤ lo then zeroFillFrom lo hi cur es b
    else if hi ≤ e.range.start then
      if cur < hi then writeBytes b cur (List.replicate (hi-cur) 0) else some b
    else
      let s := max e.range.start lo
      let x := min e.range.stop hi
      (if cur < s then writeBytes b cur (List.replicate (s-cur) 0) else some b).bind
        (zeroFillFrom lo hi (max cur x) es)

def zeroFillUncovered (b : Bytes) (surviving : List IntervalEntry) (lo hi : ℕ) : Option Bytes :=
  if hi ≤ lo then some b else zeroFillFrom lo hi lo surviving b

/-- Write a full blob value under the entries that dominate it. -/
def reconcileBlobColumn (col : ColumnID) (data : Bytes)
    (m : IntervalMap) (rcCol newStamp : Stamp) : Result (Rows × IntervalMap) := do
  let newLen := data.length
  let surviving := m.filter fun e => e.stamp.dominates newStamp
  let maxSurvEnd := surviving.foldl (fun n e => max n e.range.stop) 0
  let effectiveLen := max newLen maxSurvEnd
  let curLen := ((rows.lookup k).map fun row => blobLength (row col)).getD 0
  let rows ←
    if effectiveLen < curLen then shrinkBlobColumn tab rows k col effectiveLen
    else if curLen < effectiveLen then ensureBlobLen tab rows k col effectiveLen
    else pure rows
  let m := m.clip effectiveLen
  if effectiveLen = 0 ∧ newLen = 0 then return (rows,m.prune newStamp)
  match rows.lookup k with
  | none => throw (.openBlob k col)
  | some row =>
    match blobBytes (row col) with
    | none => throw (.openBlob k col)
    | some b =>
      let applied := m.apply 0 newLen newStamp rcCol
      match (zeroFillUncovered b surviving newLen effectiveLen).bind fun b =>
          writeWon data 0 b applied.2 with
      | none => throw (.openBlob k col)
      | some b =>
        return (rows.insert k (Function.update row col (withBytes (row col) b)),
          applied.1.prune newStamp)

/-- Upsert everything but the blob columns, which a new row gets empty. -/
def upsertNonBlobInsert (values : List ColValue) :
    Result Rows := do
  bindPK k
  let cs ← bindValues tab (values.filter fun v => ¬(tab.columnByID v.column).any Column.isBlob)
  let cs := valueCells tab cs
  let blobs : Cells :=
    (tab.columns.filter fun c => c.pkPos = 0 ∧ c.isBlob).map fun c => (c.id,.blob [])
  let fresh := overlay (overlay (defaultRow tab) blobs) cs
  if cs = [] then return insertOrIgnore tab rows k fresh
  if ¬notNullOK tab fresh then throw (.constraintFailed .notNull k)
  match rows.lookup k with
  | none => storeRow tab rows k fresh
  | some row => storeRow tab rows k (overlay row cs)

/-- Reconcile the blob values of a record one after another. -/
def reconcileBlobs (rs : RowState) (newStamp : Stamp)
    (s : Rows × BlobCols) (v : ColValue) : Result (Rows × BlobCols) :=
  if (tab.columnByID v.column).isNone then .ok s
  else do
    let r ← reconcileBlobColumn tab s.1 k v.column v.bytes ((s.2.lookup v.column).getD [])
      (rs.columnStamp v.column) newStamp
    return (r.1,s.2.insert v.column r.2)

/-- An insert or update of a row whose blobs have been patched. -/
def applyDMLReconciled (existing : BlobCols) (rows : Rows) (k : RowKey)
    (isInsert : Bool) (values : List ColValue) (rs : RowState) (newStamp : Stamp) :
    Result (Rows × BlobCols) := do
  let maps := loadIntervalMaps existing
  let blobValues := values.filter fun v => v.typeTag = colBlob
  let nonBlobValues := values.filter fun v => v.typeTag ≠ colBlob
  let rows ←
    if isInsert then upsertNonBlobInsert tab rows k nonBlobValues
    else if nonBlobValues = [] then pure rows
    else do
      let r ← execRowUpdate tab rows k nonBlobValues
      pure r.1
  if blobValues = [] ∨ k ∉ rows then return (rows,entriesFromMaps maps)
  let r ← blobValues.foldlM (reconcileBlobs tab k rs newStamp) (rows,maps)
  return (r.1,entriesFromMaps r.2)

end Syzy
