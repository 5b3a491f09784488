import Syzy.Cache
import Syzy.Counter

/-!
Arbitration of eventual unique keys before a record's statement runs: the record takes the tuple
from a dominated owner and nulls it there, or gives the tuple up and writes nulls itself.
-/

namespace Syzy

variable (cache : Cache) (tab : Table) (rows : Rows)

structure CellClockUpdate where
  key : RowKey
  col : ColumnID
  stamp : Stamp
deriving DecidableEq

/-- What the keys decided so far leave: the rows, the columns to null in the record, and the cell
stamps of the owners that lost. -/
structure Arbitration where
  rows : Rows
  loserNulls : List ColumnID
  stolen : List CellClockUpdate

def lookupColumn (vs : List ColValue) (col : ColumnID) : Option ColValue :=
  vs.findRev? fun v => v.column = col

/-- The live row's value of a key column, null when the row or the column is missing. -/
def readKeyColumn (k : RowKey) (col : ColumnID) : ColValue :=
  match rows.lookup (storedKey tab rows k) with
  | some row => readColValue col (cellValue k row col)
  | none => .null col

/-- The value one key column will hold once the record is written. -/
def keyColumnValue (k : RowKey) (pkVals writes : List ColValue)
    (loserNulls : List ColumnID) (full : Bool) (col : ColumnID) : ColValue :=
  if col ∈ loserNulls then .null col
  else match lookupColumn writes col,lookupColumn pkVals col with
    | some v,_ => v
    | none,some v => v
    | none,none => if full then .null col else readKeyColumn tab rows k col

/-- A key column that the record writes and has not lost. -/
def keyTouched (key : UniqueKey) (writes : List ColValue) (loserNulls : List ColumnID) : Bool :=
  key.columns.any fun col => col ∉ loserNulls ∧ (lookupColumn writes col).isSome

def uniqueOwners (key : UniqueKey) (vals : List SqlValue) :
    Finset PKBlob :=
  (rows.keys.filter fun q => q.table = tab.id ∧
    (rows.lookup q).map (keyTuple key q) = some vals).image RowKey.pk

def findUniqueOwner (key : UniqueKey) (kvals : List ColValue) :
    Result (Option RowKey) := do
  let vals ← kvals.mapM bindColValue
  let owners := uniqueOwners tab rows key vals
  return if h : owners.Nonempty then some ⟨tab.id,owners.min' h⟩ else none

def nullKeyColumns (key : UniqueKey) (q : RowKey) : Result Rows :=
  (updateRow tab rows q (valueCells tab (key.columns.map fun c => (c,.null)))).map Prod.fst

def maxEffectiveStamp (rs : RowState) (key : UniqueKey) : Stamp :=
  key.columns.foldl
    (fun out col => if (rs.columnStamp col).dominates out then rs.columnStamp col else out) rs.base

def arbitrateKey (k : RowKey) (pkVals writes : List ColValue)
    (stamp : Stamp) (full : Bool) (a : Arbitration) (key : UniqueKey) : Result Arbitration :=
  if key.coordinated then .ok a
  else if ¬keyTouched key writes a.loserNulls then .ok a
  else
    let kvals := key.columns.map (keyColumnValue tab a.rows k pkVals writes a.loserNulls full)
    if kvals.any fun v => v.typeTag = colNull then .ok a
    else do
      match ← findUniqueOwner tab a.rows key kvals with
      | none => return a
      | some q =>
        if q = k then return a
        else if stamp.dominates (maxEffectiveStamp (cache.rowState q) key) then
          let rows ← nullKeyColumns tab a.rows key q
          return { a with rows,stolen := a.stolen++key.columns.map fun c => ⟨q,c,stamp⟩ }
        else return { a with loserNulls := a.loserNulls++key.columns }

/-- Null the lost columns the record writes; a full image gets the missing ones appended. -/
def rewriteWritesNull (writes : List ColValue) (nullSet : List ColumnID) (full : Bool) :
    List ColValue :=
  (writes.map fun v => if v.column ∈ nullSet then .null v.column else v)++ if full
    then (nullSet.dedup.filter fun c => (lookupColumn writes c).isNone).map ColValue.null else []

def arbitrateImage (k : RowKey) (writes : List ColValue) (stamp : Stamp) (full : Bool) :
    Result (List ColValue × List CellClockUpdate × Rows) := do
  let pkVals ← decodePK k
  let a ← tab.uniqueKeys.foldlM (arbitrateKey cache tab k pkVals writes stamp full) ⟨rows,[],[]⟩
  if a.loserNulls = [] then return (writes,a.stolen,a.rows)
  else return (rewriteWritesNull writes a.loserNulls full,a.stolen,a.rows)

/-- Arbitration of the values a record writes; a table without unique keys has nothing to decide. -/
def arbitrateWrites (k : RowKey) (writes : List ColValue) (stamp : Stamp) (full : Bool) :
    Result (List ColValue × List CellClockUpdate × Rows) :=
  if tab.uniqueKeys = [] then .ok (writes,[],rows)
  else arbitrateImage cache tab rows k writes stamp full

def arbitrate (rec : Record) (stamp : Stamp) :
    Result (Record × List CellClockUpdate × Rows) :=
  match rec with
  | .insert k cl image => do
    let r ← arbitrateWrites cache tab rows k image stamp true
    return (.insert k cl r.1,r.2)
  | .update k cl changed => do
    let r ← arbitrateWrites cache tab rows k changed stamp false
    return (.update k cl r.1,r.2)
  | _ => .ok (rec,[],rows)

end Syzy
