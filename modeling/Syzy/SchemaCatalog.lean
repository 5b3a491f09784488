import Syzy.Identity
import Syzy.KeyedRows
import Syzy.Machine
import Mathlib.Data.List.Sort

/-!
The replicated schema catalog: the ops of schema events, the rows they leave in metadata, and the
tables and capture-time layouts that are read from the rows.
-/

namespace Syzy

abbrev SqlName := ℕ

def noName : SqlName := 0

structure CatalogColumn where
  id : ColumnID
  name : SqlName
  ordinal : ℕ
deriving DecidableEq

inductive CatalogOp
  | createTable (table : TableID) (name : SqlName) (columns : List CatalogColumn)
  | dropTable (table : TableID)
  | renameTable (table : TableID) (name : SqlName)
  | addColumn (table : TableID) (column : CatalogColumn)
  | dropColumn (table : TableID) (column : ColumnID)
  | renameColumn (table : TableID) (column : ColumnID) (name : SqlName)
deriving DecidableEq

/-- One event of the schema log. Bundles do not nest. -/
inductive SchemaEvent
  | single (op : CatalogOp)
  | bundle (subOps : List CatalogOp)
deriving DecidableEq

def SchemaEvent.ops : SchemaEvent → List CatalogOp
  | .single op => [op]
  | .bundle subOps => subOps

structure TableEntry where
  id : TableID
  name : SqlName
  dropped : Bool

/-- A row of `syzy_column`; a column that was not dropped has drop position 0. -/
structure ColumnEntry where
  table : TableID
  id : ColumnID
  name : SqlName
  ordinal : ℕ
  dropped : Bool
  createSeq : ℕ
  dropSeq : ℕ

def CatalogColumn.entry (seq : ℕ) (table : TableID) (c : CatalogColumn) : ColumnEntry :=
  ⟨table,c.id,c.name,c.ordinal,false,seq,0⟩

def ColumnEntry.key (c : ColumnEntry) : TableID × ColumnID := (c.table,c.id)

def ColumnEntry.liveAt (c : ColumnEntry) (seq : ℕ) : Bool :=
  c.createSeq ≤ seq && (c.dropSeq = 0 || seq < c.dropSeq)

structure CatalogRows where
  tables : List TableEntry
  columns : List ColumnEntry
  schemaSeq : ℕ

namespace CatalogRows

variable (r : CatalogRows) (table : TableID) (column : ColumnID)

def upsertTable (e : TableEntry) : CatalogRows :=
  { r with tables := Keyed.upsert TableEntry.id e r.tables }

def renameTable (name : SqlName) : CatalogRows :=
  { r with tables := Keyed.modify TableEntry.id table (fun e => { e with name }) r.tables }

def upsertColumn (e : ColumnEntry) : CatalogRows :=
  { r with columns := Keyed.upsert ColumnEntry.key e r.columns }

def renameColumn (name : SqlName) :
    CatalogRows :=
  { r with columns := Keyed.modify ColumnEntry.key (table,column) (fun e => { e with name }) r.columns }

/-- Tombstone a column in place, or leave a nameless tombstone when the row is missing. -/
def dropColumn (seq : ℕ) : CatalogRows :=
  if r.columns.any fun c => c.key = (table,column) then
    { r with
      columns := Keyed.modify ColumnEntry.key (table,column)
        (fun e => { e with dropped := true,dropSeq := seq }) r.columns }
  else r.upsertColumn ⟨table,column,noName,0,true,0,seq⟩

def addColumn (seq : ℕ) (table : TableID) (r : CatalogRows) (c : CatalogColumn) : CatalogRows :=
  r.upsertColumn (c.entry seq table)

def applyCatalogOp (seq : ℕ) (r : CatalogRows) : CatalogOp → CatalogRows
  | .createTable table name columns =>
    columns.foldl (addColumn seq table) (r.upsertTable ⟨table,name,false⟩)
  | .dropTable table => r.upsertTable ⟨table,noName,true⟩
  | .renameTable table name => r.renameTable table name
  | .addColumn table column => r.addColumn seq table column
  | .dropColumn table column => r.dropColumn table column seq
  | .renameColumn table column name => r.renameColumn table column name

/-- An event's metadata transaction: the ops of a bundle share one position. -/
def applyEvent (ev : SchemaEvent) : CatalogRows :=
  { ev.ops.foldl (applyCatalogOp (r.schemaSeq+1)) r with schemaSeq := r.schemaSeq+1 }

def adoptFork : CatalogRows := { r with schemaSeq := 0 }

end CatalogRows

structure SchemaTable where
  name : SqlName
  id : TableID
  columns : List ColumnEntry
  allColumns : List ColumnEntry
  dropped : Bool
  historyReliable : Bool

def sortColumnsByOrdinal (cols : List ColumnEntry) : List ColumnEntry :=
  cols.insertionSort fun a b => a.ordinal ≤ b.ordinal

def sortColumnsByOrdinalThenSeq (cols : List ColumnEntry) : List ColumnEntry :=
  cols.insertionSort fun a b => a.ordinal < b.ordinal ∨ a.ordinal = b.ordinal ∧ a.createSeq ≤ b.createSeq

namespace CatalogRows

variable (r : CatalogRows) (table : TableID) (name : SqlName)

def columnsOf : List ColumnEntry :=
  r.columns.filter fun c => c.table = table

def load (e : TableEntry) : SchemaTable where
  name := e.name
  id := e.id
  columns := sortColumnsByOrdinal ((r.columnsOf e.id).filter fun c => !c.dropped)
  allColumns := sortColumnsByOrdinalThenSeq (r.columnsOf e.id)
  dropped := e.dropped
  historyReliable := !(r.columnsOf e.id).any fun c => c.dropped && c.name = noName

/-- Active tables by name; of two rows of one name the later one stays in the map. -/
def tableEntryByName : Option TableEntry :=
  r.tables.reverse.find? fun e => !e.dropped && e.name = name

def tableBytes : Option SchemaTable :=
  (r.tableEntryByName name).map r.load

def tableByID (id : TableID) : Option SchemaTable :=
  (r.tables.find? fun e => e.id = id).map r.load

/-- The table with the columns of an earlier schema position, if these can be told. -/
def tableAtSeq (t : SchemaTable) (seq : ℕ) : Option SchemaTable :=
  if r.schemaSeq ≤ seq then some t
  else
    let live := t.allColumns.filter fun c => c.liveAt seq
    if live.map ColumnEntry.id = t.columns.map ColumnEntry.id then some t
    else if t.historyReliable then some { t with columns := live }
    else none

/-- The layout under which a journal record is decoded; records without a stamp have epoch 0. -/
def captureTable (epoch : ℕ) : Option SchemaTable :=
  (r.tableBytes name).map fun tab =>
    if epoch = 0 then tab else (r.tableAtSeq tab (epoch-1)).getD tab

/-! What the producer and SQLite admit: fresh ids, free names, and ordinals behind the active columns. -/

def activeColumns : List ColumnEntry :=
  (r.columnsOf table).filter fun c => !c.dropped

def nextOrdinal (cols : List ColumnEntry) : ℕ := cols.foldl (fun m c => max m (c.ordinal+1)) 0

def Active : Prop := ∃ e ∈ r.tables,e.id = table ∧ e.dropped = false

instance (r : CatalogRows) (table : TableID) : Decidable (r.Active table) :=
  inferInstanceAs (Decidable (∃ e ∈ r.tables,e.id = table ∧ e.dropped = false))

def FreeName : Prop :=
  name ≠ noName ∧ ∀ e ∈ r.tables,e.dropped = false → e.name ≠ name

instance (r : CatalogRows) (name : SqlName) : Decidable (r.FreeName name) :=
  inferInstanceAs (Decidable (_ ∧ _))

def FreeColumnName : Prop :=
  name ≠ noName ∧ ∀ c ∈ r.activeColumns table,c.name ≠ name

instance (r : CatalogRows) (table : TableID) (name : SqlName) : Decidable (r.FreeColumnName table name) :=
  inferInstanceAs (Decidable (_ ∧ _))

def Admits : CatalogOp → Prop
  | .createTable table name columns =>
    (∀ e ∈ r.tables,e.id ≠ table) ∧ (∀ c ∈ r.columns,c.table ≠ table) ∧ r.FreeName name ∧
      (columns.map CatalogColumn.id).Nodup ∧ (columns.map CatalogColumn.name).Nodup ∧
      noName ∉ columns.map CatalogColumn.name ∧
      columns.map CatalogColumn.ordinal = List.range columns.length
  | .dropTable table => r.Active table
  | .renameTable table name => r.Active table ∧ r.FreeName name
  | .addColumn table column =>
    r.Active table ∧ (∀ c ∈ r.columns,c.key ≠ (table,column.id)) ∧ r.FreeColumnName table column.name ∧
      column.ordinal = nextOrdinal (r.activeColumns table)
  | .dropColumn table column => r.Active table ∧ ∃ c ∈ r.activeColumns table,c.id = column
  | .renameColumn table column name =>
    r.Active table ∧ (∃ c ∈ r.activeColumns table,c.id = column) ∧ r.FreeColumnName table name

instance (r : CatalogRows) : DecidablePred r.Admits
  | .createTable _ _ _ => inferInstanceAs (Decidable (_ ∧ _))
  | .dropTable table => inferInstanceAs (Decidable (r.Active table))
  | .renameTable _ _ => inferInstanceAs (Decidable (_ ∧ _))
  | .addColumn _ _ => inferInstanceAs (Decidable (_ ∧ _))
  | .dropColumn _ _ => inferInstanceAs (Decidable (_ ∧ _))
  | .renameColumn _ _ _ => inferInstanceAs (Decidable (_ ∧ _))

/-- Each op of the event is admitted in the rows it meets. -/
def AdmitsEvent (ev : SchemaEvent) : Prop :=
  Machine.Permitted (applyCatalogOp (r.schemaSeq+1)) Admits r ev.ops

instance (r : CatalogRows) (ev : SchemaEvent) : Decidable (r.AdmitsEvent ev) :=
  inferInstanceAs (Decidable (Machine.Permitted _ _ _ _))

end CatalogRows

end Syzy
