import Syzy.SchemaCatalog
import Syzy.Naming

/-!
Applying schema events to app.db: the overlay that folds the ops of a bundle over the catalog, the
checks by name that let a replay skip what is already there, and the statements that are rendered.
-/

namespace Syzy

variable (r : CatalogRows) (app : AppSchema) (cols : List CatalogColumn)

/-- What a resolver tells of a table: the names of its columns, and of all columns it ever had. -/
structure ResolvedTable where
  name : SqlName
  dropped : Bool
  columns : ColumnID → Option SqlName
  history : ColumnID → Option SqlName

abbrev TableResolver := TableID → Option ResolvedTable

def ResolvedTable.historicColumn (t : ResolvedTable) (c : ColumnID) : Option SqlName :=
  (t.columns c).or (t.history c)

def columnName (cols : List ColumnEntry) (c : ColumnID) : Option SqlName :=
  (cols.find? fun x => x.id = c).map ColumnEntry.name

def CatalogRows.resolver : TableResolver := fun id =>
  (r.tableByID id).map fun t => ⟨t.name,t.dropped,columnName t.columns,columnName t.allColumns⟩

def declaredName (c : ColumnID) : Option SqlName :=
  (cols.find? fun x => x.id = c).map CatalogColumn.name

namespace Overlay

def change (v : TableResolver) (table : TableID) (f : ResolvedTable → ResolvedTable) :
    Option TableResolver :=
  (v table).map fun t => Function.update v table (some (f t))

/-- Fold one op into the overlay; an unknown table is an error. -/
def apply (v : TableResolver) : CatalogOp → Option TableResolver
  | .createTable table name columns =>
    some (Function.update v table (some ⟨name,false,declaredName columns,declaredName columns⟩))
  | .dropTable table => change v table fun t => { t with dropped := true }
  | .renameTable table name => change v table fun t => { t with name }
  | .addColumn table c => change v table fun t => { t with
      columns := fun x => (t.columns x).or (declaredName [c] x)
      history := fun x => (t.history x).or (declaredName [c] x) }
  | .dropColumn table column => change v table fun t => { t with
      columns := Function.update t.columns column none }
  | .renameColumn table column name => change v table fun t => { t with
      columns := Function.update t.columns column ((t.columns column).map fun _ => name)
      history := Function.update t.history column ((t.history column).map fun _ => name) }

end Overlay

/-- A table of app.db; `table` and the columns' ids are those it was created for. -/
structure AppTable where
  table : TableID
  columns : SqlName → Option ColumnID

abbrev AppSchema := SqlName → Option AppTable

def objectExists (name : SqlName) : Bool := (app name).isSome

def columnExists (name column : SqlName) : Bool :=
  (app name).any fun o => (o.columns column).isSome

/-- Whether the effect of an op is already in app.db, judged by names. -/
def opAlreadyAppliedInSQLite (cat : TableResolver) : CatalogOp → Bool
  | .createTable table name _ =>
    match cat table with
    | some t => t.dropped || objectExists app t.name
    | none => objectExists app name
  | .dropTable table =>
    match cat table with
    | none => true
    | some t => !objectExists app t.name
  | .addColumn table c =>
    match cat table with
    | none => false
    | some t =>
      if t.dropped then true
      else
        match t.columns c.id with
        | some name => columnExists app t.name name
        | none => if (t.historicColumn c.id).isSome then true else columnExists app t.name c.name
  | .dropColumn table column =>
    match cat table with
    | none => true
    | some t =>
      match t.historicColumn column with
      | none => true
      | some name => if name = noName then true else !columnExists app t.name name
  | .renameTable _ name => objectExists app name
  | .renameColumn table _ name =>
    match cat table with
    | none => false
    | some t => columnExists app t.name name

inductive SchemaError
  | unknownTable
  | unknownColumn
  | noSuchTable
  | noSuchColumn
  | tableExists
  | duplicateColumn

def createdColumns (name : SqlName) : Option ColumnID :=
  (cols.find? fun x => x.name = name).map CatalogColumn.id

/-- `ALTER TABLE name` with what it makes of the table. -/
def alterTable (name : SqlName) (f : AppTable → Except SchemaError AppTable) :
    Except SchemaError AppSchema :=
  match app name with
  | none => .error .noSuchTable
  | some o =>
    match f o with
    | .error e => .error e
    | .ok o' => .ok (Function.update app name (some o'))

def execOp (cat : TableResolver) : CatalogOp → Except SchemaError AppSchema
  | .createTable table name columns =>
    if objectExists app name then .ok app
    else .ok (Function.update app name (some ⟨table,createdColumns columns⟩))
  | .dropTable table =>
    match cat table with
    | none => .ok app
    | some t => .ok (Function.update app t.name none)
  | .renameTable table name =>
    match cat table with
    | none => .error .unknownTable
    | some t =>
      match app t.name with
      | none => .error .noSuchTable
      | some o =>
        if objectExists app name then .error .tableExists
        else .ok (Function.update (Function.update app t.name none) name (some o))
  | .addColumn table c =>
    match cat table with
    | none => .error .unknownTable
    | some t => alterTable app t.name fun o =>
        if (o.columns c.name).isSome then .error .duplicateColumn
        else .ok { o with columns := Function.update o.columns c.name (some c.id) }
  | .dropColumn table column =>
    match cat table with
    | none => .error .unknownTable
    | some t =>
      match t.columns column with
      | none => .error .unknownColumn
      | some x => alterTable app t.name fun o =>
          if (o.columns x).isSome then .ok { o with columns := Function.update o.columns x none }
          else .error .noSuchColumn
  | .renameColumn table column name =>
    match cat table with
    | none => .error .unknownTable
    | some t =>
      match t.columns column with
      | none => .error .unknownColumn
      | some x => alterTable app t.name fun o =>
          match o.columns x with
          | none => .error .noSuchColumn
          | some c =>
            if (o.columns name).isSome then .error .duplicateColumn
            else .ok { o with
              columns := Function.update (Function.update o.columns x none) name (some c) }

/-- One op, with the view its check goes through and the view it is rendered from. -/
def applyCatalogOpToSQLite (precheck render : TableResolver) (app : AppSchema) (op : CatalogOp) :
    Except SchemaError AppSchema :=
  if opAlreadyAppliedInSQLite app precheck op then .ok app else execOp app render op

/-- The schema a bundle leaves behind; the committed catalog if the bundle does not fold. -/
def bundleFinalState (base : TableResolver) (subOps : List CatalogOp) : TableResolver :=
  (subOps.foldlM Overlay.apply base).getD base

def applySubOps (final : TableResolver) :
    TableResolver → AppSchema → List CatalogOp → Except SchemaError AppSchema
  | _,app,[] => .ok app
  | sofar,app,op::ops =>
    match applyCatalogOpToSQLite final sofar app op with
    | .error e => .error e
    | .ok app' =>
      match Overlay.apply sofar op with
      | none => .error .unknownTable
      | some sofar' => applySubOps final sofar' app' ops

def applyCatalogStructural : SchemaEvent → Except SchemaError AppSchema
  | .single op => applyCatalogOpToSQLite r.resolver r.resolver app op
  | .bundle subOps => applySubOps (bundleFinalState r.resolver subOps) r.resolver app subOps

/-- A node that catches up with the schema log; `commits` are the positions its metadata transactions
reached, with the app.db of that moment. -/
structure CatchupNode where
  rows : CatalogRows
  app : AppSchema
  unhealthy : Bool
  commits : List (ℕ × AppSchema)

/-- A tick applies the next event; a crash cuts it off between app.db and the metadata transaction; a
busy database leaves everything as it was. -/
inductive CatchupAction
  | tick
  | crash
  | busy
deriving DecidableEq

namespace CatchupNode

def step (log : List SchemaEvent) (s : CatchupNode) : CatchupAction → CatchupNode
  | .busy => s
  | .tick =>
    if s.unhealthy then s
    else
      match log[s.rows.schemaSeq]? with
      | none => s
      | some ev =>
        match applyCatalogStructural s.rows s.app ev with
        | .error _ => { s with unhealthy := true }
        | .ok app => ⟨s.rows.applyEvent ev,app,false,s.commits++[(s.rows.schemaSeq+1,app)]⟩
  | .crash =>
    if s.unhealthy then s
    else
      match log[s.rows.schemaSeq]? with
      | none => s
      | some ev =>
        match applyCatalogStructural s.rows s.app ev with
        | .error _ => { s with unhealthy := true }
        | .ok app => { s with app }

end CatchupNode

/-! The schema by identities, and what it is for app.db to stand for it. -/

structure IdSchema where
  tables : TableID → Option SqlName
  columns : TableID × ColumnID → Option SqlName

namespace CatalogOp

open Naming

def tableNames : CatalogOp → List (Step TableID SqlName)
  | .createTable table name _ => [.give table name]
  | .renameTable table name => [.give table name]
  | .dropTable table => [.drop table]
  | _ => []

def columnNames : CatalogOp → List (Step (TableID × ColumnID) SqlName)
  | .createTable table _ columns => columns.map fun c => .give (table,c.id) c.name
  | .addColumn table c => [.give (table,c.id) c.name]
  | .renameColumn table column name => [.give (table,column) name]
  | .dropColumn table column => [.drop (table,column)]
  | _ => []

def table : CatalogOp → TableID
  | .createTable t _ _ => t
  | .dropTable t => t
  | .renameTable t _ => t
  | .addColumn t _ => t
  | .dropColumn t _ => t
  | .renameColumn t _ _ => t

end CatalogOp

namespace IdSchema

open Naming

/-- Execute an op: it names and drops tables and columns. -/
def exec (S : IdSchema) (op : CatalogOp) : IdSchema :=
  ⟨op.tableNames.foldl run S.tables,op.columnNames.foldl run S.columns⟩

/-- The tables and columns of app.db are those of the schema, under their names. -/
structure Represents (S : IdSchema) (app : AppSchema) : Prop where
  tables : ∀ {name : SqlName} {o : AppTable},app name = some o → S.tables o.table = some name
  columns : ∀ {name : SqlName} {o : AppTable},app name = some o → ∀ (x : SqlName) (c : ColumnID),
    o.columns x = some c ↔ S.columns (o.table,c) = some x
  named : ∀ {table : TableID} {name : SqlName},S.tables table = some name →
    ∃ o,app name = some o ∧ o.table = table

end IdSchema

def CatalogRows.schema : IdSchema where
  tables t := (r.tables.find? fun e => e.id = t && !e.dropped).map TableEntry.name
  columns p := (r.columns.find? fun c => c.key = p && !c.dropped).map ColumnEntry.name

/-- In a bundle each table and each column is named at most once, with a name that was free before the
bundle; what is dropped is touched by no other op; and a table that is named loses no column. -/
def CalmBundle (ops : List CatalogOp) : Prop :=
  let ts := ops.flatMap CatalogOp.tableNames
  let cs := ops.flatMap CatalogOp.columnNames
  ((Naming.gives ts).map Prod.fst).Nodup ∧ (∀ p ∈ Naming.gives ts,r.FreeName p.2) ∧
  ((Naming.gives cs).map Prod.fst).Nodup ∧ (∀ p ∈ Naming.gives cs,r.FreeColumnName p.1.1 p.2) ∧
  (∀ t ∈ Naming.drops ts,∀ op ∈ ops,op.table = t → op = .dropTable t) ∧
  ∀ p ∈ Naming.drops cs,p ∉ (Naming.gives cs).map Prod.fst ∧ p.1 ∉ (Naming.gives ts).map Prod.fst

def CalmEvent : SchemaEvent → Prop
  | .single _ => True
  | .bundle ops => CalmBundle r ops

instance (r : CatalogRows) (ops : List CatalogOp) : Decidable (CalmBundle r ops) :=
  inferInstanceAs (Decidable (_ ∧ _))

instance (r : CatalogRows) : DecidablePred (CalmEvent r)
  | .single _ => inferInstanceAs (Decidable True)
  | .bundle ops => inferInstanceAs (Decidable (CalmBundle r ops))

end Syzy
