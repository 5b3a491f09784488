import Mathlib.Data.Finset.Max
import Mathlib.Logic.Function.Basic
import Mathlib.Data.List.Lex
import Mathlib.Order.Fin.Basic
import Syzy.Catalog
import Syzy.ExceptFold

/-!
The replicated rows of `app.db` and the statements the apply path runs on them. A row is addressed
by its canonical key blob; its value columns hold what the statements bound. `NOT NULL` and the
unique indexes of the eventual keys are SQLite's own checks.
-/

namespace Syzy

open Function List

abbrev Row := ColumnID → SqlValue
abbrev Rows := FinMap RowKey Row

inductive ConstraintKind where
  | notNull
  | unique
deriving DecidableEq

inductive ApplyError where
  | schemaBehind (table : TableID)
  | badKey (key : RowKey)
  | badValue (col : ColumnID) (typeTag len : ℕ)
  | constraintFailed (kind : ConstraintKind) (key : RowKey)
  | counterApply (key : RowKey) (col : ColumnID)
  | updateOutranInsert (key : RowKey)
  | openBlob (key : RowKey) (col : ColumnID)
  | unsupportedRecord (key : RowKey)
  | markerProbe
deriving DecidableEq

abbrev Result := Except ApplyError

def bindColValue (v : ColValue) : Result SqlValue :=
  if v.typeTag = colNull then .ok .null
  else if v.typeTag = colInt then
    if v.bytes.length = 8 then .ok (.int (int64OfBytes v.bytes))
    else .error (.badValue v.column v.typeTag v.bytes.length)
  else if v.typeTag = colReal then
    if v.bytes.length = 8 then .ok (.real (beNat v.bytes))
    else .error (.badValue v.column v.typeTag v.bytes.length)
  else if v.typeTag = colText then .ok (.text v.bytes)
  else if v.typeTag = colBlob then .ok (.blob v.bytes)
  else .error (.badValue v.column v.typeTag v.bytes.length)

def readColValue (col : ColumnID) : SqlValue → ColValue
  | .null => .null col
  | .int n => ⟨col,colInt,.text,encodeInt64 n⟩
  | .real bits => ⟨col,colReal,.text,beBytes 8 bits⟩
  | .text b => ⟨col,colText,.text,b⟩
  | .blob b => ⟨col,colBlob,.text,b⟩

def decodePK (k : RowKey) : Result (List ColValue) :=
  match rangeTuple k.pk with
  | some vs => .ok vs
  | none => .error (.badKey k)

def bindPK (k : RowKey) : Result Unit :=
  (decodePK k).bind fun vs => (vs.mapM bindColValue).map fun _ => ()

abbrev Cells := List (ColumnID × SqlValue)

def bindValues (tab : Table) (vs : List ColValue) : Result Cells :=
  (vs.filter fun v => (tab.columnByID v.column).isSome).mapM fun v =>
    (bindColValue v).map fun x => (v.column,x)

def valueCells (tab : Table) (cs : Cells) : Cells := cs.filter fun c => tab.isValueColumn c.1

/-- Assign cells from left to right, so that the rightmost write of a column stands. -/
def overlay (row : Row) (cs : Cells) : Row := cs.foldl (fun r c => Function.update r c.1 c.2) row

def defaultRow (tab : Table) : Row := fun id =>
  match tab.columnByID id with
  | some c => if c.pkPos = 0 then c.dflt else .null
  | none => .null

def notNullOK (tab : Table) (row : Row) : Bool :=
  tab.columns.all fun c => 0 < c.pkPos ∨ ¬c.notNull ∨ row c.id ≠ .null

/-- The value a row holds in a column: a key column's comes from the key blob. -/
def cellValue (k : RowKey) (row : Row) (col : ColumnID) : SqlValue :=
  match ((rangeTuple k.pk).getD []).findRev? fun v => v.column = col with
  | some v => match bindColValue v with
    | .ok x => x
    | .error _ => .null
  | none => row col

def keyTuple (key : UniqueKey) (k : RowKey) (row : Row) : List SqlValue :=
  key.columns.map (cellValue k row)

/-- Another row of the table holds the same tuple, free of nulls, for this key. -/
def KeyClash (rows : Rows) (key : UniqueKey) (k : RowKey) (row : Row) : Prop :=
  .null ∉ keyTuple key k row ∧ ∃ q ∈ rows.keys,q ≠ k ∧ q.table = k.table ∧
    (rows.lookup q).map (keyTuple key q) = some (keyTuple key k row)

instance (rows : Rows) (key : UniqueKey) (k : RowKey) (row : Row) :
    Decidable (KeyClash rows key k row) :=
  inferInstanceAs (Decidable (_ ∧ _))

def uniqueOK (tab : Table) (rows : Rows) (k : RowKey) (row : Row) : Bool :=
  tab.uniqueKeys.all fun key => key.coordinated ∨ ¬KeyClash rows key k row

def storeRow (tab : Table) (rows : Rows) (k : RowKey) (row : Row) : Result Rows :=
  if ¬notNullOK tab row then .error (.constraintFailed .notNull k)
  else if ¬uniqueOK tab rows k row then .error (.constraintFailed .unique k)
  else .ok (rows.insert k row)

/-- The stored rows whose key members SQLite compares equal to those of `k`. -/
def matchingKeys (tab : Table) (rows : Rows) (k : RowKey) : Finset PKBlob :=
  (rows.keys.filter fun q => q.table = k.table ∧ (rangeTuple k.pk).isSome ∧
    (rangeTuple q.pk).map (·.map tab.foldMember) =
      (rangeTuple k.pk).map (·.map tab.foldMember)).image RowKey.pk

/-- The key under which `WHERE pk = ..` and `ON CONFLICT(pk)` find the row of `k`: its own blob, or
the one stored in another spelling. -/
def storedKey (tab : Table) (rows : Rows) (k : RowKey) : RowKey :=
  if tab.BinaryKey ∨ k ∈ rows then k
  else if h : (matchingKeys tab rows k).Nonempty
    then ⟨k.table,(matchingKeys tab rows k).min' h⟩ else k

theorem storedKey_of_binary {tab : Table} (h : tab.BinaryKey) (rows : Rows) (k : RowKey) :
    storedKey tab rows k = k := if_pos (.inl h)

/-- `INSERT OR IGNORE`: a row that exists or breaks a constraint changes nothing. -/
def insertOrIgnore (tab : Table) (rows : Rows) (k : RowKey) (row : Row) : Rows :=
  if k ∈ rows then rows
  else match storeRow tab rows k row with
    | .ok rows' => rows'
    | .error _ => rows

/-- `INSERT .. ON CONFLICT(pk) DO UPDATE`: absent columns take their defaults in a new row and keep
their values in an old one. `NOT NULL` is checked on the inserted row before the conflict. -/
def upsert (tab : Table) (rows : Rows) (k : RowKey) (cs : Cells) : Result Rows :=
  let fresh := overlay (defaultRow tab) cs
  if cs = [] then .ok (insertOrIgnore tab rows k fresh)
  else if ¬notNullOK tab fresh then .error (.constraintFailed .notNull k)
  else match rows.lookup k with
    | none => storeRow tab rows k fresh
    | some row => storeRow tab rows k (overlay row cs)

/-- `UPDATE .. WHERE pk`: the new rows and how many matched. -/
def updateRow (tab : Table) (rows : Rows) (k : RowKey) (cs : Cells) : Result (Rows × ℕ) :=
  match rows.lookup k with
  | none => .ok (rows,0)
  | some row => (storeRow tab rows k (overlay row cs)).map fun rows' => (rows',1)

variable {c : ColumnID} {cs : Cells} {p : ColumnID → Bool} {row : Row} {tab : Table}
  {v : ColValue} {vs : List ColValue}

theorem overlay_of_notMem (h : c ∉ cs.map Prod.fst) (row : Row) :
    overlay row cs c = row c := by
  induction cs generalizing row with
  | nil => rfl
  | cons x cs ih =>
    simp only [map_cons,mem_cons,not_or] at h
    change overlay (Function.update row x.1 x.2) cs c = row c
    rw [ih h.2,update_of_ne h.1]

theorem overlay_of_mem (h : c ∈ cs.map Prod.fst) (row row' : Row) :
    overlay row cs c = overlay row' cs c := by
  induction cs generalizing row row' with
  | nil => simp at h
  | cons x cs ih =>
    change overlay (Function.update row x.1 x.2) cs c = overlay (Function.update row' x.1 x.2) cs c
    by_cases hc : c ∈ cs.map Prod.fst
    · exact ih hc _ _
    · have hx : c = x.1 := by simpa [hc] using h
      rw [overlay_of_notMem hc,overlay_of_notMem hc,hx,update_self,update_self]

theorem overlay_of_nodup (h : (cs.map Prod.fst).Nodup) {x : SqlValue} (hx : (c,x) ∈ cs)
    (row : Row) : overlay row cs c = x := by
  induction cs generalizing row with
  | nil => simp at hx
  | cons y cs ih =>
    rw [map_cons,nodup_cons] at h
    change overlay (Function.update row y.1 y.2) cs c = x
    rcases mem_cons.mp hx with rfl | hx
    · rw [overlay_of_notMem h.1,update_self]
    · exact ih h.2 hx _

theorem overlay_congr {row' : Row} (h : row c = row' c) :
    overlay row cs c = overlay row' cs c := by
  by_cases hc : c ∈ cs.map Prod.fst
  · exact overlay_of_mem hc row row'
  · rw [overlay_of_notMem hc,overlay_of_notMem hc,h]

theorem overlay_filter (hp : p c = true) (cs : Cells) (row : Row) :
    overlay row (cs.filter fun x => p x.1) c = overlay row cs c := by
  induction cs generalizing row with
  | nil => rfl
  | cons x cs ih =>
    change _ = overlay (Function.update row x.1 x.2) cs c
    by_cases hx : p x.1 = true
    · rw [filter_cons,if_pos hx,← ih]
      rfl
    · rw [filter_cons,if_neg hx,ih]
      refine overlay_congr (update_of_ne ?_ _ _).symm
      rintro rfl
      exact hx hp

/-- The row holds nothing outside the table's value columns. -/
def RowShape (tab : Table) (row : Row) : Prop := ∀ c,tab.isValueColumn c = false → row c = .null

theorem defaultRow_shape (tab : Table) : RowShape tab (defaultRow tab) := by
  intro c hc
  unfold defaultRow
  unfold Table.isValueColumn at hc
  cases h : tab.columnByID c with
  | none => rfl
  | some col =>
    have hpk : col.pkPos ≠ 0 := by simpa [h] using hc
    simp [hpk]

theorem valueCells_isValueColumn (h : c ∈ (valueCells tab cs).map Prod.fst) :
    tab.isValueColumn c = true := by
  obtain ⟨x,hx,rfl⟩ := mem_map.mp h
  exact (mem_filter.mp hx).2

theorem RowShape.overlay (h : RowShape tab row) (cs : Cells) :
    RowShape tab (overlay row (valueCells tab cs)) := by
  intro c hc
  rw [overlay_of_notMem,h c hc]
  intro hmem
  rw [valueCells_isValueColumn hmem] at hc
  exact absurd hc (by decide)

theorem overlay_eq_of_covers
    (hcover : ∀ c,tab.isValueColumn c = true → c ∈ (valueCells tab cs).map Prod.fst) {row' : Row}
    (h : RowShape tab row) (h' : RowShape tab row') :
    overlay row (valueCells tab cs) = overlay row' (valueCells tab cs) := by
  funext c
  by_cases hc : tab.isValueColumn c = true
  · exact overlay_of_mem (hcover c hc) row row'
  · rw [Bool.not_eq_true] at hc
    rw [h.overlay cs c hc,h'.overlay cs c hc]

theorem storeRow_of_admitted {rows : Rows} {k : RowKey} (hkeys : tab.uniqueKeys = [])
    (h : notNullOK tab row = true) :
    storeRow tab rows k row = .ok (rows.insert k row) := by
  simp [storeRow,uniqueOK,hkeys,h]

/-- What a value binds to; a value that cannot be bound counts as null. -/
def boundValue (v : ColValue) : SqlValue :=
  match bindColValue v with
  | .ok x => x
  | .error _ => .null

def Bindable (v : ColValue) : Prop := ∃ x,bindColValue v = .ok x

theorem bindColValue_eq (h : Bindable v) : bindColValue v = .ok (boundValue v) := by
  obtain ⟨x,hx⟩ := h
  simp [boundValue,hx]

def imageCells (tab : Table) (vs : List ColValue) : Cells :=
  valueCells tab ((vs.filter fun v => (tab.columnByID v.column).isSome).map fun v =>
    (v.column,boundValue v))

/-- The row an image describes, with defaults where it is silent. -/
def imageRow (tab : Table) (vs : List ColValue) : Row := overlay (defaultRow tab) (imageCells tab vs)

theorem bindValues_eq (h : ∀ v ∈ vs,Bindable v) :
    bindValues tab vs = .ok ((vs.filter fun v => (tab.columnByID v.column).isSome).map fun v =>
      (v.column,boundValue v)) := by
  refine ExceptFold.mapM_ok fun v hv => ?_
  rw [bindColValue_eq (h v (mem_filter.mp hv).1)]
  rfl

theorem isValueColumn_iff :
    tab.isValueColumn c = true ↔ ∃ col,tab.columnByID c = some col ∧ col.pkPos = 0 := by
  unfold Table.isValueColumn
  cases tab.columnByID c <;> simp

theorem columnByID_of_mem {c : Column} (hids : (tab.columns.map Column.id).Nodup)
    (hc : c ∈ tab.columns) : tab.columnByID c.id = some c := by
  obtain ⟨c',hc'⟩ := Option.isSome_iff_exists.mp (find?_isSome.mpr ⟨c,hc,by simp⟩ :
    (tab.columns.find? fun x => x.id = c.id).isSome = true)
  have hid : c'.id = c.id := by simpa using find?_some hc'
  have hmem := mem_of_find?_eq_some hc'
  rw [inj_on_of_nodup_map hids hmem hc hid] at hc'
  exact hc'

theorem isValueColumn_of_mem {c : Column} (hids : (tab.columns.map Column.id).Nodup)
    (hc : c ∈ tab.columns) (hpk : c.pkPos = 0) : tab.isValueColumn c.id = true :=
  isValueColumn_iff.mpr ⟨c,columnByID_of_mem hids hc,hpk⟩

theorem isValueColumn_mem_nonPKColumns (h : tab.isValueColumn c = true) : c ∈ tab.nonPKColumns := by
  obtain ⟨col,hcol,hpk⟩ := isValueColumn_iff.mp h
  have hid : col.id = c := by simpa using find?_some hcol
  refine mem_map.mpr ⟨col,?_,hid⟩
  simpa [hpk] using mem_of_find?_eq_some hcol

theorem mem_imageCells :
    c ∈ (imageCells tab vs).map Prod.fst ↔ tab.isValueColumn c = true ∧ ∃ v ∈ vs,v.column = c := by
  constructor
  · intro h
    refine ⟨valueCells_isValueColumn h,?_⟩
    obtain ⟨x,hx,rfl⟩ := mem_map.mp h
    obtain ⟨v,hv,rfl⟩ := mem_map.mp (mem_filter.mp hx).1
    exact ⟨v,(mem_filter.mp hv).1,rfl⟩
  · rintro ⟨hc,v,hv,rfl⟩
    obtain ⟨col,hcol,-⟩ := isValueColumn_iff.mp hc
    refine mem_map.mpr ⟨(v.column,boundValue v),mem_filter.mpr ⟨?_,hc⟩,rfl⟩
    exact mem_map.mpr ⟨v,mem_filter.mpr ⟨hv,by simp [hcol]⟩,rfl⟩

theorem overlay_imageCells (h : (vs.map ColValue.column).Nodup) (hv : v ∈ vs)
    (hcol : tab.isValueColumn v.column = true) (row : Row) :
    overlay row (imageCells tab vs) v.column = boundValue v := by
  refine overlay_of_nodup ?_ ?_ row
  · have hsub : ((imageCells tab vs).map Prod.fst).Sublist (vs.map ColValue.column) := by
      have h₁ := (filter_sublist
        (l := (vs.filter fun v => (tab.columnByID v.column).isSome).map fun v =>
          (v.column,boundValue v)) (p := fun c => tab.isValueColumn c.1)).map Prod.fst
      rw [map_map] at h₁
      exact h₁.trans (filter_sublist.map ColValue.column)
    exact h.sublist hsub
  · obtain ⟨col,hc,-⟩ := isValueColumn_iff.mp hcol
    refine mem_filter.mpr ⟨mem_map.mpr ⟨v,mem_filter.mpr ⟨hv,?_⟩,rfl⟩,hcol⟩
    simp [hc]

theorem imageCells_filter (tab : Table) (p : ColumnID → Bool) (vs : List ColValue) :
    imageCells tab (vs.filter fun v => p v.column) = (imageCells tab vs).filter fun x => p x.1 := by
  simp only [imageCells,valueCells,filter_filter,filter_map]
  congr 1
  refine filter_congr fun v _ => ?_
  simp only [comp_apply]
  cases p v.column <;> simp

theorem imageRow_filter (hp : p c = true) (vs : List ColValue) :
    imageRow tab (vs.filter fun v => p v.column) c = imageRow tab vs c := by
  rw [imageRow,imageCells_filter,overlay_filter hp]
  rfl

theorem imageRow_shape (tab : Table) (vs : List ColValue) : RowShape tab (imageRow tab vs) :=
  (defaultRow_shape tab).overlay _

end Syzy
