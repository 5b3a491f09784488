import Syzy.AppDB

/-!
Counter columns: contributions are summed into the stored cell with checked 64-bit addition, and
taken out of a record whose contribution has already landed.
-/

namespace Syzy

variable (cat : Catalog) (records : List Record)

def addInt64 (cur d : ℤ) : Option ℤ :=
  let sum := (cur+d).bmod (2^64)
  if (0 < d ∧ sum < cur) ∨ (d < 0 ∧ cur < sum) then none else some sum

theorem addInt64_of_inInt64 {cur d : ℤ} (h : InInt64 (cur+d)) : addInt64 cur d = some (cur+d) := by
  simp only [addInt64,bmod_of_inInt64 h]
  rw [if_neg (by omega)]

/-- Fold one contribution into the value the row holds, as an absolute write. -/
def resolveDelta (tab : Table) (k : RowKey) (row : Row) (v : ColValue) : Result ColValue :=
  if v.format ≠ .delta ∨ (tab.columnByID v.column).isNone then .ok v
  else match row v.column with
    | .int cur => (addInt64 cur (int64OfBytes v.bytes)).elim (.error (.counterApply k v.column))
        fun sum => .ok ⟨v.column,colInt,.text,encodeInt64 sum⟩
    | _ => .error (.counterApply k v.column)

variable {k : RowKey} {rows : Rows} {tab : Table} {vs : List ColValue}

theorem resolveDelta_of_some {row : Row} {v : ColValue} {cur sum : ℤ} (hv : v.format = .delta)
    (hcol : (tab.columnByID v.column).isSome) (hrow : row v.column = .int cur)
    (hsum : addInt64 cur (int64OfBytes v.bytes) = some sum) :
    resolveDelta tab k row v = .ok ⟨v.column,colInt,.text,encodeInt64 sum⟩ := by
  have hknown : ¬(tab.columnByID v.column).isNone := by simpa [Option.isSome_iff_ne_none] using hcol
  rw [resolveDelta,if_neg fun h => h.elim (fun h => h hv) hknown]
  rw [hrow]
  show (addInt64 cur (int64OfBytes v.bytes)).elim _ _ = _
  rw [hsum]
  rfl

def resolveCounterDeltas (tab : Table) (rows : Rows) (k : RowKey) (values : List ColValue) :
    Result (List ColValue) :=
  match rows.lookup k with
  | none => .ok values
  | some row => values.mapM (resolveDelta tab k row)

/-- `UPDATE` the carried columns. The count is `none` when nothing was left to set. -/
def execRowUpdate (tab : Table) (rows : Rows) (k : RowKey) (values : List ColValue) :
    Result (Rows × Option ℕ) := do
  let values ← resolveCounterDeltas tab rows k values
  if (values.filter fun v => (tab.columnByID v.column).isSome) = [] then
    return (rows,none)
  bindPK k
  let cs ← bindValues tab values
  let r ← updateRow tab rows k (valueCells tab cs)
  return (r.1,some r.2)

def applyInsert (tab : Table) (rows : Rows) (k : RowKey) (image : List ColValue) : Result Rows := do
  bindPK k
  let cs ← bindValues tab image
  upsert tab rows k (valueCells tab cs)

def applyDelete (rows : Rows) (k : RowKey) : Result Rows := do
  bindPK k
  return rows.erase k

theorem applyInsert_eq (hpk : bindPK k = .ok ()) (hbind : ∀ v ∈ vs,Bindable v) :
    applyInsert tab rows k vs = upsert tab rows k (imageCells tab vs) := by
  simp only [applyInsert,hpk,bindValues_eq hbind,bind,Except.bind]
  rfl

theorem execRowUpdate_eq {vs' : List ColValue}
    (hres : resolveCounterDeltas tab rows k vs = .ok vs') (hpk : bindPK k = .ok ())
    (hbind : ∀ v ∈ vs',Bindable v) (hsome : ∃ v ∈ vs',(tab.columnByID v.column).isSome) :
    execRowUpdate tab rows k vs = match rows.lookup k with
      | none => .ok (rows,some 0)
      | some row => (storeRow tab rows k (overlay row (imageCells tab vs'))).map fun rows' =>
          (rows',some 1) := by
  have hsets : ¬(vs'.filter fun v => (tab.columnByID v.column).isSome) = [] := by
    obtain ⟨v,hv,hcol⟩ := hsome
    exact List.ne_nil_of_mem (List.mem_filter.mpr ⟨hv,hcol⟩)
  have hcells : valueCells tab ((vs'.filter fun v => (tab.columnByID v.column).isSome).map fun v =>
      (v.column,boundValue v)) = imageCells tab vs' := rfl
  simp only [execRowUpdate,hres,hsets,hpk,bindValues_eq hbind,bind,Except.bind,if_false,hcells,
    updateRow]
  cases rows.lookup k with
  | none => rfl
  | some row =>
    cases h : storeRow tab rows k (overlay row (imageCells tab vs')) <;>
      simp [h,Except.map,pure,Except.pure]

theorem resolveCounterDeltas_plain (h : ∀ v ∈ vs,v.format ≠ .delta) :
    resolveCounterDeltas tab rows k vs = .ok vs := by
  unfold resolveCounterDeltas
  cases rows.lookup k with
  | none => rfl
  | some row =>
    have hstep : ∀ v ∈ vs,resolveDelta tab k row v = .ok (id v) := fun v hv => by
      simp [resolveDelta,h v hv]
    simpa using ExceptFold.mapM_ok hstep

def recordCounterContribution (tab : Table) : Record → Bool
  | .update _ _ changed => changed.any fun v => v.format = .delta
  | .insert _ _ image => tab.hasCounters && image.any fun v => tab.isCounterColumn v.column
  | _ => false

def counterBearing : Bool :=
  records.any fun r => (cat.tableByID r.key.table).any fun tab => recordCounterContribution tab r

def stripCounterContribution (r : Record) : Record :=
  match cat.tableByID r.key.table,r with
  | some _,.update k cl changed => .update k cl (changed.filter fun v => v.format ≠ .delta)
  | some tab,.insert k cl image =>
    if tab.hasCounters then .insert k cl (image.filter fun v => ¬tab.isCounterColumn v.column) else r
  | _,_ => r

def stripCounterContributions : List Record :=
  records.map (stripCounterContribution cat)

variable {cat records}

theorem counterBearing_strip :
    counterBearing cat (stripCounterContributions cat records) = false := by
  refine List.any_eq_false.mpr fun r' hr' => ?_
  obtain ⟨r,-,rfl⟩ := List.mem_map.mp hr'
  cases hcat : cat.tableByID r.key.table with
  | none => cases r <;> simp_all [stripCounterContribution]
  | some tab =>
    cases r with
    | insert k cl image =>
      by_cases hcnt : tab.hasCounters = true <;>
        simp_all [stripCounterContribution,recordCounterContribution]
    | _ => simp_all [stripCounterContribution,recordCounterContribution]

theorem strip_of_not_bearing (h : counterBearing cat records = false) :
    stripCounterContributions cat records = records := by
  have hid : ∀ r ∈ records,stripCounterContribution cat r = id r := by
    intro r hr
    have hbears := List.any_eq_false.mp h r hr
    cases hcat : cat.tableByID r.key.table with
    | none => cases r <;> simp_all [stripCounterContribution]
    | some tab =>
      rw [hcat,Option.any_some,Bool.not_eq_true] at hbears
      cases r with
      | insert k cl image =>
        by_cases hcnt : tab.hasCounters = true <;>
          simp_all [stripCounterContribution,recordCounterContribution]
      | update k cl changed => simp_all [stripCounterContribution,recordCounterContribution]
      | _ => simp [stripCounterContribution]
  rw [stripCounterContributions,List.map_congr_left hid,List.map_id]

/-- A contribution is an 8-byte integer on a counter column, and a counter column carries nothing
else. -/
def validateCellCounterValue (tab : Table) (k : RowKey) (v : ColValue) : Result Unit :=
  match tab.columnByID v.column with
  | none => .ok ()
  | some col =>
    if v.format = .delta then
      if ¬col.counter ∨ v.typeTag ≠ colInt ∨ v.bytes.length ≠ 8
      then .error (.counterApply k v.column) else .ok ()
    else if col.counter then .error (.counterApply k v.column) else .ok ()

def validateCellCounterValues (tab : Table) (k : RowKey) (changed : List ColValue) : Result Unit :=
  changed.forM (validateCellCounterValue tab k)

def validateInsertCounterValue (tab : Table) (k : RowKey) (v : ColValue) : Result Unit :=
  if v.format = .delta then .error (.counterApply k v.column)
  else if tab.isCounterColumn v.column ∧ (v.typeTag ≠ colInt ∨ v.bytes.length ≠ 8)
  then .error (.counterApply k v.column) else .ok ()

def validateInsertCounterImage (tab : Table) (k : RowKey) (image : List ColValue) : Result Unit :=
  if ¬tab.hasCounters then .ok () else image.forM (validateInsertCounterValue tab k)

/-- The values of an insert on a row that physically exists: its counters add. -/
def counterMergeUpdate (tab : Table) (image : List ColValue) : List ColValue :=
  (image.filter fun v => ¬(tab.columnByID v.column).any fun c => 0 < c.pkPos).map fun v =>
    if tab.isCounterColumn v.column then { v with format := .delta } else v

end Syzy
