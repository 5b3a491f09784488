import Mathlib.Algebra.BigOperators.Group.Finset.Basic
import Mathlib.Algebra.BigOperators.Group.List.Basic
import Mathlib.Algebra.Ring.Int.Defs
import Syzy.CellRow
import Syzy.Schedule

/-!
Counter columns: a counter of a live row is the sum of the contributions of its generation, as long
as the update that opens a generation decides every counter. One that opens it over the row of an
earlier generation resets only the counters it carries.
-/

namespace Syzy

open List ColValue

/-- A cell-group table with counters as its catalog admits them. -/
structure CounterTable (tab : Table) : Prop extends CellTable tab where
  ids : (tab.columns.map Column.id).Nodup
  counterValue : ∀ c ∈ tab.columns,c.counter = true → c.pkPos = 0

/-- A record of the table: inserts carry full images, updates the contributions of some counters and
the values of some registers. -/
def CounterRecord (tab : Table) (r : Record) : Prop :=
  r.key.table = tab.id ∧ bindPK r.key = .ok () ∧ (r.values.map column).Nodup ∧
    (∀ v ∈ r.values,tab.isCounterColumn v.column = true → v.typeTag = colInt ∧ v.bytes.length = 8) ∧
    match r with
    | .insert _ _ image => FullImage tab image ∧ ∀ v ∈ image,(tab.columnByID v.column).isSome
    | .update _ _ changed => changed ≠ [] ∧ (∀ v ∈ changed,Bindable v) ∧
      (∀ v ∈ changed,tab.isValueColumn v.column = true) ∧
      (∀ v ∈ changed,v.format = .delta ↔ tab.isCounterColumn v.column = true) ∧
      ∀ c ∈ tab.columns,c.notNull = true → ∀ v ∈ changed,v.column = c.id → boundValue v ≠ .null
    | .delete _ _ => True
    | .blobPatch _ _ _ _ => False

/-- What a record contributes to a counter: its image's value or its delta. -/
def contribution (r : Record) (col : ColumnID) : ℤ :=
  match r.values.find? fun v => v.column = col with
  | some v => int64OfBytes v.bytes
  | none => 0

/-- The contributions of one generation of a row to a counter. -/
def counterSum (ws : List (Stamp × Record)) (k : RowKey) (cl : ℕ) (col : ColumnID) : ℤ :=
  (ws.map fun w => if w.2.key = k ∧ w.2.cl = cl then contribution w.2 col else 0).sum

/-- A row is at the latest generation of its records, and its counters hold their sums. -/
structure HoldsSums (tab : Table) (ws : List (Stamp × Record)) (k : RowKey) (row : Option Row)
    (rs : RowState) : Prop where
  top : ∀ w ∈ ws,w.2.key = k → w.2.cl ≤ rs.cl
  attained : rs.cl = 0 ∨ ∃ w ∈ ws,w.2.key = k ∧ w.2.cl = rs.cl
  dead : rs.cl%2 = 0 → row = none
  live : rs.cl%2 = 1 → ∃ x,row = some x ∧ RowShape tab x ∧ notNullOK tab x = true ∧
    ∀ col,tab.isCounterColumn col = true → x col = .int (counterSum ws k rs.cl col)

/-- An update that opens a generation decides every counter: it carries them all, or it finds no row
and the ones it leaves out start at zero, with no other column left null against its declaration. -/
def OpensWhole (tab : Table) (row : Option Row) (rs : RowState) (r : Record) : Prop :=
  r.isUpdate = true → rs.cl < r.cl → match row with
    | some _ => ∀ c ∈ tab.columns,c.counter = true → Carries r c.id
    | none => ∀ c ∈ tab.columns,c.pkPos = 0 → ¬Carries r c.id →
      (c.counter = true → c.dflt = .int 0) ∧ (c.notNull = true → c.dflt ≠ .null)

instance (tab : Table) (row : Option Row) (rs : RowState) (r : Record) :
    Decidable (OpensWhole tab row rs r) := by
  unfold OpensWhole
  cases row <;> exact inferInstance

section Table

variable {tab : Table} {col : ColumnID} {c : Column}

theorem exists_counter (h : tab.isCounterColumn col = true) :
    ∃ c ∈ tab.columns,c.id = col ∧ c.counter = true := by
  unfold Table.isCounterColumn at h
  cases hc : tab.columnByID col with
  | none => simp [hc] at h
  | some c =>
    exact ⟨c,mem_of_find?_eq_some hc,by simpa using find?_some hc,by simpa [hc] using h⟩

theorem isValueColumn_of_counter (htab : CounterTable tab) (h : tab.isCounterColumn col = true) :
    tab.isValueColumn col = true := by
  obtain ⟨c,hc,rfl,hcnt⟩ := exists_counter h
  exact isValueColumn_of_mem htab.ids hc (htab.counterValue c hc hcnt)

theorem defaultRow_of_mem (htab : CounterTable tab) (hc : c ∈ tab.columns) (hpk : c.pkPos = 0) :
    defaultRow tab c.id = c.dflt := by
  simp [defaultRow,columnByID_of_mem htab.ids hc,hpk]

end Table

section Sum

variable {ws : List (Stamp × Record)} {k : RowKey} {cl : ℕ} {col : ColumnID} {stamp : Stamp}
  {r : Record}

theorem counterSum_append (ws ws' : List (Stamp × Record)) (k : RowKey) (cl : ℕ) (col : ColumnID) :
    counterSum (ws++ws') k cl col = counterSum ws k cl col+counterSum ws' k cl col := by
  simp [counterSum]

theorem counterSum_concat (ws : List (Stamp × Record)) (stamp : Stamp) (r : Record) (k : RowKey)
    (cl : ℕ) (col : ColumnID) : counterSum (ws++[(stamp,r)]) k cl col =
      counterSum ws k cl col+if r.key = k ∧ r.cl = cl then contribution r col else 0 := by
  simp [counterSum]

theorem counterSum_of_lt (h : ∀ w ∈ ws,w.2.key = k → w.2.cl < cl) : counterSum ws k cl col = 0 := by
  refine sum_eq_zero fun n hn => ?_
  obtain ⟨w,hw,rfl⟩ := mem_map.mp hn
  exact if_neg fun hc => absurd hc.2 (h w hw hc.1).ne

theorem contribution_of_not_carries (h : ¬Carries r col) : contribution r col = 0 := by
  have hnone : (r.values.find? fun v => v.column = col) = none :=
    find?_eq_none.mpr fun v hv hc => h ⟨v,hv,by simpa using hc⟩
  rw [contribution,hnone]

theorem contribution_of_mem (hnodup : (r.values.map column).Nodup) {v : ColValue}
    (hv : v ∈ r.values) : contribution r v.column = int64OfBytes v.bytes := by
  obtain ⟨v',hv'⟩ := Option.isSome_iff_exists.mp (find?_isSome.mpr ⟨v,hv,by simp⟩ :
    (r.values.find? fun x => x.column = v.column).isSome = true)
  have hcol : v'.column = v.column := by simpa using find?_some hv'
  rw [contribution,hv']
  rw [inj_on_of_nodup_map hnodup (mem_of_find?_eq_some hv') hv hcol]

end Sum

/-- The values of a columnwise record: contributions on counters, plain values elsewhere. -/
structure CellValues (tab : Table) (r : Record) (changed : List ColValue) : Prop where
  nodup : (changed.map column).Nodup
  value : ∀ v ∈ changed,tab.isValueColumn v.column = true
  binds : ∀ v ∈ changed,Bindable v
  delta : ∀ v ∈ changed,v.format = .delta ↔ tab.isCounterColumn v.column = true
  ints : ∀ v ∈ changed,tab.isCounterColumn v.column = true → v.typeTag = colInt ∧
    v.bytes.length = 8 ∧ contribution r v.column = int64OfBytes v.bytes
  carries : ∀ col,tab.isValueColumn col = true → ((∃ v ∈ changed,v.column = col) ↔ Carries r col)
  notNull : ∀ c ∈ tab.columns,c.notNull = true → ∀ v ∈ changed,v.column = c.id →
    boundValue v ≠ .null

section Values

variable {tab : Table} {r : Record} {rs : RowState} {changed : List ColValue}

theorem cellValues_update {k : RowKey} {cl : ℕ} (hr : CounterRecord tab (.update k cl changed)) :
    CellValues tab (.update k cl changed) changed := by
  obtain ⟨-,-,hnodup,hints,-,hbinds,hvalue,hdelta,hnotNull⟩ := hr
  refine ⟨hnodup,hvalue,hbinds,hdelta,fun v hv hc => ?_,fun col _ => Iff.rfl,hnotNull⟩
  exact ⟨(hints v hv hc).1,(hints v hv hc).2,contribution_of_mem hnodup hv⟩

/-- A value of an image as a columnwise insert carries it. -/
def asContribution (tab : Table) (v : ColValue) : ColValue :=
  if (tab.columnRole v.column).2 ∧ v.typeTag = colInt ∧ v.bytes.length = 8
  then { v with format := .delta } else v

theorem asContribution_cases (tab : Table) (v : ColValue) :
    asContribution tab v = v ∨ asContribution tab v = { v with format := .delta } := by
  unfold asContribution
  split_ifs
  · exact .inr rfl
  · exact .inl rfl

@[simp] theorem asContribution_column (tab : Table) (v : ColValue) :
    (asContribution tab v).column = v.column := by
  rcases asContribution_cases tab v with h | h <;> rw [h]

@[simp] theorem boundValue_asContribution (tab : Table) (v : ColValue) :
    boundValue (asContribution tab v) = boundValue v := by
  rcases asContribution_cases tab v with h | h <;> rw [h]
  rfl

theorem cellValues_insert {k : RowKey} {cl : ℕ} {image : List ColValue} (htab : CounterTable tab)
    (hr : CounterRecord tab (.insert k cl image)) :
    CellValues tab (.insert k cl image) ((image.filter fun v => ¬(tab.columnRole v.column).1).map
      (asContribution tab)) := by
  obtain ⟨-,-,hnodup,hints,hfull,hknown⟩ := hr
  have hmem : ∀ u ∈ (image.filter fun v => ¬(tab.columnRole v.column).1).map (asContribution tab),
      ∃ v ∈ image,tab.isValueColumn v.column = true ∧ u = asContribution tab v := by
    intro u hu
    obtain ⟨v,hv,rfl⟩ := mem_map.mp hu
    obtain ⟨hv,hpk⟩ := mem_filter.mp hv
    refine ⟨v,hv,?_,rfl⟩
    obtain ⟨c,hc⟩ := Option.isSome_iff_exists.mp (hknown v hv)
    have : c.pkPos = 0 := by simpa [Table.columnRole,hc] using hpk
    exact isValueColumn_iff.mpr ⟨c,hc,this⟩
  refine ⟨?_,fun u hu => ?_,fun u hu => ?_,fun u hu => ?_,fun u hu hc => ?_,fun col hcol => ?_,
    fun c hc hnn u hu hcol => ?_⟩
  · rw [map_map]
    have hcols : column ∘ asContribution tab = column := by
      funext v
      simp
    rw [hcols]
    exact hnodup.sublist (filter_sublist.map _)
  · obtain ⟨v,hv,hval,rfl⟩ := hmem u hu
    simpa using hval
  · obtain ⟨v,hv,-,rfl⟩ := hmem u hu
    obtain ⟨x,hx⟩ := hfull.binds v hv
    rcases asContribution_cases tab v with h | h <;> rw [h] <;> exact ⟨x,hx⟩
  · obtain ⟨v,hv,-,rfl⟩ := hmem u hu
    rw [asContribution_column]
    unfold asContribution
    rw [Table.columnRole_snd]
    by_cases hc : tab.isCounterColumn v.column = true
    · rw [if_pos ⟨hc,hints v hv hc⟩]
      simp [hc]
    · rw [if_neg fun h => hc h.1]
      simp [hc,hfull.plain v hv]
  · obtain ⟨v,hv,-,rfl⟩ := hmem u hu
    rw [asContribution_column] at hc ⊢
    have hcontr := contribution_of_mem hnodup hv
    have := hints v hv hc
    rcases asContribution_cases tab v with h | h <;> rw [h] <;> exact ⟨this.1,this.2,hcontr⟩
  · constructor
    · rintro ⟨u,hu,rfl⟩
      obtain ⟨v,hv,-,rfl⟩ := hmem u hu
      exact ⟨v,hv,by simp⟩
    · rintro ⟨v,hv,rfl⟩
      refine ⟨asContribution tab v,mem_map_of_mem (mem_filter.mpr ⟨hv,?_⟩),by simp⟩
      obtain ⟨c,hc,hpk⟩ := isValueColumn_iff.mp hcol
      simp [Table.columnRole,hc,hpk]
  · obtain ⟨v,hv,hval,rfl⟩ := hmem u hu
    rw [asContribution_column] at hcol
    rw [boundValue_asContribution]
    have hrow : imageRow tab image v.column = boundValue v := overlay_imageCells hnodup hv hval _
    have hadm := all_eq_true.mp hfull.admitted c hc
    rw [hcol] at hrow hval
    have hpk : c.pkPos = 0 := by
      obtain ⟨c',hc',hpk'⟩ := isValueColumn_iff.mp hval
      cases (columnByID_of_mem htab.ids hc).symm.trans hc'
      exact hpk'
    simpa [hpk,hnn,hrow] using hadm

theorem asCellUpdate_values (htab : CounterTable tab) (hr : CounterRecord tab r)
    (h : asCellUpdate tab r rs = some changed) : CellValues tab r changed := by
  cases r with
  | insert k cl image =>
    simp only [asCellUpdate] at h
    split_ifs at h
    cases h
    exact cellValues_insert htab hr
  | update k cl changed' =>
    cases h
    exact cellValues_update hr
  | delete | blobPatch => simp [asCellUpdate] at h

end Values

section Write

variable {tab : Table} {r : Record} {rs : RowState} {stamp : Stamp} {changed vs : List ColValue}
  {k : RowKey} {x base : Row} {col : ColumnID} {cur : ℤ}

theorem notMem_imageCells (h : ∀ v ∈ vs,v.column ≠ col) :
    col ∉ (imageCells tab vs).map Prod.fst := by
  rw [mem_imageCells]
  rintro ⟨-,v,hv,hcol⟩
  exact h v hv hcol

theorem notNullOK_overlay (hnodup : (vs.map column).Nodup)
    (hvalue : ∀ v ∈ vs,tab.isValueColumn v.column = true)
    (hvs : ∀ c ∈ tab.columns,c.notNull = true → ∀ v ∈ vs,v.column = c.id → boundValue v ≠ .null)
    (hbase : ∀ c ∈ tab.columns,c.pkPos = 0 → c.notNull = true → (∀ v ∈ vs,v.column ≠ c.id) →
      base c.id ≠ .null) : notNullOK tab (overlay base (imageCells tab vs)) = true := by
  refine all_eq_true.mpr fun c hc => ?_
  by_cases hpk : c.pkPos = 0
  · cases hnn : c.notNull with
    | false => simp
    | true =>
      have hne : overlay base (imageCells tab vs) c.id ≠ .null := by
        by_cases hin : ∃ v ∈ vs,v.column = c.id
        · obtain ⟨v,hv,hcol⟩ := hin
          rw [← hcol,overlay_imageCells hnodup hv (hvalue v hv)]
          exact hvs c hc hnn v hv hcol
        · have hout : ∀ v ∈ vs,v.column ≠ c.id := fun v hv h => hin ⟨v,hv,h⟩
          rw [overlay_of_notMem (notMem_imageCells hout)]
          exact hbase c hc hpk hnn hout
      simp [hne]
  · simp [Nat.pos_of_ne_zero hpk]

variable {n : ℤ} {v : ColValue}

theorem bindColValue_int (htag : v.typeTag = colInt) (hlen : v.bytes.length = 8) :
    bindColValue v = .ok (.int (int64OfBytes v.bytes)) := by
  simp [bindColValue,htag,hlen,colInt,colNull]

theorem boundValue_int (htag : v.typeTag = colInt) (hlen : v.bytes.length = 8) :
    boundValue v = .int (int64OfBytes v.bytes) := by
  rw [boundValue,bindColValue_int htag hlen]

theorem resolve_of_int (hv : v.format = .delta) (hx : x v.column = .int cur) :
    resolve x v = ⟨v.column,colInt,.text,encodeInt64 (cur+int64OfBytes v.bytes)⟩ := by
  rw [resolve,if_neg (not_not.mpr hv),hx]

theorem bindColValue_colInt (col : ColumnID) {b : Bytes} (h : b.length = 8) :
    bindColValue ⟨col,colInt,.text,b⟩ = .ok (.int (int64OfBytes b)) := bindColValue_int rfl h

theorem bindColValue_encodeInt64 (h : InInt64 n) :
    bindColValue ⟨col,colInt,.text,encodeInt64 n⟩ = .ok (.int n) := by
  rw [bindColValue_colInt col (length_encodeInt64 n),int64OfBytes_encodeInt64 h]

theorem resolveDelta_of_int (hv : v.format = .delta) (hcol : tab.isValueColumn v.column = true)
    (hx : x v.column = .int cur) (hfit : InInt64 (cur+int64OfBytes v.bytes)) :
    resolveDelta tab k x v = .ok (resolve x v) := by
  rw [resolve_of_int hv hx]
  exact resolveDelta_of_some hv (isSome_of_isValueColumn hcol) hx (addInt64_of_inInt64 hfit)

theorem resolve_plain (hv : v.format ≠ .delta) : resolve x v = v := if_pos hv

/-- A contribution as the opening value of a generation. -/
def openingValue (v : ColValue) : ColValue :=
  if v.format = .delta then { v with format := .text } else v

theorem openingValue_cases (v : ColValue) :
    openingValue v = v ∧ v.format ≠ .delta ∨ openingValue v = { v with format := .text } := by
  unfold openingValue
  split_ifs with h
  · exact .inr rfl
  · exact .inl ⟨rfl,h⟩

@[simp] theorem openingValue_column (v : ColValue) : (openingValue v).column = v.column := by
  rcases openingValue_cases v with ⟨h,-⟩ | h <;> rw [h]

@[simp] theorem boundValue_openingValue (v : ColValue) :
    boundValue (openingValue v) = boundValue v := by
  rcases openingValue_cases v with ⟨h,-⟩ | h <;> rw [h]
  rfl

theorem openingValue_plain (v : ColValue) : (openingValue v).format ≠ .delta := by
  rcases openingValue_cases v with ⟨h,hf⟩ | h
  · rwa [h]
  · simp [h]

theorem cellWinners_of_lt {cl : ℕ} (h : rs.cl < cl) :
    cellWinners rs cl stamp changed = changed.map openingValue := if_pos h

theorem cellWinners_of_not_lt {cl : ℕ} (h : ¬rs.cl < cl) : cellWinners rs cl stamp changed =
    changed.filter fun v => v.format = .delta ∨ stamp.dominates (rs.columnStamp v.column) := if_neg h

theorem resolved_nodup (h : (vs.map column).Nodup) :
    ((vs.map (resolve x)).map column).Nodup := by
  rw [map_map]
  have hcols : column ∘ resolve x = column := by
    funext v
    simp
  rwa [hcols]

theorem notNull_of_notNullOK {c : Column} (h : notNullOK tab x = true) (hc : c ∈ tab.columns)
    (hpk : c.pkPos = 0) (hnn : c.notNull = true) : x c.id ≠ .null := by
  simpa [hpk,hnn] using all_eq_true.mp h c hc

variable (htab : CounterTable tab) (hv : CellValues tab r changed)
include htab hv

theorem contribution_of_not_mem (hcol : tab.isCounterColumn col = true)
    (h : ∀ v ∈ changed,v.column ≠ col) : contribution r col = 0 := by
  refine contribution_of_not_carries fun hc => ?_
  obtain ⟨v,hv,hvc⟩ := (hv.carries col (isValueColumn_of_counter htab hcol)).mpr hc
  exact h v hv hvc

theorem CellValues.within (hkey : bindPK k = .ok ()) {cur : ColumnID → ℤ}
    (hx : ∀ col,tab.isCounterColumn col = true → x col = .int (cur col))
    (hfit : ∀ col,tab.isCounterColumn col = true → InInt64 (cur col+contribution r col))
    (hnn : notNullOK tab x = true) {p : ColValue → Bool}
    (hp : ∀ v,v.format = .delta → p v = true) :
    CellsFit tab k (some x) (changed.filter p) ∧ ∀ col,tab.isCounterColumn col = true →
      writeCells tab (some x) (changed.filter p) col = .int (cur col+contribution r col) := by
  have hres : ∀ v ∈ changed,v.format = .delta → resolveDelta tab k x v = .ok (resolve x v) ∧
      bindColValue (resolve x v) = .ok (.int (cur v.column+contribution r v.column)) := by
    intro v hmem hd
    have hc := (hv.delta v hmem).mp hd
    have hf := hfit v.column hc
    rw [(hv.ints v hmem hc).2.2] at hf ⊢
    refine ⟨resolveDelta_of_int hd (hv.value v hmem) (hx v.column hc) hf,?_⟩
    rw [resolve_of_int hd (hx v.column hc),bindColValue_encodeInt64 hf]
  have hnodup : (((changed.filter p).map (resolve x)).map column).Nodup :=
    resolved_nodup (hv.nodup.sublist (filter_sublist.map _))
  have hvalue : ∀ u ∈ (changed.filter p).map (resolve x),tab.isValueColumn u.column = true := by
    intro u hu
    obtain ⟨v,hmem,rfl⟩ := mem_map.mp hu
    simpa using hv.value v (mem_filter.mp hmem).1
  refine ⟨⟨hkey,fun v hmem => hv.value v (mem_filter.mp hmem).1,fun u hu => ?_,?_,?_⟩,
    fun col hcol => ?_⟩
  · obtain ⟨v,hmem,rfl⟩ := mem_map.mp hu
    obtain ⟨hmem,-⟩ := mem_filter.mp hmem
    by_cases hd : v.format = .delta
    · exact ⟨_,(hres v hmem hd).2⟩
    · rw [resolve_plain hd]
      exact hv.binds v hmem
  · intro y hy v hmem
    cases hy
    obtain ⟨hmem,-⟩ := mem_filter.mp hmem
    by_cases hd : v.format = .delta
    · exact (hres v hmem hd).1
    · rw [resolveDelta,if_pos (.inl hd),resolve_plain hd]
  · refine notNullOK_overlay hnodup hvalue (fun c hc hn u hu hcol => ?_) fun c hc hpk hn _ =>
      notNull_of_notNullOK hnn hc hpk hn
    obtain ⟨v,hmem,rfl⟩ := mem_map.mp hu
    obtain ⟨hmem,-⟩ := mem_filter.mp hmem
    by_cases hd : v.format = .delta
    · rw [boundValue,(hres v hmem hd).2]
      simp
    · rw [resolve_plain hd] at hcol ⊢
      exact hv.notNull c hc hn v hmem hcol
  · by_cases hin : ∃ v ∈ changed,v.column = col
    · obtain ⟨v,hmem,rfl⟩ := hin
      have hd := (hv.delta v hmem).mpr hcol
      have hu : resolve x v ∈ (changed.filter p).map (resolve x) :=
        mem_map_of_mem (mem_filter.mpr ⟨hmem,hp v hd⟩)
      have := overlay_imageCells hnodup hu (hvalue _ hu) x
      rw [resolve_column,boundValue,(hres v hmem hd).2] at this
      exact this
    · have hout : ∀ v ∈ changed,v.column ≠ col := fun v hmem hvc => hin ⟨v,hmem,hvc⟩
      rw [contribution_of_not_mem htab hv hcol hout,add_zero,← hx col hcol]
      refine overlay_of_notMem (notMem_imageCells fun u hu => ?_) x
      obtain ⟨v,hmem,rfl⟩ := mem_map.mp hu
      simpa using hout v (mem_filter.mp hmem).1

theorem CellValues.opening (hkey : bindPK k = .ok ()) {row : Option Row}
    (hbase : ∀ c ∈ tab.columns,c.pkPos = 0 → ¬Carries r c.id → (c.counter = true → row.getD (defaultRow tab) c.id = .int 0) ∧ (c.notNull = true → row.getD (defaultRow tab) c.id ≠ .null)) :
    CellsFit tab k row (changed.map openingValue) ∧ ∀ col,tab.isCounterColumn col = true →
      writeCells tab row (changed.map openingValue) col = .int (contribution r col) := by
  have hplain : ∀ u ∈ changed.map openingValue,u.format ≠ .delta := by
    intro u hu
    obtain ⟨v,-,rfl⟩ := mem_map.mp hu
    exact openingValue_plain v
  have hnodup : ((changed.map openingValue).map column).Nodup := by
    rw [map_map]
    have hcols : column ∘ openingValue = column := by
      funext v
      simp
    rw [hcols]
    exact hv.nodup
  have hvalue : ∀ u ∈ changed.map openingValue,tab.isValueColumn u.column = true := by
    intro u hu
    obtain ⟨v,hmem,rfl⟩ := mem_map.mp hu
    simpa using hv.value v hmem
  have hout : ∀ c ∈ tab.columns,c.pkPos = 0 → (∀ u ∈ changed.map openingValue,u.column ≠ c.id) →
      ¬Carries r c.id := by
    intro c hc hpk hne hcar
    obtain ⟨v,hmem,hvc⟩ := (hv.carries c.id (isValueColumn_of_mem htab.ids hc hpk)).mpr hcar
    exact hne _ (mem_map_of_mem hmem) (by simpa using hvc)
  have hwrite : writeCells tab row (changed.map openingValue) =
      overlay (row.getD (defaultRow tab)) (imageCells tab (changed.map openingValue)) := by
    rw [writeCells,resolved_plain hplain]
  refine ⟨⟨hkey,hvalue,fun u hu => ?_,fun x _ u hu => ?_,?_⟩,fun col hcol => ?_⟩
  · rw [resolved_plain hplain] at hu
    obtain ⟨v,hmem,rfl⟩ := mem_map.mp hu
    obtain ⟨y,hy⟩ := hv.binds v hmem
    rcases openingValue_cases v with ⟨h,-⟩ | h <;> rw [h] <;> exact ⟨y,hy⟩
  · rw [resolveDelta,if_pos (.inl (hplain u hu)),resolve_plain (hplain u hu)]
  · rw [hwrite]
    refine notNullOK_overlay hnodup hvalue (fun c hc hn u hu hcol => ?_) fun c hc hpk hn hne =>
      (hbase c hc hpk (hout c hc hpk hne)).2 hn
    obtain ⟨v,hmem,rfl⟩ := mem_map.mp hu
    rw [boundValue_openingValue]
    exact hv.notNull c hc hn v hmem (by simpa using hcol)
  · rw [hwrite]
    by_cases hin : ∃ v ∈ changed,v.column = col
    · obtain ⟨v,hmem,rfl⟩ := hin
      have hu : openingValue v ∈ changed.map openingValue := mem_map_of_mem hmem
      obtain ⟨htag,hlen,hcontr⟩ := hv.ints v hmem hcol
      have := overlay_imageCells hnodup hu (hvalue _ hu) (row.getD (defaultRow tab))
      rwa [openingValue_column,boundValue_openingValue,boundValue_int htag hlen,← hcontr] at this
    · have hnot : ∀ v ∈ changed,v.column ≠ col := fun v hmem hvc => hin ⟨v,hmem,hvc⟩
      have hne : ∀ u ∈ changed.map openingValue,u.column ≠ col := by
        intro u hu
        obtain ⟨v,hmem,rfl⟩ := mem_map.mp hu
        simpa using hnot v hmem
      obtain ⟨c,hc,rfl,hcnt⟩ := exists_counter hcol
      have hpk := htab.counterValue c hc hcnt
      rw [contribution_of_not_mem htab hv hcol hnot,overlay_of_notMem (notMem_imageCells hne)]
      exact (hbase c hc hpk (hout c hc hpk hne)).1 hcnt

end Write

section Step

variable {tab : Table} {ws : List (Stamp × Record)} {k : RowKey} {row : Option Row} {rs rs' : RowState}
  {stamp : Stamp} {r : Record} {changed : List ColValue} {rows : Rows}

theorem HoldsSums.new (tab : Table) (k : RowKey) : HoldsSums tab [] k none default where
  top := by simp
  attained := .inl rfl
  dead _ := rfl
  live h := by simp at h

theorem HoldsSums.other (h : HoldsSums tab ws k row rs) (hk : r.key ≠ k) :
    HoldsSums tab (ws++[(stamp,r)]) k row rs where
  top w hw hwk := by
    rcases mem_concat.mp hw with hw | rfl
    · exact h.top w hw hwk
    · exact absurd hwk hk
  attained := h.attained.imp_right fun ⟨w,hw,hc⟩ => ⟨w,mem_append_left _ hw,hc⟩
  dead := h.dead
  live hl := by
    obtain ⟨x,hx,hshape,hnn,hsum⟩ := h.live hl
    refine ⟨x,hx,hshape,hnn,fun col hcol => ?_⟩
    rw [counterSum_concat,if_neg fun hc => hk hc.1,add_zero]
    exact hsum col hcol

/-- A record keeps its row at the sums when the row becomes its generation's. -/
theorem HoldsSums.concat (h : HoldsSums tab ws r.key row rs) (hpatch : r.isBlobPatch = false)
    {row' : Option Row} (hdead : max rs.cl r.cl%2 = 0 → row' = none)
    (hlive : max rs.cl r.cl%2 = 1 → ∃ x,row' = some x ∧ RowShape tab x ∧ notNullOK tab x = true ∧
      ∀ col,tab.isCounterColumn col = true →
        x col = .int (counterSum (ws++[(stamp,r)]) r.key (max rs.cl r.cl) col)) :
    HoldsSums tab (ws++[(stamp,r)]) r.key row' (rs.absorb tab stamp r) := by
  have hcl : (rs.absorb tab stamp r).cl = max rs.cl r.cl := absorb_cl_eq_max hpatch
  refine ⟨fun w hw hk => ?_,?_,?_,?_⟩
  · rw [hcl]
    rcases mem_concat.mp hw with hw | rfl
    · exact (h.top w hw hk).trans (le_max_left _ _)
    · exact le_max_right _ _
  · rw [hcl]
    rcases le_total r.cl rs.cl with hle | hle
    · rw [max_eq_left hle]
      exact h.attained.imp_right fun ⟨w,hw,hc⟩ => ⟨w,mem_append_left _ hw,hc⟩
    · rw [max_eq_right hle]
      exact .inr ⟨(stamp,r),by simp,rfl,rfl⟩
  · rw [hcl]
    exact hdead
  · rw [hcl]
    exact hlive

theorem HoldsSums.shape (h : HoldsSums tab ws k row rs) :
    RowShape tab (row.getD (defaultRow tab)) := by
  rcases Nat.mod_two_eq_zero_or_one rs.cl with hd | hl
  · rw [h.dead hd]
    exact defaultRow_shape tab
  · obtain ⟨x,rfl,hshape,-⟩ := h.live hl
    exact hshape

theorem HoldsSums.sum_opening (h : HoldsSums tab ws k row rs) (hlt : rs.cl < r.cl) (hk : r.key = k)
    (stamp : Stamp) (col : ColumnID) :
    counterSum (ws++[(stamp,r)]) k (max rs.cl r.cl) col = contribution r col := by
  rw [counterSum_concat,max_eq_right hlt.le,if_pos ⟨hk,rfl⟩,
    counterSum_of_lt fun w hw hwk => (h.top w hw hwk).trans_lt hlt,zero_add]

section

variable (htab : CounterTable tab) (h : HoldsSums tab ws r.key row rs)
include htab h

/-- The base that a generation opens on decides the columns its record leaves out. -/
theorem HoldsSums.base (hopen : OpensWhole tab row rs r) (hupd : r.isUpdate = true)
    (hlt : rs.cl < r.cl) :
    ∀ c ∈ tab.columns,c.pkPos = 0 → ¬Carries r c.id →
      (c.counter = true → row.getD (defaultRow tab) c.id = .int 0) ∧
        (c.notNull = true → row.getD (defaultRow tab) c.id ≠ .null) := by
  intro c hc hpk hcar
  have hwhole := hopen hupd hlt
  cases row with
  | none =>
    rw [Option.getD_none,defaultRow_of_mem htab hc hpk]
    exact hwhole c hc hpk hcar
  | some x =>
    have hl : rs.cl%2 = 1 := by
      rcases Nat.mod_two_eq_zero_or_one rs.cl with hd | hl
      · exact absurd (h.dead hd) (by simp)
      · exact hl
    obtain ⟨y,hy,-,hnn,-⟩ := h.live hl
    cases hy
    exact ⟨fun hcnt => absurd (hwhole c hc hcnt) hcar,notNull_of_notNullOK hnn hc hpk⟩

theorem HoldsSums.within (hr : CounterRecord tab r) (hv : CellValues tab r changed)
    (hodd : r.cl%2 = 1) (heq : r.cl = rs.cl)
    (hfit : ∀ col,tab.isCounterColumn col = true → InInt64 (counterSum (ws++[(stamp,r)]) r.key r.cl col)) :
    CellsFit tab r.key row (cellWinners rs r.cl stamp changed) ∧
      ∃ x,row = some x ∧ RowShape tab x ∧ notNullOK tab x = true ∧
        ∀ col,tab.isCounterColumn col = true → x col = .int (counterSum ws r.key r.cl col) ∧
          writeCells tab row (cellWinners rs r.cl stamp changed) col =
            .int (counterSum (ws++[(stamp,r)]) r.key r.cl col) := by
  have hsum : ∀ col,counterSum (ws++[(stamp,r)]) r.key r.cl col =
      counterSum ws r.key r.cl col+contribution r col := fun col => by
    rw [counterSum_concat,if_pos ⟨rfl,rfl⟩]
  obtain ⟨x,rfl,hshape,hnn,hx⟩ := h.live (heq ▸ hodd)
  rw [← heq] at hx
  rw [cellWinners_of_not_lt (by omega)]
  obtain ⟨hcells,hvals⟩ := hv.within htab hr.2.1 hx (fun col hcol => hsum col ▸ hfit col hcol) hnn
    (p := fun v => v.format = .delta ∨ stamp.dominates (rs.columnStamp v.column))
    (fun v hd => by simp [hd])
  refine ⟨hcells,x,rfl,hshape,hnn,fun col hcol => ⟨hx col hcol,?_⟩⟩
  rw [hsum]
  exact hvals col hcol

theorem HoldsSums.opening (hr : CounterRecord tab r) (hv : CellValues tab r changed)
    (hopen : OpensWhole tab row rs r) (hupd : r.isUpdate = true) (hlt : rs.cl < r.cl)
    (stamp : Stamp) :
    CellsFit tab r.key row (cellWinners rs r.cl stamp changed) ∧
      ∀ col,tab.isCounterColumn col = true →
        writeCells tab row (cellWinners rs r.cl stamp changed) col = .int (contribution r col) := by
  rw [cellWinners_of_lt hlt]
  exact hv.opening htab hr.2.1 (h.base htab hopen hupd hlt)

end

theorem contribution_of_no_counter (htab : CounterTable tab) (hv : CellValues tab r changed)
    (hcnt : ∀ v ∈ changed,v.format ≠ .delta) {col : ColumnID} (hcol : tab.isCounterColumn col = true) :
    contribution r col = 0 := by
  refine contribution_of_not_mem htab hv hcol fun v hmem hvc => hcnt v hmem ?_
  rw [hv.delta v hmem,hvc]
  exact hcol

theorem CounterRecord.notPatch (hr : CounterRecord tab r) : r.isBlobPatch = false := by
  cases r with
  | blobPatch k cl col ranges => exact absurd hr.2.2.2.2 id
  | _ => rfl

theorem HoldsSums.rowEffect_within (htab : CounterTable tab) (h : HoldsSums tab ws r.key row rs)
    (hr : CounterRecord tab r) (hcell : asCellUpdate tab r rs = some changed) (hodd : r.cl%2 = 1)
    (heq : r.cl = rs.cl) (hfit : ∀ col,tab.isCounterColumn col = true →
      InInt64 (counterSum (ws++[(stamp,r)]) r.key r.cl col)) :
    ∃ x,rowEffect tab rs stamp row r = some x ∧ RowShape tab x ∧ notNullOK tab x = true ∧
      ∀ col,tab.isCounterColumn col = true →
        x col = .int (counterSum (ws++[(stamp,r)]) r.key r.cl col) := by
  have hv := asCellUpdate_values htab hr hcell
  obtain ⟨hcells,x,hx,hshape,hnn,hvals⟩ := h.within htab hr hv hodd heq hfit
  have hkeep : (∀ v ∈ changed,v.format ≠ .delta) → ∀ col,tab.isCounterColumn col = true →
      x col = .int (counterSum (ws++[(stamp,r)]) r.key r.cl col) := by
    intro hcnt col hcol
    rw [counterSum_concat,if_pos ⟨rfl,rfl⟩,contribution_of_no_counter htab hv hcnt hcol,add_zero]
    exact (hvals col hcol).1
  rw [rowEffect,hcell]
  simp only
  split_ifs with hskip hnil
  · refine ⟨x,hx,hshape,hnn,hkeep ?_⟩
    rcases hskip with hlt | ⟨hcnt,-⟩
    · omega
    · simpa [cellUpdateHasCounter] using hcnt
  · refine ⟨x,hx,hshape,hnn,hkeep fun v hmem hd => ?_⟩
    rw [cellWinners_of_not_lt (by omega),filter_eq_nil_iff] at hnil
    exact hnil v hmem (by simp [hd])
  · refine ⟨_,rfl,?_,hcells.admitted,fun col hcol => (hvals col hcol).2⟩
    exact h.shape.overlay _

theorem imageRow_counter (htab : CounterTable tab) {cl : ℕ} {image : List ColValue}
    (hr : CounterRecord tab (.insert k cl image)) {col : ColumnID}
    (hcol : tab.isCounterColumn col = true) :
    imageRow tab image col = .int (contribution (.insert k cl image) col) := by
  obtain ⟨-,-,hnodup,hints,hfull,-⟩ := hr
  have hval := isValueColumn_of_counter htab hcol
  have hnodup' : (image.map column).Nodup := hnodup
  obtain ⟨v,hmem,rfl⟩ := hfull.covers col (isValueColumn_mem_nonPKColumns hval)
  obtain ⟨htag,hlen⟩ := hints v hmem hcol
  rw [imageRow,overlay_imageCells hnodup' hmem hval,boundValue_int htag hlen]
  exact congrArg SqlValue.int (contribution_of_mem hnodup hmem).symm

theorem HoldsSums.absorb (htab : CounterTable tab) (h : HoldsSums tab ws r.key row rs)
    (hr : CounterRecord tab r) (hpar : r.ParityOK) (hopen : OpensWhole tab row rs r)
    (hfit : ∀ col,tab.isCounterColumn col = true →
      InInt64 (counterSum (ws++[(stamp,r)]) r.key r.cl col)) :
    HoldsSums tab (ws++[(stamp,r)]) r.key (rowEffect tab rs stamp row r)
      (rs.absorb tab stamp r) := by
  rcases lt_trichotomy r.cl rs.cl with hgt | heq | hlt
  · rw [rowEffect_of_gt hgt]
    refine h.concat hr.notPatch ?_ ?_ <;> rw [max_eq_left hgt.le]
    · exact h.dead
    · intro hl
      obtain ⟨x,hx,hshape,hnn,hsum⟩ := h.live hl
      refine ⟨x,hx,hshape,hnn,fun col hcol => ?_⟩
      rw [counterSum_concat,if_neg fun hc => hgt.ne hc.2,add_zero]
      exact hsum col hcol
  · have hmax : max rs.cl r.cl = r.cl := max_eq_right heq.ge
    have hlive : ∀ changed,asCellUpdate tab r rs = some changed → r.cl%2 = 1 →
        HoldsSums tab (ws++[(stamp,r)]) r.key (rowEffect tab rs stamp row r)
          (rs.absorb tab stamp r) := by
      intro changed hcell hodd
      refine h.concat hr.notPatch ?_ ?_ <;> rw [hmax]
      · omega
      · exact fun _ => h.rowEffect_within htab hr hcell hodd heq hfit
    cases r with
    | insert k cl image =>
      have hodd : cl%2 = 1 := hpar
      have hcl : cl = rs.cl := heq
      have hl : rs.isLive = true := RowState.isLive_iff.mpr (hcl ▸ hodd)
      have hsome : (asCellUpdate tab (.insert k cl image) rs).isSome = true := by
        simp [asCellUpdate,hl,hcl]
      obtain ⟨changed,hcell⟩ := Option.isSome_iff_exists.mp hsome
      exact hlive changed hcell hodd
    | update k cl changed => exact hlive changed rfl hpar
    | delete k cl =>
      have heven : cl%2 = 0 := hpar
      have hcl : cl = rs.cl := heq
      refine h.concat rfl ?_ ?_ <;> rw [hmax]
      · intro _
        have hnone := h.dead (hcl ▸ heven)
        simp [rowEffect,asCellUpdate,hnone,content]
      · intro hodd
        rw [Record.cl_delete] at hodd
        omega
    | blobPatch k cl col ranges => exact absurd hr.2.2.2.2 id
  · have hsum := h.sum_opening hlt rfl stamp
    have hdom : rs.dominatedBy r.cl stamp = true := RowState.dominatedBy_of_lt hlt
    have hmax : max rs.cl r.cl = r.cl := max_eq_right hlt.le
    cases r with
    | insert k cl image =>
      have hodd : cl%2 = 1 := hpar
      refine h.concat rfl (fun he => ?_) fun _ => ?_
      · rw [hmax,Record.cl_insert] at he
        omega
      · refine ⟨imageRow tab image,?_,imageRow_shape tab image,hr.2.2.2.2.1.admitted,
          fun col hcol => ?_⟩
        · exact rowEffect_of_row (asCellUpdate_of_lt hlt rfl) hdom
        · rw [imageRow_counter htab hr hcol]
          exact congrArg SqlValue.int (hsum col).symm
    | update k cl changed =>
      have hodd : cl%2 = 1 := hpar
      obtain ⟨hcells,hvals⟩ := h.opening htab hr (cellValues_update hr) hopen rfl hlt stamp
      refine h.concat rfl (fun he => ?_) fun _ => ?_
      · rw [hmax,Record.cl_update] at he
        omega
      · refine ⟨_,rowEffect_of_lt rfl hlt hr.2.2.2.2.1,h.shape.overlay _,hcells.admitted,
          fun col hcol => ?_⟩
        exact (hvals col hcol).trans (congrArg SqlValue.int (hsum col).symm)
    | delete k cl =>
      have heven : cl%2 = 0 := hpar
      refine h.concat rfl (fun _ => ?_) fun ho => ?_
      · exact rowEffect_of_row rfl hdom
      · rw [hmax,Record.cl_delete] at ho
        omega
    | blobPatch k cl col ranges => exact absurd hr.2.2.2.2 id

/-- A columnwise record is an update, or an insert of the row's own generation. -/
theorem asCellUpdate_cases (hr : CounterRecord tab r) (hpar : r.ParityOK)
    (h : asCellUpdate tab r rs = some changed) :
    r.cl%2 = 1 ∧ (r.isUpdate = true ∧ changed ≠ [] ∨ r.isUpdate = false ∧ r.cl = rs.cl) := by
  cases r with
  | insert k cl image =>
    refine ⟨hpar,.inr ⟨rfl,?_⟩⟩
    simp only [asCellUpdate] at h
    split_ifs at h with hgen
    exact not_not.mp (not_or.mp hgen).2
  | update k cl changed' =>
    cases h
    exact ⟨hpar,.inl ⟨rfl,hr.2.2.2.2.1⟩⟩
  | delete | blobPatch => simp [asCellUpdate] at h

theorem CellValues.validate (hv : CellValues tab r changed) (k : RowKey) :
    validateCellCounterValues tab k changed = .ok () := by
  refine ExceptFold.forM_ok fun v hmem => ?_
  have hdelta := hv.delta v hmem
  have hints := hv.ints v hmem
  unfold validateCellCounterValue
  unfold Table.isCounterColumn at hdelta hints
  obtain ⟨c,hc,-⟩ := isValueColumn_iff.mp (hv.value v hmem)
  rw [hc] at hdelta hints ⊢
  by_cases hd : v.format = .delta
  · have hcnt : c.counter = true := by simpa using hdelta.mp hd
    obtain ⟨htag,hlen,-⟩ := hints (by simpa using hcnt)
    simp [hd,hcnt,htag,hlen]
  · have hcnt : c.counter = false := by simpa [hd] using hdelta
    simp [hd,hcnt]

theorem validateInsert_ok {cl : ℕ} {image : List ColValue}
    (hr : CounterRecord tab (.insert k cl image)) : validateInsertCounterImage tab k image = .ok () := by
  unfold validateInsertCounterImage
  split_ifs
  · refine ExceptFold.forM_ok fun v hmem => ?_
    have hints := hr.2.2.2.1 v hmem
    unfold validateInsertCounterValue
    rw [if_neg (hr.2.2.2.2.1.plain v hmem),if_neg]
    rintro ⟨hc,hbad⟩
    exact hbad.elim (fun h => h (hints hc).1) fun h => h (hints hc).2
  · rfl

/-- An insert that lands on a row without one of its generation finds no row. -/
theorem HoldsSums.mergeExisting_eq (h : HoldsSums tab ws r.key (rows.lookup r.key) rs)
    (hrs : rs' = rs ∨ rs'.cl ≤ rs.cl ∧ rs.cl < r.cl ∧ r.isUpdate = false) :
    mergeExisting tab rows rs' r = r := by
  cases r with
  | insert k cl image =>
    refine if_neg ?_
    rintro ⟨-,hlive,hnext,hmem⟩
    have heven : rs'.cl%2 = 0 := by
      rw [RowState.isLive_iff] at hlive
      omega
    have hcl : rs.cl%2 = 0 := by
      rcases hrs with rfl | ⟨hle,hlt,-⟩
      · exact heven
      · rw [RowState.nextLiveCL,if_neg hlive] at hnext
        have hlt : rs.cl < cl := hlt
        have : rs.cl = rs'.cl := by omega
        omega
    obtain ⟨x,hx⟩ := Finmap.mem_iff.mp hmem
    exact absurd (h.dead hcl) (by simp [hx])
  | _ => rfl

theorem HoldsSums.fits (htab : CounterTable tab) (h : HoldsSums tab ws r.key (rows.lookup r.key) rs)
    (hr : CounterRecord tab r) (hpar : r.ParityOK) (hopen : OpensWhole tab (rows.lookup r.key) rs r)
    (hfit : ∀ col,tab.isCounterColumn col = true →
      InInt64 (counterSum (ws++[(stamp,r)]) r.key r.cl col))
    (hrs : rs' = rs ∨ rs'.cl ≤ rs.cl ∧ rs.cl < r.cl ∧ r.isUpdate = false) :
    RecordFits tab rs' stamp rows r where
  notPatch := hr.notPatch
  cell changed hcell hgate := by
    have hv := asCellUpdate_values htab hr hcell
    obtain ⟨hodd,hcase⟩ := asCellUpdate_cases hr hpar hcell
    have hsame : rs' = rs := by
      rcases hrs with hrs | ⟨hle,hlt,hins⟩
      · exact hrs
      · rcases hcase with ⟨hupd,-⟩ | ⟨-,hcl⟩
        · rw [hupd] at hins
          exact absurd hins (by decide)
        · omega
    subst hsame
    refine ⟨hv.validate r.key,hcase.imp And.right fun hc => by omega,?_⟩
    rcases lt_trichotomy r.cl rs'.cl with hgt | heq | hlt
    · exact absurd (.inl hgt) hgate
    · exact (h.within htab hr hv hodd heq hfit).1
    · rcases hcase with ⟨hupd,-⟩ | ⟨-,hcl⟩
      · exact (h.opening htab hr hv hopen hupd hlt stamp).1
      · omega
  row hnone hdom := by
    refine ⟨?_,h.mergeExisting_eq hrs,?_⟩
    · cases r with
      | insert k cl image => exact validateInsert_ok hr
      | _ => rfl
    · have hpk := hr.2.1
      cases r with
      | insert k cl image =>
        refine applyInsert_full htab.noKeys hpk hr.2.2.2.2.1 fun x hx => ?_
        have hshape := h.shape
        rwa [Record.key_insert,hx] at hshape
      | update k cl changed => simp [asCellUpdate] at hnone
      | delete k cl =>
        have hpk : bindPK k = .ok () := hpk
        simp [rowStatement,setRow,content,applyDelete,hpk,bind,Except.bind,pure,Except.pure]
      | blobPatch k cl col ranges => exact absurd hr.2.2.2.2 id

end Step

end Syzy
