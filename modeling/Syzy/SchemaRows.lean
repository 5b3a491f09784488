import Syzy.SchemaCatalog

/-! What admitted schema ops keep: ids tell the rows apart, and names the active ones. -/

namespace Syzy

open List

namespace CatalogRows

variable {r : CatalogRows} {seq : ℕ} {table : TableID}

structure Sound (r : CatalogRows) : Prop where
  ids : (r.tables.map TableEntry.id).Nodup
  names : ∀ e ∈ r.tables,∀ e' ∈ r.tables,e.dropped = false → e'.dropped = false → e.name = e'.name →
    e = e'
  keys : (r.columns.map ColumnEntry.key).Nodup
  columnNames : ∀ c ∈ r.columns,∀ c' ∈ r.columns,c.table = c'.table → c.dropped = false →
    c'.dropped = false → c.name = c'.name → c = c'
  named : ∀ c ∈ r.columns,c.dropped = false → c.name ≠ noName

@[simp] theorem tables_foldl_addColumn (cols : List CatalogColumn) :
    (cols.foldl (addColumn seq table) r).tables = r.tables := by
  induction cols generalizing r with
  | nil => rfl
  | cons c cols ih => exact ih

@[simp] theorem tables_dropColumn (column : ColumnID) :
    (r.dropColumn table column seq).tables = r.tables := by
  unfold dropColumn
  split_ifs <;> rfl

theorem columns_foldl_addColumn {cols : List CatalogColumn}
    (hfresh : ∀ c ∈ r.columns,∀ x ∈ cols,c.key ≠ (table,x.id))
    (hnodup : (cols.map CatalogColumn.id).Nodup) :
    (cols.foldl (addColumn seq table) r).columns = r.columns++cols.map (CatalogColumn.entry seq table) := by
  induction cols generalizing r with
  | nil => simp
  | cons x cols ih =>
    obtain ⟨hx,hcols⟩ := nodup_cons.mp hnodup
    have hadd : (r.addColumn seq table x).columns = r.columns++[x.entry seq table] :=
      Keyed.upsert_of_absent _ fun c hc => hfresh c hc x mem_cons_self
    rw [foldl_cons,ih ?_ hcols,hadd,append_assoc,map_cons,singleton_append]
    intro c hc y hy
    rw [hadd,mem_append,mem_singleton] at hc
    obtain hc | rfl := hc
    · exact hfresh c hc y (mem_cons_of_mem _ hy)
    · intro heq
      have hid : x.id = y.id := (Prod.mk.inj heq).2
      exact hx (hid ▸ mem_map_of_mem hy)

variable {c : ColumnEntry} {columns : List CatalogColumn} {name : SqlName}

theorem tables_createTable (ha : r.Admits (.createTable table name columns)) :
    (r.applyCatalogOp seq (.createTable table name columns)).tables = r.tables++[⟨table,name,false⟩] :=
  (tables_foldl_addColumn columns).trans (Keyed.upsert_of_absent _ ha.1)

theorem columns_createTable (ha : r.Admits (.createTable table name columns)) :
    (r.applyCatalogOp seq (.createTable table name columns)).columns =
      r.columns++columns.map (CatalogColumn.entry seq table) :=
  columns_foldl_addColumn (fun c hc _ _ heq => ha.2.1 c hc (Prod.mk.inj heq).1) ha.2.2.2.1

theorem mem_columnsOf : c ∈ r.columnsOf table ↔ c ∈ r.columns ∧ c.table = table := by
  simp [columnsOf]

theorem mem_activeColumns :
    c ∈ r.activeColumns table ↔ c ∈ r.columns ∧ c.table = table ∧ c.dropped = false := by
  simp [activeColumns,mem_columnsOf,and_assoc]

theorem dropColumn_of_mem (seq : ℕ) {column : ColumnID} (h : ∃ c ∈ r.activeColumns table,c.id = column) :
    (r.dropColumn table column seq).columns = Keyed.modify ColumnEntry.key (table,column)
      (fun e => { e with dropped := true,dropSeq := seq }) r.columns := by
  obtain ⟨c,hc,rfl⟩ := h
  obtain ⟨hmem,rfl,-⟩ := mem_activeColumns.mp hc
  rw [dropColumn,if_pos (any_eq_true.mpr ⟨c,hmem,by simp [ColumnEntry.key]⟩)]

namespace Sound

theorem tables_eq (h : r.Sound) {e e' : TableEntry} (he : e ∈ r.tables) (he' : e' ∈ r.tables)
    (hid : e.id = e'.id) : e = e' := inj_on_of_nodup_map h.ids he he' hid

theorem columns_eq (h : r.Sound) {c c' : ColumnEntry} (hc : c ∈ r.columns) (hc' : c' ∈ r.columns)
    (hkey : c.key = c'.key) : c = c' := inj_on_of_nodup_map h.keys hc hc' hkey

variable {column : ColumnID} {name : SqlName}

variable (h : r.Sound)
include h

theorem createTable {columns : List CatalogColumn}
    (ha : r.Admits (.createTable table name columns)) :
    (r.applyCatalogOp seq (.createTable table name columns)).Sound := by
  obtain ⟨hid,hcol,⟨-,hname⟩,hids,hnames,hnamed,-⟩ := id ha
  refine ⟨?_,?_,?_,?_,?_⟩
  · rw [tables_createTable ha,map_append]
    refine h.ids.append (nodup_singleton _) fun k hk hk' => ?_
    obtain ⟨e,he,rfl⟩ := mem_map.mp hk
    exact hid e he (by simpa using hk')
  · rw [tables_createTable ha]
    intro e he e' he' hd hd' heq
    simp only [mem_append,mem_singleton] at he he'
    obtain he | rfl := he <;> obtain he' | rfl := he'
    · exact h.names e he e' he' hd hd' heq
    · exact absurd heq (hname e he hd)
    · exact absurd heq.symm (hname e' he' hd')
    · rfl
  · rw [columns_createTable ha,map_append,map_map]
    refine h.keys.append ?_ fun k hk hk' => ?_
    · refine Nodup.of_map Prod.snd ?_
      rw [map_map]
      exact hids
    · obtain ⟨c,hc,rfl⟩ := mem_map.mp hk
      obtain ⟨x,-,heq⟩ := mem_map.mp hk'
      exact hcol c hc (Prod.mk.inj heq).1.symm
  · rw [columns_createTable ha]
    intro c hc c' hc' ht hd hd' heq
    simp only [mem_append,mem_map] at hc hc'
    obtain hc | ⟨x,hx,rfl⟩ := hc <;> obtain hc' | ⟨x',hx',rfl⟩ := hc'
    · exact h.columnNames c hc c' hc' ht hd hd' heq
    · exact absurd ht (hcol c hc)
    · exact absurd ht.symm (hcol c' hc')
    · rw [inj_on_of_nodup_map hnames hx hx' heq]
  · rw [columns_createTable ha]
    intro c hc hd
    obtain hc | hc := mem_append.mp hc
    · exact h.named c hc hd
    · obtain ⟨x,hx,rfl⟩ := mem_map.mp hc
      exact fun heq => hnamed (heq ▸ mem_map_of_mem hx)

theorem dropTable : (r.applyCatalogOp seq (.dropTable table)).Sound := by
  refine ⟨Keyed.nodup_upsert _ h.ids,?_,h.keys,h.columnNames,h.named⟩
  intro e he e' he' hd hd' heq
  obtain rfl | ⟨he,-⟩ := (Keyed.mem_upsert _).mp he
  · exact absurd hd (by simp)
  · obtain rfl | ⟨he',-⟩ := (Keyed.mem_upsert _).mp he'
    · exact absurd hd' (by simp)
    · exact h.names e he e' he' hd hd' heq

theorem renameTable (ha : r.Admits (.renameTable table name)) :
    (r.applyCatalogOp seq (.renameTable table name)).Sound := by
  obtain ⟨-,-,hname⟩ := ha
  refine ⟨?_,?_,h.keys,h.columnNames,h.named⟩
  · exact Keyed.nodup_modify _ (fun _ => rfl) h.ids
  · intro e he e' he' hd hd' heq
    obtain ⟨x,hx,rfl⟩ := (Keyed.mem_modify _).mp he
    obtain ⟨x',hx',rfl⟩ := (Keyed.mem_modify _).mp he'
    by_cases ht : x.id = table <;> by_cases ht' : x'.id = table
    · rw [h.tables_eq hx hx' (ht.trans ht'.symm)]
    · simp only [ht,ht',if_true,if_false] at hd hd' heq
      exact absurd heq.symm (hname x' hx' hd')
    · simp only [ht,ht',if_true,if_false] at hd hd' heq
      exact absurd heq (hname x hx hd)
    · simp only [ht,ht',if_false] at hd hd' heq ⊢
      exact h.names x hx x' hx' hd hd' heq

theorem addColumn {column : CatalogColumn} (ha : r.Admits (.addColumn table column)) :
    (r.applyCatalogOp seq (.addColumn table column)).Sound := by
  obtain ⟨-,hkey,⟨hnamed,hname⟩,-⟩ := ha
  refine ⟨h.ids,h.names,Keyed.nodup_upsert _ h.keys,?_,?_⟩
  · intro c hc c' hc' ht hd hd' heq
    obtain rfl | ⟨hc,-⟩ := (Keyed.mem_upsert _).mp hc <;>
      obtain rfl | ⟨hc',-⟩ := (Keyed.mem_upsert _).mp hc'
    · rfl
    · exact absurd heq.symm (hname c' (mem_activeColumns.mpr ⟨hc',ht.symm,hd'⟩))
    · exact absurd heq (hname c (mem_activeColumns.mpr ⟨hc,ht,hd⟩))
    · exact h.columnNames c hc c' hc' ht hd hd' heq
  · intro c hc hd
    obtain rfl | ⟨hc,-⟩ := (Keyed.mem_upsert _).mp hc
    · exact hnamed
    · exact h.named c hc hd

theorem dropColumn (ha : r.Admits (.dropColumn table column)) :
    (r.applyCatalogOp seq (.dropColumn table column)).Sound := by
  have hcols := dropColumn_of_mem seq ha.2
  have htables : (r.applyCatalogOp seq (.dropColumn table column)).tables = r.tables :=
    tables_dropColumn column
  refine ⟨htables.symm ▸ h.ids,htables.symm ▸ h.names,?_,?_,?_⟩
  · rw [applyCatalogOp,hcols]
    exact Keyed.nodup_modify _ (fun _ => rfl) h.keys
  · intro c hc c' hc' ht hd hd' heq
    obtain ⟨x,hx,rfl⟩ := (Keyed.mem_modify _).mp (hcols ▸ hc)
    obtain ⟨x',hx',rfl⟩ := (Keyed.mem_modify _).mp (hcols ▸ hc')
    by_cases hk : x.key = (table,column)
    · simp [hk] at hd
    · by_cases hk' : x'.key = (table,column)
      · simp [hk'] at hd'
      · simp only [hk,hk',if_false] at hd hd' heq ht ⊢
        exact h.columnNames x hx x' hx' ht hd hd' heq
  · intro c hc hd
    obtain ⟨x,hx,rfl⟩ := (Keyed.mem_modify _).mp (hcols ▸ hc)
    by_cases hk : x.key = (table,column)
    · simp [hk] at hd
    · rw [if_neg hk] at hd ⊢
      exact h.named x hx hd

theorem renameColumn (ha : r.Admits (.renameColumn table column name)) :
    (r.applyCatalogOp seq (.renameColumn table column name)).Sound := by
  obtain ⟨-,-,hnamed,hname⟩ := ha
  refine ⟨h.ids,h.names,Keyed.nodup_modify _ (fun _ => rfl) h.keys,?_,?_⟩
  · intro c hc c' hc' ht hd hd' heq
    obtain ⟨x,hx,rfl⟩ := (Keyed.mem_modify _).mp hc
    obtain ⟨x',hx',rfl⟩ := (Keyed.mem_modify _).mp hc'
    by_cases hk : x.key = (table,column) <;> by_cases hk' : x'.key = (table,column)
    · rw [h.columns_eq hx hx' (hk.trans hk'.symm)]
    · simp only [hk,hk',if_true,if_false] at hd hd' heq ht
      exact absurd heq.symm (hname x' (mem_activeColumns.mpr ⟨hx',ht.symm.trans (Prod.mk.inj hk).1,hd'⟩))
    · simp only [hk,hk',if_true,if_false] at hd hd' heq ht
      exact absurd heq (hname x (mem_activeColumns.mpr ⟨hx,ht.trans (Prod.mk.inj hk').1,hd⟩))
    · simp only [hk,hk',if_false] at hd hd' heq ht ⊢
      exact h.columnNames x hx x' hx' ht hd hd' heq
  · intro c hc hd
    obtain ⟨x,hx,rfl⟩ := (Keyed.mem_modify _).mp hc
    by_cases hk : x.key = (table,column)
    · rw [if_pos hk]
      exact hnamed
    · rw [if_neg hk] at hd ⊢
      exact h.named x hx hd

theorem apply {op : CatalogOp} (ha : r.Admits op) : (r.applyCatalogOp seq op).Sound := by
  cases op with
  | createTable table name columns => exact h.createTable ha
  | dropTable table => exact h.dropTable
  | renameTable table name => exact h.renameTable ha
  | addColumn table column => exact h.addColumn ha
  | dropColumn table column => exact h.dropColumn ha
  | renameColumn table column name => exact h.renameColumn ha

theorem applyEvent {ev : SchemaEvent} (ha : r.AdmitsEvent ev) : (r.applyEvent ev).Sound := by
  obtain ⟨hids,hnames,hkeys,hcols,hnamed⟩ := ha.invariant (I := Sound) (fun _ _ h ha => h.apply ha) h
  exact ⟨hids,hnames,hkeys,hcols,hnamed⟩

end Sound

/-- With names that tell active tables apart, the map by name answers with the table of that name. -/
theorem Sound.tableEntryByName_eq_some (h : r.Sound) {e : TableEntry} :
    r.tableEntryByName name = some e ↔ e ∈ r.tables ∧ e.dropped = false ∧ e.name = name := by
  unfold tableEntryByName
  constructor
  · intro hfind
    have hp := find?_some hfind
    refine ⟨mem_reverse.mp (mem_of_find?_eq_some hfind),?_⟩
    simpa using hp
  · rintro ⟨he,hd,rfl⟩
    obtain ⟨e',hfind⟩ := Option.isSome_iff_exists.mp (find?_isSome.mpr
      ⟨e,mem_reverse.mpr he,by simp [hd]⟩ :
      (r.tables.reverse.find? fun x => !x.dropped && decide (x.name = e.name)).isSome = true)
    have hp := find?_some hfind
    have hmem := mem_reverse.mp (mem_of_find?_eq_some hfind)
    simp only [Bool.and_eq_true,Bool.not_eq_true',decide_eq_true_eq] at hp
    rw [hfind,h.names e' hmem e he hp.1 hd hp.2]

end CatalogRows

end Syzy
