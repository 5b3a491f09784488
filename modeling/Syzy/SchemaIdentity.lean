import Syzy.SchemaRows
import Syzy.SchemaApply

/-! The schema by identities that the catalog rows hold: the metadata transaction of an admitted op
executes the op on it. -/

namespace Syzy

open List

open CatalogRows Naming

variable {r : CatalogRows} {seq : ℕ} {op : CatalogOp}

variable {cols : List CatalogColumn} {t : TableID} {x : SqlName}

theorem CatalogRows.Sound.schema_tables (h : r.Sound) {n : SqlName} :
    r.schema.tables t = some n ↔ (⟨t,n,false⟩ : TableEntry) ∈ r.tables := by
  simp only [schema,Option.map_eq_some_iff,Keyed.find?_eq_some TableEntry.id h.ids,Bool.not_eq_true']
  constructor
  · rintro ⟨e,⟨he,rfl,hd⟩,rfl⟩
    exact hd ▸ he
  · exact fun he => ⟨_,⟨he,rfl,rfl⟩,rfl⟩

theorem CatalogRows.Sound.schema_columns (h : r.Sound) {p : TableID × ColumnID} :
    r.schema.columns p = some x ↔ ∃ c ∈ r.columns,c.key = p ∧ c.dropped = false ∧ c.name = x := by
  simp only [schema,Option.map_eq_some_iff,Keyed.find?_eq_some ColumnEntry.key h.keys,Bool.not_eq_true']
  constructor
  · rintro ⟨c,⟨hc,hk,hd⟩,hx⟩
    exact ⟨c,hc,hk,hd,hx⟩
  · rintro ⟨c,hc,hk,hd,hx⟩
    exact ⟨c,⟨hc,hk,hd⟩,hx⟩

theorem CatalogRows.Sound.schema_active (h : r.Sound) :
    r.Active t ↔ ∃ n,r.schema.tables t = some n := by
  simp only [h.schema_tables]
  constructor
  · rintro ⟨⟨i,n,d⟩,he,rfl,rfl⟩
    exact ⟨n,he⟩
  · rintro ⟨n,he⟩
    exact ⟨_,he,rfl,rfl⟩

theorem foldl_run_columns (hids : (cols.map CatalogColumn.id).Nodup) (t : TableID)
    (C : TableID × ColumnID → Option SqlName) (p : TableID × ColumnID) :
    (cols.map fun c => Step.give (t,c.id) c.name).foldl run C p =
      if p.1 = t then (declaredName cols p.2).or (C p) else C p := by
  induction cols generalizing C with
  | nil => simp [declaredName]
  | cons c cols ih =>
    obtain ⟨hc,hids⟩ := nodup_cons.mp hids
    rw [map_cons,foldl_cons,ih hids]
    by_cases hp : p.1 = t
    · rw [if_pos hp,if_pos hp]
      by_cases hid : p.2 = c.id
      · have hnone : declaredName cols c.id = none := by
          simp only [declaredName,Option.map_eq_none_iff,find?_eq_none,decide_eq_true_eq]
          exact fun x hx heq => hc (heq ▸ mem_map_of_mem hx)
        obtain rfl : p = (t,c.id) := Prod.ext hp hid
        rw [hnone,run_give_self]
        simp [declaredName]
      · rw [run_give_of_ne fun h => hid (congrArg Prod.snd h)]
        simp [declaredName,Ne.symm hid]
    · rw [if_neg hp,if_neg hp,run_give_of_ne fun h => hp (congrArg Prod.fst h)]

theorem exists_name_of_mem (hids : (cols.map CatalogColumn.id).Nodup) {c : ColumnID} :
    declaredName cols c = some x ↔ ∃ y ∈ cols,y.id = c ∧ y.name = x := by
  have hfind : ∀ y,cols.find? (fun z => z.id = c) = some y ↔ y ∈ cols ∧ y.id = c := fun y => by
    simpa using Keyed.find?_eq_some CatalogColumn.id hids (x := y) (k := c) (p := fun _ => true)
  simp only [declaredName,Option.map_eq_some_iff,hfind]
  constructor
  · rintro ⟨y,⟨hy,hid⟩,hx⟩
    exact ⟨y,hy,hid,hx⟩
  · rintro ⟨y,hy,hid,hx⟩
    exact ⟨y,⟨hy,hid⟩,hx⟩

theorem CatalogRows.Sound.schema_apply (h : r.Sound) (ha : r.Admits op) :
    (r.applyCatalogOp seq op).schema = r.schema.exec op := by
  have h' : (r.applyCatalogOp seq op).Sound := h.apply ha
  have htables : ∀ t n,(r.applyCatalogOp seq op).schema.tables t = some n ↔
      (r.schema.exec op).tables t = some n := by
    intro t n
    rw [h'.schema_tables]
    cases op with
    | createTable t₀ name cols =>
      rw [tables_createTable ha,mem_append,mem_singleton,← h.schema_tables]
      show _ ↔ run r.schema.tables (.give t₀ name) t = some n
      by_cases ht : t = t₀
      · subst ht
        have hnone : r.schema.tables t ≠ some n := fun heq => ha.1 _ (h.schema_tables.mp heq) rfl
        simp [hnone,eq_comm]
      · simp [run_give_of_ne ht,ht]
    | dropTable t₀ =>
      show _ ∈ Keyed.upsert _ _ _ ↔ run r.schema.tables (.drop t₀) t = some n
      rw [Keyed.mem_upsert,← h.schema_tables]
      by_cases ht : t = t₀
      · subst ht
        simp
      · simp [run_drop_of_ne ht,ht]
    | renameTable t₀ name =>
      show _ ∈ Keyed.modify _ _ _ _ ↔ run r.schema.tables (.give t₀ name) t = some n
      rw [Keyed.mem_modify]
      by_cases ht : t = t₀
      · subst ht
        rw [run_give_self]
        obtain ⟨⟨e,he,hid,hd⟩,-⟩ := ha
        constructor
        · rintro ⟨x,hx,heq⟩
          by_cases hxt : x.id = t
          · rw [if_pos hxt] at heq
            exact congrArg some (congrArg TableEntry.name heq).symm
          · rw [if_neg hxt] at heq
            exact absurd (congrArg TableEntry.id heq).symm hxt
        · intro hn
          cases hn
          refine ⟨e,he,?_⟩
          rw [if_pos hid,← hid,← hd]
      · rw [run_give_of_ne ht,h.schema_tables]
        constructor
        · rintro ⟨x,hx,heq⟩
          by_cases hxt : x.id = t₀
          · rw [if_pos hxt] at heq
            exact absurd ((congrArg TableEntry.id heq).trans hxt) ht
          · rw [if_neg hxt] at heq
            exact heq ▸ hx
        · exact fun hx => ⟨_,hx,(if_neg ht).symm⟩
    | addColumn t₀ c => exact h.schema_tables.symm
    | dropColumn t₀ c => exact tables_dropColumn (r := r) c ▸ h.schema_tables.symm
    | renameColumn t₀ c name => exact h.schema_tables.symm
  have hcolumns : ∀ p x,(r.applyCatalogOp seq op).schema.columns p = some x ↔
      (r.schema.exec op).columns p = some x := by
    intro p x
    rw [h'.schema_columns]
    cases op with
    | createTable t₀ name cols =>
      obtain ⟨-,hcol,-,hids,-⟩ := id ha
      show _ ↔ (cols.map fun c => Step.give (t₀,c.id) c.name).foldl run r.schema.columns p = some x
      rw [columns_createTable ha,foldl_run_columns hids]
      simp only [mem_append,mem_map,or_and_right,exists_or,← h.schema_columns]
      by_cases hp : p.1 = t₀
      · have hnone : r.schema.columns p = none := Option.eq_none_iff_forall_ne_some.mpr fun x hx => by
          obtain ⟨c,hc,hk,-⟩ := h.schema_columns.mp hx
          exact hcol c hc ((congrArg Prod.fst hk).trans hp)
        rw [if_pos hp,hnone,Option.or_none,exists_name_of_mem hids]
        constructor
        · rintro (h | ⟨-,⟨y,hy,rfl⟩,hk,-,hx⟩)
          · exact absurd h (by simp)
          · exact ⟨y,hy,congrArg Prod.snd hk,hx⟩
        · rintro ⟨y,hy,hid,hx⟩
          exact .inr ⟨_,⟨y,hy,rfl⟩,Prod.ext hp.symm hid,rfl,hx⟩
      · rw [if_neg hp]
        constructor
        · rintro (h | ⟨-,⟨y,hy,rfl⟩,hk,-⟩)
          · exact h
          · exact absurd (congrArg Prod.fst hk).symm hp
        · exact .inl
    | dropTable | renameTable => exact h.schema_columns.symm
    | addColumn t₀ c =>
      show (∃ y ∈ Keyed.upsert _ _ _,_) ↔ run r.schema.columns (.give (t₀,c.id) c.name) p = some x
      rw [Keyed.upsert_of_absent _ ha.2.1]
      simp only [mem_append,mem_singleton,or_and_right,exists_or,exists_eq_left,← h.schema_columns]
      by_cases hp : p = (t₀,c.id)
      · subst hp
        have hnone : r.schema.columns (t₀,c.id) ≠ some x := fun hx => by
          obtain ⟨y,hy,hk,-⟩ := h.schema_columns.mp hx
          exact ha.2.1 y hy hk
        simp [hnone,CatalogColumn.entry,ColumnEntry.key]
      · rw [run_give_of_ne hp]
        simp [CatalogColumn.entry,ColumnEntry.key,Ne.symm hp]
    | dropColumn t₀ c =>
      show (∃ y ∈ (r.dropColumn t₀ c seq).columns,_) ↔ run r.schema.columns (.drop (t₀,c)) p = some x
      rw [dropColumn_of_mem seq ha.2]
      by_cases hp : p = (t₀,c)
      · subst hp
        rw [run_drop_self]
        refine iff_of_false ?_ (by simp)
        rintro ⟨y,hy,hk,hd,-⟩
        obtain ⟨z,hz,rfl⟩ := (Keyed.mem_modify _).mp hy
        by_cases hzk : z.key = (t₀,c)
        · rw [if_pos hzk] at hd
          exact Bool.noConfusion hd
        · rw [if_neg hzk] at hk
          exact hzk hk
      · rw [run_drop_of_ne hp,h.schema_columns]
        refine Keyed.exists_mem_modify_of_ne ColumnEntry.key (fun _ => ?_) hp
        rfl
    | renameColumn t₀ c name =>
      show (∃ y ∈ Keyed.modify _ _ _ _,_) ↔ run r.schema.columns (.give (t₀,c) name) p = some x
      by_cases hp : p = (t₀,c)
      · subst hp
        rw [run_give_self]
        constructor
        · rintro ⟨y,hy,hk,hd,hx⟩
          obtain ⟨z,hz,rfl⟩ := (Keyed.mem_modify _).mp hy
          by_cases hzk : z.key = (t₀,c)
          · rw [if_pos hzk] at hx
            exact congrArg some hx
          · rw [if_neg hzk] at hk
            exact absurd hk hzk
        · intro hx
          obtain ⟨-,⟨y,hy,rfl⟩,-⟩ := ha
          obtain ⟨hmem,rfl,hd⟩ := mem_activeColumns.mp hy
          exact ⟨_,(Keyed.mem_modify _).mpr ⟨y,hmem,(if_pos rfl).symm⟩,rfl,hd,Option.some.inj hx⟩
      · rw [run_give_of_ne hp,h.schema_columns]
        refine Keyed.exists_mem_modify_of_ne ColumnEntry.key (fun _ => ?_) hp
        rfl
  have ht : (r.applyCatalogOp seq op).schema.tables = (r.schema.exec op).tables :=
    funext fun t => Option.ext (htables t)
  have hc : (r.applyCatalogOp seq op).schema.columns = (r.schema.exec op).columns :=
    funext fun p => Option.ext (hcolumns p)
  exact congrArg₂ IdSchema.mk ht hc

end Syzy
