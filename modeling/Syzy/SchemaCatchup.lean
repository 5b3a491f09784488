import Syzy.SchemaIdentity

/-!
Catch-up with the schema log under crashes. A single event takes effect exactly once, however often its
tick is cut off before the metadata transaction; so does a bundle that reuses no name.
-/

namespace Syzy

open Machine Function List IdSchema CatalogOp
open Option (mem_unique eq_none_iff_forall_ne_some)
open Function (update)

open CatalogRows Naming

variable {r : CatalogRows} {op : CatalogOp} {S : IdSchema} {v : TableResolver} {app : AppSchema}
  {t : TableID} {n : SqlName}

namespace IdSchema

def Admits (S : IdSchema) : CatalogOp → Prop
  | .createTable t name cols => S.tables t = none ∧ (∀ t',S.tables t' ≠ some name) ∧
      (∀ c,S.columns (t,c) = none) ∧ (cols.map CatalogColumn.id).Nodup ∧ (cols.map CatalogColumn.name).Nodup
  | .dropTable t => ∃ m,S.tables t = some m
  | .renameTable t name => (∃ m,S.tables t = some m) ∧ ∀ t',S.tables t' ≠ some name
  | .addColumn t c => (∃ m,S.tables t = some m) ∧ S.columns (t,c.id) = none ∧
      ∀ c',S.columns (t,c') ≠ some c.name
  | .dropColumn t c => (∃ m,S.tables t = some m) ∧ ∃ x,S.columns (t,c) = some x ∧ x ≠ noName
  | .renameColumn t c name => (∃ m,S.tables t = some m) ∧ (∃ x,S.columns (t,c) = some x) ∧
      ∀ c',S.columns (t,c') ≠ some name

end IdSchema

theorem CatalogRows.Sound.tables_ne (h : r.Sound) (hn : r.FreeName n) (t : TableID) :
    r.schema.tables t ≠ some n := fun ht => hn.2 _ (h.schema_tables.mp ht) rfl rfl

theorem CatalogRows.Sound.columns_ne (h : r.Sound) (hn : r.FreeColumnName t n) (c : ColumnID) :
    r.schema.columns (t,c) ≠ some n := fun hc => by
  obtain ⟨y,hy,hk,hd,hx⟩ := h.schema_columns.mp hc
  exact hn.2 y (mem_activeColumns.mpr ⟨hy,congrArg Prod.fst hk,hd⟩) hx

theorem CatalogRows.Sound.columns_of_active (h : r.Sound) {c : ColumnID}
    (hc : ∃ y ∈ r.activeColumns t,y.id = c) : ∃ x,r.schema.columns (t,c) = some x ∧ x ≠ noName := by
  obtain ⟨y,hy,rfl⟩ := hc
  obtain ⟨hmem,rfl,hd⟩ := mem_activeColumns.mp hy
  exact ⟨y.name,h.schema_columns.mpr ⟨y,hmem,rfl,hd,rfl⟩,h.named y hmem hd⟩

theorem CatalogRows.Sound.admits (h : r.Sound) (ha : r.Admits op) : r.schema.Admits op := by
  cases op with
  | createTable t name cols =>
    obtain ⟨hid,hcol,hname,hids,hnames,-⟩ := ha
    refine ⟨?_,h.tables_ne hname,fun c => ?_,hids,hnames⟩
    · exact eq_none_iff_forall_ne_some.mpr fun n hn => hid _ (h.schema_tables.mp hn) rfl
    · refine eq_none_iff_forall_ne_some.mpr fun x hx => ?_
      obtain ⟨y,hy,hk,-⟩ := h.schema_columns.mp hx
      exact hcol y hy (congrArg Prod.fst hk)
  | dropTable t => exact h.schema_active.mp ha
  | renameTable t name => exact ⟨h.schema_active.mp ha.1,h.tables_ne ha.2⟩
  | addColumn t c =>
    obtain ⟨hact,hkey,hname,-⟩ := ha
    refine ⟨h.schema_active.mp hact,eq_none_iff_forall_ne_some.mpr fun x hx => ?_,h.columns_ne hname⟩
    obtain ⟨y,hy,hk,-⟩ := h.schema_columns.mp hx
    exact hkey y hy hk
  | dropColumn t c => exact ⟨h.schema_active.mp ha.1,h.columns_of_active ha.2⟩
  | renameColumn t c name =>
    obtain ⟨x,hx,-⟩ := h.columns_of_active ha.2.1
    exact ⟨h.schema_active.mp ha.1,⟨x,hx⟩,h.columns_ne ha.2.2⟩

/-- The view names the tables and columns of the schema; what it names beyond is dropped. -/
structure Views (v : TableResolver) (S : IdSchema) : Prop where
  active : ∀ {t : TableID} {n : SqlName},S.tables t = some n → ∃ u,v t = some u ∧ u.dropped = false ∧
    u.name = n ∧ ∀ c,u.columns c = S.columns (t,c)
  gone : ∀ {t : TableID} {u : ResolvedTable},S.tables t = none → v t = some u → u.dropped = true

theorem columnName_eq_some {cols : List ColumnEntry} (h : (cols.map ColumnEntry.id).Nodup) {c : ColumnID}
    {x : SqlName} : columnName cols c = some x ↔ ∃ y ∈ cols,y.id = c ∧ y.name = x := by
  have hfind : ∀ y,cols.find? (fun z => z.id = c) = some y ↔ y ∈ cols ∧ y.id = c := fun y => by
    simpa using Keyed.find?_eq_some ColumnEntry.id h (x := y) (k := c) (p := fun _ => true)
  simp only [columnName,Option.map_eq_some_iff,hfind,and_assoc]

theorem CatalogRows.Sound.nodup_columnsOf (h : r.Sound) (t : TableID) :
    ((r.columnsOf t).map ColumnEntry.id).Nodup := by
  have hkeys : ((r.columnsOf t).map ColumnEntry.key).Nodup := h.keys.sublist (filter_sublist.map _)
  have heq : (r.columnsOf t).map ColumnEntry.key = ((r.columnsOf t).map ColumnEntry.id).map (Prod.mk t) := by
    rw [map_map]
    exact map_congr_left fun c hc => Prod.ext (mem_columnsOf.mp hc).2 rfl
  exact .of_map _ (heq ▸ hkeys)

theorem CatalogRows.Sound.resolver (h : r.Sound) {e : TableEntry} (he : e ∈ r.tables) :
    ∃ u,r.resolver e.id = some u ∧ u.name = e.name ∧ u.dropped = e.dropped ∧
      (∀ c x,u.columns c = some x ↔ r.schema.columns (e.id,c) = some x) ∧
      ∀ c x,u.history c = some x ↔ ∃ y ∈ r.columns,y.key = (e.id,c) ∧ y.name = x := by
  have hfind : r.tables.find? (fun x => x.id = e.id) = some e := by
    have := (Keyed.find?_eq_some TableEntry.id h.ids (x := e) (k := e.id) (p := fun _ => true)).mpr
      ⟨he,rfl,rfl⟩
    simpa using this
  have hnodup := h.nodup_columnsOf e.id
  refine ⟨_,by rw [CatalogRows.resolver,tableByID,hfind]; rfl,rfl,rfl,fun c x => ?_,fun c x => ?_⟩
  · have hperm := perm_insertionSort (fun a b : ColumnEntry => a.ordinal ≤ b.ordinal)
      ((r.columnsOf e.id).filter fun c => !c.dropped)
    have hn : ((r.load e).columns.map ColumnEntry.id).Nodup :=
      (hperm.map _).nodup_iff.mpr (hnodup.sublist (filter_sublist.map _))
    rw [columnName_eq_some hn,h.schema_columns]
    constructor
    · rintro ⟨y,hy,rfl,rfl⟩
      obtain ⟨hmem,ht,hd⟩ := mem_activeColumns.mp (hperm.mem_iff.mp hy)
      exact ⟨y,hmem,Prod.ext ht rfl,hd,rfl⟩
    · rintro ⟨y,hy,hk,hd,rfl⟩
      exact ⟨y,hperm.mem_iff.mpr (mem_activeColumns.mpr ⟨hy,congrArg Prod.fst hk,hd⟩),
        congrArg Prod.snd hk,rfl⟩
  · have hperm := perm_insertionSort (fun a b : ColumnEntry => a.ordinal < b.ordinal ∨
      a.ordinal = b.ordinal ∧ a.createSeq ≤ b.createSeq) (r.columnsOf e.id)
    have hn : ((r.load e).allColumns.map ColumnEntry.id).Nodup := (hperm.map _).nodup_iff.mpr hnodup
    rw [columnName_eq_some hn]
    constructor
    · rintro ⟨y,hy,rfl,rfl⟩
      obtain ⟨hmem,ht⟩ := mem_columnsOf.mp (hperm.mem_iff.mp hy)
      exact ⟨y,hmem,Prod.ext ht rfl,rfl⟩
    · rintro ⟨y,hy,hk,rfl⟩
      exact ⟨y,hperm.mem_iff.mpr (mem_columnsOf.mpr ⟨hy,congrArg Prod.fst hk⟩),congrArg Prod.snd hk,rfl⟩

theorem CatalogRows.Sound.views (h : r.Sound) : Views r.resolver r.schema where
  active {t n} ht := by
    obtain ⟨u,hu,hname,hd,hc,-⟩ := h.resolver (h.schema_tables.mp ht)
    exact ⟨u,hu,hd,hname,fun c => Option.ext (hc c)⟩
  gone {t u} ht hu := by
    rw [CatalogRows.resolver,tableByID,Option.map_map,Option.map_eq_some_iff] at hu
    obtain ⟨e,he,rfl⟩ := hu
    cases hd : e.dropped with
    | true => exact hd
    | false =>
      obtain rfl : e.id = t := by simpa using find?_some he
      have hmem : (⟨e.id,e.name,false⟩ : TableEntry) ∈ r.tables := hd ▸ mem_of_find?_eq_some he
      exact absurd (ht.symm.trans (h.schema_tables.mpr hmem)) (by simp)

theorem Views.change {S' : IdSchema} (h : Views v S) {m : SqlName} (ht : S.tables t = some m)
    {f : ResolvedTable → ResolvedTable} (htables : ∀ t',t' ≠ t → S'.tables t' = S.tables t')
    (hcolumns : ∀ t',t' ≠ t → ∀ c,S'.columns (t',c) = S.columns (t',c))
    (hactive : ∀ u,u.dropped = false → u.name = m → (∀ c,u.columns c = S.columns (t,c)) →
      (∀ n,S'.tables t = some n → (f u).dropped = false ∧ (f u).name = n ∧
        ∀ c,(f u).columns c = S'.columns (t,c)) ∧ (S'.tables t = none → (f u).dropped = true)) :
    ∃ v',Overlay.change v t f = some v' ∧ Views v' S' := by
  obtain ⟨u,hu,hd,hname,hc⟩ := h.active ht
  obtain ⟨hsome,hnone⟩ := hactive u hd hname hc
  refine ⟨update v t (some (f u)),by rw [Overlay.change,hu]; rfl,fun {t' n} ht' => ?_,
    fun {t' u'} ht' hu' => ?_⟩
  · by_cases heq : t' = t
    · subst heq
      exact ⟨_,update_self _ _ _,hsome n ht'⟩
    · rw [update_of_ne heq]
      obtain ⟨u',hu',hd',hname',hc'⟩ := h.active ((htables t' heq).symm.trans ht')
      exact ⟨u',hu',hd',hname',fun c => (hc' c).trans (hcolumns t' heq c).symm⟩
  · by_cases heq : t' = t
    · subst heq
      rw [update_self] at hu'
      exact Option.some.inj hu' ▸ hnone ht'
    · rw [update_of_ne heq] at hu'
      exact h.gone ((htables t' heq).symm.trans ht') hu'

theorem Views.changeColumn (h : Views v S) {m : SqlName} (hm : S.tables t = some m)
    {f : ResolvedTable → ResolvedTable} {c : ColumnID} {y : Option SqlName}
    (hf : ∀ u,(∀ c,u.columns c = S.columns (t,c)) → (f u).dropped = u.dropped ∧ (f u).name = u.name ∧
      (f u).columns = update u.columns c y) :
    ∃ v',Overlay.change v t f = some v' ∧ Views v' ⟨S.tables,update S.columns (t,c) y⟩ := by
  refine h.change hm (fun _ _ => rfl) (fun t' ht' c' => ?_) fun u hd hname hc => ⟨fun n hn => ?_,?_⟩
  · exact update_of_ne (fun heq => ht' (congrArg Prod.fst heq)) _ _
  · obtain ⟨hdropped,hname',hcols⟩ := hf u hc
    refine ⟨hdropped.trans hd,hname'.trans (hname.trans (mem_unique hm hn)),fun c' => ?_⟩
    rw [hcols]
    by_cases heq : c' = c
    · simp [heq]
    · simp [heq,hc]
  · exact fun hn => absurd (hm.symm.trans hn) (by simp)

theorem Views.apply (h : Views v S) (ha : S.Admits op) :
    ∃ v',Overlay.apply v op = some v' ∧ Views v' (S.exec op) := by
  cases op with
  | createTable t name cols =>
    obtain ⟨hnone,-,hcols,hids,-⟩ := ha
    refine ⟨_,rfl,fun {t' n} ht' => ?_,fun {t' u'} ht' hu' => ?_⟩
    · by_cases heq : t' = t
      · subst heq
        obtain rfl := mem_unique run_give_self ht'
        refine ⟨_,update_self _ _ _,rfl,rfl,fun c => ?_⟩
        show _ = (cols.map fun c => Step.give (t',c.id) c.name).foldl run S.columns (t',c)
        rw [foldl_run_columns hids,if_pos rfl,hcols,Option.or_none]
      · rw [update_of_ne heq]
        obtain ⟨u,hu,hd,hname,hc⟩ := h.active ((run_give_of_ne heq).symm.trans ht')
        refine ⟨u,hu,hd,hname,fun c => (hc c).trans ?_⟩
        show _ = (cols.map fun c => Step.give (t,c.id) c.name).foldl run S.columns (t',c)
        rw [foldl_run_columns hids,if_neg heq]
    · by_cases heq : t' = t
      · subst heq
        exact absurd (run_give_self.symm.trans ht') (by simp)
      · rw [update_of_ne heq] at hu'
        exact h.gone ((run_give_of_ne heq).symm.trans ht') hu'
  | dropTable t =>
    obtain ⟨m,hm⟩ := ha
    refine h.change hm (fun t' ht' => run_drop_of_ne ht') (fun _ _ _ => rfl) fun u _ _ _ => ⟨?_,fun _ => rfl⟩
    exact fun n hn => absurd (run_drop_self.symm.trans hn) (by simp)
  | renameTable t name =>
    obtain ⟨⟨m,hm⟩,-⟩ := ha
    refine h.change hm (fun t' ht' => run_give_of_ne ht') (fun _ _ _ => rfl) fun u hd _ hc => ⟨?_,?_⟩
    · exact fun n hn => ⟨hd,mem_unique run_give_self hn,hc⟩
    · exact fun hn => absurd (run_give_self.symm.trans hn) (by simp)
  | addColumn t c =>
    obtain ⟨⟨m,hm⟩,hnone,-⟩ := ha
    refine h.changeColumn hm fun u hc => ⟨rfl,rfl,funext fun c' => ?_⟩
    by_cases heq : c' = c.id
    · subst heq
      simp [declaredName,hc,hnone]
    · simp [declaredName,heq,Ne.symm heq]
  | dropColumn t c =>
    obtain ⟨⟨m,hm⟩,-⟩ := ha
    exact h.changeColumn hm fun u hc => ⟨rfl,rfl,rfl⟩
  | renameColumn t c name =>
    obtain ⟨⟨m,hm⟩,⟨x,hx⟩,-⟩ := ha
    refine h.changeColumn hm fun u hc => ⟨rfl,rfl,?_⟩
    rw [hc,hx]
    rfl

section

variable {g : SqlName → Option ColumnID} {C : TableID × ColumnID → Option SqlName} {c : ColumnID}
  {x : SqlName} (hg : ∀ y c',g y = some c' ↔ C (t,c') = some y)
include hg

theorem columns_give (hc : C (t,c) = none) (hx : ∀ c',C (t,c') ≠ some x) (y : SqlName) (c' : ColumnID) :
    update g x (some c) y = some c' ↔ run C (.give (t,c) x) (t,c') = some y := by
  by_cases hc' : c' = c
  · subst hc'
    rw [run_give_self]
    by_cases hy : y = x
    · simp [hy]
    · rw [update_of_ne hy,hg,hc]
      simp [Ne.symm hy]
  · rw [run_give_of_ne fun heq => hc' (congrArg Prod.snd heq),← hg]
    by_cases hy : y = x
    · subst hy
      exact iff_of_false (by simp [Ne.symm hc']) fun h => hx c' ((hg y c').mp h)
    · rw [update_of_ne hy]

theorem columns_drop (hc : C (t,c) = some x) (y : SqlName) (c' : ColumnID) :
    update g x none y = some c' ↔ run C (.drop (t,c)) (t,c') = some y := by
  by_cases hc' : c' = c
  · subst hc'
    rw [run_drop_self]
    by_cases hy : y = x
    · simp [hy]
    · rw [update_of_ne hy,hg,hc]
      simp [Ne.symm hy]
  · rw [run_drop_of_ne fun heq => hc' (congrArg Prod.snd heq),← hg]
    by_cases hy : y = x
    · subst hy
      simp [(hg y c).mpr hc,Ne.symm hc']
    · rw [update_of_ne hy]

end

namespace IdSchema.Represents

variable (h : S.Represents app)
include h

theorem table_eq {t' : TableID} (ht : S.tables t = some n) (ht' : S.tables t' = some n) :
    t = t' := by
  obtain ⟨o,ho,rfl⟩ := h.named ht
  obtain ⟨o',ho',rfl⟩ := h.named ht'
  rw [mem_unique ho ho']

theorem absent (hn : ∀ t,S.tables t ≠ some n) : app n = none :=
  eq_none_iff_forall_ne_some.mpr fun _ ho => hn _ (h.tables ho)

theorem objectExists_iff : objectExists app n = true ↔ ∃ t,S.tables t = some n := by
  rw [objectExists,Option.isSome_iff_exists]
  constructor
  · exact fun ⟨o,ho⟩ => ⟨_,h.tables ho⟩
  · rintro ⟨t,ht⟩
    obtain ⟨o,ho,-⟩ := h.named ht
    exact ⟨o,ho⟩

theorem columnExists_iff {x : SqlName} : columnExists app n x = true ↔
    ∃ t c,S.tables t = some n ∧ S.columns (t,c) = some x := by
  rw [columnExists,Option.any_eq_true]
  simp only [Option.isSome_iff_exists]
  constructor
  · rintro ⟨o,ho,c,hc⟩
    exact ⟨_,c,h.tables ho,(h.columns ho x c).mp hc⟩
  · rintro ⟨t,c,ht,hc⟩
    obtain ⟨o,ho,rfl⟩ := h.named ht
    exact ⟨o,ho,c,(h.columns ho x c).mpr hc⟩

theorem columnExists_eq_false {x : SqlName} (ht : S.tables t = some n)
    (hfree : ∀ c,S.columns (t,c) ≠ some x) : columnExists app n x = false := by
  refine Bool.eq_false_iff.mpr fun hexists => ?_
  obtain ⟨t',c,ht',hc⟩ := h.columnExists_iff.mp hexists
  obtain rfl := h.table_eq ht ht'
  exact hfree c hc

theorem alter {S' : IdSchema} {o o' : AppTable} (ho : app n = some o)
    (htable : o'.table = o.table) (htables : S'.tables = S.tables)
    (hother : ∀ t,t ≠ o.table → ∀ c,S'.columns (t,c) = S.columns (t,c))
    (hcols : ∀ x c,o'.columns x = some c ↔ S'.columns (o.table,c) = some x) :
    S'.Represents (update app n (some o')) := by
  refine ⟨fun {m q} hq => ?_,fun {m q} hq x c => ?_,fun {t m} ht => ?_⟩
  · by_cases hm : m = n
    · subst hm
      rw [update_self] at hq
      rw [← Option.some.inj hq,htable,htables]
      exact h.tables ho
    · rw [update_of_ne hm] at hq
      exact htables ▸ h.tables hq
  · by_cases hm : m = n
    · subst hm
      rw [update_self] at hq
      rw [← Option.some.inj hq,htable]
      exact hcols x c
    · rw [update_of_ne hm] at hq
      rw [hother q.table fun heq => hm ?_]
      · exact h.columns hq x c
      · exact Option.some.inj ((h.tables hq).symm.trans (heq ▸ h.tables ho))
  · obtain ⟨q,hq,hqt⟩ := h.named (htables ▸ ht)
    by_cases hm : m = n
    · subst hm
      exact ⟨o',update_self _ _ _,by rw [htable,← hqt,mem_unique hq ho]⟩
    · exact ⟨q,(update_of_ne hm _ _).trans hq,hqt⟩

theorem createTable {cols : List CatalogColumn} (ha : S.Admits (.createTable t n cols)) :
    (S.exec (.createTable t n cols)).Represents
      (update app n (some ⟨t,createdColumns cols⟩)) := by
  obtain ⟨hnone,hname,hcols,hids,hnames⟩ := ha
  have hcreated : ∀ x c,createdColumns cols x = some c ↔ declaredName cols c = some x := by
    intro x c
    have hfind : ∀ y,cols.find? (fun z => z.name = x) = some y ↔ y ∈ cols ∧ y.name = x := fun y => by
      simpa using Keyed.find?_eq_some CatalogColumn.name hnames (x := y) (k := x) (p := fun _ => true)
    simp only [exists_name_of_mem hids,createdColumns,Option.map_eq_some_iff,hfind]
    constructor
    · exact fun ⟨y,⟨hy,hx⟩,hc⟩ => ⟨y,hy,hc,hx⟩
    · exact fun ⟨y,hy,hc,hx⟩ => ⟨y,⟨hy,hx⟩,hc⟩
  have hexec : ∀ p,(S.exec (.createTable t n cols)).columns p =
      if p.1 = t then (declaredName cols p.2).or (S.columns p) else S.columns p :=
    foldl_run_columns hids t S.columns
  have hne : ∀ {m o},app m = some o → o.table ≠ t := fun ho heq =>
    absurd ((h.tables ho).symm.trans (heq ▸ hnone)) (by simp)
  refine ⟨fun {m o} ho => ?_,fun {m o} ho x c => ?_,fun {t' m} ht' => ?_⟩
  · by_cases hm : m = n
    · subst hm
      rw [update_self] at ho
      rw [← Option.some.inj ho]
      exact run_give_self
    · rw [update_of_ne hm] at ho
      exact (run_give_of_ne (hne ho)).trans (h.tables ho)
  · by_cases hm : m = n
    · subst hm
      rw [update_self] at ho
      rw [← Option.some.inj ho,hexec,if_pos rfl,hcols,Option.or_none]
      exact hcreated x c
    · rw [update_of_ne hm] at ho
      rw [hexec,if_neg (hne ho)]
      exact h.columns ho x c
  · by_cases heq : t' = t
    · subst heq
      obtain rfl := mem_unique run_give_self ht'
      exact ⟨_,update_self _ _ _,rfl⟩
    · obtain ⟨o,ho,hot⟩ := h.named ((run_give_of_ne heq).symm.trans ht')
      refine ⟨o,(update_of_ne (fun hm => ?_) _ _).trans ho,hot⟩
      exact hname _ (hm ▸ h.tables ho)

theorem dropTable (ht : S.tables t = some n) :
    (S.exec (.dropTable t)).Represents (update app n none) := by
  have hne : ∀ {m o},update app n none m = some o → m ≠ n ∧ app m = some o := by
    intro m o ho
    by_cases hm : m = n
    · subst hm
      exact absurd ((update_self _ _ _).symm.trans ho) (by simp)
    · exact ⟨hm,(update_of_ne hm _ _).symm.trans ho⟩
  refine ⟨fun {m o} ho => ?_,fun {m o} ho => h.columns (hne ho).2,fun {t' m} ht' => ?_⟩
  · obtain ⟨hm,ho⟩ := hne ho
    refine (run_drop_of_ne fun heq => hm ?_).trans (h.tables ho)
    exact Option.some.inj ((h.tables ho).symm.trans (heq ▸ ht))
  · have heq : t' ≠ t := fun heq => absurd (run_drop_self.symm.trans (heq ▸ ht')) (by simp)
    have ht' := (run_drop_of_ne heq).symm.trans ht'
    obtain ⟨o,ho,hot⟩ := h.named ht'
    have hm : m ≠ n := fun hm => heq (h.table_eq ht' (hm ▸ ht))
    exact ⟨o,(update_of_ne hm _ _).trans ho,hot⟩

theorem renameTable {m : SqlName} {o : AppTable} (ht : S.tables t = some m) (ho : app m = some o)
    (hname : ∀ t',S.tables t' ≠ some n) :
    (S.exec (.renameTable t n)).Represents (update (update app m none) n (some o)) := by
  obtain ⟨o',ho',rfl⟩ := h.named ht
  obtain rfl := mem_unique ho' ho
  have hcases : ∀ {k q},update (update app m none) n (some o') k = some q →
      k = n ∧ q = o' ∨ k ≠ m ∧ app k = some q := by
    intro k q hq
    by_cases hk : k = n
    · subst hk
      rw [update_self] at hq
      exact .inl ⟨rfl,(Option.some.inj hq).symm⟩
    · rw [update_of_ne hk] at hq
      by_cases hkm : k = m
      · subst hkm
        exact absurd ((update_self _ _ _).symm.trans hq) (by simp)
      · exact .inr ⟨hkm,(update_of_ne hkm _ _).symm.trans hq⟩
  refine ⟨fun {k q} hq => ?_,fun {k q} hq => ?_,fun {t' k} ht' => ?_⟩
  · obtain ⟨rfl,rfl⟩ | ⟨hk,hq⟩ := hcases hq
    · exact run_give_self
    · refine (run_give_of_ne fun heq => hk ?_).trans (h.tables hq)
      exact Option.some.inj ((h.tables hq).symm.trans (heq ▸ ht))
  · obtain ⟨-,rfl⟩ | ⟨-,hq⟩ := hcases hq
    · exact h.columns ho
    · exact h.columns hq
  · by_cases heq : t' = o'.table
    · subst heq
      obtain rfl := mem_unique run_give_self ht'
      exact ⟨o',update_self _ _ _,rfl⟩
    · have ht' := (run_give_of_ne heq).symm.trans ht'
      obtain ⟨q,hq,hqt⟩ := h.named ht'
      have hkn : k ≠ n := fun hk => hname t' (hk ▸ ht')
      have hkm : k ≠ m := fun hk => heq (h.table_eq ht' (hk ▸ ht))
      exact ⟨q,by rw [update_of_ne hkn,update_of_ne hkm,hq],hqt⟩

theorem exec (hv : Views v S) (ha : S.Admits op) :
    ∃ app',execOp app v op = .ok app' ∧ (S.exec op).Represents app' := by
  cases op with
  | createTable t n cols =>
    have habsent : objectExists app n = false := by rw [objectExists,h.absent ha.2.1]; rfl
    exact ⟨_,by rw [execOp,habsent]; rfl,h.createTable ha⟩
  | dropTable t =>
    obtain ⟨m,hm⟩ := ha
    obtain ⟨u,hu,-,rfl,-⟩ := hv.active hm
    exact ⟨_,by rw [execOp,hu],h.dropTable hm⟩
  | renameTable t n =>
    obtain ⟨⟨m,hm⟩,hname⟩ := ha
    obtain ⟨u,hu,-,rfl,-⟩ := hv.active hm
    obtain ⟨o,ho,-⟩ := h.named hm
    have habsent : objectExists app n = false := by rw [objectExists,h.absent hname]; rfl
    exact ⟨_,by rw [execOp,hu]; simp [ho,habsent],h.renameTable hm ho hname⟩
  | addColumn t c =>
    obtain ⟨⟨m,hm⟩,hnone,hname⟩ := ha
    obtain ⟨u,hu,-,rfl,-⟩ := hv.active hm
    obtain ⟨o,ho,rfl⟩ := h.named hm
    have hfree : o.columns c.name = none := eq_none_iff_forall_ne_some.mpr fun c' hc' =>
      hname c' ((h.columns ho _ _).mp hc')
    refine ⟨update app u.name (some { o with
      columns := update o.columns c.name (some c.id) }),
      by rw [execOp,hu]; simp [alterTable,ho,hfree],h.alter ho rfl rfl ?_
        (columns_give (h.columns ho) hnone hname)⟩
    exact fun t' ht' c' => run_give_of_ne fun heq => ht' (congrArg Prod.fst heq)
  | dropColumn t c =>
    obtain ⟨⟨m,hm⟩,x,hx,-⟩ := ha
    obtain ⟨u,hu,-,rfl,hcols⟩ := hv.active hm
    obtain ⟨o,ho,rfl⟩ := h.named hm
    have hox := (h.columns ho x c).mpr hx
    refine ⟨update app u.name (some { o with columns := update o.columns x none }),
      by rw [execOp,hu]; simp [hcols,hx,alterTable,ho,hox],h.alter ho rfl rfl ?_
        (columns_drop (h.columns ho) hx)⟩
    exact fun t' ht' c' => run_drop_of_ne fun heq => ht' (congrArg Prod.fst heq)
  | renameColumn t c n =>
    obtain ⟨⟨m,hm⟩,⟨x,hx⟩,hname⟩ := ha
    obtain ⟨u,hu,-,rfl,hcols⟩ := hv.active hm
    obtain ⟨o,ho,rfl⟩ := h.named hm
    have hox := (h.columns ho x c).mpr hx
    have hfree : o.columns n = none := eq_none_iff_forall_ne_some.mpr fun c' hc' =>
      hname c' ((h.columns ho _ _).mp hc')
    refine ⟨update app u.name (some { o with
      columns := update (update o.columns x none) n (some c) }),
      by rw [execOp,hu]; simp [hcols,hx,alterTable,ho,hox,hfree],h.alter ho rfl rfl ?_ fun y c' => ?_⟩
    · exact fun t' ht' c' => run_give_of_ne fun heq => ht' (congrArg Prod.fst heq)
    · have hfree' : ∀ c',run S.columns (.drop (o.table,c)) (o.table,c') ≠ some n := by
        intro c' hc'
        by_cases heq : c' = c
        · subst heq
          exact absurd (run_drop_self.symm.trans hc') (by simp)
        · exact hname c' ((run_drop_of_ne fun h => heq (congrArg Prod.snd h)).symm.trans hc')
      refine (columns_give (columns_drop (h.columns ho) hx) run_drop_self hfree' y c').trans ?_
      rw [run,run,update_idem]
      rfl

end IdSchema.Represents

/-! Bundles: the checks go through the view that the whole bundle leaves, the statements through the
view of the ops so far. -/

theorem IdSchema.tables_foldl_exec (ops : List CatalogOp) (S : IdSchema) :
    (ops.foldl exec S).tables = (ops.flatMap tableNames).foldl run S.tables := by
  induction ops generalizing S with
  | nil => rfl
  | cons op ops ih => rw [foldl_cons,ih,flatMap_cons,foldl_append]; rfl

theorem IdSchema.columns_foldl_exec (ops : List CatalogOp) (S : IdSchema) :
    (ops.foldl exec S).columns = (ops.flatMap columnNames).foldl run S.columns := by
  induction ops generalizing S with
  | nil => rfl
  | cons op ops ih => rw [foldl_cons,ih,flatMap_cons,foldl_append]; rfl

theorem CatalogOp.table_of_tableNames {s : Step TableID SqlName} (h : s ∈ op.tableNames) :
    s = .drop op.table ∧ op = .dropTable op.table ∨ ∃ n,s = .give op.table n := by
  cases op with
  | createTable t name cols => exact .inr ⟨name,mem_singleton.mp h⟩
  | dropTable t => exact .inl ⟨mem_singleton.mp h,rfl⟩
  | renameTable t name => exact .inr ⟨name,mem_singleton.mp h⟩
  | addColumn | dropColumn | renameColumn => exact absurd h not_mem_nil

/-- A calm bundle in terms of identities, with the schema it starts from and the one it leaves. -/
structure CalmOps (S : IdSchema) (ops : List CatalogOp) : Prop where
  tableOnce : ((gives (ops.flatMap tableNames)).map Prod.fst).Nodup
  tableFree : ∀ t n,.give t n ∈ ops.flatMap tableNames → ∀ t',S.tables t' ≠ some n
  columnOnce : ((gives (ops.flatMap columnNames)).map Prod.fst).Nodup
  columnFree : ∀ p x,.give p x ∈ ops.flatMap columnNames → ∀ c,S.columns (p.1,c) ≠ some x
  dropTable : ∀ t,.dropTable t ∈ ops → ∀ op ∈ ops,op.table = t → op = .dropTable t
  dropColumn : ∀ t c,.dropColumn t c ∈ ops →
    (∀ x,.give (t,c) x ∉ ops.flatMap columnNames) ∧
      ∀ n,.give t n ∉ ops.flatMap tableNames
  tables : ∀ {t t' : TableID} {n : SqlName},S.tables t = some n → S.tables t' = some n → t = t'
  columns : ∀ {t : TableID} {c c' : ColumnID} {x : SqlName},S.columns (t,c) = some x →
    S.columns (t,c') = some x → c = c'
  final : ∀ {t t' : TableID} {n : SqlName},(ops.foldl exec S).tables t = some n →
    (ops.foldl exec S).tables t' = some n → t = t'

namespace CalmOps

variable {ops pre post : List CatalogOp} {c : ColumnID} {x : SqlName}

section

variable (h : CalmOps S ops) (hop : op ∈ ops)
include h hop

theorem not_dropped (hne : op ≠ .dropTable op.table) :
    .drop op.table ∉ ops.flatMap tableNames := by
  intro hmem
  obtain ⟨o,ho,hs⟩ := mem_flatMap.mp hmem
  obtain ⟨heq,hdrop⟩ | ⟨n,heq⟩ := table_of_tableNames hs
  · have htable : op.table = o.table := Step.drop.inj heq
    exact hne (htable ▸ h.dropTable o.table (hdrop ▸ ho) op hop htable)
  · exact absurd heq (by simp)

theorem tables_given (hg : .give t n ∈ op.tableNames) :
    (ops.foldl exec S).tables t = some n := by
  have hmem : .give t n ∈ ops.flatMap tableNames := mem_flatMap.mpr ⟨op,hop,hg⟩
  obtain ⟨heq,-⟩ | ⟨m,heq⟩ := table_of_tableNames hg
  · exact absurd heq (by simp)
  · obtain ⟨rfl,rfl⟩ := Step.give.inj heq
    rw [tables_foldl_exec]
    refine foldl_run_given hmem h.tableOnce (h.not_dropped hop fun hdrop => ?_)
    rw [hdrop] at hg
    exact absurd (mem_singleton.mp hg) (by simp)

theorem columns_given (hg : op.columnNames = [.give (op.table,c) x]) :
    (ops.foldl exec S).columns (op.table,c) = some x := by
  rw [columns_foldl_exec]
  have hmem : .give (op.table,c) x ∈ ops.flatMap columnNames :=
    mem_flatMap.mpr ⟨op,hop,hg ▸ mem_singleton_self _⟩
  refine foldl_run_given hmem h.columnOnce fun hdrop => ?_
  obtain ⟨o,ho,hs⟩ := mem_flatMap.mp hdrop
  cases o with
  | dropColumn t' c' =>
    obtain ⟨ht,hc⟩ := Prod.mk.inj (Step.drop.inj (mem_singleton.mp hs))
    exact (h.dropColumn t' c' ho).1 x (ht ▸ hc ▸ hmem)
  | createTable t' name cols => simp [columnNames] at hs
  | dropTable | renameTable => exact absurd hs not_mem_nil
  | addColumn | renameColumn => simp [columnNames] at hs

end

theorem tables_final {m : SqlName} (h : CalmOps S (pre++op::post))
    (ht : (pre.foldl exec S).tables op.table = some m)
    (hne : op ≠ .dropTable op.table) :
    ∃ n,((pre++op::post).foldl exec S).tables op.table = some n := by
  rw [foldl_append,tables_foldl_exec]
  refine foldl_run_isSome ⟨m,ht⟩ fun hdrop => h.not_dropped mem_append_cons_self hne ?_
  rw [flatMap_append]
  exact mem_append_right _ hdrop

/-- Before the rest of the bundle, the final name of a table is its own or nobody's. -/
theorem tables_before {t' : TableID} (h : CalmOps S (pre++op::post)) (hcur : ∀ {t t' : TableID} {n : SqlName},
    (pre.foldl exec S).tables t = some n → (pre.foldl exec S).tables t' = some n → t = t')
    (hf : ((pre++op::post).foldl exec S).tables t = some n)
    (ht' : (pre.foldl exec S).tables t' = some n) : t' = t := by
  have hf' := hf
  rw [foldl_append,tables_foldl_exec] at hf'
  obtain hgive | hsame := give_mem_or hf'
  · rw [tables_foldl_exec] at ht'
    obtain hgive' | hold := give_mem_or ht'
    · obtain ⟨o,ho,hs⟩ := mem_flatMap.mp hgive'
      exact h.final (h.tables_given (mem_append_left _ ho) hs) hf
    · refine absurd hold (h.tableFree t n ?_ t')
      rw [flatMap_append]
      exact mem_append_right _ hgive
  · exact (hcur hsame ht').symm

theorem of_not_given {ι : Type} [DecidableEq ι] {f : CatalogOp → List (Step ι SqlName)}
    {T : ι → Option SqlName} {i : ι} {m : SqlName} {rest : List CatalogOp}
    (h : (pre.flatMap f).foldl run T i = some m) (hnot : ∀ n,.give i n ∉ (pre++rest).flatMap f) :
    T i = some m := by
  refine (give_mem_or h).resolve_left fun hmem => hnot m ?_
  rw [flatMap_append]
  exact mem_append_left _ hmem

/-- The name of a dropped table was there before the bundle, and belongs to no table after it. -/
theorem table_dropped {m : SqlName} (h : CalmOps S (pre++.dropTable t::post))
    (hm : (pre.foldl exec S).tables t = some m) : S.tables t = some m ∧
      ∀ t',((pre++.dropTable t::post).foldl exec S).tables t' ≠ some m := by
  have hnot : ∀ n,.give t n ∉ (pre++.dropTable t::post).flatMap tableNames := by
    intro n hmem
    obtain ⟨o,ho,hs⟩ := mem_flatMap.mp hmem
    obtain ⟨heq,-⟩ | ⟨k,heq⟩ := table_of_tableNames hs
    · exact absurd heq (by simp)
    · have htable : o.table = t := (Step.give.inj heq).1.symm
      rw [h.dropTable t mem_append_cons_self o ho htable] at hs
      exact absurd (mem_singleton.mp hs) (by simp)
  have hS : S.tables t = some m := of_not_given (tables_foldl_exec pre S ▸ hm) hnot
  refine ⟨hS,fun t' ht' => ?_⟩
  rw [tables_foldl_exec] at ht'
  obtain hgive | hold := give_mem_or ht'
  · exact h.tableFree t' m hgive t hS
  · obtain rfl := h.tables hS hold
    have hdrop : .drop t ∈ (pre++.dropTable t::post).flatMap tableNames :=
      mem_flatMap.mpr ⟨.dropTable t,mem_append_cons_self,mem_singleton_self _⟩
    exact absurd ((foldl_run_dropped hdrop hnot).symm.trans ht') (by simp)

/-- A dropped column was there before the bundle, and its name is on no column of the table after it;
the table keeps its name. -/
theorem column_dropped {m y : SqlName} (h : CalmOps S (pre++.dropColumn t c::post))
    (hm : (pre.foldl exec S).tables t = some m)
    (hy : (pre.foldl exec S).columns (t,c) = some y) : S.tables t = some m ∧
      S.columns (t,c) = some y ∧
      ((pre++.dropColumn t c::post).foldl exec S).tables t = some m ∧
      ∀ c',((pre++.dropColumn t c::post).foldl exec S).columns (t,c') ≠ some y := by
  obtain ⟨hnot,hnamed⟩ := h.dropColumn t c mem_append_cons_self
  have hS : S.tables t = some m := of_not_given (tables_foldl_exec pre S ▸ hm) hnamed
  have hC : S.columns (t,c) = some y := of_not_given (columns_foldl_exec pre S ▸ hy) hnot
  refine ⟨hS,hC,?_,fun c' hc' => ?_⟩
  · rw [tables_foldl_exec]
    exact (foldl_run_untouched hnamed (h.not_dropped mem_append_cons_self (by simp))).trans hS
  · rw [columns_foldl_exec] at hc'
    obtain hgive | hold := give_mem_or hc'
    · exact h.columnFree (t,c') y hgive c hC
    · obtain rfl := h.columns hC hold
      have hdrop : .drop (t,c) ∈ (pre++.dropColumn t c::post).flatMap columnNames :=
        mem_flatMap.mpr ⟨.dropColumn t c,mem_append_cons_self,mem_singleton_self _⟩
      exact absurd ((foldl_run_dropped hdrop hnot).symm.trans hc') (by simp)

end CalmOps

section Overlay

variable {ops : List CatalogOp} {v' V : TableResolver} {u : ResolvedTable} {c : ColumnID} {x : SqlName}

theorem Views.foldlM (h : Views v S) (ha : Permitted exec Admits S ops) :
    ∃ V,ops.foldlM Overlay.apply v = some V ∧ Views V (ops.foldl exec S) := by
  induction ops generalizing v S with
  | nil => exact ⟨v,rfl,h⟩
  | cons op ops ih =>
    obtain ⟨v',hv',hviews⟩ := h.apply ha.1
    obtain ⟨V,hV,hfinal⟩ := ih hviews ha.2
    exact ⟨V,by rw [foldlM_cons,hv']; exact hV,hfinal⟩

theorem Overlay.change_at {t₀ : TableID} {f : ResolvedTable → ResolvedTable}
    (h : Overlay.change v t₀ f = some v') (hu : v t = some u) :
    v' t = some (if t = t₀ then f u else u) := by
  obtain ⟨u₀,hu₀,rfl⟩ := Option.map_eq_some_iff.mp h
  by_cases ht : t = t₀
  · subst ht
    rw [if_pos rfl,update_self,mem_unique hu₀ hu]
  · rw [if_neg ht,update_of_ne ht,hu]

theorem Overlay.name_foldlM (h : ops.foldlM Overlay.apply v = some V) (hu : v t = some u)
    (hops : ∀ op ∈ ops,op.table = t → op = .dropTable t) : ∃ u',V t = some u' ∧ u'.name = u.name := by
  induction ops generalizing v u with
  | nil =>
    cases h
    exact ⟨u,hu,rfl⟩
  | cons op ops ih =>
    rw [foldlM_cons] at h
    obtain ⟨v',hv',h⟩ := Option.bind_eq_some_iff.mp h
    have hstep : ∃ u',v' t = some u' ∧ u'.name = u.name := by
      have hop := hops op mem_cons_self
      cases op with
      | createTable t₀ name cols =>
        cases hv'
        have ht : t ≠ t₀ := fun ht => absurd (hop ht.symm) (by simp)
        exact ⟨u,(update_of_ne ht _ _).trans hu,rfl⟩
      | dropTable t₀ =>
        refine ⟨_,Overlay.change_at hv' hu,?_⟩
        split_ifs <;> rfl
      | _ =>
        refine ⟨_,Overlay.change_at hv' hu,?_⟩
        rw [if_neg fun ht => absurd (hop ht.symm) (by simp)]
    obtain ⟨u',hu',hname⟩ := hstep
    obtain ⟨w,hw,hwname⟩ := ih h hu' fun o ho => hops o (mem_cons_of_mem _ ho)
    exact ⟨w,hw,hwname.trans hname⟩

theorem Overlay.history_foldlM (h : ops.foldlM Overlay.apply v = some V) (hu : v t = some u)
    (hcols : ∀ y,.give (t,c) y ∉ ops.flatMap columnNames)
    (htabs : ∀ n,.give t n ∉ ops.flatMap tableNames)
    (hx : u.history c = some x) (hc : u.columns c = none ∨ u.columns c = some x) :
    ∃ u',V t = some u' ∧ u'.historicColumn c = some x := by
  induction ops generalizing v u with
  | nil =>
    cases h
    refine ⟨u,hu,?_⟩
    rw [ResolvedTable.historicColumn]
    obtain hc | hc := hc
    · rw [hc,hx]
      rfl
    · rw [hc]
      rfl
  | cons op ops ih =>
    rw [foldlM_cons] at h
    obtain ⟨v',hv',h⟩ := Option.bind_eq_some_iff.mp h
    simp only [flatMap_cons,mem_append,not_or,forall_and] at hcols htabs
    have hstep : ∃ u',v' t = some u' ∧ u'.history c = some x ∧
        (u'.columns c = none ∨ u'.columns c = some x) := by
      cases op with
      | createTable t₀ name cols =>
        cases hv'
        have ht : t ≠ t₀ := fun ht => htabs.1 name (ht ▸ mem_singleton_self _)
        exact ⟨u,(update_of_ne ht _ _).trans hu,hx,hc⟩
      | dropTable | renameTable =>
        refine ⟨_,Overlay.change_at hv' hu,?_⟩
        split_ifs <;> exact ⟨hx,hc⟩
      | addColumn t₀ c₀ =>
        refine ⟨_,Overlay.change_at hv' hu,?_⟩
        by_cases ht : t = t₀
        · subst ht
          have hne : c₀.id ≠ c := fun heq => hcols.1 c₀.name (heq ▸ mem_singleton_self _)
          rw [if_pos rfl]
          refine ⟨by simp [hx],?_⟩
          simpa [declaredName,hne] using hc
        · rw [if_neg ht]
          exact ⟨hx,hc⟩
      | dropColumn t₀ c₀ =>
        refine ⟨_,Overlay.change_at hv' hu,?_⟩
        by_cases ht : t = t₀
        · rw [if_pos ht]
          by_cases hcc : c = c₀
          · exact ⟨hx,.inl (hcc ▸ update_self _ _ _)⟩
          · exact ⟨hx,by simpa [update_of_ne hcc] using hc⟩
        · rw [if_neg ht]
          exact ⟨hx,hc⟩
      | renameColumn t₀ c₀ name =>
        refine ⟨_,Overlay.change_at hv' hu,?_⟩
        by_cases ht : t = t₀
        · subst ht
          have hne : c ≠ c₀ := fun heq => hcols.1 name (heq ▸ mem_singleton_self _)
          rw [if_pos rfl]
          exact ⟨(update_of_ne hne _ _).trans hx,by simpa [update_of_ne hne] using hc⟩
        · rw [if_neg ht]
          exact ⟨hx,hc⟩
    obtain ⟨u',hu',hx',hc'⟩ := hstep
    exact ih h hu' hcols.2 htabs.2 hx' hc'

end Overlay

/-- A calm bundle with the view it starts from and the view it leaves. -/
structure Bundled (v V : TableResolver) (S : IdSchema) (ops : List CatalogOp) : Prop where
  calm : CalmOps S ops
  base : Views v S
  history : ∀ {t : TableID} {u : ResolvedTable} {c : ColumnID} {x : SqlName},v t = some u →
    u.columns c = some x → u.history c = some x
  fold : ops.foldlM Overlay.apply v = some V
  final : Views V (ops.foldl exec S)

namespace Bundled

variable {V : TableResolver} {ops pre post : List CatalogOp} {c : ColumnID} {x : SqlName}

variable {m : SqlName} {rest : List CatalogOp} {sofar : TableResolver}

theorem dropped_table (h : Bundled v V S (pre++.dropTable t::post))
    (hm : (pre.foldl exec S).tables t = some m) : ∃ u,V t = some u ∧ u.name = m := by
  obtain ⟨hS,-⟩ := h.calm.table_dropped hm
  obtain ⟨u,hu,-,hname,-⟩ := h.base.active hS
  obtain ⟨u',hu',hname'⟩ := Overlay.name_foldlM h.fold hu
    fun o ho => h.calm.dropTable t mem_append_cons_self o ho
  exact ⟨u',hu',hname'.trans hname⟩

theorem dropped_column (h : Bundled v V S (pre++.dropColumn t c::post))
    (hm : (pre.foldl exec S).tables t = some m)
    (hx : (pre.foldl exec S).columns (t,c) = some x) :
    ∃ u,V t = some u ∧ u.name = m ∧ u.historicColumn c = some x := by
  obtain ⟨hS,hC,hF,-⟩ := h.calm.column_dropped hm hx
  obtain ⟨hcols,htabs⟩ := h.calm.dropColumn t c mem_append_cons_self
  obtain ⟨u,hu,-,-,hc⟩ := h.base.active hS
  have hux : u.columns c = some x := (hc c).trans hC
  obtain ⟨u',hu',hhist⟩ := Overlay.history_foldlM h.fold hu hcols htabs (h.history hu hux) (.inr hux)
  obtain ⟨w,hw,-,hname,-⟩ := h.final.active hF
  obtain rfl := mem_unique hw hu'
  exact ⟨w,hw,hname,hhist⟩

/-- A column is not found under the final name of its table while its own name is free. -/
theorem columnExists_false {op : CatalogOp} {N : SqlName} (h : Bundled v V S (pre++op::post))
    (hr : (pre.foldl exec S).Represents app)
    (hN : ((pre++op::post).foldl exec S).tables op.table = some N)
    (hfree : ∀ c',(pre.foldl exec S).columns (op.table,c') ≠ some x) :
    columnExists app N x = false := by
  refine Bool.eq_false_iff.mpr fun hexists => ?_
  obtain ⟨t',c',ht',hc'⟩ := hr.columnExists_iff.mp hexists
  obtain rfl := h.calm.tables_before (fun h₁ h₂ => hr.table_eq h₁ h₂) hN ht'
  exact hfree c' hc'

theorem fresh {op : CatalogOp} (h : Bundled v V S (pre++op::post))
    (ha : (pre.foldl exec S).Admits op) (hr : (pre.foldl exec S).Represents app) :
    opAlreadyAppliedInSQLite app V op = false := by
  have hmem : op ∈ pre++op::post := mem_append_cons_self
  cases op with
  | createTable t name cols =>
    obtain ⟨u,hu,hd,hname,-⟩ := h.final.active
      (h.calm.tables_given hmem (mem_singleton_self (Step.give t name)))
    simp [opAlreadyAppliedInSQLite,hu,hd,hname,objectExists,hr.absent ha.2.1]
  | dropTable t =>
    obtain ⟨m,hm⟩ := ha
    obtain ⟨u,hu,rfl⟩ := h.dropped_table hm
    simp [opAlreadyAppliedInSQLite,hu,hr.objectExists_iff.mpr ⟨t,hm⟩]
  | renameTable t name => simp [opAlreadyAppliedInSQLite,objectExists,hr.absent ha.2]
  | addColumn t c =>
    obtain ⟨⟨m,hm⟩,-,hfree⟩ := ha
    obtain ⟨N,hN⟩ := h.calm.tables_final hm (by simp)
    obtain ⟨u,hu,hd,hname,hc⟩ := h.final.active hN
    replace hu : V t = some u := hu
    have hcol := (hc c.id).trans (h.calm.columns_given hmem rfl)
    simp [opAlreadyAppliedInSQLite,hu,hd,hcol,hname,h.columnExists_false hr hN hfree]
  | dropColumn t c =>
    obtain ⟨⟨m,hm⟩,x,hx,hne⟩ := ha
    obtain ⟨u,hu,rfl,hhist⟩ := h.dropped_column hm hx
    have hexists := hr.columnExists_iff.mpr ⟨t,c,hm,hx⟩
    simp [opAlreadyAppliedInSQLite,hu,hhist,hne,hexists]
  | renameColumn t c name =>
    obtain ⟨⟨m,hm⟩,-,hfree⟩ := ha
    obtain ⟨N,hN⟩ := h.calm.tables_final hm (by simp)
    obtain ⟨u,hu,-,hname,-⟩ := h.final.active hN
    replace hu : V t = some u := hu
    simp [opAlreadyAppliedInSQLite,hu,hname,h.columnExists_false hr hN hfree]

theorem applied {op : CatalogOp} (h : Bundled v V S (pre++op::post))
    (ha : (pre.foldl exec S).Admits op)
    (hr : ((pre++op::post).foldl exec S).Represents app) :
    opAlreadyAppliedInSQLite app V op = true := by
  have hmem : op ∈ pre++op::post := mem_append_cons_self
  cases op with
  | createTable t name cols =>
    have hF := h.calm.tables_given hmem (mem_singleton_self (Step.give t name))
    obtain ⟨u,hu,hd,rfl,-⟩ := h.final.active hF
    simp [opAlreadyAppliedInSQLite,hu,hd,hr.objectExists_iff.mpr ⟨t,hF⟩]
  | dropTable t =>
    obtain ⟨m,hm⟩ := ha
    obtain ⟨u,hu,rfl⟩ := h.dropped_table hm
    have hgone : app u.name = none := hr.absent (h.calm.table_dropped hm).2
    simp [opAlreadyAppliedInSQLite,hu,objectExists,hgone]
  | renameTable t name =>
    have hF := h.calm.tables_given hmem (mem_singleton_self (Step.give t name))
    simp [opAlreadyAppliedInSQLite,hr.objectExists_iff.mpr ⟨t,hF⟩]
  | addColumn t c =>
    obtain ⟨⟨m,hm⟩,-⟩ := ha
    obtain ⟨N,hN⟩ := h.calm.tables_final hm (by simp)
    obtain ⟨u,hu,hd,rfl,hc⟩ := h.final.active hN
    replace hu : V t = some u := hu
    have hF := h.calm.columns_given hmem rfl
    have hexists := hr.columnExists_iff.mpr ⟨t,c.id,hN,hF⟩
    simp [opAlreadyAppliedInSQLite,hu,hd,(hc c.id).trans hF,hexists]
  | dropColumn t c =>
    obtain ⟨⟨m,hm⟩,x,hx,hne⟩ := ha
    obtain ⟨u,hu,rfl,hhist⟩ := h.dropped_column hm hx
    obtain ⟨-,-,hF,hgone⟩ := h.calm.column_dropped hm hx
    have hnot : columnExists app u.name x = false := Bool.eq_false_iff.mpr fun hexists => by
      obtain ⟨t',c',ht',hc'⟩ := hr.columnExists_iff.mp hexists
      obtain rfl := hr.table_eq hF ht'
      exact hgone c' hc'
    simp [opAlreadyAppliedInSQLite,hu,hhist,hnot]
  | renameColumn t c name =>
    obtain ⟨⟨m,hm⟩,-⟩ := ha
    obtain ⟨N,hN⟩ := h.calm.tables_final hm (by simp)
    obtain ⟨u,hu,-,rfl,-⟩ := h.final.active hN
    replace hu : V t = some u := hu
    have hexists := hr.columnExists_iff.mpr ⟨t,c,hN,h.calm.columns_given hmem rfl⟩
    simp [opAlreadyAppliedInSQLite,hu,hexists]

variable (h : Bundled v V S (pre++rest))
  (hs : Views sofar (pre.foldl exec S))
  (ha : Permitted exec Admits (pre.foldl exec S) rest)
include h hs ha

theorem applySubOps_fresh (hr : (pre.foldl exec S).Represents app) :
    ∃ app',applySubOps V sofar app rest = .ok app' ∧
      ((pre++rest).foldl exec S).Represents app' := by
  induction rest generalizing pre sofar app with
  | nil => exact ⟨app,rfl,by rwa [append_nil]⟩
  | cons op rest ih =>
    obtain ⟨app₁,happ,hr₁⟩ := hr.exec hs ha.1
    obtain ⟨s',hs',hviews⟩ := hs.apply ha.1
    rw [append_cons] at h ⊢
    have hsnoc : (pre++[op]).foldl exec S = (pre.foldl exec S).exec op :=
      foldl_concat _ _ _ _
    obtain ⟨app',hok,hr'⟩ := ih h (hsnoc ▸ hviews) (hsnoc ▸ ha.2) (hsnoc ▸ hr₁)
    refine ⟨app',?_,hr'⟩
    rw [← append_cons] at h
    rw [applySubOps,applyCatalogOpToSQLite,h.fresh ha.1 hr,if_neg Bool.false_ne_true,happ,hs']
    exact hok

theorem applySubOps_replay (hr : ((pre++rest).foldl exec S).Represents app) :
    applySubOps V sofar app rest = .ok app := by
  induction rest generalizing pre sofar with
  | nil => rfl
  | cons op rest ih =>
    obtain ⟨s',hs',hviews⟩ := hs.apply ha.1
    have hsnoc : (pre++[op]).foldl exec S = (pre.foldl exec S).exec op :=
      foldl_concat _ _ _ _
    rw [applySubOps,applyCatalogOpToSQLite,h.applied ha.1 hr,if_pos rfl,hs']
    rw [append_cons] at h hr
    exact ih h (hsnoc ▸ hviews) (hsnoc ▸ ha.2) hr

end Bundled

section Event

variable {ev : SchemaEvent} {seq : ℕ} {ops : List CatalogOp}

theorem CatalogRows.resolver_eq_none (h : ∀ e ∈ r.tables,e.id ≠ t) : r.resolver t = none := by
  rw [CatalogRows.resolver,tableByID,find?_eq_none.mpr fun e he => by simpa using h e he]
  rfl

theorem CatalogRows.Sound.tables_inj (h : r.Sound) {t' : TableID} (ht : r.schema.tables t = some n)
    (ht' : r.schema.tables t' = some n) : t = t' :=
  congrArg TableEntry.id (h.names _ (h.schema_tables.mp ht) _ (h.schema_tables.mp ht') rfl rfl rfl)

theorem CatalogRows.Sound.columns_inj (h : r.Sound) {c c' : ColumnID} {x : SqlName}
    (hc : r.schema.columns (t,c) = some x) (hc' : r.schema.columns (t,c') = some x) : c = c' := by
  obtain ⟨y,hy,hk,hd,hyx⟩ := h.schema_columns.mp hc
  obtain ⟨z,hz,hk',hd',hzx⟩ := h.schema_columns.mp hc'
  have ht : y.table = z.table := (congrArg Prod.fst hk).trans (congrArg Prod.fst hk').symm
  have hyz := h.columnNames y hy z hz ht hd hd' (hyx.trans hzx.symm)
  exact congrArg Prod.snd (hk.symm.trans (hyz ▸ hk'))

variable (app) in
theorem CatalogRows.Sound.single (h : r.Sound) (ha : r.Admits op) :
    (r.schema.Represents app → opAlreadyAppliedInSQLite app r.resolver op = false) ∧
    ((r.schema.exec op).Represents app → opAlreadyAppliedInSQLite app r.resolver op = true) := by
  have hS := h.admits ha
  cases op with
  | createTable t name cols =>
    have hnone := resolver_eq_none ha.1
    refine ⟨fun hr => ?_,fun hr => ?_⟩
    · simp [opAlreadyAppliedInSQLite,hnone,objectExists,hr.absent hS.2.1]
    · simp [opAlreadyAppliedInSQLite,hnone,hr.objectExists_iff.mpr ⟨t,run_give_self⟩]
  | dropTable t =>
    obtain ⟨m,hm⟩ := hS
    obtain ⟨u,hu,-,rfl,-⟩ := h.views.active hm
    refine ⟨fun hr => ?_,fun hr => ?_⟩
    · simp [opAlreadyAppliedInSQLite,hu,hr.objectExists_iff.mpr ⟨t,hm⟩]
    · have hgone : ∀ t',(r.schema.exec (.dropTable t)).tables t' ≠ some u.name := by
        intro t' ht'
        by_cases heq : t' = t
        · subst heq
          exact absurd (run_drop_self.symm.trans ht') (by simp)
        · exact heq (h.tables_inj ((run_drop_of_ne heq).symm.trans ht') hm)
      simp [opAlreadyAppliedInSQLite,hu,objectExists,hr.absent hgone]
  | renameTable t name =>
    refine ⟨fun hr => ?_,fun hr => ?_⟩
    · simp [opAlreadyAppliedInSQLite,objectExists,hr.absent hS.2]
    · simp [opAlreadyAppliedInSQLite,hr.objectExists_iff.mpr ⟨t,run_give_self⟩]
  | addColumn t c =>
    obtain ⟨⟨m,hm⟩,hnone,hfree⟩ := hS
    obtain ⟨u,hu,rfl,hd,hcols,hhist⟩ := h.resolver (h.schema_tables.mp hm)
    have hc : u.columns c.id = none := eq_none_iff_forall_ne_some.mpr fun x hx =>
      absurd ((hcols _ x).mp hx) (by simp [hnone])
    have hh : u.history c.id = none := eq_none_iff_forall_ne_some.mpr fun x hx => by
      obtain ⟨y,hy,hk,-⟩ := (hhist _ x).mp hx
      exact ha.2.1 y hy hk
    have hv : opAlreadyAppliedInSQLite app r.resolver (.addColumn t c) =
        columnExists app u.name c.name := by
      replace hu : r.resolver t = some u := hu
      simp [opAlreadyAppliedInSQLite,hu,hd,hc,hh,ResolvedTable.historicColumn]
    rw [hv]
    exact ⟨fun hr => hr.columnExists_eq_false hm hfree,
      fun hr => hr.columnExists_iff.mpr ⟨t,c.id,hm,run_give_self⟩⟩
  | dropColumn t c =>
    obtain ⟨⟨m,hm⟩,x,hx,hne⟩ := hS
    obtain ⟨u,hu,-,rfl,hcols⟩ := h.views.active hm
    have hv : opAlreadyAppliedInSQLite app r.resolver (.dropColumn t c) =
        !columnExists app u.name x := by
      simp [opAlreadyAppliedInSQLite,hu,ResolvedTable.historicColumn,hcols,hx,hne]
    rw [hv]
    refine ⟨fun hr => ?_,fun hr => ?_⟩
    · rw [hr.columnExists_iff.mpr ⟨t,c,hm,hx⟩]
      rfl
    · rw [Bool.not_eq_true']
      refine hr.columnExists_eq_false hm fun c' hc' => ?_
      by_cases heq : c' = c
      · subst heq
        exact absurd (run_drop_self.symm.trans hc') (by simp)
      · have hne : (t,c') ≠ (t,c) := fun h => heq (congrArg Prod.snd h)
        exact heq (h.columns_inj ((run_drop_of_ne hne).symm.trans hc') hx)
  | renameColumn t c name =>
    obtain ⟨⟨m,hm⟩,-,hfree⟩ := hS
    obtain ⟨u,hu,-,rfl,-⟩ := h.views.active hm
    have hv : opAlreadyAppliedInSQLite app r.resolver (.renameColumn t c name) =
        columnExists app u.name name := by simp [opAlreadyAppliedInSQLite,hu]
    rw [hv]
    exact ⟨fun hr => hr.columnExists_eq_false hm hfree,
      fun hr => hr.columnExists_iff.mpr ⟨t,c,hm,run_give_self⟩⟩

section

variable (h : r.Sound) (ha : Permitted (applyCatalogOp seq) CatalogRows.Admits r ops)
include h ha

theorem CatalogRows.Sound.permitted :
    Permitted exec IdSchema.Admits r.schema ops ∧
      (ops.foldl (applyCatalogOp seq) r).schema = ops.foldl exec r.schema ∧
      (ops.foldl (applyCatalogOp seq) r).Sound := by
  induction ops generalizing r with
  | nil => exact ⟨trivial,rfl,h⟩
  | cons op ops ih =>
    obtain ⟨hp,hschema,hsound⟩ := ih (h.apply ha.1) ha.2
    rw [h.schema_apply ha.1] at hp hschema
    exact ⟨⟨h.admits ha.1,hp⟩,hschema,hsound⟩

theorem CatalogRows.Sound.calmOps (hc : CalmBundle r ops) : CalmOps r.schema ops := by
  obtain ⟨htables,htfree,hcolumns,hcfree,hdrop,hdropc⟩ := hc
  obtain ⟨-,hschema,hsound⟩ := h.permitted ha
  refine ⟨htables,fun t n hg => h.tables_ne (htfree (t,n) (mem_gives.mpr hg)),hcolumns,
    fun p x hg => h.columns_ne (hcfree (p,x) (mem_gives.mpr hg)),fun t ht => ?_,fun t c hc => ?_,
    h.tables_inj,h.columns_inj,fun ht ht' => ?_⟩
  · exact hdrop t (mem_drops.mpr (mem_flatMap.mpr ⟨_,ht,mem_singleton_self _⟩))
  · obtain ⟨hg,ht⟩ := hdropc (t,c) (mem_drops.mpr (mem_flatMap.mpr ⟨_,hc,mem_singleton_self _⟩))
    exact ⟨fun x hx => hg (mem_map.mpr ⟨_,mem_gives.mpr hx,rfl⟩),
      fun n hn => ht (mem_map.mpr ⟨_,mem_gives.mpr hn,rfl⟩)⟩
  · rw [← hschema] at ht ht'
    exact hsound.tables_inj ht ht'

end

theorem CatalogRows.Sound.history (h : r.Sound) {u : ResolvedTable} {c : ColumnID} {x : SqlName}
    (hu : r.resolver t = some u) (hx : u.columns c = some x) : u.history c = some x := by
  have hu' := hu
  rw [CatalogRows.resolver,tableByID,Option.map_map,Option.map_eq_some_iff] at hu'
  obtain ⟨e,he,-⟩ := hu'
  obtain rfl : e.id = t := by simpa using find?_some he
  obtain ⟨w,hw,-,-,hcols,hhist⟩ := h.resolver (mem_of_find?_eq_some he)
  obtain rfl := mem_unique hw hu
  obtain ⟨y,hy,hk,-,hyx⟩ := h.schema_columns.mp ((hcols c x).mp hx)
  exact (hhist c x).mpr ⟨y,hy,hk,hyx⟩

theorem schema_applyEvent (h : r.Sound) (ha : r.AdmitsEvent ev) :
    (r.applyEvent ev).schema = ev.ops.foldl exec r.schema :=
  (h.permitted ha).2.1

variable (app) in
/-- An event takes effect once: from the schema before it, and not again from the schema after it. -/
theorem applyCatalogStructural_once (h : r.Sound) (ha : r.AdmitsEvent ev) (hc : CalmEvent r ev) :
    (r.schema.Represents app → ∃ app',applyCatalogStructural r app ev = .ok app' ∧
      (r.applyEvent ev).schema.Represents app') ∧
    ((r.applyEvent ev).schema.Represents app → applyCatalogStructural r app ev = .ok app) := by
  rw [schema_applyEvent h ha]
  cases ev with
  | single op =>
    obtain ⟨hfresh,happlied⟩ := h.single app ha.1
    refine ⟨fun hr => ?_,fun hr => ?_⟩
    · obtain ⟨app',hok,hr'⟩ := hr.exec h.views (h.admits ha.1)
      exact ⟨app',by rw [applyCatalogStructural,applyCatalogOpToSQLite,hfresh hr]; exact hok,hr'⟩
    · rw [applyCatalogStructural,applyCatalogOpToSQLite,happlied hr,if_pos rfl]
  | bundle ops =>
    obtain ⟨hp,-⟩ := h.permitted ha
    obtain ⟨V,hV,hfinal⟩ := h.views.foldlM hp
    have hb : Bundled r.resolver V r.schema ([]++ops) :=
      ⟨h.calmOps ha hc,h.views,h.history,hV,hfinal⟩
    replace hV : ops.foldlM Overlay.apply r.resolver = some V := hV
    have hstate : bundleFinalState r.resolver ops = V := by rw [bundleFinalState,hV]; rfl
    rw [applyCatalogStructural,hstate]
    exact ⟨hb.applySubOps_fresh h.views hp,hb.applySubOps_replay h.views hp⟩

end Event

end Syzy
