import Syzy.CausalLength

/-!
Which rows an apply leaves behind. Every statement of the apply path adds the row it is about, keeps
the rows there are or, for a delete, takes its own away, so that after a changeset in causal-length
order a row is stored exactly when its clock is odd.
-/

namespace Syzy

open ExceptFold List

/-- A table whose columns all belong to the primary key. -/
def Table.Bare (tab : Table) : Prop := ∀ c ∈ tab.columns,0 < c.pkPos

section Keys

variable {tab : Table} {rows rows' : Rows} {k : RowKey} {vs : List ColValue}

variable {cs : Cells} {full : Bool} {key : UniqueKey} {row : Row} {v : ColValue}
  {vs' writes : List ColValue}

theorem mem_storeRow (h : storeRow tab rows k row = .ok rows') (q : RowKey) :
    q ∈ rows' ↔ q = k ∨ q ∈ rows := by
  unfold storeRow at h
  split_ifs at h
  cases h
  exact Finmap.mem_insert

theorem mem_updateRow {r : Rows × ℕ} (h : updateRow tab rows k cs = .ok r) :
    (∀ q,q ∈ r.1 ↔ q ∈ rows) ∧ (r.2 = 0 ↔ k ∉ rows) := by
  unfold updateRow at h
  cases hl : rows.lookup k with
  | none =>
    rw [hl] at h
    cases h
    exact ⟨fun _ => Iff.rfl,by simpa using Finmap.lookup_eq_none.mp hl⟩
  | some row =>
    rw [hl] at h
    obtain ⟨rows',hstore,rfl⟩ := map_eq_ok.mp h
    have hk : k ∈ rows := Finmap.mem_of_lookup_eq_some hl
    refine ⟨fun q => ?_,by simpa using hk⟩
    rw [mem_storeRow hstore]
    exact or_iff_right_of_imp fun hq => hq ▸ hk

theorem storeRow_bare (hbare : tab.Bare) (hkeys : ∀ key ∈ tab.uniqueKeys,key.coordinated = true)
    (row : Row) : storeRow tab rows k row = .ok (rows.insert k row) := by
  have hnull : notNullOK tab row = true :=
    all_eq_true.mpr fun c hc => decide_eq_true (.inl (hbare c hc))
  have hunique : uniqueOK tab rows k row = true :=
    all_eq_true.mpr fun key hkey => decide_eq_true (.inl (hkeys key hkey))
  simp [storeRow,hnull,hunique]

theorem mem_upsert (h : upsert tab rows k cs = .ok rows')
    (hcs : cs ≠ [] ∨ (tab.Bare ∧ ∀ key ∈ tab.uniqueKeys,key.coordinated = true)) (q : RowKey) :
    q ∈ rows' ↔ q = k ∨ q ∈ rows := by
  unfold upsert at h
  by_cases hnil : cs = []
  · rw [if_pos hnil] at h
    cases h
    obtain ⟨hbare,hkeys⟩ := hcs.resolve_left (not_not.mpr hnil)
    unfold insertOrIgnore
    rw [storeRow_bare hbare hkeys]
    split_ifs with hk
    · exact (or_iff_right_of_imp fun hq => hq ▸ hk).symm
    · exact Finmap.mem_insert
  · rw [if_neg hnil] at h
    split_ifs at h
    cases hl : rows.lookup k with
    | none | some =>
      rw [hl] at h
      exact mem_storeRow h q

theorem resolveDelta_column {v' : ColValue} (h : resolveDelta tab k row v = .ok v') :
    v'.column = v.column := by
  unfold resolveDelta at h
  split_ifs at h
  · cases h
    rfl
  · cases hrow : row v.column with
    | int cur =>
      rw [hrow] at h
      cases hsum : addInt64 cur (int64OfBytes v.bytes) with
      | none => simp [hsum] at h
      | some sum =>
        simp only [hsum] at h
        cases h
        rfl
    | _ => simp [hrow] at h

theorem mem_resolveCounterDeltas (h : resolveCounterDeltas tab rows k vs = .ok vs') (hv : v ∈ vs) :
    ∃ v' ∈ vs',v'.column = v.column := by
  unfold resolveCounterDeltas at h
  cases hl : rows.lookup k with
  | none =>
    rw [hl] at h
    cases h
    exact ⟨v,hv,rfl⟩
  | some row =>
    rw [hl] at h
    obtain ⟨v',hv',hr⟩ := (mapM_spec h).1 v hv
    exact ⟨v',hv',resolveDelta_column hr⟩

/-- An update keeps the rows; with something to set, it counts none exactly when its row is missing. -/
theorem mem_execRowUpdate {r : Rows × Option ℕ} (h : execRowUpdate tab rows k vs = .ok r) :
    (∀ q,q ∈ r.1 ↔ q ∈ rows) ∧ ((∃ v ∈ vs,(tab.columnByID v.column).isSome = true) →
      (r.2 = some 0 ↔ k ∉ rows)) := by
  obtain ⟨vs',hres,h⟩ := bind_eq_ok.mp h
  by_cases hsets : (vs'.filter fun v => (tab.columnByID v.column).isSome) = []
  · rw [if_pos hsets] at h
    cases h
    refine ⟨fun _ => Iff.rfl,?_⟩
    rintro ⟨v,hv,hcol⟩
    obtain ⟨v',hv',hcol'⟩ := mem_resolveCounterDeltas hres hv
    exact absurd hsets (ne_nil_of_mem (mem_filter.mpr ⟨hv',by rw [hcol',hcol]⟩))
  · rw [if_neg hsets] at h
    obtain ⟨-,-,h⟩ := bind_eq_ok.mp h
    obtain ⟨cs,-,h⟩ := bind_eq_ok.mp h
    obtain ⟨u,hu,h⟩ := bind_eq_ok.mp h
    cases h
    obtain ⟨hkeys,hzero⟩ := mem_updateRow hu
    exact ⟨hkeys,fun _ => by simpa using hzero⟩

theorem mem_applyInsert (h : applyInsert tab rows k vs = .ok rows')
    (hvs : (∃ v ∈ vs,tab.isValueColumn v.column = true) ∨
      (tab.Bare ∧ ∀ key ∈ tab.uniqueKeys,key.coordinated = true)) (q : RowKey) :
    q ∈ rows' ↔ q = k ∨ q ∈ rows := by
  obtain ⟨-,-,h⟩ := bind_eq_ok.mp h
  obtain ⟨cs,hcs,h⟩ := bind_eq_ok.mp h
  refine mem_upsert h (hvs.imp_left ?_) q
  rintro ⟨v,hv,hcol⟩
  obtain ⟨c,hc,-⟩ := isValueColumn_iff.mp hcol
  obtain ⟨cell,hcell,hbind⟩ := (mapM_spec hcs).1 v
    (mem_filter.mpr ⟨hv,by rw [hc]; rfl⟩)
  obtain ⟨x,-,rfl⟩ := map_eq_ok.mp hbind
  exact ne_nil_of_mem (mem_filter.mpr ⟨hcell,hcol⟩)

theorem mem_nullKeyColumns (h : nullKeyColumns tab rows key k = .ok rows') (q : RowKey) :
    q ∈ rows' ↔ q ∈ rows := by
  obtain ⟨r,hr,rfl⟩ := map_eq_ok.mp h
  exact (mem_updateRow hr).1 q

theorem mem_arbitrateKey {cache : Cache} {pkVals : List ColValue} {stamp : Stamp}
    {a a' : Arbitration} (h : arbitrateKey cache tab k pkVals writes stamp full a key = .ok a')
    (q : RowKey) :
    q ∈ a'.rows ↔ q ∈ a.rows := by
  unfold arbitrateKey at h
  dsimp only at h
  split_ifs at h
  · cases h
    rfl
  · cases h
    rfl
  · obtain ⟨owner,-,h⟩ := bind_eq_ok.mp h
    cases owner with
    | none =>
      cases h
      rfl
    | some o =>
      dsimp only at h
      split_ifs at h
      · cases h
        rfl
      · obtain ⟨rows₁,hrows₁,h⟩ := bind_eq_ok.mp h
        cases h
        exact mem_nullKeyColumns hrows₁ q
      · cases h
        rfl
  · cases h
    rfl

theorem mem_rewriteWritesNull (hv : v ∈ writes) (nullSet : List ColumnID) (full : Bool) :
    ∃ v' ∈ rewriteWritesNull writes nullSet full,v'.column = v.column := by
  by_cases hnull : v.column ∈ nullSet
  · refine ⟨.null v.column,mem_append_left _ (mem_map.mpr ⟨v,hv,?_⟩),rfl⟩
    rw [if_pos hnull]
  · refine ⟨v,mem_append_left _ (mem_map.mpr ⟨v,hv,?_⟩),rfl⟩
    rw [if_neg hnull]

theorem mem_arbitrateWrites {cache : Cache} {stamp : Stamp}
    {r : List ColValue × List CellClockUpdate × Rows}
    (h : arbitrateWrites cache tab rows k writes stamp full = .ok r) :
    (∀ q,q ∈ r.2.2 ↔ q ∈ rows) ∧ ∀ v ∈ writes,∃ v' ∈ r.1,v'.column = v.column := by
  unfold arbitrateWrites at h
  split_ifs at h
  · cases h
    exact ⟨fun _ => Iff.rfl,fun v hv => ⟨v,hv,rfl⟩⟩
  · obtain ⟨pkVals,-,h⟩ := bind_eq_ok.mp h
    obtain ⟨a,ha,h⟩ := bind_eq_ok.mp h
    have hrows : ∀ q,q ∈ a.rows ↔ q ∈ rows := foldlM_keeps
      (P := fun a : Arbitration => ∀ q,q ∈ a.rows ↔ q ∈ rows)
      (fun s key s' hs hok q => (mem_arbitrateKey hok q).trans (hs q)) (fun _ => Iff.rfl) ha
    split_ifs at h
    · cases h
      exact ⟨hrows,fun v hv => ⟨v,hv,rfl⟩⟩
    · cases h
      exact ⟨hrows,fun v hv => mem_rewriteWritesNull hv _ _⟩

/-- The values let an insert find a place and an update something to set. -/
def Writes (tab : Table) (vs : List ColValue) : Prop := ∃ v ∈ vs,tab.isValueColumn v.column = true

theorem Writes.of_columns (h : Writes tab vs) (hcols : ∀ v ∈ vs,∃ v' ∈ vs',v'.column = v.column) :
    Writes tab vs' := by
  obtain ⟨v,hv,hcol⟩ := h
  obtain ⟨v',hv',he⟩ := hcols v hv
  exact ⟨v',hv',he ▸ hcol⟩

theorem Writes.known (h : Writes tab vs) : ∃ v ∈ vs,(tab.columnByID v.column).isSome = true := by
  obtain ⟨v,hv,hcol⟩ := h
  obtain ⟨c,hc,-⟩ := isValueColumn_iff.mp hcol
  exact ⟨v,hv,by rw [hc]; rfl⟩

theorem mem_cellStatement (h : cellStatement tab rows k vs = .ok rows') (hvs : Writes tab vs)
    (q : RowKey) : q ∈ rows' ↔ q = k ∨ q ∈ rows := by
  obtain ⟨r,hr,h⟩ := bind_eq_ok.mp h
  obtain ⟨hkeys,hzero⟩ := mem_execRowUpdate hr
  split_ifs at h with h0
  · rw [mem_applyInsert h (.inl hvs) q,hkeys q]
  · cases h
    rw [hkeys q]
    have hk : k ∈ rows := not_not.mp (mt (hzero hvs.known).mpr h0)
    exact (or_iff_right_of_imp fun hq => hq ▸ hk).symm

end Keys

/-- A record as a producer of row events ships it to a table. -/
def ShipsTo (tab : Table) : Record → Prop
  | .insert _ _ image => image.map ColValue.column = tab.columns.map Column.id
  | .update _ _ changed => changed ≠ [] ∧ ∀ v ∈ changed,tab.isValueColumn v.column = true
  | .delete _ _ => True
  | .blobPatch _ _ _ _ => False

/-- A table as the presence of its rows needs it. -/
structure Table.Storable (tab : Table) : Prop where
  ids : (tab.columns.map Column.id).Nodup
  keys : tab.Bare → ∀ key ∈ tab.uniqueKeys,key.coordinated = true
  binary : tab.BinaryKey

section Records

variable {tab : Table} {rows rows' : Rows} {r : Record} {cache : Cache} {stamp : Stamp}

variable {changed image : List ColValue} {cl : ℕ} {rs : RowState}

theorem writes_of_image (htab : tab.Storable)
    (himg : image.map ColValue.column = tab.columns.map Column.id) :
    Writes tab image ∨ (tab.Bare ∧ ∀ key ∈ tab.uniqueKeys,key.coordinated = true) := by
  by_cases hbare : tab.Bare
  · exact .inr ⟨hbare,htab.keys hbare⟩
  · obtain ⟨c,hc,hpk⟩ : ∃ c ∈ tab.columns,¬0 < c.pkPos := by
      simpa [Table.Bare] using hbare
    have hmem : c.id ∈ image.map ColValue.column := by
      rw [himg]
      exact mem_map_of_mem hc
    obtain ⟨v,hv,hvc⟩ := mem_map.mp hmem
    refine .inl ⟨v,hv,?_⟩
    rw [hvc]
    exact isValueColumn_of_mem htab.ids hc (by omega)

theorem writes_of_changed (hne : changed ≠ [])
    (hcols : ∀ v ∈ changed,tab.isValueColumn v.column = true) : Writes tab changed := by
  obtain ⟨v,hv⟩ := exists_mem_of_ne_nil changed hne
  exact ⟨v,hv,hcols v hv⟩

/-- The rows a winning record leaves: its own there, or gone when it deletes. -/
def After (r : Record) (rows rows' : Rows) : Prop :=
  ∀ q,q ∈ rows' ↔ if q = r.key then r.isDelete = false else q ∈ rows

theorem after_of_mem (hdel : r.isDelete = false) (h : ∀ q,q ∈ rows' ↔ q = r.key ∨ q ∈ rows) :
    After r rows rows' := by
  intro q
  rw [h q]
  by_cases hq : q = r.key
  · simp [hq,hdel]
  · simp [hq]

theorem mem_update_rowStatement {k : RowKey} {vs : List ColValue}
    (h : rowStatement tab rows (.update k cl vs) = .ok rows') :
    (∀ q,q ∈ rows' ↔ q ∈ rows) ∧ (Writes tab vs → k ∈ rows) := by
  obtain ⟨u,hu,h⟩ := bind_eq_ok.mp h
  obtain ⟨hkeys,hzero⟩ := mem_execRowUpdate hu
  split_ifs at h with h0
  cases h
  exact ⟨hkeys,fun hvs => not_not.mp (mt (hzero hvs.known).mpr h0)⟩

theorem after_insert {k : RowKey}
    (hvs : Writes tab image ∨ (tab.Bare ∧ ∀ key ∈ tab.uniqueKeys,key.coordinated = true))
    (h : rowStatement tab rows (mergeExisting tab rows rs (.insert k cl image)) = .ok rows') :
    After (.insert k cl image) rows rows' := by
  refine after_of_mem rfl fun q => ?_
  simp only [mergeExisting] at h
  split_ifs at h with hmerge
  · rw [(mem_update_rowStatement h).1 q]
    exact (or_iff_right_of_imp fun hq => hq ▸ hmerge.2.2.2).symm
  · exact mem_applyInsert h hvs q

/-- A row-level record that passes its gate leaves its row there, a delete leaves none. -/
theorem after_applyRowRecord {t t' : Txn} (htab : tab.Storable) (hr : ShipsTo tab r)
    (h : applyRowRecord cache tab ∅ t r rs stamp = .ok t') :
    After r t.rows t'.rows ∧ t'.updates = t.updates++[⟨r.key,.ofBase r.cl stamp,false⟩] ∧
      t'.blobMutations = t.blobMutations++[⟨r.key,∅⟩] := by
  obtain ⟨-,-,h⟩ := bind_eq_ok.mp h
  obtain ⟨arb,harb,h⟩ := bind_eq_ok.mp h
  obtain ⟨dml,hdml,h⟩ := bind_eq_ok.mp h
  cases h
  unfold rowDML at hdml
  rw [if_pos rfl,storedKey_of_binary htab.binary] at hdml
  obtain ⟨rows',hrows',rfl⟩ := map_eq_ok.mp hdml
  refine ⟨?_,rfl,rfl⟩
  cases r with
  | insert k cl image =>
    obtain ⟨w,hw,harb⟩ := bind_eq_ok.mp harb
    cases harb
    obtain ⟨hkeys,hcols⟩ := mem_arbitrateWrites hw
    have hvs := (writes_of_image htab hr).imp_left fun hwr => hwr.of_columns hcols
    intro q
    rw [after_insert hvs hrows' q,hkeys q]
    rfl
  | update k cl changed =>
    obtain ⟨w,hw,harb⟩ := bind_eq_ok.mp harb
    cases harb
    obtain ⟨hkeys,hcols⟩ := mem_arbitrateWrites hw
    have hvs := (writes_of_changed hr.1 hr.2).of_columns hcols
    obtain ⟨hsame,hpresent⟩ := mem_update_rowStatement hrows'
    refine after_of_mem rfl fun q => ?_
    rw [hsame q,hkeys q]
    have hk : k ∈ t.rows := (hkeys k).mp (hpresent hvs)
    exact (or_iff_right_of_imp fun hq => hq ▸ hk).symm
  | delete k cl =>
    cases harb
    obtain ⟨-,-,hdel⟩ := bind_eq_ok.mp hrows'
    cases hdel
    intro q
    by_cases hq : q = k
    · simp [hq,Record.isDelete]
    · simp [hq]
  | blobPatch k cl col ranges => exact hr.elim

theorem cellClockUpdates_rows (tab : Table) (k : RowKey) (cl : ℕ) (rs : RowState) (stamp : Stamp)
    (winners : List ColValue) :
    (∀ u ∈ (cellClockUpdates tab k cl rs stamp winners).1,u.key = k ∧ u.state.cl = cl) ∧
      ((cellClockUpdates tab k cl rs stamp winners).1 = [] → ¬rs.cl < cl) := by
  unfold cellClockUpdates
  split_ifs with hcover hlt
  · exact ⟨fun u hu => by rw [mem_singleton.mp hu]; exact ⟨rfl,rfl⟩,False.elim⟩
  · exact ⟨fun u hu => by rw [mem_singleton.mp hu]; exact ⟨rfl,rfl⟩,False.elim⟩
  · exact ⟨by simp,fun _ => hlt⟩

/-- What a record that landed has done to the transaction. -/
structure Landed (cache : Cache) (r : Record) (t t' : Txn) : Prop where
  le : (cache.rowState r.key).cl ≤ r.cl
  rows : After r t.rows t'.rows
  updates : ∃ us,t'.updates = t.updates++us ∧ (∀ u ∈ us,u.key = r.key ∧ u.state.cl = r.cl) ∧
    (us = [] → r.cl ≤ (cache.rowState r.key).cl)
  blobs : t'.blobMutations = t.blobMutations++[⟨r.key,∅⟩]

theorem landed_applyCellUpdate {t t' : Txn} (hbinary : tab.BinaryKey) (hdel : r.isDelete = false)
    (hcols : ∀ v ∈ changed,tab.isValueColumn v.column = true)
    (hopen : (cache.rowState r.key).cl < r.cl → changed ≠ [])
    (hle : (cache.rowState r.key).cl ≤ r.cl)
    (h : applyCellUpdate cache tab ∅ t r.key r.cl changed (cache.rowState r.key) stamp = .ok t') :
    t' = t ∨ Landed cache r t t' := by
  obtain ⟨-,-,h⟩ := bind_eq_ok.mp h
  dsimp only at h
  split_ifs at h with hskip
  · cases h
    exact .inl rfl
  · obtain ⟨arb,harb,h⟩ := bind_eq_ok.mp h
    obtain ⟨dml,hdml,h⟩ := bind_eq_ok.mp h
    cases h
    unfold cellDML at hdml
    rw [if_pos rfl,storedKey_of_binary hbinary] at hdml
    obtain ⟨rows',hrows',rfl⟩ := map_eq_ok.mp hdml
    obtain ⟨hkeys,harbcols⟩ := mem_arbitrateWrites harb
    have hne : cellWinners (cache.rowState r.key) r.cl stamp changed ≠ [] := by
      by_cases hlt : (cache.rowState r.key).cl < r.cl
      · rw [cellWinners,if_pos hlt]
        exact fun hnil => hopen hlt (map_eq_nil_iff.mp hnil)
      · exact fun hnil => hskip ⟨hlt,hnil⟩
    have hvs : Writes tab (cellWinners (cache.rowState r.key) r.cl stamp changed) := by
      refine writes_of_changed hne fun v hv => ?_
      obtain ⟨w,hw,hwv⟩ := cellWinners_column hv
      exact hwv ▸ hcols w hw
    obtain ⟨hups,hnone⟩ := cellClockUpdates_rows tab r.key r.cl (cache.rowState r.key) stamp
      (cellWinners (cache.rowState r.key) r.cl stamp changed)
    refine .inr ⟨hle,after_of_mem hdel fun q => ?_,⟨_,rfl,hups,fun hnil => ?_⟩,rfl⟩
    · rw [mem_cellStatement hrows' (hvs.of_columns harbcols) q,hkeys q]
    · exact not_lt.mp (hnone hnil)

theorem landed_applyGated {t t' : Txn} (htab : tab.Storable) (hr : ShipsTo tab r)
    (h : applyGated cache tab ∅ t r (cache.rowState r.key) stamp = .ok t') :
    t' = t ∨ Landed cache r t t' := by
  unfold applyGated at h
  cases hcell : (if tab.cellGroup then asCellUpdate tab r (cache.rowState r.key) else none) with
  | none =>
    rw [hcell] at h
    split_ifs at h with hdom
    · obtain ⟨hrows,hups,hblobs⟩ := after_applyRowRecord htab hr h
      refine .inr ⟨le_of_dominatedBy hdom,hrows,⟨_,hups,fun u hu => ?_,fun hnil => ?_⟩,hblobs⟩
      · rw [mem_singleton.mp hu]
        exact ⟨rfl,rfl⟩
      · exact absurd hnil (cons_ne_nil _ _)
    · cases h
      exact .inl rfl
  | some changed =>
    rw [hcell] at h
    dsimp only at h
    split_ifs at h with hskip
    · cases h
      exact .inl rfl
    · have hle : (cache.rowState r.key).cl ≤ r.cl := not_lt.mp fun hlt => hskip (.inl hlt)
      split_ifs at hcell with hgroup
      cases r with
      | update k cl vs =>
        cases hcell
        exact landed_applyCellUpdate htab.binary rfl hr.2 (fun _ => hr.1) hle h
      | insert k cl image =>
        simp only [asCellUpdate] at hcell
        split_ifs at hcell with hgen
        cases hcell
        rw [not_or,not_not,not_not] at hgen
        refine landed_applyCellUpdate htab.binary rfl (fun v hv => ?_) (fun hlt => ?_) hle h
        · obtain ⟨w,hw,rfl⟩ := mem_map.mp hv
          obtain ⟨hw,hrole⟩ := mem_filter.mp hw
          have hmem : w.column ∈ tab.columns.map Column.id := by
            rw [← hr]
            exact mem_map_of_mem hw
          obtain ⟨c,hc,hcw⟩ := mem_map.mp hmem
          have hcol := columnByID_of_mem htab.ids hc
          have hvalue : tab.isValueColumn w.column = true := by
            refine isValueColumn_iff.mpr ⟨c,hcw ▸ hcol,?_⟩
            rw [hcw] at hcol
            simpa [Table.columnRole,hcol] using hrole
          split_ifs <;> exact hvalue
        · exact absurd hgen.2 hlt.ne'
      | delete k cl => exact absurd hcell (by simp [asCellUpdate])
      | blobPatch k cl col ranges => exact hr.elim

end Records

namespace Txn

variable {cat : Catalog} {cache : Cache} {stamp : Stamp} {t t' : Txn} {r : Record} {k : RowKey}
  {pre : List Record}

/-- The causal length a row will have once the transaction's clocks are published. -/
def pending (cache : Cache) (t : Txn) (k : RowKey) : ℕ :=
  ((t.updates.filter fun u => u.key = k).foldl RowState.putUpdate (cache.rowState k)).cl

theorem rowState_publish_cl (cache : Cache) (t : Txn) (k : RowKey) :
    ((cache.publish t).rowState k).cl = t.pending cache k := by
  rw [Cache.rowState_publish,foldl_putCellUpdate_cl]
  rfl

theorem foldl_putUpdate_cl {us : List RowClockUpdate} {n : ℕ} (h : ∀ u ∈ us,u.state.cl = n)
    (rs : RowState) (hnil : us = [] → n ≤ rs.cl) : (us.foldl RowState.putUpdate rs).cl = max rs.cl n := by
  induction us generalizing rs with
  | nil => exact (max_eq_left (hnil rfl)).symm
  | cons u us ih =>
    have hu : (rs.putUpdate u).cl = max rs.cl n := by
      rw [← h u (by simp)]
      exact rs.put_cl_eq_max u.state u.clearCells
    rw [foldl_cons,ih (fun u' hu' => h u' (by simp [hu'])),hu]
    · omega
    · intro _
      rw [hu]
      exact le_max_right _ _

theorem le_foldl_putUpdate_cl (us : List RowClockUpdate) (rs : RowState) :
    rs.cl ≤ (us.foldl RowState.putUpdate rs).cl := by
  induction us generalizing rs with
  | nil => exact le_rfl
  | cons u us ih =>
    refine le_trans ?_ (ih _)
    have hu : (rs.putUpdate u).cl = max rs.cl u.state.cl := rs.put_cl_eq_max u.state u.clearCells
    rw [hu]
    exact le_max_left _ _

theorem pending_landed (h : Landed cache r t t') (q : RowKey) :
    t'.pending cache q = if q = r.key then max (t.pending cache q) r.cl else t.pending cache q := by
  obtain ⟨us,hus,hkey,hnil⟩ := h.updates
  unfold pending
  rw [hus,filter_append,foldl_append]
  split_ifs with hq
  · subst hq
    have hall : us.filter (fun u => u.key = r.key) = us :=
      filter_eq_self.mpr fun u hu => decide_eq_true (hkey u hu).1
    rw [hall]
    refine foldl_putUpdate_cl (fun u hu => (hkey u hu).2) _ fun hempty => ?_
    exact (hnil hempty).trans (le_foldl_putUpdate_cl _ _)
  · have hnone : us.filter (fun u => u.key = q) = [] :=
      filter_eq_nil_iff.mpr fun u hu => by simpa [(hkey u hu).1] using fun e => hq e.symm
    rw [hnone]
    rfl

/-- A transaction whose rows are those with an odd pending length, none above what it has seen. -/
structure Settled (cache : Cache) (pre : List Record) (t : Txn) : Prop where
  present : ∀ q,q ∈ t.rows ↔ t.pending cache q%2 = 1
  bound : ∀ q n,(cache.rowState q).cl ≤ n → (∀ e ∈ pre,e.key = q → e.cl ≤ n) → t.pending cache q ≤ n
  blobs : ∀ m ∈ t.blobMutations,m.cols = ∅

theorem Settled.landed (ht : Settled cache pre t) (hlen : r.LengthOK)
    (hclimb : ∀ e ∈ pre,e.key = r.key → e.cl ≤ r.cl) (hpatch : r.isBlobPatch = false)
    (h : Landed cache r t t') : Settled cache (pre++[r]) t' where
  present := by
    intro q
    rw [h.rows q,pending_landed h q]
    by_cases hq : q = r.key
    · subst hq
      rw [if_pos rfl,if_pos rfl,max_eq_right (ht.bound r.key r.cl h.le hclimb)]
      cases r with
      | delete k cl =>
        have : cl%2 = 0 := hlen.2
        simp [Record.isDelete,this]
      | insert k cl image | update k cl changed =>
        have : cl%2 = 1 := hlen
        simp [Record.isDelete,this]
      | blobPatch k cl col ranges => exact Bool.noConfusion hpatch
    · rw [if_neg hq,if_neg hq]
      exact ht.present q
  bound := by
    intro q n hq hpre
    have hle := ht.bound q n hq fun e he => hpre e (by simp [he])
    rw [pending_landed h q]
    split_ifs with hk
    · exact max_le hle (hpre r (by simp) hk.symm)
    · exact hle
  blobs := by
    intro m hm
    rw [h.blobs] at hm
    rcases mem_concat.mp hm with hm | rfl
    · exact ht.blobs m hm
    · rfl

theorem Settled.skip (ht : Settled cache pre t) : Settled cache (pre++[r]) t where
  present := ht.present
  bound := fun q n hq hpre => ht.bound q n hq fun e he => hpre e (by simp [he])
  blobs := ht.blobs

end Txn

def Catalog.Storable (cat : Catalog) : Prop := ∀ t tab,cat.tableByID t = some tab → tab.Storable

/-- A record as the drain of a node with this catalog ships it. -/
def Ships (cat : Catalog) (r : Record) : Prop :=
  ∀ tab,cat.tableByID r.key.table = some tab → ShipsTo tab r

/-- Rows are stored exactly where the clock is odd, and no blob carries a range clock. -/
structure Data.Present (d : Data) : Prop where
  rows : ∀ k,k ∈ d.rows ↔ (d.cache.rowState k).cl%2 = 1
  blob : d.blob = ∅

section Replica

variable {cat : Catalog} {d d' : Data} {stamp : Stamp} {records : List Record}

theorem Txn.Settled.applyRecord {cache : Cache} {pre : List Record} {t t' : Txn} {r : Record}
    (hcat : cat.Storable) (ht : t.Settled cache pre) (hr : Ships cat r) (hlen : r.LengthOK)
    (hclimb : ∀ e ∈ pre,e.key = r.key → e.cl ≤ r.cl)
    (h : applyRecord cat cache ∅ stamp t r = .ok t') : t'.Settled cache (pre++[r]) := by
  unfold Syzy.applyRecord at h
  cases htab : cat.tableByID r.key.table with
  | none =>
    rw [htab] at h
    cases h
  | some tab =>
    rw [htab] at h
    dsimp only at h
    have hships := hr tab htab
    split_ifs at h
    · cases h
      exact ht.skip
    · have hgate : r.isBlobPatch = false ∧
          applyGated cache tab ∅ t r (cache.rowState r.key) stamp = .ok t' := by
        cases r with
        | blobPatch k cl col ranges => exact hships.elim
        | insert | update | delete => exact ⟨rfl,by simpa using h⟩
      rcases landed_applyGated (hcat _ _ htab) hships hgate.2 with rfl | hland
      · exact ht.skip
      · exact ht.landed hlen hclimb hgate.1 hland

/-- A changeset in causal-length order leaves a row exactly where the clock is odd. -/
theorem Data.Present.applyData (hcat : cat.Storable) (hd : d.Present)
    (hships : ∀ r ∈ records,Ships cat r) (hlen : ∀ r ∈ records,r.LengthOK)
    (hclimb : records.Pairwise fun x y => x.key = y.key → x.cl ≤ y.cl)
    (h : applyData cat d stamp records = .ok d') : d'.Present := by
  obtain ⟨t,ht,rfl⟩ := applyData_eq_ok.mp h
  have hbegin : (Txn.begin d.rows).Settled d.cache [] :=
    ⟨hd.rows,fun q n hq _ => hq,fun m hm => absurd hm not_mem_nil⟩
  rw [hd.blob] at ht ⊢
  have hset : t.Settled d.cache records := by
    refine foldlM_invariant_ok (I := fun pre t => Txn.Settled d.cache pre t) hbegin ?_ ht
    intro pre r post s s' hl hI hok
    have hr : r ∈ records := by simp [hl]
    refine hI.applyRecord hcat (hships r hr) (hlen r hr) (fun e he => ?_) hok
    rw [hl] at hclimb
    exact (pairwise_append.mp hclimb).2.2 e he r (by simp)
  refine ⟨fun k => ?_,foldl_putBlobRangeClock_empty hset.blobs⟩
  rw [Txn.rowState_publish_cl]
  exact hset.present k

end Replica

end Syzy
