import Syzy.Publish
import Syzy.Statement

/-!
One record on one row of a cell-group table. A record of the row's own generation writes the columns
it wins and adds its contributions; one of a later generation opens it. The row a transaction leaves
is that of its records one after another.
-/

namespace Syzy

open List

/-- A value as it is written over a row: a contribution becomes the sum. -/
def resolve (row : Row) (v : ColValue) : ColValue :=
  if v.format ≠ .delta then v
  else match row v.column with
    | .int cur => ⟨v.column,colInt,.text,encodeInt64 (cur+int64OfBytes v.bytes)⟩
    | _ => v

/-- The values of a statement on the row it finds, if any. -/
def resolved (row : Option Row) (values : List ColValue) : List ColValue :=
  match row with
  | some x => values.map (resolve x)
  | none => values

@[simp] theorem resolve_column (row : Row) (v : ColValue) : (resolve row v).column = v.column := by
  unfold resolve
  split_ifs
  · rfl
  · split <;> rfl

theorem resolved_plain {values : List ColValue} (h : ∀ v ∈ values,v.format ≠ .delta)
    (row : Option Row) : resolved row values = values := by
  cases row with
  | none => rfl
  | some x => exact (map_congr_left fun v hv => if_pos (h v hv)).trans (map_id values)

def writeCells (tab : Table) (row : Option Row) (values : List ColValue) : Row :=
  overlay (row.getD (defaultRow tab)) (imageCells tab (resolved row values))

/-- The row after a record, against the clock its gate reads. -/
def rowEffect (tab : Table) (rs : RowState) (stamp : Stamp) (row : Option Row) (r : Record) :
    Option Row :=
  match asCellUpdate tab r rs with
  | some changed =>
    if r.cl < rs.cl ∨ (¬cellUpdateHasCounter changed ∧ ¬rs.dominatedBy r.cl stamp) then row
    else if cellWinners rs r.cl stamp changed = [] then row
    else some (writeCells tab row (cellWinners rs r.cl stamp changed))
  | none => if ¬rs.dominatedBy r.cl stamp then row else content tab r

section Effect

variable {tab : Table} {rs : RowState} {stamp : Stamp} {row : Option Row} {r : Record}
  {changed : List ColValue}

theorem rowEffect_of_row (hcell : asCellUpdate tab r rs = none)
    (hdom : rs.dominatedBy r.cl stamp = true) : rowEffect tab rs stamp row r = content tab r := by
  simp [rowEffect,hcell,hdom]

theorem rowEffect_of_lt (hcell : asCellUpdate tab r rs = some changed) (hlt : rs.cl < r.cl)
    (hne : changed ≠ []) :
    rowEffect tab rs stamp row r = some (writeCells tab row (cellWinners rs r.cl stamp changed)) := by
  have hdom : rs.dominatedBy r.cl stamp = true := RowState.dominatedBy_of_lt hlt
  have hwin : cellWinners rs r.cl stamp changed ≠ [] := by
    rw [cellWinners,if_pos hlt,ne_eq,map_eq_nil_iff]
    exact hne
  rw [rowEffect,hcell]
  simp only
  rw [if_neg (by simp [hdom,hlt.le]),if_neg hwin]

theorem rowEffect_of_gt (h : r.cl < rs.cl) : rowEffect tab rs stamp row r = row := by
  have hdom : ¬rs.dominatedBy r.cl stamp = true := fun hd => absurd (le_of_dominatedBy hd) (by omega)
  unfold rowEffect
  cases asCellUpdate tab r rs with
  | none => simp [hdom]
  | some changed => exact if_pos (.inl h)

end Effect

/-- An active table of the cell clock group without unique keys. -/
structure CellTable (tab : Table) : Prop where
  active : tab.dropped = false
  cellGroup : tab.cellGroup = true
  noKeys : tab.uniqueKeys = []
  binary : tab.BinaryKey

/-- What lets the statement of some values go through on a row. -/
structure CellsFit (tab : Table) (k : RowKey) (row : Option Row) (values : List ColValue) : Prop where
  key : bindPK k = .ok ()
  known : ∀ v ∈ values,tab.isValueColumn v.column = true
  binds : ∀ v ∈ resolved row values,Bindable v
  resolves : ∀ x,row = some x → ∀ v ∈ values,resolveDelta tab k x v = .ok (resolve x v)
  admitted : notNullOK tab (writeCells tab row values) = true

section Statement

variable {tab : Table} {rows : Rows} {k : RowKey} {values : List ColValue}

theorem isSome_of_isValueColumn {c : ColumnID} (h : tab.isValueColumn c = true) :
    (tab.columnByID c).isSome = true := by
  obtain ⟨col,hcol,-⟩ := isValueColumn_iff.mp h
  simp [hcol]

theorem CellsFit.resolveCounterDeltas_eq (h : CellsFit tab k (rows.lookup k) values) :
    resolveCounterDeltas tab rows k values = .ok (resolved (rows.lookup k) values) := by
  unfold resolveCounterDeltas
  cases hl : rows.lookup k with
  | none => rfl
  | some x => exact ExceptFold.mapM_ok (h.resolves x hl)

theorem CellsFit.cells_ne_nil (h : CellsFit tab k (rows.lookup k) values) (hne : values ≠ []) :
    imageCells tab values ≠ [] := by
  obtain ⟨v,hv⟩ := exists_mem_of_ne_nil values hne
  have : v.column ∈ (imageCells tab values).map Prod.fst :=
    mem_imageCells.mpr ⟨h.known v hv,v,hv,rfl⟩
  intro hnil
  rw [hnil] at this
  simp at this

theorem cellStatement_ok (hkeys : tab.uniqueKeys = []) (h : CellsFit tab k (rows.lookup k) values)
    (hne : values ≠ []) :
    cellStatement tab rows k values = .ok (rows.insert k (writeCells tab (rows.lookup k) values)) := by
  have hsome : ∃ v ∈ resolved (rows.lookup k) values,(tab.columnByID v.column).isSome := by
    obtain ⟨v,hv⟩ := exists_mem_of_ne_nil values hne
    have hcol := isSome_of_isValueColumn (h.known v hv)
    cases hl : rows.lookup k with
    | none => exact ⟨v,hv,hcol⟩
    | some x => exact ⟨resolve x v,mem_map_of_mem hv,by simpa using hcol⟩
  have hadm := h.admitted
  have hstore : storeRow tab rows k (writeCells tab (rows.lookup k) values) =
      .ok (rows.insert k (writeCells tab (rows.lookup k) values)) :=
    storeRow_of_admitted hkeys hadm
  unfold cellStatement
  rw [execRowUpdate_eq h.resolveCounterDeltas_eq h.key h.binds hsome]
  cases hl : rows.lookup k with
  | none =>
    have hbinds : ∀ v ∈ values,Bindable v := by
      have := h.binds
      rwa [hl] at this
    rw [hl] at hstore hadm
    have hrow : overlay (defaultRow tab) (imageCells tab values) = writeCells tab none values := rfl
    simp only [bind,Except.bind,if_true]
    rw [applyInsert_eq h.key hbinds,upsert,if_neg (h.cells_ne_nil hne)]
    simp [hl,hrow,hadm,hstore]
  | some x =>
    rw [hl] at hstore
    have hrow : overlay x (imageCells tab (resolved (some x) values)) =
        writeCells tab (some x) values := rfl
    simp [hrow,hstore,Except.map,bind,Except.bind,pure,Except.pure]

end Statement

theorem setRow_lookup (rows : Rows) (k : RowKey) : setRow rows k (rows.lookup k) = rows := by
  refine Finmap.ext_lookup fun k' => ?_
  rw [lookup_setRow]
  by_cases h : k' = k
  · rw [if_pos h,h]
  · rw [if_neg h]

/-- The columnwise gate lets a record of these values through. -/
def CellGate (rs : RowState) (cl : ℕ) (stamp : Stamp) (changed : List ColValue) : Prop :=
  ¬(cl < rs.cl ∨ (¬cellUpdateHasCounter changed ∧ ¬rs.dominatedBy cl stamp))

/-- What lets a record go through against the clock its gate reads: fitting winners, or a row
statement that sets the record's content. -/
structure RecordFits (tab : Table) (rs : RowState) (stamp : Stamp) (rows : Rows) (r : Record) :
    Prop where
  notPatch : r.isBlobPatch = false
  cell : ∀ changed,asCellUpdate tab r rs = some changed → CellGate rs r.cl stamp changed →
    validateCellCounterValues tab r.key changed = .ok () ∧ (changed ≠ [] ∨ ¬rs.cl < r.cl) ∧
      CellsFit tab r.key (rows.lookup r.key) (cellWinners rs r.cl stamp changed)
  row : asCellUpdate tab r rs = none → rs.dominatedBy r.cl stamp = true →
    validateRecord tab r = .ok () ∧ mergeExisting tab rows rs r = r ∧
      rowStatement tab rows r = .ok (setRow rows r.key (content tab r))

section Transaction

variable {cat : Catalog} {tab : Table} {cache : Cache} {stamp : Stamp} {t : Txn} {r : Record}

theorem applyCellUpdate_ok {k : RowKey} {cl : ℕ} {changed : List ColValue} {rs : RowState}
    (htab : CellTable tab) (hval : validateCellCounterValues tab k changed = .ok ())
    (hne : changed ≠ [] ∨ ¬rs.cl < cl)
    (hfit : CellsFit tab k (t.rows.lookup k) (cellWinners rs cl stamp changed)) :
    ∃ t',applyCellUpdate cache tab ∅ t k cl changed rs stamp = .ok t' ∧
      t'.rows = (if cellWinners rs cl stamp changed = [] then t.rows else
        t.rows.insert k (writeCells tab (t.rows.lookup k) (cellWinners rs cl stamp changed))) ∧
      ∀ m ∈ t'.blobMutations,m ∈ t.blobMutations ∨ m.cols = ∅ := by
  have hopen : cellWinners rs cl stamp changed = [] → ¬rs.cl < cl := by
    intro hnil hlt
    rw [cellWinners,if_pos hlt,map_eq_nil_iff] at hnil
    exact hne.elim (fun h => h hnil) fun h => h hlt
  unfold applyCellUpdate
  simp only [hval,arbitrateWrites,htab.noKeys,bind,Except.bind,if_true]
  by_cases hnil : cellWinners rs cl stamp changed = []
  · rw [if_pos ⟨hopen hnil,hnil⟩]
    exact ⟨t,rfl,by rw [if_pos hnil],fun m hm => .inl hm⟩
  · rw [if_neg fun h => hnil h.2,cellDML,if_pos rfl,storedKey_of_binary htab.binary,
      cellStatement_ok htab.noKeys hfit hnil]
    refine ⟨_,rfl,by rw [if_neg hnil],fun m hm => ?_⟩
    rcases mem_append.mp hm with hm | hm
    · exact .inl hm
    · exact .inr (by rw [mem_singleton.mp hm])

theorem applyRecord_cell (hcat : cat.tableByID r.key.table = some tab) (htab : CellTable tab)
    (hfit : RecordFits tab (cache.rowState r.key) stamp t.rows r) :
    ∃ t',applyRecord cat cache ∅ stamp t r = .ok t' ∧ t'.rows = setRow t.rows r.key
        (rowEffect tab (cache.rowState r.key) stamp (t.rows.lookup r.key) r) ∧
      ∀ m ∈ t'.blobMutations,m ∈ t.blobMutations ∨ m.cols = ∅ := by
  have hgated : applyRecord cat cache ∅ stamp t r =
      applyGated cache tab ∅ t r (cache.rowState r.key) stamp := by
    unfold applyRecord
    rw [hcat]
    have hp := hfit.notPatch
    cases r with
    | blobPatch k cl col ranges => simp [Record.isBlobPatch] at hp
    | _ => simp [htab.active]
  rw [hgated,applyGated,rowEffect]
  simp only [htab.cellGroup,if_true]
  cases hcell : asCellUpdate tab r (cache.rowState r.key) with
  | some changed =>
    by_cases hgate : CellGate (cache.rowState r.key) r.cl stamp changed
    · obtain ⟨hval,hne,hcells⟩ := hfit.cell changed hcell hgate
      simp only [if_neg hgate]
      obtain ⟨t',hok,hrows,hblobs⟩ := applyCellUpdate_ok htab hval hne hcells
      refine ⟨t',hok,?_,hblobs⟩
      rw [hrows]
      split_ifs
      · exact (setRow_lookup ..).symm
      · rfl
    · have hskip := not_not.mp hgate
      simp only [if_pos hskip]
      exact ⟨t,rfl,(setRow_lookup ..).symm,fun m hm => .inl hm⟩
  | none =>
    cases hdom : (cache.rowState r.key).dominatedBy r.cl stamp with
    | false => exact ⟨t,by simp,by simpa using (setRow_lookup ..).symm,fun m hm => .inl hm⟩
    | true =>
      obtain ⟨hval,hmerge,hst⟩ := hfit.row hcell hdom
      have harb : arbitrate cache tab t.rows r stamp = .ok (r,[],t.rows) := by
        cases r <;> simp [arbitrate,arbitrateWrites,htab.noKeys,bind,Except.bind,pure,Except.pure]
      refine ⟨{ rows := setRow t.rows r.key (content tab r)
                updates := t.updates++[⟨r.key,.ofBase r.cl stamp,false⟩]
                cellUpdates := t.cellUpdates++[]
                blobMutations := t.blobMutations++[⟨r.key,∅⟩] },?_,by simp,fun m hm => ?_⟩
      · simp [applyRowRecord,hval,harb,storedKey_of_binary htab.binary,hmerge,rowDML,hst,bind,
          Except.bind,pure,Except.pure,Except.map]
      · rcases mem_append.mp hm with hm | hm
        · exact .inl hm
        · exact .inr (by rw [mem_singleton.mp hm])

/-- The clock read before the transaction decides as the clock the row has reached in it. -/
theorem PublishesAt.rowEffect_eq {pre : List Record} (h : PublishesAt tab cache stamp r.key pre t)
    (hclimb : ∀ r' ∈ pre,r'.key = r.key → r'.cl < r.cl ∧ r.isUpdate = false) (row : Option Row) :
    rowEffect tab (cache.rowState r.key) stamp row r =
      rowEffect tab ((cache.publish t).rowState r.key) stamp row r := by
  rcases h.touched with ⟨hups,hcells⟩ | ⟨hle,r',hr',hkey,hcl⟩
  · rw [Cache.rowState_publish,hups,hcells]
    rfl
  · obtain ⟨hlt,hupd⟩ := hclimb r' hr' hkey
    rw [hcl] at hlt
    have hrow : ∀ rs : RowState,rs.cl < r.cl → rowEffect tab rs stamp row r = content tab r := by
      intro rs hlt
      simp [rowEffect,asCellUpdate_of_lt hlt hupd,RowState.dominatedBy_of_lt hlt]
    rw [hrow _ (hle.trans_lt hlt),hrow _ hlt]

/-- How a statement about single rows passes through a changeset: it speaks of its own row's
records, its rows let every record through, and each record keeps it. An update finds its row as it
was before the transaction. -/
structure RowRule (tab : Table) (cache : Cache) (stamp : Stamp) (rows : Rows)
    (ws : List (Stamp × Record)) (r : Record)
    (H : List (Stamp × Record) → RowKey → Option Row → RowState → Prop) : Prop where
  other : ∀ k row rs,r.key ≠ k → H ws k row rs → H (ws++[(stamp,r)]) k row rs
  fits : ∀ rows' rs rs',H ws r.key (rows'.lookup r.key) rs →
    (r.isUpdate = true → rows'.lookup r.key = rows.lookup r.key ∧ rs = cache.rowState r.key) →
    (rs' = rs ∨ rs'.cl ≤ rs.cl ∧ rs.cl < r.cl ∧ r.isUpdate = false) → RecordFits tab rs' stamp rows' r
  step : ∀ row rs,H ws r.key row rs →
    (r.isUpdate = true → row = rows.lookup r.key ∧ rs = cache.rowState r.key) →
    H (ws++[(stamp,r)]) r.key (rowEffect tab rs stamp row r) (rs.absorb tab stamp r)

/-- The rows and clocks of an open transaction meet the statement. -/
structure RowsMeet (tab : Table) (cache : Cache) (stamp : Stamp) (rows : Rows)
    (ws : List (Stamp × Record)) (H : List (Stamp × Record) → RowKey → Option Row → RowState → Prop)
    (pre : List Record) (t : Txn) : Prop where
  publishes : ∀ k,PublishesAt tab cache stamp k pre t
  meets : ∀ k,H (ws++pre.map fun r => (stamp,r)) k (t.rows.lookup k)
    ((cache.publish t).rowState k)
  fresh : ∀ k,(∀ r ∈ pre,r.key ≠ k) → t.rows.lookup k = rows.lookup k ∧
    (cache.publish t).rowState k = cache.rowState k
  blobs : ∀ m ∈ t.blobMutations,m.cols = ∅

variable {rows : Rows} {ws : List (Stamp × Record)} {pre : List Record}
  {H : List (Stamp × Record) → RowKey → Option Row → RowState → Prop}

theorem RowsMeet.begin (h : ∀ k,H ws k (rows.lookup k) (cache.rowState k)) :
    RowsMeet tab cache stamp rows ws H [] (.begin rows) where
  publishes k := .begin rows k
  meets k := by simpa [Txn.begin,Cache.publish] using h k
  fresh k _ := ⟨rfl,rfl⟩
  blobs := by simp [Txn.begin]

theorem RowsMeet.step (hcat : cat.tableByID r.key.table = some tab) (htab : CellTable tab)
    (hrule : RowRule tab cache stamp rows (ws++pre.map fun r => (stamp,r)) r H)
    (hclimb : ∀ r' ∈ pre,r'.key = r.key → r'.cl < r.cl ∧ r.isUpdate = false)
    (h : RowsMeet tab cache stamp rows ws H pre t) :
    ∃ t',applyRecord cat cache ∅ stamp t r = .ok t' ∧
      RowsMeet tab cache stamp rows ws H (pre++[r]) t' := by
  have hpub := h.publishes r.key
  have hsame : r.isUpdate = true → t.rows.lookup r.key = rows.lookup r.key ∧
      (cache.publish t).rowState r.key = cache.rowState r.key := by
    intro hupd
    refine h.fresh r.key fun r' hr' hkey => ?_
    rw [(hclimb r' hr' hkey).2] at hupd
    exact absurd hupd (by decide)
  have hstatic : cache.rowState r.key = (cache.publish t).rowState r.key ∨
      (cache.rowState r.key).cl ≤ ((cache.publish t).rowState r.key).cl ∧
        ((cache.publish t).rowState r.key).cl < r.cl ∧ r.isUpdate = false := by
    rcases hpub.touched with ⟨hups,hcells⟩ | ⟨hle,r',hr',hkey,hcl⟩
    · left
      rw [Cache.rowState_publish,hups,hcells]
      rfl
    · exact .inr ⟨hle,hcl ▸ (hclimb r' hr' hkey).1,(hclimb r' hr' hkey).2⟩
  have hfit := hrule.fits t.rows _ _ (h.meets r.key) hsame hstatic
  obtain ⟨t',hok,hrows,hblobs⟩ := applyRecord_cell hcat htab hfit
  have hrow : ∀ k,t'.rows.lookup k = if k = r.key then
      rowEffect tab ((cache.publish t).rowState r.key) stamp (t.rows.lookup r.key) r
      else t.rows.lookup k := by
    intro k
    rw [hrows,lookup_setRow,hpub.rowEffect_eq hclimb]
  have hkeys : ∀ tab',cat.tableByID r.key.table = some tab' → tab'.uniqueKeys = [] := by
    intro tab' htab'
    cases hcat.symm.trans htab'
    exact htab.noKeys
  have hpub' : ∀ k,PublishesAt tab cache stamp k (pre++[r]) t' := by
    intro k
    by_cases hk : r.key = k
    · subst hk
      exact hpub.same hclimb hcat htab.active htab.noKeys hok
    · exact (h.publishes k).other hk hkeys hok
  have hstate : ∀ k,(cache.publish t').rowState k = if k = r.key then
      ((cache.publish t).rowState r.key).absorb tab stamp r else (cache.publish t).rowState k := by
    intro k
    rw [(hpub' k).state,filter_append,foldl_append,← (h.publishes k).state]
    by_cases hk : k = r.key
    · simp [hk]
    · have hk' : r.key ≠ k := fun e => hk e.symm
      simp [hk,hk']
  refine ⟨t',hok,hpub',fun k => ?_,fun k hk => ?_,fun m hm => ?_⟩
  · rw [hrow,hstate,map_append,← append_assoc]
    by_cases hk : k = r.key
    · subst hk
      simpa using hrule.step _ _ (h.meets r.key) hsame
    · simpa [hk] using hrule.other k _ _ (fun e => hk e.symm) (h.meets k)
  · have hne : k ≠ r.key := fun e => hk r (by simp) e.symm
    rw [hrow,hstate,if_neg hne,if_neg hne]
    exact h.fresh k fun r' hr' => hk r' (mem_append_left _ hr')
  · rcases hblobs m hm with hm | hm
    · exact h.blobs m hm
    · exact hm

theorem applyData_cell {d : Data} {applied : List Changeset} {cs : Changeset} (htab : CellTable tab)
    (hcat : ∀ r ∈ cs.records,cat.tableByID r.key.table = some tab)
    (hrule : ∀ pre r post,cs.records = pre++r::post → RowRule tab d.cache cs.stamp d.rows
      (writes applied++pre.map fun r => (cs.stamp,r)) r H) (hwf : cs.WellFormed)
    (hfirst : cs.records.Pairwise fun r r' => r.key = r'.key → r'.isUpdate = false)
    (hblob : d.blob = ∅) (h : ∀ k,H (writes applied) k (d.rows.lookup k) (d.cache.rowState k)) :
    ∃ d',applyData cat d cs.stamp cs.records = .ok d' ∧ d'.blob = ∅ ∧
      ∀ k,H (writes (applied++[cs])) k (d'.rows.lookup k) (d'.cache.rowState k) := by
  have hprod : cs.records.Pairwise fun r r' => r.key = r'.key → r.cl < r'.cl ∧ r'.isUpdate = false :=
    hwf.climbs.imp₂ (fun r r' h h' hk => ⟨h hk,h' hk⟩) hfirst
  have hone : ∀ pre x post t,cs.records = pre++x::post →
      RowsMeet tab d.cache cs.stamp d.rows (writes applied) H pre t →
      ∃ t',applyRecord cat d.cache ∅ cs.stamp t x = .ok t' ∧
        RowsMeet tab d.cache cs.stamp d.rows (writes applied) H (pre++[x]) t' := by
    intro pre x post t hsplit ht
    have hx : x ∈ cs.records := by simp [hsplit]
    rw [hsplit,pairwise_append] at hprod
    exact ht.step (hcat x hx) htab (hrule pre x post hsplit) fun r' hr' hkey => hprod.2.2 r' hr' x (by simp) hkey
  have hstep : ∀ pre x post t t',cs.records = pre++x::post →
      RowsMeet tab d.cache cs.stamp d.rows (writes applied) H pre t →
      applyRecord cat d.cache ∅ cs.stamp t x = .ok t' →
      RowsMeet tab d.cache cs.stamp d.rows (writes applied) H (pre++[x]) t' := by
    intro pre x post t t' hsplit ht hx
    obtain ⟨t'',hok,h'⟩ := hone pre x post t hsplit ht
    cases hok.symm.trans hx
    exact h'
  rcases ExceptFold.foldlM_invariant (RowsMeet.begin h) hstep with
    ⟨t,hok,ht⟩ | ⟨e,pre,x,post,t,-,hsplit,ht,hx⟩
  · refine ⟨_,applyData_eq_ok.mpr ⟨t,hblob ▸ hok,rfl⟩,?_,fun k => ?_⟩
    · rw [hblob]
      exact foldl_putBlobRangeClock_empty ht.blobs
    · rw [writes_concat]
      exact ht.meets k
  · obtain ⟨t',hok,-⟩ := hone pre x post t hsplit ht
    cases hok.symm.trans hx

end Transaction

end Syzy
