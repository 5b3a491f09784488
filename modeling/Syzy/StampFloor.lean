import Syzy.Machine
import Syzy.Publish
import Syzy.Recover
import Syzy.Sink

/-!
The stamps of a row's columns against its base, along every run of applied changesets, replayed
records and drained batches. A write of the whole row that lands at the row's own causal length
keeps the overrides it does not clear.
-/

namespace Syzy

open List ExceptFold Machine RowState

/-- A column whose writes arbitrate by their stamps. -/
def Table.isRegister (tab : Table) (col : ColumnID) : Bool :=
  tab.isValueColumn col && !tab.isCounterColumn col

namespace RowState

/-- No column is governed by a stamp below the base; in a cell-group table only registers have
stamps of their own. -/
structure Sound (tab? : Option Table) (rs : RowState) : Prop where
  floor : ∀ col,rs.base ≤ rs.columnStamp col
  held : ∀ tab ∈ tab?,∀ col s,rs.cells.lookup col = some s → tab.isRegister col = true

/-- The causal length does not fall, and while it stands no column's stamp does. -/
def Rises (rs rs' : RowState) : Prop :=
  rs.cl ≤ rs'.cl ∧ (rs'.cl = rs.cl → ∀ col,rs.columnStamp col ≤ rs'.columnStamp col)

/-- The row has risen and lost its overrides. -/
def Bared (rs cur : RowState) : Prop := cur.cells = ∅ ∧ rs.Rises cur

/-- Every stamp of the row is below the given one. -/
def Below (rs : RowState) (stamp : Stamp) : Prop :=
  rs.base < stamp ∧ ∀ col s,rs.cells.lookup col = some s → s < stamp

variable {tab? : Option Table} {rs cur : RowState} {cl : ℕ} {base : Stamp} {clear : Bool}

theorem Rises.refl (rs : RowState) : rs.Rises rs := ⟨le_rfl,fun _ _ => le_rfl⟩

theorem Rises.trans {a b c : RowState} (h : a.Rises b) (h' : b.Rises c) : a.Rises c := by
  refine ⟨h.1.trans h'.1,fun hcl col => ?_⟩
  have hle := h.1
  have hle' := h'.1
  exact (h.2 (by omega) col).trans (h'.2 (by omega) col)

theorem sound_of_cells (h : rs.cells = ∅) : rs.Sound tab? where
  floor col := by simp [columnStamp_eq,h]
  held _ _ col s hs := by simp [h] at hs

/-- A row clock that lands and leaves no overrides: none of them was above it. -/
theorem bared_put (hdom : rs.dominatedBy cl base = true)
    (hopen : clear = true ∨ rs.cells = ∅ ∨ rs.cl < cl)
    (hle : cl = rs.cl → ∀ col s,rs.cells.lookup col = some s → s ≤ base) :
    rs.Bared (rs.put (.ofBase cl base) clear) := by
  rw [put_ofBase hdom hopen]
  refine ⟨rfl,le_of_dominatedBy hdom,fun hcl col => ?_⟩
  rw [columnStamp_eq,columnStamp_eq]
  cases hs : rs.cells.lookup col with
  | none =>
    rcases Prod.Lex.toLex_lt_toLex.mp (dominatedBy_iff.mp hdom) with hlt | heq
    · exact absurd hcl hlt.ne'
    · exact heq.2.le
  | some s => exact hle hcl col s hs

/-- A row without overrides gets none from a row clock. -/
theorem Bared.put (h : rs.Bared cur) (cl : ℕ) (base : Stamp) (clear : Bool) :
    rs.Bared (cur.put (.ofBase cl base) clear) := by
  by_cases hdom : cur.dominatedBy cl base = true
  · obtain ⟨hbare,hrise⟩ := @bared_put _ _ _ clear hdom (.inr (.inl h.1)) fun _ col s hs => by
      simp [h.1] at hs
    exact ⟨hbare,h.2.trans hrise⟩
  · rw [RowState.put,ofBase_cl,ofBase_base,if_neg hdom]
    exact h

theorem Sound.putCells {us : List CellClockUpdate} (h : rs.Sound tab?)
    (hus : ∀ tab ∈ tab?,∀ u ∈ us,tab.isRegister u.col = true) :
    (us.foldl putCellUpdate rs).Sound tab? ∧ rs.Rises (us.foldl putCellUpdate rs) := by
  induction us generalizing rs with
  | nil => exact ⟨h,.refl rs⟩
  | cons u us ih =>
    have hstamp := fun col => rs.columnStamp_putCell u.col col u.stamp
    have hone : (rs.putCellUpdate u).Sound tab? := by
      refine ⟨fun col => ?_,fun tab htab col s hs => ?_⟩
      · rw [putCellUpdate,putCell_base,hstamp]
        split_ifs
        · exact le_max_of_le_left (h.floor col)
        · exact h.floor col
      · simp only [putCellUpdate,putCell] at hs
        split_ifs at hs
        · rw [FinMap.lookup_insert_eq] at hs
          split_ifs at hs with hc
          · exact hc ▸ hus tab htab u (by simp)
          · exact h.held tab htab col s hs
        · exact h.held tab htab col s hs
    have hrise : rs.Rises (rs.putCellUpdate u) := by
      refine ⟨(putCell_cl ..).ge,fun _ col => ?_⟩
      rw [putCellUpdate,hstamp]
      split_ifs
      · exact le_max_left ..
      · exact le_rfl
    obtain ⟨hs,hr⟩ := ih hone fun tab htab v hv => hus tab htab v (by simp [hv])
    exact ⟨hs,hrise.trans hr⟩

end RowState

/-- What a caller's gate says of a row clock it writes, against the row it read: the overrides it
meets at the row's own causal length are cleared and not above it. -/
structure RowClockUpdate.Gated (rs : RowState) (u : RowClockUpdate) : Prop where
  plain : u.state = .ofBase u.state.cl u.state.base
  clear : u.state.cl = rs.cl → rs.dominatedBy u.state.cl u.state.base = true → rs.cells = ∅ ∨
    u.clearCells = true ∧ ∀ col s,rs.cells.lookup col = some s → s ≤ u.state.base

def CellClockUpdate.Kept (cat : Catalog) (u : CellClockUpdate) : Prop :=
  ∀ tab ∈ cellGroupTable cat u.key.table,tab.isRegister u.col = true

abbrev ClockWrites := List RowClockUpdate × List CellClockUpdate

def Cache.writeClocks (c : Cache) (w : ClockWrites) : Cache :=
  w.2.foldl publishCell (w.1.foldl publishRow c)

/-- The clock writes of one publication. -/
structure Cache.Gated (cat : Catalog) (c : Cache) (w : ClockWrites) : Prop where
  rows : ∀ u ∈ w.1,u.Gated (c.rowState u.key)
  cells : ∀ u ∈ w.2,u.Kept cat

def Cache.Sound (cat : Catalog) (c : Cache) : Prop :=
  ∀ k,(c.rowState k).Sound (cellGroupTable cat k.table)

/-- Every row is sound again and no column fell within a causal length. -/
def Cache.Keeps (cat : Catalog) (c c' : Cache) : Prop :=
  c'.Sound cat ∧ ∀ k,(c.rowState k).Rises (c'.rowState k)

/-- What the row clocks of a publication make of one row. -/
def RowState.putAll (rs : RowState) (ups : List RowClockUpdate) (k : RowKey) : RowState :=
  (ups.filter fun u => u.key = k).foldl putUpdate rs

theorem RowState.putAll_concat (rs : RowState) (ups : List RowClockUpdate) (u : RowClockUpdate)
    (k : RowKey) : rs.putAll (ups++[u]) k =
      if u.key = k then (rs.putAll ups k).putUpdate u else rs.putAll ups k := by
  by_cases hk : u.key = k <;> simp [putAll,filter_append,hk]

section Publication

variable {cat : Catalog} {c : Cache} {w w' : ClockWrites}

/-- Publication keeps the rows sound and lowers no column, if its row clocks leave each row as it is
or without overrides. -/
theorem Cache.Sound.published (hc : c.Sound cat)
    (hups : ∀ k,(c.rowState k).putAll w.1 k = c.rowState k ∨
      (c.rowState k).Bared ((c.rowState k).putAll w.1 k))
    (hcells : ∀ u ∈ w.2,u.Kept cat) : c.Keeps cat (c.writeClocks w) := by
  refine forall_and.mp fun k => ?_
  rw [writeClocks,rowState_foldl_publishCell,rowState_foldl_publishRow,← putAll]
  have hcur : ((c.rowState k).putAll w.1 k).Sound (cellGroupTable cat k.table) ∧
      (c.rowState k).Rises ((c.rowState k).putAll w.1 k) := by
    rcases hups k with he | ⟨hbare,hrise⟩
    · rw [he]
      exact ⟨hc k,.refl _⟩
    · exact ⟨sound_of_cells hbare,hrise⟩
  have hown : ∀ tab ∈ cellGroupTable cat k.table,∀ u ∈ w.2.filter (fun u => u.key = k),
      tab.isRegister u.col = true := by
    intro tab htab u hu
    obtain ⟨hu,hk⟩ := mem_filter.mp hu
    have hk : u.key = k := by simpa using hk
    exact hcells u hu tab (hk ▸ htab)
  obtain ⟨hs,hr⟩ := hcur.1.putCells hown
  exact ⟨hs,hcur.2.trans hr⟩

theorem Cache.Gated.published (h : c.Gated cat w) (hc : c.Sound cat) :
    c.Keeps cat (c.writeClocks w) := by
  refine hc.published (fun k => ?_) h.cells
  have hups : ∀ u ∈ w.1.filter (fun u => u.key = k),u.Gated (c.rowState k) := by
    intro u hu
    obtain ⟨hu,hk⟩ := mem_filter.mp hu
    have hk : u.key = k := by simpa using hk
    exact hk ▸ h.rows u hu
  rw [putAll]
  generalize c.rowState k = rs,w.1.filter (fun u => u.key = k) = us at hups ⊢
  induction us using reverseRecOn with
  | nil => exact .inl rfl
  | append_singleton us u ih =>
    have hu := hups u (by simp)
    rw [foldl_append,foldl_cons,foldl_nil,putUpdate,hu.plain]
    rcases ih fun v hv => hups v (by simp [hv]) with he | hbare
    · rw [he]
      by_cases hdom : rs.dominatedBy u.state.cl u.state.base = true
      · refine .inr (bared_put hdom ?_ fun heq col s hs => ?_)
        · rcases (le_of_dominatedBy hdom).lt_or_eq with hlt | heq
          · exact .inr (.inr hlt)
          · exact (hu.clear heq.symm hdom).elim (fun h => .inr (.inl h)) fun h => .inl h.1
        · rcases hu.clear heq hdom with hbare | ⟨-,hle⟩
          · simp [hbare] at hs
          · exact hle col s hs
      · exact .inl (if_neg hdom)
    · exact .inr (hbare.put ..)

theorem Cache.Gated.append (h : c.Gated cat w) (h' : c.Gated cat w') :
    c.Gated cat (w.1++w'.1,w.2++w'.2) where
  rows u hu := (mem_append.mp hu).elim (h.rows u) (h'.rows u)
  cells u hu := (mem_append.mp hu).elim (h.cells u) (h'.cells u)

theorem Cache.gated_nil : c.Gated cat ([],[]) := ⟨by simp,by simp⟩

end Publication

/-- The columns a record arbitrates one by one hold values, and only counters carry contributions. A
record that moves its row as a whole meets no overrides where it wins at the row's own causal
length. -/
def Record.Fits (cat : Catalog) (rs : RowState) (stamp : Stamp) (r : Record) : Prop :=
  match (cellGroupTable cat r.key.table).bind fun tab => (asCellUpdate tab r rs).map (tab,·) with
  | some (tab,changed) => ∀ v ∈ changed,tab.isValueColumn v.column = true ∧
      (v.format = .delta → tab.isCounterColumn v.column = true)
  | none => r.cl = rs.cl → rs.dominatedBy r.cl stamp = true → rs.cells = ∅

section Effect

variable {cat : Catalog} {c : Cache} {tab : Table} {rs : RowState} {stamp : Stamp} {r : Record}
  {changed winners : List ColValue}

theorem gated_row (hbare : r.cl = (c.rowState r.key).cl →
      (c.rowState r.key).dominatedBy r.cl stamp = true → (c.rowState r.key).cells = ∅) :
    c.Gated cat ([⟨r.key,.ofBase r.cl stamp,false⟩],[]) := by
  refine ⟨fun u hu => ?_,by simp⟩
  rw [mem_singleton.mp hu]
  exact ⟨rfl,fun hcl hdom => .inl (hbare hcl hdom)⟩

/-- The clocks of a cell update. Where it wins every column it is above each of them. -/
theorem gated_cells {k : RowKey} {cl : ℕ} (htab : cellGroupTable cat k.table = some tab)
    (hrs : (c.rowState k).Sound (some tab))
    (hval : ∀ v ∈ winners,tab.isValueColumn v.column = true)
    (hwin : ¬(c.rowState k).cl < cl → ∀ v ∈ winners,tab.isCounterColumn v.column = true ∨
      stamp.dominates ((c.rowState k).columnStamp v.column) = true) :
    c.Gated cat (cellClockUpdates tab k cl (c.rowState k) stamp winners) := by
  have hcells : ∀ u ∈ (winners.filter fun v => ¬tab.isCounterColumn v.column).map
      (fun v => (⟨k,v.column,stamp⟩ : CellClockUpdate)),u.Kept cat := by
    intro u hu tab' htab'
    obtain ⟨v,hv,rfl⟩ := mem_map.mp hu
    obtain ⟨hv,hnot⟩ := mem_filter.mp hv
    cases htab.symm.trans htab'
    simpa [Table.isRegister,hval v hv] using hnot
  unfold cellClockUpdates
  split_ifs with hcov hlt
  · refine ⟨fun u hu => ?_,by simp⟩
    rw [mem_singleton.mp hu]
    refine ⟨rfl,fun hcl _ => .inr ⟨rfl,fun col s hs => ?_⟩⟩
    have hcl : cl = (c.rowState k).cl := hcl
    obtain ⟨hcol,hnot⟩ : tab.isValueColumn col = true ∧ tab.isCounterColumn col = false := by
      simpa [Table.isRegister] using hrs.held tab rfl col s hs
    obtain ⟨v,hv,hvc⟩ := any_eq_true.mp
      (all_eq_true.mp hcov col (isValueColumn_mem_nonPKColumns hcol))
    have hvc : v.column = col := by simpa using hvc
    have hdom := hwin (by omega) v hv
    rw [hvc,hnot,columnStamp_eq,hs] at hdom
    exact (Stamp.dominates_iff.mp (hdom.resolve_left (by simp))).le
  · refine ⟨fun u hu => ?_,hcells⟩
    rw [mem_singleton.mp hu]
    exact ⟨rfl,fun hcl _ => absurd hcl hlt.ne'⟩
  · exact ⟨by simp,hcells⟩

theorem gated_gatedClocks (htab : cellGroupTable cat r.key.table = some tab)
    (hrs : (c.rowState r.key).Sound (some tab)) (hfit : r.Fits cat (c.rowState r.key) stamp) :
    c.Gated cat
      (gatedClocks tab (c.rowState r.key) stamp r (asCellUpdate tab r (c.rowState r.key))) := by
  unfold Record.Fits at hfit
  rw [htab,Option.bind_some] at hfit
  cases hcell : asCellUpdate tab r (c.rowState r.key) with
  | none =>
    rw [hcell] at hfit
    rw [gatedClocks]
    split_ifs
    · exact gated_row hfit
    · exact Cache.gated_nil
  | some changed =>
    rw [hcell] at hfit
    rw [gatedClocks]
    split_ifs
    · exact Cache.gated_nil
    · exact Cache.gated_nil
    · refine gated_cells htab hrs (fun v hv => ?_) fun hlt v hv => ?_
      · obtain ⟨w,hw,hwv⟩ := cellWinners_column hv
        exact hwv ▸ (hfit w hw).1
      · rw [cellWinners,if_neg hlt] at hv
        obtain ⟨hv,hwin⟩ := mem_filter.mp hv
        exact (by simpa using hwin : v.format = .delta ∨ _).imp_left (hfit v hv).2

/-- A cell-group table has no unique keys, so the stamps of a stolen key are in other tables. -/
structure Catalog.Keyed (cat : Catalog) : Prop where
  id_eq : ∀ t tab,cat.tableByID t = some tab → tab.id = t
  noKeys : ∀ t tab,cellGroupTable cat t = some tab → tab.uniqueKeys = []

/-- One record of an applied changeset: its gate reads the cache from before the transaction. -/
theorem gated_applyRecord {blob : BlobRangeClock} {t t' : Txn} (hkeyed : cat.Keyed)
    (hc : c.Sound cat) (hfit : r.isBlobPatch = false → r.Fits cat (c.rowState r.key) stamp)
    (h : c.Gated cat (t.updates,t.cellUpdates))
    (hok : applyRecord cat c blob stamp t r = .ok t') : c.Gated cat (t'.updates,t'.cellUpdates) := by
  cases hcat : cat.tableByID r.key.table with
  | none => simp [applyRecord,hcat] at hok
  | some tab =>
    cases hactive : tab.dropped with
    | true =>
      simp only [applyRecord,hcat,hactive,if_true] at hok
      cases hok
      exact h
    | false =>
      obtain ⟨stolen,hstolen,hups,hcells⟩ := applyRecord_clocks hcat hactive hok
      have htab : cellGroupTable cat r.key.table = if tab.cellGroup then some tab else none := by
        cases hg : tab.cellGroup <;> simp [cellGroupTable,hcat,hactive,hg,Option.filter]
      have hout : c.Gated cat ([],stolen) := by
        refine ⟨by simp,fun u hu tab' htab' => ?_⟩
        rw [hstolen.1 u hu,hkeyed.id_eq _ _ hcat] at htab'
        have hsome : tab' = tab := by
          rw [htab] at htab'
          split_ifs at htab' <;> cases htab'
          rfl
        simp [hstolen.2 (hsome ▸ hkeyed.noKeys _ _ htab')] at hu
      have hown : c.Gated cat (clockEffect tab (c.rowState r.key) stamp r) := by
        unfold clockEffect
        cases hpatch : r.isBlobPatch with
        | true => exact Cache.gated_nil
        | false =>
          have hfit := hfit hpatch
          have hrs := hc r.key
          cases hg : tab.cellGroup with
          | true =>
            rw [hg,if_pos rfl] at htab
            rw [htab] at hrs
            exact gated_gatedClocks htab hrs hfit
          | false =>
            rw [hg,if_neg (by simp)] at htab
            unfold Record.Fits at hfit
            rw [htab] at hfit
            simp only [Bool.false_eq_true,if_false,gatedClocks]
            split_ifs
            · exact gated_row hfit
            · exact Cache.gated_nil
      have hboth := (h.append hout).append hown
      rw [append_nil] at hboth
      rw [hups,hcells]
      exact hboth

/-- The replay of a record publishes the clocks that its apply does. -/
theorem replay_gatedClocks (c : Cache) (tab : Table) (stamp : Stamp) (r : Record) :
    ∀ changed?,(match changed? with
      | some changed => replayCellClocks c tab r.key r.cl changed (c.rowState r.key) stamp
      | none => replayRowClock c r.key r.cl stamp) =
        c.writeClocks (gatedClocks tab (c.rowState r.key) stamp r changed?)
  | none => by
    simp only [replayRowClock,gatedClocks]
    split_ifs <;> simp [Cache.writeClocks,Cache.publishRow]
  | some changed => by
    have hrole : ∀ col,(tab.columnRole col).2 = tab.isCounterColumn col := by
      intro col
      unfold Table.columnRole Table.isCounterColumn
      cases tab.columnByID col <;> rfl
    -- The opening values of a new generation stand in the columns of its contributions.
    have hcol : ∀ v : ColValue,(if v.format = .delta then { v with format := .text } else v).column =
        v.column := by
      intro v
      split_ifs <;> rfl
    simp only [replayCellClocks,replayWinners,gatedClocks,cellWinners,updateHasDelta,
      cellUpdateHasCounter,cellClockUpdates,hrole]
    by_cases hlt : (c.rowState r.key).cl < r.cl
    · simp only [hlt,if_true,not_true_eq_false,false_and,if_false,coversAllNonPK,any_map,filter_map,
        map_map,Function.comp_def,hcol]
      split_ifs <;> simp [Cache.writeClocks,foldl_map,Cache.publishCell]
    · simp only [hlt,if_false]
      split_ifs <;> simp [Cache.writeClocks,foldl_map,Cache.publishCell]

theorem gated_replayRecord (hrs : (c.rowState r.key).Sound (cellGroupTable cat r.key.table))
    (hfit : r.Fits cat (c.rowState r.key) stamp) :
    ∃ w,c.Gated cat w ∧ replayRecord cat stamp c r = c.writeClocks w := by
  cases htab : cellGroupTable cat r.key.table with
  | some tab =>
    rw [htab] at hrs
    simp only [replayRecord,htab]
    exact ⟨_,gated_gatedClocks htab hrs hfit,replay_gatedClocks ..⟩
  | none =>
    unfold Record.Fits at hfit
    rw [htab] at hfit
    simp only [replayRecord,htab,replayOpaque,replayRowClock]
    split_ifs with hdelta hlt
    · refine ⟨([⟨r.key,.ofBase r.cl Stamp.zero,true⟩],[]),⟨fun u hu => ?_,by simp⟩,rfl⟩
      rw [mem_singleton.mp hu]
      exact ⟨rfl,fun hcl _ => absurd hcl hlt.ne'⟩
    · exact ⟨_,Cache.gated_nil,rfl⟩
    · exact ⟨_,gated_row hfit,by simp [Cache.writeClocks,Cache.publishRow]⟩
    · exact ⟨_,Cache.gated_nil,rfl⟩

end Effect

/-- The clocks a drain builds from its evidence, each with the stamp of its commit. -/
def drainBatch (cat : Catalog) (view : RowKey → RowState) (evs : List (Stamp × RecordEvidence)) :
    SinkBatch :=
  evs.foldl (fun b x => SinkBatch.buildRecord cat x.1 b x.2) (.new view)

namespace RecordEvidence

def keys : RecordEvidence → List RowKey
  | insert k _ | update k _ | delete k => [k]
  | updatePKChange old new _ => [old,new]
  | blobPatch .. => []

/-- An insert or a delete that leaves its row's causal length meets no overrides. -/
def Fits (cat : Catalog) (view : RowKey → RowState) : RecordEvidence → Prop
  | insert k _ => (view k).nextLiveCL = (view k).cl → (view k).cells = ∅
  | delete k => (view k).nextTombCL = (view k).cl → (view k).cells = ∅
  | updatePKChange old new _ => old ≠ new ∧
      ((view old).nextTombCL = (view old).cl → (view old).cells = ∅) ∧
      ((view new).nextLiveCL = (view new).cl → (view new).cells = ∅)
  | update k changed => ∀ tab ∈ cellGroupTable cat k.table,∀ v ∈ changed,v.format ≠ .delta →
      tab.isRegister v.column = true
  | blobPatch .. => True

end RecordEvidence

/-- What a batch makes of the rows it read: each is as it was read, in the batch's own table too, or
without overrides. -/
structure SinkBatch.Drains (cat : Catalog) (view : RowKey → RowState) (b : SinkBatch) : Prop where
  rows : ∀ k,(view k).putAll b.clocks k = view k ∧ b.rowState k = view k ∨
    (view k).Bared ((view k).putAll b.clocks k)
  cells : ∀ u ∈ b.cellClocks,u.Kept cat

section Drain

variable {cat : Catalog} {view : RowKey → RowState} {b b' : SinkBatch} {k : RowKey} {cl : ℕ}
  {stamp base : Stamp} {clear : Bool}

theorem SinkBatch.Drains.clock (h : b.Drains cat view)
    (hclocks : b'.clocks = b.clocks++[⟨k,.ofBase cl base,clear⟩])
    (hstate : ∀ k',k' ≠ k → b'.rowState k' = b.rowState k')
    (hcells : ∀ u ∈ b'.cellClocks,u.Kept cat)
    (hland : b.rowState k = view k → (view k).dominatedBy cl base = true ∧
      (clear = true ∨ (view k).cells = ∅ ∨ (view k).cl < cl) ∧
      (cl = (view k).cl → ∀ col s,(view k).cells.lookup col = some s → s ≤ base)) :
    b'.Drains cat view := by
  refine ⟨fun k' => ?_,hcells⟩
  rw [hclocks,putAll_concat]
  split_ifs with hk
  · subst hk
    right
    rcases h.rows k with ⟨he,hview⟩ | hbare
    · obtain ⟨hdom,hopen,hle⟩ := hland hview
      rw [he]
      exact bared_put hdom hopen hle
    · exact hbare.put ..
  · rw [hstate k' (Ne.symm hk)]
    exact h.rows k'

/-- A row clock under a stamp above the row that was read. -/
theorem SinkBatch.Drains.emit (h : b.Drains cat view) {r : Record} (hk : r.key = k)
    (hbelow : (view k).Below stamp) (hle : (b.rowState k).cl ≤ cl)
    (hbare : cl = (b.rowState k).cl → clear = true ∨ (b.rowState k).cells = ∅) :
    (b.emit r (.ofBase cl stamp) clear).Drains cat view := by
  subst hk
  refine h.clock rfl (fun k' hk => Function.update_of_ne hk _ _) h.cells fun hview => ?_
  rw [hview] at hle hbare
  have hdom : (view r.key).dominatedBy cl stamp = true := by
    rw [dominatedBy_iff,version,Prod.Lex.toLex_lt_toLex]
    exact hle.lt_or_eq.imp_right fun heq => ⟨heq,hbelow.1⟩
  refine ⟨hdom,?_,fun _ col s hs => (hbelow.2 col s hs).le⟩
  rcases hle.lt_or_eq with hlt | heq
  · exact .inr (.inr hlt)
  · exact (hbare heq.symm).imp_right .inl

theorem SinkBatch.Drains.buildRecord {ev : RecordEvidence} (h : b.Drains cat view)
    (hbelow : ∀ k ∈ ev.keys,(view k).Below stamp) (hfit : ev.Fits cat b.rowState) :
    (SinkBatch.buildRecord cat stamp b ev).Drains cat view := by
  cases ev with
  | insert k image =>
    exact h.emit rfl (hbelow k (by simp [RecordEvidence.keys])) (le_nextLiveCL _)
      fun he => .inr (hfit he)
  | delete k =>
    exact h.emit rfl (hbelow k (by simp [RecordEvidence.keys])) (le_nextTombCL _)
      fun he => .inr (hfit he)
  | updatePKChange old new image =>
    obtain ⟨hne,hold,hnew⟩ := hfit
    have hdel : (b.emit (.delete old (b.rowState old).nextTombCL)
        (.ofBase (b.rowState old).nextTombCL stamp) false).Drains cat view :=
      h.emit rfl (hbelow old (by simp [RecordEvidence.keys])) (le_nextTombCL _)
        fun he => .inr (hold he)
    have hsame : (b.emit (.delete old (b.rowState old).nextTombCL)
        (.ofBase (b.rowState old).nextTombCL stamp) false).rowState new = b.rowState new :=
      Function.update_of_ne hne.symm _ _
    refine hdel.emit (rfl : _ = new) (hbelow new (by simp [RecordEvidence.keys])) ?_ fun he => ?_
    · rw [hsame]
      exact le_nextLiveCL _
    · rw [hsame] at he ⊢
      exact .inr (hnew he)
  | blobPatch k col ranges => exact ⟨h.rows,h.cells⟩
  | update k changed =>
    have hcells : ∀ u ∈ b.cellClocks++(changed.filter fun v => v.format ≠ .delta).map
        (fun v => (⟨k,v.column,stamp⟩ : CellClockUpdate)),u.Kept cat := by
      intro u hu tab htab
      rcases mem_append.mp hu with hu | hu
      · exact h.cells u hu tab htab
      · obtain ⟨v,hv,rfl⟩ := mem_map.mp hu
        obtain ⟨hv,hplain⟩ := mem_filter.mp hv
        exact hfit tab htab v hv (by simpa using hplain)
    simp only [SinkBatch.buildRecord]
    split_ifs
    · by_cases hlt : (b.rowState k).cl < (b.rowState k).nextLiveCL
      · refine h.clock (if_pos hlt) (fun k' hk => Function.update_of_ne hk _ _) hcells fun hview => ?_
        rw [hview] at hlt ⊢
        exact ⟨dominatedBy_of_lt hlt,.inl rfl,fun he => absurd he hlt.ne'⟩
      · refine ⟨fun k' => ?_,hcells⟩
        simpa [SinkBatch.emitCells,SinkBatch.setRowState,hlt] using h.rows k'
    · refine h.emit rfl (hbelow k (by simp [RecordEvidence.keys])) (le_nextLiveCL _)
        fun _ => ?_
      by_cases hbare : (b.rowState k).cells = ∅
      · exact .inr hbare
      · exact .inl (by simpa using hbare)

theorem drains_drainBatch {evs : List (Stamp × RecordEvidence)}
    (hbelow : ∀ x ∈ evs,∀ k ∈ x.2.keys,(view k).Below x.1)
    (hfit : Permitted (fun b x => SinkBatch.buildRecord cat x.1 b x.2)
      (fun b x => x.2.Fits cat b.rowState) (.new view) evs) :
    (drainBatch cat view evs).Drains cat view :=
  (hfit.and_forall hbelow).invariant (I := SinkBatch.Drains cat view)
    (fun _ _ h hx => h.buildRecord hx.2 hx.1) ⟨fun _ => .inl ⟨rfl,rfl⟩,by simp [SinkBatch.new]⟩

end Drain

/-- What moves the clocks of a node. A local commit that is asserted again is applied like an inbound
changeset; a drain collects a batch and publishes its clocks later. -/
inductive ClockStep
  | apply (stamp : Stamp) (records : List Record)
  | replay (stamp : Stamp) (r : Record)
  | collect (evs : List (Stamp × RecordEvidence))
  | publish

/-- A node's data, and the batch at hand with the row states it was built from. -/
structure ClockNode where
  data : Data
  batch : Option ((RowKey → RowState) × List (Stamp × RecordEvidence))

namespace ClockNode

def step (cat : Catalog) (n : ClockNode) : ClockStep → ClockNode
  | .apply stamp records =>
    match applyData cat n.data stamp records with
    | .ok d => { n with data := d }
    | .error _ => n
  | .replay stamp r =>
    { n with data := { n.data with cache := replayRecord cat stamp n.data.cache r } }
  | .collect evs => { n with batch := some (n.data.cache.rowState,evs) }
  | .publish =>
    match n.batch with
    | none => n
    | some (view,evs) =>
      let b := drainBatch cat view evs
      ⟨{ n.data with cache := n.data.cache.writeClocks (b.clocks,b.cellClocks) },none⟩

/-- A published batch: its stamps are above the rows it read, and the rows whose clock it writes
have not moved since. -/
structure BatchFits (cat : Catalog) (c : Cache) (view : RowKey → RowState)
    (evs : List (Stamp × RecordEvidence)) : Prop where
  above : ∀ x ∈ evs,∀ k ∈ x.2.keys,(view k).Below x.1
  suited : Permitted (fun b x => SinkBatch.buildRecord cat x.1 b x.2)
    (fun b x => x.2.Fits cat b.rowState) (.new view) evs
  fresh : ∀ u ∈ (drainBatch cat view evs).clocks,c.rowState u.key = view u.key

def Admits (cat : Catalog) (n : ClockNode) : ClockStep → Prop
  | .apply stamp records => ∀ r ∈ records,r.isBlobPatch = false →
      r.Fits cat (n.data.cache.rowState r.key) stamp
  | .replay stamp r => r.Fits cat (n.data.cache.rowState r.key) stamp
  | .collect _ => True
  | .publish => ∀ x ∈ n.batch,BatchFits cat n.data.cache x.1 x.2

variable {cat : Catalog} {n : ClockNode}

theorem step_keeps (hkeyed : cat.Keyed) (hn : n.data.cache.Sound cat) {s : ClockStep}
    (hs : Admits cat n s) : n.data.cache.Keeps cat (step cat n s).data.cache := by
  have hsame : n.data.cache.Keeps cat n.data.cache := ⟨hn,fun _ => .refl _⟩
  cases s with
  | apply stamp records =>
    simp only [step]
    split
    · rename_i d hd
      obtain ⟨t,ht,rfl⟩ := applyData_eq_ok.mp hd
      have hgated : n.data.cache.Gated cat (t.updates,t.cellUpdates) :=
        foldlM_invariant_ok (I := fun _ t => n.data.cache.Gated cat (t.updates,t.cellUpdates))
          Cache.gated_nil (fun pre r post _ _ hl h hok =>
            gated_applyRecord hkeyed hn (hs r (by simp [hl])) h hok) ht
      exact hgated.published hn
    · exact hsame
  | replay stamp r =>
    obtain ⟨w,hgated,he⟩ := gated_replayRecord (hn r.key) hs
    simp only [step,he]
    exact hgated.published hn
  | collect evs => exact hsame
  | publish =>
    simp only [step]
    split
    · exact hsame
    · rename_i view evs hb
      obtain ⟨habove,hsuited,hfresh⟩ := hs (view,evs) hb
      have hdrains := drains_drainBatch habove hsuited
      refine hn.published (fun k => ?_) hdrains.cells
      cases hlist : (drainBatch cat view evs).clocks.filter fun u => u.key = k with
      | nil =>
        left
        rw [putAll,hlist]
        rfl
      | cons u us =>
        obtain ⟨hu,hk⟩ := mem_filter.mp (hlist ▸ mem_cons_self : u ∈ _)
        have hk : u.key = k := by simpa using hk
        have hview : n.data.cache.rowState k = view k := hk ▸ hfresh u hu
        rw [hview]
        exact (hdrains.rows k).imp_left And.left

end ClockNode

namespace FloorSample

open ClockNode

def table : Table where
  id := 1
  columns := [⟨1,1,false,true,false,.null,.binary⟩,⟨2,0,false,false,false,.null,.binary⟩]
  uniqueKeys := [⟨1,[2],false⟩]
  cellGroup := false
  dropped := false

def catalog : Catalog := ⟨fun id => if id = 1 then some table else none⟩
def key (b : Byte) : RowKey := ⟨1,replicate 15 0++[1,3,1,b]⟩
def stamp (t : ℤ) : Stamp := ⟨⟨t,0⟩,1⟩
def value : List ColValue := [⟨2,colText,.text,[98]⟩]
def fresh : ClockNode := ⟨⟨∅,.new 1,∅⟩,none⟩

/-- The second row takes the key from the first, whose column is nulled under the second's stamp. -/
def stolen : List ClockStep :=
  [.apply (stamp 5) [.insert (key 97) 1 value],.apply (stamp 10) [.insert (key 98) 1 value]]

def updated : List ClockStep := stolen++[.apply (stamp 20) [.update (key 97) 1 []]]
def drained : List ClockStep := stolen++[.collect [(stamp 20,.insert (key 99) value)],.publish]

theorem keyed : catalog.Keyed where
  id_eq t tab h := by
    simp only [catalog] at h
    split_ifs at h with ht
    cases h
    exact ht.symm
  noKeys t tab h := by
    simp only [cellGroupTable,catalog] at h
    split_ifs at h
    · cases h
    · cases h

end FloorSample

end Syzy
