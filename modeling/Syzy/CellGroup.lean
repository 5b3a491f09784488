import Syzy.CellRow
import Syzy.LWW
import Syzy.Schedule

/-!
Cell-group tables without counters: within a generation every column is a last-writer-wins register
of its own. The clock that encodes the registers is not canonical, since a write of every column
collapses into the base and a later one reopens it; the stamp that governs a column is.
-/

namespace Syzy

open List RowState

structure CellGroupTable (tab : Table) : Prop extends CellTable tab where
  noCounters : tab.hasCounters = false
  nullable : ∀ c ∈ tab.columns,c.pkPos = 0 → c.notNull = false

/-- A record of the table: an insert carries every value column, an update some of them. -/
def CellGroupRecord (tab : Table) (r : Record) : Prop :=
  r.key.table = tab.id ∧ bindPK r.key = .ok () ∧ (∀ v ∈ r.values,Bindable v) ∧
    (∀ v ∈ r.values,v.format ≠ .delta) ∧
    match r with
    | .insert _ _ image => (∀ c ∈ tab.nonPKColumns,∃ v ∈ image,v.column = c) ∧
      ∀ v ∈ image,(tab.columnByID v.column).isSome
    | .update _ _ changed => changed ≠ [] ∧ ∀ v ∈ changed,tab.isValueColumn v.column = true
    | .delete _ _ => True
    | .blobPatch _ _ _ _ => False

def written (tab : Table) (r : Record) : List ColValue :=
  r.values.filter fun v => tab.isValueColumn v.column

/-- The writes of one column in one generation of a row, as its register sees them. -/
def cellWrites (tab : Table) (k : RowKey) (cl : ℕ) (col : ColumnID) (ws : List (Stamp × Record)) :
    List (Stamp × SqlValue) :=
  (ws.filter fun w => w.2.key = k ∧ w.2.cl = cl ∧ Carries w.2 col).map fun w =>
    (w.1,imageRow tab w.2.values col)

/-- The stamps of the records of one generation of a row. -/
def rowStamps (k : RowKey) (cl : ℕ) (ws : List (Stamp × Record)) : List (Stamp × Unit) :=
  (ws.filter fun w => w.2.key = k ∧ w.2.cl = cl).map fun w => (w.1,())

def latestStamp {V : Type} (s : Option (Stamp × V)) : Stamp := s.elim Stamp.zero Prod.fst

/-- A column holds the latest write of the row's generation, under that write's stamp. -/
def HoldsCell (tab : Table) (ws : List (Stamp × Record)) (k : RowKey) (x : Row) (rs : RowState)
    (col : ColumnID) : Prop :=
  ∃ s,LWW.IsLatest (cellWrites tab k rs.cl col ws) s ∧ rs.columnStamp col = latestStamp s ∧
    rs.base ≤ rs.columnStamp col ∧ ∀ w,s = some w → x col = w.2

/-- A row is at the latest generation of its records: gone when that is a tombstone, and otherwise
present with every column at its latest write. -/
structure HoldsCells (tab : Table) (ws : List (Stamp × Record)) (k : RowKey) (row : Option Row)
    (rs : RowState) : Prop where
  top : ∀ w ∈ ws,w.2.key = k → w.2.cl ≤ rs.cl
  attained : rs.cl = 0 ∨ ∃ w ∈ ws,w.2.key = k ∧ w.2.cl = rs.cl
  dead : rs.cl%2 = 0 → row = none ∧
    ∃ s,LWW.IsLatest (rowStamps k rs.cl ws) s ∧ rs = .ofBase rs.cl (latestStamp s)
  live : rs.cl%2 = 1 → ∃ x,row = some x ∧ RowShape tab x ∧
    ∀ col,tab.isValueColumn col = true → HoldsCell tab ws k x rs col

section Values

variable {tab : Table} {r : Record} {rs : RowState} {stamp : Stamp}

theorem CellGroupTable.isCounterColumn (htab : CellGroupTable tab) (c : ColumnID) :
    tab.isCounterColumn c = false :=
  Table.isCounterColumn_of_noCounters htab.noCounters c

theorem CellGroupTable.notNullOK (htab : CellGroupTable tab) (row : Row) :
    notNullOK tab row = true := by
  refine all_eq_true.mpr fun c hc => ?_
  by_cases hpk : c.pkPos = 0
  · simp [htab.nullable c hc hpk]
  · simp [Nat.pos_of_ne_zero hpk]

theorem asCellUpdate_eq (htab : CellGroupTable tab) (hr : CellGroupRecord tab r)
    {changed : List ColValue} (h : asCellUpdate tab r rs = some changed) : changed = written tab r := by
  obtain ⟨-,-,-,-,hr⟩ := hr
  cases r with
  | insert k cl image =>
    simp only [asCellUpdate,Table.columnRole_snd,htab.isCounterColumn] at h
    split_ifs at h
    simp only [false_and,if_false,map_id_fun',id_eq,Option.some.injEq] at h
    rw [← h]
    refine filter_congr fun v hv => ?_
    obtain ⟨col,hcol⟩ := Option.isSome_iff_exists.mp (hr.2 v hv)
    simp [Table.columnRole,Table.isValueColumn,hcol]
  | update k cl changed' =>
    simp only [asCellUpdate,Option.some.injEq] at h
    rw [← h]
    exact (filter_eq_self.mpr hr.2).symm
  | delete k cl => simp [asCellUpdate] at h
  | blobPatch k cl col ranges => exact absurd hr id

theorem written_plain (hr : CellGroupRecord tab r) : ∀ v ∈ written tab r,v.format ≠ .delta :=
  fun v hv => hr.2.2.2.1 v (mem_filter.mp hv).1

def Wins (rs : RowState) (cl : ℕ) (stamp : Stamp) (col : ColumnID) : Bool :=
  rs.cl < cl ∨ stamp.dominates (rs.columnStamp col)

variable {cl : ℕ} {col : ColumnID} {vs : List ColValue}

section

variable (h : ∀ v ∈ vs,v.format ≠ .delta)
include h

theorem cellWinners_plain :
    cellWinners rs cl stamp vs = vs.filter fun v => Wins rs cl stamp v.column := by
  unfold cellWinners Wins
  split_ifs with hlt
  · have hmap : vs.map (fun v => if v.format = .delta then { v with format := .text } else v) = vs :=
      (map_congr_left fun v hv => if_neg (h v hv)).trans (map_id vs)
    rw [hmap]
    simp [hlt]
  · refine filter_congr fun v hv => ?_
    simp [h v hv,hlt]

theorem cellUpdateHasCounter_plain : cellUpdateHasCounter vs = false := by
  simpa [cellUpdateHasCounter] using h

theorem cellGate_plain : CellGate rs cl stamp vs ↔ rs.dominatedBy cl stamp = true := by
  unfold CellGate
  rw [cellUpdateHasCounter_plain h]
  constructor
  · intro hg
    simpa using (not_or.mp hg).2
  · intro hd
    have := le_of_dominatedBy hd
    simp [hd,this]

end

theorem mem_written_iff (hcol : tab.isValueColumn col = true) :
    (∃ v ∈ written tab r,v.column = col) ↔ Carries r col := by
  constructor
  · rintro ⟨v,hv,rfl⟩
    exact ⟨v,(mem_filter.mp hv).1,rfl⟩
  · rintro ⟨v,hv,rfl⟩
    exact ⟨v,mem_filter.mpr ⟨hv,hcol⟩,rfl⟩

theorem imageRow_written (hcol : tab.isValueColumn col = true) :
    imageRow tab (written tab r) col = imageRow tab r.values col :=
  imageRow_filter hcol r.values

theorem foldl_putCellUpdate_columnStamp {us : List CellClockUpdate}
    (h : ∀ u ∈ us,u.stamp = stamp) (rs : RowState) (col : ColumnID) :
    (us.foldl putCellUpdate rs).columnStamp col =
      if ∃ u ∈ us,u.col = col then max (rs.columnStamp col) stamp else rs.columnStamp col := by
  induction us generalizing rs with
  | nil => simp
  | cons u us ih =>
    rw [foldl_cons,ih fun u' hu' => h u' (by simp [hu']),putCellUpdate,
      columnStamp_putCell,h u (by simp)]
    by_cases hu : col = u.col
    · by_cases hin : ∃ u' ∈ us,u'.col = col <;> simp [hu] at hin ⊢
    · have hu' : u.col ≠ col := fun e => hu e.symm
      simp [hu,hu']

def winners (tab : Table) (rs : RowState) (stamp : Stamp) (r : Record) : List ColValue :=
  (written tab r).filter fun v => Wins rs r.cl stamp v.column

theorem mem_winners_iff (hcol : tab.isValueColumn col = true) :
    (∃ v ∈ winners tab rs stamp r,v.column = col) ↔
      Carries r col ∧ Wins rs r.cl stamp col = true := by
  rw [← mem_written_iff hcol]
  constructor
  · rintro ⟨v,hv,rfl⟩
    exact ⟨⟨v,(mem_filter.mp hv).1,rfl⟩,(mem_filter.mp hv).2⟩
  · rintro ⟨⟨v,hv,rfl⟩,hw⟩
    exact ⟨v,mem_filter.mpr ⟨hv,hw⟩,rfl⟩

theorem cellWinners_written (hr : CellGroupRecord tab r) :
    cellWinners rs r.cl stamp (written tab r) = winners tab rs stamp r :=
  cellWinners_plain (written_plain hr)

theorem clockEffect_cells (htab : CellGroupTable tab) (hr : CellGroupRecord tab r)
    (hcell : asCellUpdate tab r rs = some (written tab r))
    (hdom : rs.dominatedBy r.cl stamp = true) :
    clockEffect tab rs stamp r = if ¬rs.cl < r.cl ∧ winners tab rs stamp r = [] then ([],[])
      else cellClockUpdates tab r.key r.cl rs stamp (winners tab rs stamp r) := by
  have hpatch : r.isBlobPatch = false := by
    cases r with
    | blobPatch k cl col ranges => simp [asCellUpdate] at hcell
    | _ => rfl
  have hgate := (cellGate_plain (written_plain hr)).mpr hdom
  rw [clockEffect,hpatch,htab.cellGroup,hcell]
  simp only [Bool.false_eq_true,if_false,if_true,gatedClocks]
  rw [if_neg hgate,cellWinners_written hr]

/-- A columnwise record that passes its gate: the columns it wins take its stamp, and the others
keep theirs within a generation. -/
theorem absorb_cells (htab : CellGroupTable tab) (hr : CellGroupRecord tab r)
    (hpos : Stamp.zero < stamp) (hcell : asCellUpdate tab r rs = some (written tab r))
    (hdom : rs.dominatedBy r.cl stamp = true) :
    (rs.absorb tab stamp r).cl = r.cl ∧ ∀ col,tab.isValueColumn col = true →
      (rs.absorb tab stamp r).columnStamp col =
        (if Carries r col ∧ Wins rs r.cl stamp col = true then stamp
          else if rs.cl < r.cl then Stamp.zero else rs.columnStamp col) ∧
      (rs.base ≤ rs.columnStamp col →
        (rs.absorb tab stamp r).base ≤ (rs.absorb tab stamp r).columnStamp col) := by
  have hle := le_of_dominatedBy hdom
  have heff := clockEffect_cells htab hr hcell hdom
  by_cases hnone : ¬rs.cl < r.cl ∧ winners tab rs stamp r = []
  · have habs : rs.absorb tab stamp r = rs := by
      rw [absorb,heff,if_pos hnone]
      rfl
    rw [habs]
    refine ⟨le_antisymm hle (not_lt.mp hnone.1),fun col hcol => ⟨?_,id⟩⟩
    have hlose : ¬(Carries r col ∧ Wins rs r.cl stamp col = true) := by
      rw [← mem_winners_iff hcol,hnone.2]
      simp
    rw [if_neg hlose,if_neg hnone.1]
  · rw [if_neg hnone] at heff
    by_cases hcov : coversAllNonPK tab (winners tab rs stamp r) = true
    · have habs : rs.absorb tab stamp r = .ofBase r.cl stamp := by
        rw [absorb,heff,cellClockUpdates,if_pos hcov]
        exact put_ofBase hdom (.inl rfl)
      rw [habs]
      refine ⟨rfl,fun col hcol => ⟨?_,fun _ => ?_⟩⟩
      · have hin : Carries r col ∧ Wins rs r.cl stamp col = true := by
          rw [← mem_winners_iff hcol]
          have := all_eq_true.mp hcov col (isValueColumn_mem_nonPKColumns hcol)
          simpa using this
        rw [if_pos hin,columnStamp_eq]
        rfl
      · rw [columnStamp_eq]
        exact le_rfl
    · have hfilter : ((winners tab rs stamp r).filter fun v => ¬tab.isCounterColumn v.column) =
          winners tab rs stamp r :=
        filter_eq_self.mpr fun v _ => by simp [htab.isCounterColumn]
      have habs : rs.absorb tab stamp r = ((winners tab rs stamp r).map fun v =>
          (⟨r.key,v.column,stamp⟩ : CellClockUpdate)).foldl putCellUpdate
            (if rs.cl < r.cl then .ofBase r.cl Stamp.zero else rs) := by
        rw [absorb,heff,cellClockUpdates,if_neg hcov,hfilter]
        by_cases hlt : rs.cl < r.cl
        · simp only [hlt,if_true,foldl_cons,foldl_nil,putUpdate,
            put_ofBase_of_lt hlt]
        · simp only [hlt,if_false,foldl_nil]
      have hstamps : ∀ u ∈ (winners tab rs stamp r).map fun v =>
          (⟨r.key,v.column,stamp⟩ : CellClockUpdate),u.stamp = stamp := by
        intro u hu
        obtain ⟨v,-,rfl⟩ := mem_map.mp hu
        rfl
      rw [habs,foldl_putCellUpdate_cl,foldl_putCellUpdate_base]
      refine ⟨?_,fun col hcol => ?_⟩
      · split_ifs with hlt
        · rfl
        · exact le_antisymm hle (not_lt.mp hlt)
      · rw [foldl_putCellUpdate_columnStamp hstamps]
        have hmem : (∃ u ∈ (winners tab rs stamp r).map fun v =>
            (⟨r.key,v.column,stamp⟩ : CellClockUpdate),u.col = col) ↔
              Carries r col ∧ Wins rs r.cl stamp col = true := by
          rw [← mem_winners_iff hcol]
          simp
        have hzero : (ofBase r.cl Stamp.zero).columnStamp col = Stamp.zero := by
          rw [columnStamp_eq]
          rfl
        simp only [hmem]
        by_cases hlt : rs.cl < r.cl
        · rw [if_pos hlt,if_pos hlt,hzero]
          refine ⟨by rw [max_eq_right hpos.le],fun _ => ?_⟩
          split_ifs
          · exact le_max_left _ _
          · exact le_rfl
        · rw [if_neg hlt,if_neg hlt]
          split_ifs with hwin
          · have hdominates : stamp.dominates (rs.columnStamp col) = true := by
              simpa [Wins,hlt] using hwin.2
            rw [max_eq_right (Stamp.dominates_iff.mp hdominates).le]
            exact ⟨rfl,fun hb => hb.trans (Stamp.dominates_iff.mp hdominates).le⟩
          · exact ⟨rfl,id⟩

end Values

section Register

variable {tab : Table} {ws : List (Stamp × Record)} {k : RowKey} {row : Option Row} {rs : RowState}
  {stamp : Stamp} {r : Record}

theorem cellWrites_concat (tab : Table) (k : RowKey) (cl : ℕ) (col : ColumnID)
    (ws : List (Stamp × Record)) (stamp : Stamp) (r : Record) :
    cellWrites tab k cl col (ws++[(stamp,r)]) = cellWrites tab k cl col ws++
      if r.key = k ∧ r.cl = cl ∧ Carries r col then [(stamp,imageRow tab r.values col)] else [] := by
  by_cases h : r.key = k ∧ r.cl = cl ∧ Carries r col <;> simp [cellWrites,h]

theorem rowStamps_concat (k : RowKey) (cl : ℕ) (ws : List (Stamp × Record)) (stamp : Stamp)
    (r : Record) : rowStamps k cl (ws++[(stamp,r)]) = rowStamps k cl ws++
      if r.key = k ∧ r.cl = cl then [(stamp,())] else [] := by
  by_cases h : r.key = k ∧ r.cl = cl <;> simp [rowStamps,h]

variable {cl : ℕ} {col : ColumnID} {image : List ColValue}

theorem cellWrites_eq_nil (h : ∀ w ∈ ws,w.2.key = k → w.2.cl < cl) :
    cellWrites tab k cl col ws = [] := by
  rw [cellWrites,map_eq_nil_iff,filter_eq_nil_iff]
  intro w hw hc
  have hc : w.2.key = k ∧ w.2.cl = cl ∧ Carries w.2 col := by simpa using hc
  exact absurd hc.2.1 (h w hw hc.1).ne

theorem rowStamps_eq_nil (h : ∀ w ∈ ws,w.2.key = k → w.2.cl < cl) :
    rowStamps k cl ws = [] := by
  rw [rowStamps,map_eq_nil_iff,filter_eq_nil_iff]
  intro w hw hc
  have hc : w.2.key = k ∧ w.2.cl = cl := by simpa using hc
  exact absurd hc.2 (h w hw hc.1).ne

theorem HoldsCells.new (tab : Table) (k : RowKey) : HoldsCells tab [] k none default where
  top := by simp
  attained := .inl rfl
  dead _ := ⟨rfl,none,LWW.isLatest_nil,rfl⟩
  live h := by simp at h

theorem HoldsCells.other (h : HoldsCells tab ws k row rs) (hk : r.key ≠ k) :
    HoldsCells tab (ws++[(stamp,r)]) k row rs where
  top w hw hwk := by
    rcases mem_concat.mp hw with hw | rfl
    · exact h.top w hw hwk
    · exact absurd hwk hk
  attained := h.attained.imp_right fun ⟨w,hw,hrest⟩ => ⟨w,mem_append_left _ hw,hrest⟩
  dead hd := by
    simpa [rowStamps_concat,hk] using h.dead hd
  live hl := by
    simpa [HoldsCell,cellWrites_concat,hk] using h.live hl

theorem keep_of_le {V : Type} {vs : List (Stamp × V)} {s : Option (Stamp × V)} {v : V}
    (h : LWW.IsLatest vs s) (hpos : Stamp.zero < stamp) (hle : stamp ≤ latestStamp s) :
    LWW.IsLatest (vs++[(stamp,v)]) s := by
  cases s with
  | none => exact absurd hle (not_le.mpr hpos)
  | some w => exact h.keep hle

theorem take_of_lt {V : Type} {vs : List (Stamp × V)} {s : Option (Stamp × V)} {v : V}
    (h : LWW.IsLatest vs s) (hlt : latestStamp s < stamp) :
    LWW.IsLatest (vs++[(stamp,v)]) (some (stamp,v)) :=
  h.take fun w hw => by
    rw [hw] at hlt
    exact hlt.le

theorem HoldsCells.skip (h : HoldsCells tab ws r.key row rs) (hpos : Stamp.zero < stamp)
    (hle : toLex (r.cl,stamp) ≤ rs.version) : HoldsCells tab (ws++[(stamp,r)]) r.key row rs where
  top w hw hwk := by
    rcases mem_concat.mp hw with hw | rfl
    · exact h.top w hw hwk
    · rcases Prod.Lex.toLex_le_toLex.mp hle with h | h
      · exact h.le
      · exact h.1.le
  attained := h.attained.imp_right fun ⟨w,hw,hrest⟩ => ⟨w,mem_append_left _ hw,hrest⟩
  dead hd := by
    obtain ⟨hrow,s,hs,hrs⟩ := h.dead hd
    refine ⟨hrow,s,?_,hrs⟩
    rw [rowStamps_concat]
    split_ifs with hcl
    · refine keep_of_le hs hpos ?_
      have := Prod.Lex.toLex_le_toLex.mp hle
      rw [hrs] at this hcl
      simpa [hcl.2] using this
    · rwa [append_nil]
  live hl := by
    obtain ⟨x,hrow,hshape,hcells⟩ := h.live hl
    refine ⟨x,hrow,hshape,fun col hcol => ?_⟩
    obtain ⟨s,hs,hstamp,hbase,hval⟩ := hcells col hcol
    refine ⟨s,?_,hstamp,hbase,hval⟩
    rw [cellWrites_concat]
    split_ifs with hcl
    · refine keep_of_le hs hpos ?_
      have := Prod.Lex.toLex_le_toLex.mp hle
      rw [← hstamp]
      refine le_trans ?_ hbase
      simpa [hcl.2.1] using this
    · rwa [append_nil]

theorem HoldsCells.top_concat (h : HoldsCells tab ws r.key row rs) (hle : rs.cl ≤ r.cl) :
    ∀ w ∈ ws++[(stamp,r)],w.2.key = r.key → w.2.cl ≤ r.cl := by
  intro w hw hwk
  rcases mem_concat.mp hw with hw | rfl
  · exact (h.top w hw hwk).trans hle
  · rfl

theorem HoldsCells.delete (h : HoldsCells tab ws k row rs) (heven : cl%2 = 0)
    (hdom : rs.dominatedBy cl stamp = true) :
    HoldsCells tab (ws++[(stamp,.delete k cl)]) k none (.ofBase cl stamp) where
  top := HoldsCells.top_concat h (le_of_dominatedBy hdom)
  attained := .inr ⟨(stamp,.delete k cl),by simp,rfl,rfl⟩
  dead _ := by
    refine ⟨rfl,some (stamp,()),?_,rfl⟩
    rw [ofBase_cl,rowStamps_concat,if_pos ⟨rfl,rfl⟩]
    rcases (le_of_dominatedBy hdom).lt_or_eq with hlt | heq
    · rw [rowStamps_eq_nil fun w hw hwk => (h.top w hw hwk).trans_lt hlt]
      exact LWW.isLatest_nil.take (by simp)
    · obtain ⟨-,s,hs,hrs⟩ := h.dead (heq ▸ heven)
      have hbase : rs.base = latestStamp s := congrArg base hrs
      refine take_of_lt (heq ▸ hs) ?_
      have := Prod.Lex.toLex_lt_toLex.mp (dominatedBy_iff.mp hdom)
      simpa [heq,hbase] using this
  live hl := by
    have : cl%2 = 1 := hl
    omega

theorem HoldsCells.insert (h : HoldsCells tab ws k row rs)
    (hr : CellGroupRecord tab (.insert k cl image)) (hodd : cl%2 = 1) (hlt : rs.cl < cl) :
    HoldsCells tab (ws++[(stamp,.insert k cl image)]) k (some (imageRow tab image))
      (.ofBase cl stamp) where
  top := HoldsCells.top_concat h hlt.le
  attained := .inr ⟨(stamp,.insert k cl image),by simp,rfl,rfl⟩
  dead hd := by
    have : cl%2 = 0 := hd
    omega
  live _ := by
    refine ⟨_,rfl,imageRow_shape _ _,fun col hcol => ?_⟩
    have hcarries : Carries (.insert k cl image) col :=
      hr.2.2.2.2.1 col (isValueColumn_mem_nonPKColumns hcol)
    have hstamp : (ofBase cl stamp).columnStamp col = stamp := by
      rw [columnStamp_eq]
      rfl
    refine ⟨some (stamp,imageRow tab image col),?_,hstamp,hstamp.symm.le,?_⟩
    · rw [ofBase_cl,cellWrites_concat,if_pos ⟨rfl,rfl,hcarries⟩,
        cellWrites_eq_nil fun w hw hwk => (h.top w hw hwk).trans_lt hlt]
      exact LWW.isLatest_nil.take (by simp)
    · rintro w hw
      cases hw
      rfl

theorem writeCells_winners (hr : CellGroupRecord tab r) (row : Option Row)
    (hcol : tab.isValueColumn col = true) :
    writeCells tab row (winners tab rs stamp r) col =
      if Carries r col ∧ Wins rs r.cl stamp col = true then imageRow tab r.values col
      else row.getD (defaultRow tab) col := by
  have hplain : ∀ v ∈ winners tab rs stamp r,v.format ≠ .delta := fun v hv =>
    written_plain hr v (mem_filter.mp hv).1
  rw [writeCells,resolved_plain hplain]
  have hmem : col ∈ (imageCells tab (winners tab rs stamp r)).map Prod.fst ↔
      Carries r col ∧ Wins rs r.cl stamp col = true := by
    rw [mem_imageCells,mem_winners_iff hcol]
    simp [hcol]
  split_ifs with hw
  · rw [overlay_of_mem (hmem.mpr hw) _ (defaultRow tab)]
    change imageRow tab ((written tab r).filter fun v => Wins rs r.cl stamp v.column) col = _
    rw [imageRow_filter hw.2,imageRow_written hcol]
  · exact overlay_of_notMem (fun hin => hw (hmem.mp hin)) _

theorem HoldsCells.base_le (h : HoldsCells tab ws k row rs) (hcol : tab.isValueColumn col = true) :
    rs.base ≤ rs.columnStamp col := by
  rcases Nat.mod_two_eq_zero_or_one rs.cl with hd | hl
  · obtain ⟨-,s,-,hrs⟩ := h.dead hd
    rw [columnStamp_eq,hrs]
    exact le_rfl
  · obtain ⟨x,-,-,hcells⟩ := h.live hl
    obtain ⟨s,-,-,hb,-⟩ := hcells col hcol
    exact hb

theorem HoldsCells.shape (h : HoldsCells tab ws k row rs) :
    RowShape tab (row.getD (defaultRow tab)) := by
  rcases Nat.mod_two_eq_zero_or_one rs.cl with hd | hl
  · rw [(h.dead hd).1]
    exact defaultRow_shape tab
  · obtain ⟨x,hx,hshape,-⟩ := h.live hl
    rwa [hx]

theorem HoldsCells.cell_before (h : HoldsCells tab ws r.key row rs) (hodd : r.cl%2 = 1)
    (hle : rs.cl ≤ r.cl) (hcol : tab.isValueColumn col = true) :
    ∃ s,LWW.IsLatest (cellWrites tab r.key r.cl col ws) s ∧
      (if rs.cl < r.cl then Stamp.zero else rs.columnStamp col) = latestStamp s ∧
      ∀ w,s = some w → row.getD (defaultRow tab) col = w.2 := by
  by_cases hlt : rs.cl < r.cl
  · refine ⟨none,?_,by rw [if_pos hlt]; rfl,by simp⟩
    exact cellWrites_eq_nil fun w hw hwk => (h.top w hw hwk).trans_lt hlt
  · have hcl : rs.cl = r.cl := le_antisymm hle (not_lt.mp hlt)
    obtain ⟨x,hx,-,hcells⟩ := h.live (hcl ▸ hodd)
    obtain ⟨s,hs,hstamp,-,hval⟩ := hcells col hcol
    refine ⟨s,hcl ▸ hs,by rw [if_neg hlt,hstamp],fun w hw => ?_⟩
    rw [hx]
    exact hval w hw

theorem HoldsCells.row_after (stamp : Stamp) (hr : CellGroupRecord tab r)
    (h : HoldsCells tab ws r.key row rs) (hodd : r.cl%2 = 1) (hle : rs.cl ≤ r.cl)
    (hne : written tab r ≠ [] ∨ rs.cl = r.cl) :
    ∃ x,(if winners tab rs stamp r = [] then row
        else some (writeCells tab row (winners tab rs stamp r))) = some x ∧ RowShape tab x ∧
      ∀ col,tab.isValueColumn col = true → x col =
        if Carries r col ∧ Wins rs r.cl stamp col = true then imageRow tab r.values col
        else row.getD (defaultRow tab) col := by
  by_cases hnil : winners tab rs stamp r = []
  · have hcl : rs.cl = r.cl := by
      by_contra hcl
      have hlt : rs.cl < r.cl := lt_of_le_of_ne hle hcl
      have hall : winners tab rs stamp r = written tab r :=
        filter_eq_self.mpr fun v _ => by simp [Wins,hlt]
      exact hne.elim (fun hw => hw (hall ▸ hnil)) hcl
    obtain ⟨x,hx,hshape,-⟩ := h.live (hcl ▸ hodd)
    refine ⟨x,by rw [if_pos hnil,hx],hshape,fun col hcol => ?_⟩
    rw [if_neg,hx]
    · rfl
    · rw [← mem_winners_iff hcol,hnil]
      simp
  · refine ⟨_,if_neg hnil,h.shape.overlay _,fun col hcol => writeCells_winners hr row hcol⟩

theorem HoldsCells.cells (htab : CellGroupTable tab) (hr : CellGroupRecord tab r)
    (h : HoldsCells tab ws r.key row rs) (hpos : Stamp.zero < stamp) (hodd : r.cl%2 = 1)
    (hcell : asCellUpdate tab r rs = some (written tab r)) (hne : written tab r ≠ [] ∨ rs.cl = r.cl)
    (hdom : rs.dominatedBy r.cl stamp = true) :
    HoldsCells tab (ws++[(stamp,r)]) r.key
      (if winners tab rs stamp r = [] then row
        else some (writeCells tab row (winners tab rs stamp r)))
      (rs.absorb tab stamp r) := by
  obtain ⟨hcl,hstamps⟩ := absorb_cells htab hr hpos hcell hdom
  obtain ⟨x,hx,hshape,hvals⟩ := h.row_after stamp hr hodd (le_of_dominatedBy hdom) hne
  refine ⟨?_,.inr ⟨(stamp,r),by simp,rfl,hcl.symm⟩,fun hd => ?_,fun _ => ⟨x,hx,hshape,?_⟩⟩
  · rw [hcl]
    exact h.top_concat (le_of_dominatedBy hdom)
  · rw [hcl] at hd
    omega
  · intro col hcol
    obtain ⟨hstamp,hbase⟩ := hstamps col hcol
    have hbase := hbase (h.base_le hcol)
    have hval := hvals col hcol
    obtain ⟨s,hs,hprev,hold⟩ := h.cell_before hodd (le_of_dominatedBy hdom) hcol
    unfold HoldsCell
    rw [hcl,cellWrites_concat]
    by_cases hc : Carries r col
    · rw [if_pos ⟨rfl,rfl,hc⟩]
      by_cases hw : Wins rs r.cl stamp col = true
      · rw [if_pos ⟨hc,hw⟩] at hstamp hval
        refine ⟨some (stamp,imageRow tab r.values col),take_of_lt hs ?_,hstamp,hbase,?_⟩
        · rw [← hprev]
          split_ifs with hlt
          · exact hpos
          · exact Stamp.dominates_iff.mp (by simpa [Wins,hlt] using hw)
        · rintro w hw
          cases hw
          exact hval
      · have hlose : ¬(Carries r col ∧ Wins rs r.cl stamp col = true) := fun h => hw h.2
        rw [if_neg hlose] at hstamp hval
        refine ⟨s,keep_of_le hs hpos ?_,hstamp.trans hprev,hbase,fun w hsw => hval.trans (hold w hsw)⟩
        have hw' : ¬rs.cl < r.cl ∧ stamp.dominates (rs.columnStamp col) = false := by
          simpa [Wins] using hw
        rw [← hprev,if_neg hw'.1]
        exact Stamp.not_dominates_iff.mp hw'.2
    · have hlose : ¬(Carries r col ∧ Wins rs r.cl stamp col = true) := fun h => hc h.1
      rw [if_neg hlose] at hstamp hval
      rw [if_neg fun h => hc h.2.2,append_nil]
      exact ⟨s,hs,hstamp.trans hprev,hbase,fun w hsw => hval.trans (hold w hsw)⟩

theorem written_ne_nil_of_update (hr : CellGroupRecord tab r) (hupd : r.isUpdate = true) :
    written tab r ≠ [] := by
  cases r with
  | update k cl changed =>
    have hall : written tab (.update k cl changed) = changed :=
      filter_eq_self.mpr hr.2.2.2.2.2
    rw [hall]
    exact hr.2.2.2.2.1
  | _ => simp [Record.isUpdate] at hupd

theorem asCellUpdate_insert (htab : CellGroupTable tab)
    (hr : CellGroupRecord tab (.insert k cl image)) (hodd : cl%2 = 1) (hcl : rs.cl = cl) :
    asCellUpdate tab (.insert k cl image) rs = some (written tab (.insert k cl image)) := by
  have hlive : rs.isLive = true := isLive_iff.mpr (hcl ▸ hodd)
  have hsome : (asCellUpdate tab (.insert k cl image) rs).isSome = true := by
    simp [asCellUpdate,hlive,hcl]
  obtain ⟨changed,hchanged⟩ := Option.isSome_iff_exists.mp hsome
  rw [hchanged,asCellUpdate_eq htab hr hchanged]

theorem not_cellGate (hr : CellGroupRecord tab r) (hdom : rs.dominatedBy r.cl stamp = false) :
    r.cl < rs.cl ∨ (¬cellUpdateHasCounter (written tab r) ∧ ¬rs.dominatedBy r.cl stamp) :=
  .inr ⟨by simp [cellUpdateHasCounter_plain (written_plain hr)],by simp [hdom]⟩

section

variable (htab : CellGroupTable tab)
  (hr : CellGroupRecord tab r)
  (hdom : rs.dominatedBy r.cl stamp = false)
include htab hr hdom

theorem rowEffect_of_not_dominatedBy : rowEffect tab rs stamp row r = row := by
  unfold rowEffect
  cases hcell : asCellUpdate tab r rs with
  | none => simp [hdom]
  | some changed =>
    obtain rfl := asCellUpdate_eq htab hr hcell
    exact if_pos (not_cellGate hr hdom)

theorem absorb_of_not_dominatedBy : rs.absorb tab stamp r = rs := by
  have hnone : clockEffect tab rs stamp r = ([],[]) := by
    unfold clockEffect
    rw [htab.cellGroup]
    cases r.isBlobPatch with
    | true => rfl
    | false =>
      cases hcell : asCellUpdate tab r rs with
      | none => simp [gatedClocks,hdom]
      | some changed =>
        obtain rfl := asCellUpdate_eq htab hr hcell
        exact if_pos (not_cellGate hr hdom)
  rw [absorb,hnone]
  rfl

end

theorem rowEffect_cells (hr : CellGroupRecord tab r)
    (hcell : asCellUpdate tab r rs = some (written tab r))
    (hdom : rs.dominatedBy r.cl stamp = true) :
    rowEffect tab rs stamp row r = if winners tab rs stamp r = [] then row
      else some (writeCells tab row (winners tab rs stamp r)) := by
  have hgate := (cellGate_plain (written_plain hr)).mpr hdom
  rw [rowEffect,hcell]
  simp only
  rw [if_neg hgate,cellWinners_written hr]

variable (htab : CellGroupTable tab)
include htab

theorem HoldsCells.absorb (hr : CellGroupRecord tab r) (hpar : r.ParityOK)
    (hpos : Stamp.zero < stamp) (h : HoldsCells tab ws r.key row rs) :
    HoldsCells tab (ws++[(stamp,r)]) r.key (rowEffect tab rs stamp row r)
      (rs.absorb tab stamp r) := by
  cases hdom : rs.dominatedBy r.cl stamp with
  | false =>
    rw [rowEffect_of_not_dominatedBy htab hr hdom,absorb_of_not_dominatedBy htab hr hdom]
    exact h.skip hpos (not_dominatedBy_iff.mp hdom)
  | true =>
    have hland : r.isUpdate = false → r.isBlobPatch = false →
        asCellUpdate tab r rs = none → (rs.cells = ∅ ∨ rs.cl < r.cl) →
        rowEffect tab rs stamp row r = content tab r ∧
          rs.absorb tab stamp r = .ofBase r.cl stamp := by
      intro hupd hpatch hnone hcells
      refine ⟨by simp [rowEffect,hnone,hdom],?_⟩
      rw [RowState.absorb,clockEffect,hpatch,hnone,ite_self]
      simp only [Bool.false_eq_true,if_false,gatedClocks,hdom,not_true_eq_false,foldl_cons,
        foldl_nil,putUpdate]
      exact put_ofBase hdom (.inr hcells)
    have hle := le_of_dominatedBy hdom
    cases r with
    | insert k cl image =>
      have hodd : cl%2 = 1 := hpar
      rcases hle.lt_or_eq with hlt | heq
      · obtain ⟨hrow,hclock⟩ := hland rfl rfl (asCellUpdate_of_lt hlt rfl) (.inr hlt)
        rw [hrow,hclock]
        exact h.insert hr hodd hlt
      · have hcell := asCellUpdate_insert htab hr hodd heq
        rw [rowEffect_cells hr hcell hdom]
        exact h.cells htab hr hpos hodd hcell (.inr heq) hdom
    | update k cl changed =>
      have hodd : cl%2 = 1 := hpar
      have hcell : asCellUpdate tab (.update k cl changed) rs =
          some (written tab (.update k cl changed)) := by
        have hcell : asCellUpdate tab (.update k cl changed) rs = some changed := rfl
        rw [hcell,← asCellUpdate_eq htab hr hcell]
      rw [rowEffect_cells hr hcell hdom]
      exact h.cells htab hr hpos hodd hcell (.inl (written_ne_nil_of_update hr rfl)) hdom
    | delete k cl =>
      have heven : cl%2 = 0 := hpar
      have hcells : rs.cells = ∅ ∨ rs.cl < cl := by
        rcases hle.lt_or_eq with hlt | heq
        · exact .inr hlt
        · obtain ⟨-,s,-,hrs⟩ := h.dead (heq ▸ heven)
          exact .inl (congrArg RowState.cells hrs)
      obtain ⟨hrow,hclock⟩ := hland rfl rfl rfl hcells
      rw [hrow,hclock]
      exact h.delete heven hdom
    | blobPatch k cl col ranges => exact absurd hr.2.2.2.2 id

theorem fullImage_insert (hr : CellGroupRecord tab (.insert k cl image)) :
    FullImage tab image where
  binds := hr.2.2.1
  covers := hr.2.2.2.2.1
  admitted := htab.notNullOK _
  plain := hr.2.2.2.1

theorem cellsFit_winners (hr : CellGroupRecord tab r) (row : Option Row) :
    CellsFit tab r.key row (cellWinners rs r.cl stamp (written tab r)) := by
  rw [cellWinners_written hr]
  have hplain : ∀ v ∈ winners tab rs stamp r,v.format ≠ .delta := fun v hv =>
    written_plain hr v (mem_filter.mp hv).1
  refine ⟨hr.2.1,fun v hv => ?_,?_,fun x _ v hv => ?_,htab.notNullOK _⟩
  · exact (mem_filter.mp (mem_filter.mp hv).1).2
  · intro v hv
    rw [resolved_plain hplain] at hv
    exact hr.2.2.1 v (mem_filter.mp (mem_filter.mp hv).1).1
  · rw [resolveDelta,if_pos (.inl (hplain v hv)),resolve,if_pos (hplain v hv)]

theorem HoldsCells.fits (hr : CellGroupRecord tab r) {rows : Rows}
    (h : HoldsCells tab ws r.key (rows.lookup r.key) rs) (rs' : RowState) :
    RecordFits tab rs' stamp rows r where
  notPatch := by
    cases r with
    | blobPatch k cl col ranges => exact absurd hr.2.2.2.2 id
    | _ => rfl
  cell := by
    intro changed hcell _
    obtain rfl := asCellUpdate_eq htab hr hcell
    refine ⟨?_,?_,?_⟩
    · refine ExceptFold.forM_ok fun v hv => ?_
      have hcnt := htab.isCounterColumn v.column
      unfold validateCellCounterValue
      unfold Table.isCounterColumn at hcnt
      cases hcol : tab.columnByID v.column with
      | none => rfl
      | some col =>
        have hcnt : col.counter = false := by simpa [hcol] using hcnt
        simp [written_plain hr v hv,hcnt]
    · cases r with
      | update k cl changed => exact .inl (written_ne_nil_of_update hr rfl)
      | insert k cl image =>
        right
        simp only [asCellUpdate] at hcell
        split_ifs at hcell with hgen
        have : cl = rs'.cl := not_not.mp (not_or.mp hgen).2
        simp [this]
      | _ => simp [asCellUpdate] at hcell
    · exact cellsFit_winners htab hr _
  row := by
    intro hnone hdom
    refine ⟨?_,?_,?_⟩
    · cases r <;> simp [validateRecord,validateInsertCounterImage,htab.noCounters]
    · cases r <;> simp [mergeExisting,htab.noCounters]
    · cases r with
      | insert k cl image =>
        have hrow : ∀ x,rows.lookup k = some x → RowShape tab x := fun x hx => by
          have := h.shape
          rwa [Record.key_insert,hx] at this
        simpa [rowStatement,setRow,content] using
          applyInsert_full htab.noKeys hr.2.1 (fullImage_insert htab hr) hrow
      | update k cl changed => simp [asCellUpdate] at hnone
      | delete k cl =>
        have hpk : bindPK k = .ok () := hr.2.1
        simp [rowStatement,setRow,content,applyDelete,hpk,bind,Except.bind,pure,Except.pure]
      | blobPatch k cl col ranges => exact absurd hr.2.2.2.2 id

end Register

/-- The workload's records belong to the table; an update follows no other record of its row in
its changeset, and an insert of its generation in the workload. -/
structure CellGroupWorkload (tab : Table) (S : Finset Changeset) : Prop extends Workload S where
  records : ∀ cs ∈ S,∀ r ∈ cs.records,CellGroupRecord tab r
  updatesFirst : ∀ cs ∈ S,cs.records.Pairwise fun r r' => r.key = r'.key → r'.isUpdate = false
  insertBefore : InsertBefore S

/-- A node's data after the changesets of the list: every row holds its latest cells. -/
def CellGroupData (tab : Table) : DataPred := fun applied rows clock blob =>
  blob = ∅ ∧ ∀ k,HoldsCells tab (writes applied) k (rows.lookup k) (clock k)

section Convergence

variable {cfg : Config} {me : Origin} {tab : Table} {S : Finset Changeset}
  {applied : List Changeset} {cs : Changeset}

section

variable (htab : CellGroupTable tab)
  (hS : CellGroupWorkload tab S)
  (hcat : cfg.catalog.tableByID tab.id = some tab)
include htab hS hcat

theorem CellGroupWorkload.noCounters (hcs : cs ∈ S) :
    counterBearing cfg.catalog cs.records = false := by
  rw [counterBearing,any_eq_false]
  intro r hr
  have hrec := hS.records cs hcs r hr
  rw [hrec.1,hcat]
  cases r with
  | insert k cl image => simp [recordCounterContribution,htab.noCounters]
  | update k cl changed => simpa [recordCounterContribution] using hrec.2.2.2.1
  | delete k cl => simp [recordCounterContribution]
  | blobPatch k cl col ranges => exact absurd hrec.2.2.2.2 id

/-- No changeset of the workload fails, and each keeps every row at its latest cells. -/
theorem applyData_cellGroup (hcs : cs ∈ S) {d : Data}
    (hdata : CellGroupData tab applied d.rows d.cache.rowState d.blob) :
    ∃ d',applyData cfg.catalog d cs.stamp cs.records = .ok d' ∧
      CellGroupData tab (applied++[cs]) d'.rows d'.cache.rowState d'.blob := by
  obtain ⟨hblob,hcells⟩ := hdata
  have hwf := hS.wellFormed cs hcs
  have hrule : ∀ pre r post,cs.records = pre++r::post → RowRule tab d.cache cs.stamp d.rows
      (writes applied++pre.map fun r => (cs.stamp,r)) r (HoldsCells tab) := by
    intro pre r post hsplit
    have hr : r ∈ cs.records := by simp [hsplit]
    have hrec := hS.records cs hcs r hr
    exact ⟨fun k row rs hk h => h.other hk,fun rows rs rs' h _ _ => h.fits htab hrec rs',
      fun row rs h _ => h.absorb htab hrec (hwf.parity r hr) hwf.stamp_pos⟩
  exact applyData_cell htab.toCellTable (fun r hr => by rw [(hS.records cs hcs r hr).1,hcat]) hrule hwf
    (hS.updatesFirst cs hcs) hblob hcells

theorem cellGroupData_invariant :
    DataInvariant cfg S (CellGroupData tab) where
  init := ⟨rfl,fun k => .new tab k⟩
  step := by
    rintro applied d cs d' - hcs - hdata hd'
    obtain ⟨d'',hok,hdata'⟩ := applyData_cellGroup htab hS hcat hcs hdata
    cases hok.symm.trans hd'
    exact hdata'

theorem delivered_cellGroup {events : List Event} (h : Delivers cfg me S events) :
    (run cfg (Node.new me) events).quarantine = [] ∧
      ∃ applied : List Changeset,(∀ cs,cs ∈ applied ↔ cs ∈ S) ∧
        ∀ k,HoldsCells tab (writes applied) k ((run cfg (Node.new me) events).rows.lookup k)
          ((run cfg (Node.new me) events).cache.rowState k) := by
  have hR : RemoteTo cfg me S :=
    ⟨h.origin_ne,h.schema,fun cs hcs => hS.noCounters htab hcat hcs⟩
  obtain ⟨applied,hreach,hq,hdel⟩ := run_total hS.toWorkload hR (cellGroupData_invariant htab hS hcat)
    (fun applied d cs hcs hdata => (applyData_cellGroup htab hS hcat hcs hdata).imp fun _ => And.left)
    h.eventsFrom
  exact ⟨hq,applied,fun cs => ⟨hreach.mem_applied cs,fun hcs => hdel cs (h.all cs hcs)⟩,
    hreach.data.2⟩

end

/-- The greatest-stamped write of a column in one generation of a row. -/
def CellWinner (S : Finset Changeset) (k : RowKey) (cl : ℕ) (col : ColumnID) (cs : Changeset)
    (r : Record) : Prop :=
  (cs ∈ S ∧ r ∈ cs.records ∧ r.key = k ∧ r.cl = cl ∧ Carries r col) ∧
    ∀ cs' ∈ S,∀ r' ∈ cs'.records,r'.key = k → r'.cl = cl → Carries r' col → cs'.stamp ≤ cs.stamp

variable {applied' : List Changeset} {cl : ℕ} {col : ColumnID}

theorem mem_cellWrites {k : RowKey} {w : Stamp × SqlValue} :
    w ∈ cellWrites tab k cl col (writes applied) ↔ ∃ cs ∈ applied,∃ r ∈ cs.records,
      (r.key = k ∧ r.cl = cl ∧ Carries r col) ∧ (cs.stamp,imageRow tab r.values col) = w :=
  mem_filter_map_writes

theorem mem_rowStamps {k : RowKey} {w : Stamp × Unit} :
    w ∈ rowStamps k cl (writes applied) ↔ ∃ cs ∈ applied,∃ r ∈ cs.records,
      (r.key = k ∧ r.cl = cl) ∧ cs.stamp = w.1 :=
  mem_filter_map_writes.trans (by simp [Prod.ext_iff])

theorem exists_cellWrite (hS : CellGroupWorkload tab S) {k : RowKey} (hodd : cl%2 = 1)
    (hcol : tab.isValueColumn col = true) (h : ∃ cs ∈ S,∃ r ∈ cs.records,r.key = k ∧ r.cl = cl) :
    ∃ cs ∈ S,∃ r ∈ cs.records,r.key = k ∧ r.cl = cl ∧ Carries r col := by
  have hinsert : ∀ cs ∈ S,∀ image,Record.insert k cl image ∈ cs.records →
      ∃ cs ∈ S,∃ r ∈ cs.records,r.key = k ∧ r.cl = cl ∧ Carries r col := by
    intro cs hcs image hr
    exact ⟨cs,hcs,_,hr,rfl,rfl,
      (hS.records cs hcs _ hr).2.2.2.2.1 col (isValueColumn_mem_nonPKColumns hcol)⟩
  obtain ⟨cs,hcs,r,hr,rfl,rfl⟩ := h
  cases r with
  | insert k cl image => exact hinsert cs hcs image hr
  | update k cl changed =>
    obtain ⟨cs',hcs',-,image,hin⟩ := hS.insertBefore cs hcs k cl changed hr
    exact hinsert cs' hcs' image hin
  | delete k cl =>
    have : cl%2 = 0 := (hS.wellFormed cs hcs).parity _ hr
    rw [Record.cl_delete] at hodd
    omega
  | blobPatch k cl col ranges => exact absurd (hS.records cs hcs _ hr).2.2.2.2 id

theorem HoldsCells.cl_le {k : RowKey} {row row' : Option Row} {rs rs' : RowState}
    (hsub : ∀ cs ∈ applied,cs ∈ applied') (h : HoldsCells tab (writes applied) k row rs)
    (h' : HoldsCells tab (writes applied') k row' rs') : rs.cl ≤ rs'.cl := by
  rcases h.attained with hz | ⟨w,hw,hk,hcl⟩
  · omega
  · obtain ⟨cs,hcs,hs,hr⟩ := mem_writes.mp hw
    rw [← hcl]
    exact h'.top w (mem_writes.mpr ⟨cs,hsub cs hcs,hs,hr⟩) hk

/-- A column of a replica that has seen the workload: its winner's value and stamp. -/
theorem HoldsCells.winner (hS : CellGroupWorkload tab S) (hmem : ∀ cs,cs ∈ applied ↔ cs ∈ S)
    {k : RowKey} {row : Option Row} {rs : RowState} (h : HoldsCells tab (writes applied) k row rs)
    (hodd : rs.cl%2 = 1) (hcol : tab.isValueColumn col = true) :
    ∃ cs r x,CellWinner S k rs.cl col cs r ∧ row = some x ∧ x col = imageRow tab r.values col ∧
      rs.columnStamp col = cs.stamp := by
  obtain ⟨x,hx,-,hcells⟩ := h.live hodd
  obtain ⟨s,hs,hstamp,-,hval⟩ := hcells col hcol
  have hgen : ∃ cs ∈ S,∃ r ∈ cs.records,r.key = k ∧ r.cl = rs.cl := by
    rcases h.attained with hz | ⟨w,hw,hk,hcl⟩
    · omega
    · obtain ⟨cs,hcs,-,hr⟩ := mem_writes.mp hw
      exact ⟨cs,(hmem cs).mp hcs,w.2,hr,hk,hcl⟩
  obtain ⟨cs₀,hcs₀,r₀,hr₀,hwrite⟩ := exists_cellWrite hS hodd hcol hgen
  have hin : (cs₀.stamp,imageRow tab r₀.values col) ∈
      cellWrites tab k rs.cl col (writes applied) :=
    mem_cellWrites.mpr ⟨cs₀,(hmem cs₀).mpr hcs₀,r₀,hr₀,hwrite,rfl⟩
  cases s with
  | none =>
    rw [hs] at hin
    simp at hin
  | some w =>
    obtain ⟨cs,hcs,r,hr,⟨hk,hcl,hc⟩,rfl⟩ := mem_cellWrites.mp hs.1
    refine ⟨cs,r,x,⟨⟨(hmem cs).mp hcs,hr,hk,hcl,hc⟩,fun cs' hcs' r' hr' hk' hcl' hc' => ?_⟩,hx,
      hval _ rfl,hstamp⟩
    exact hs.2 _ (mem_cellWrites.mpr ⟨cs',(hmem cs').mpr hcs',r',hr',⟨hk',hcl',hc'⟩,rfl⟩)

theorem CellWinner.unique (hS : CellGroupWorkload tab S) {k : RowKey} {cs cs' : Changeset}
    {r r' : Record} (h : CellWinner S k cl col cs r) (h' : CellWinner S k cl col cs' r') :
    cs = cs' ∧ r = r' := by
  obtain ⟨⟨hcs,hr,hk,hcl,hc⟩,hmax⟩ := h
  obtain ⟨⟨hcs',hr',hk',hcl',hc'⟩,hmax'⟩ := h'
  have hstamp := le_antisymm (hmax' cs hcs r hr hk hcl hc) (hmax cs' hcs' r' hr' hk' hcl' hc')
  exact ⟨hS.stamp_inj cs hcs cs' hcs' hstamp,hS.toWorkload.record_unique hcs hcs' hr hr'
    (hk.trans hk'.symm) (hcl.trans hcl'.symm) hstamp⟩

/-- Two replicas that have seen the workload hold the same row under the same stamps. -/
theorem HoldsCells.agree (hS : CellGroupWorkload tab S) (hmem : ∀ cs,cs ∈ applied ↔ cs ∈ S)
    (hmem' : ∀ cs,cs ∈ applied' ↔ cs ∈ S) {k : RowKey} {row row' : Option Row}
    {rs rs' : RowState} (h : HoldsCells tab (writes applied) k row rs)
    (h' : HoldsCells tab (writes applied') k row' rs') :
    row = row' ∧ rs.cl = rs'.cl ∧
      ∀ col,tab.isValueColumn col = true → rs.columnStamp col = rs'.columnStamp col := by
  have hcl : rs.cl = rs'.cl :=
    le_antisymm (h.cl_le (fun cs hcs => (hmem' cs).mpr ((hmem cs).mp hcs)) h')
      (h'.cl_le (fun cs hcs => (hmem cs).mpr ((hmem' cs).mp hcs)) h)
  rcases Nat.mod_two_eq_zero_or_one rs.cl with hd | hl
  · obtain ⟨hrow,s,hs,hrs⟩ := h.dead hd
    obtain ⟨hrow',s',hs',hrs'⟩ := h'.dead (hcl ▸ hd)
    have hsame : s = s' := by
      refine LWW.IsLatest.unique (fun a _ b _ hab => Prod.ext hab rfl) (fun w => ?_) hs hs'
      rw [mem_rowStamps,mem_rowStamps,hcl]
      exact exists_congr fun cs => and_congr_left fun _ => (hmem cs).trans (hmem' cs).symm
    have hclock : rs = rs' := by
      rw [hrs,hrs',hcl,hsame]
    exact ⟨hrow.trans hrow'.symm,hcl,fun col _ => by rw [hclock]⟩
  · obtain ⟨x,hx,hshape,-⟩ := h.live hl
    obtain ⟨x',hx',hshape',-⟩ := h'.live (hcl ▸ hl)
    have hcell : ∀ col,tab.isValueColumn col = true →
        x col = x' col ∧ rs.columnStamp col = rs'.columnStamp col := by
      intro col hcol
      obtain ⟨cs,r,y,hwin,hy,hval,hstamp⟩ := h.winner hS hmem hl hcol
      obtain ⟨cs',r',y',hwin',hy',hval',hstamp'⟩ := h'.winner hS hmem' (hcl ▸ hl) hcol
      obtain ⟨rfl,rfl⟩ := hwin.unique hS (hcl ▸ hwin')
      cases hx.symm.trans hy
      cases hx'.symm.trans hy'
      exact ⟨hval.trans hval'.symm,hstamp.trans hstamp'.symm⟩
    have hxx : x = x' := by
      funext col
      cases hcol : tab.isValueColumn col with
      | true => exact (hcell col hcol).1
      | false => rw [hshape col hcol,hshape' col hcol]
    exact ⟨by rw [hx,hx',hxx],hcl,fun col hcol => (hcell col hcol).2⟩

end Convergence

namespace CellGroupSample

def table : Table where
  id := 1
  columns := [⟨1,1,false,true,false,.null,.binary⟩,⟨2,0,false,false,false,.null,.binary⟩,
    ⟨3,0,false,false,false,.null,.binary⟩]
  uniqueKeys := []
  cellGroup := true
  dropped := false

def config : Config where
  catalog := ⟨fun id => if id = 1 then some table else none⟩
  schemaSeq := 0
  quarantineCap := 1

def key : RowKey := ⟨1,replicate 15 0++[1,3,1,97]⟩
def inserted : Changeset :=
  ⟨⟨7,1⟩,⟨⟨1,0⟩,7⟩,[.insert key 1 [⟨2,colText,.text,[98]⟩,⟨3,colText,.text,[98]⟩]],0⟩
def updated : Changeset := ⟨⟨8,1⟩,⟨⟨2,0⟩,8⟩,[.update key 1 [⟨2,colText,.text,[99]⟩]],0⟩

theorem workload : CellGroupWorkload table {inserted,updated} where
  wellFormed := by decide
  dot_inj := by decide
  stamp_inj := by decide
  records := by
    intro cs hcs r hr
    rcases Finset.mem_insert.mp hcs with rfl | hcs
    · rw [mem_singleton.mp hr]
      exact ⟨rfl,rfl,by simpa using ⟨⟨_,rfl⟩,⟨_,rfl⟩⟩,by decide,by decide,by decide⟩
    · rw [Finset.mem_singleton.mp hcs] at hr
      rw [mem_singleton.mp hr]
      exact ⟨rfl,rfl,by simpa using ⟨_,rfl⟩,by decide,by decide,by decide⟩
  updatesFirst := by decide
  insertBefore := by
    intro cs hcs k cl changed hr
    rcases Finset.mem_insert.mp hcs with rfl | hcs
    · simp [inserted] at hr
    · rw [Finset.mem_singleton.mp hcs] at hr ⊢
      obtain ⟨rfl,rfl,rfl⟩ : k = key ∧ cl = 1 ∧ changed = [⟨2,colText,.text,[99]⟩] := by
        simpa [updated] using hr
      exact ⟨inserted,by simp,by decide,_,mem_singleton.mpr rfl⟩

theorem delivers_inOrder :
    Delivers config 1 {inserted,updated} [.deliver inserted,.deliver updated] where
  origin_ne := by decide
  schema := by decide
  eventsFrom cs hcs := by simpa using hcs
  all cs hcs := by simpa using hcs

theorem delivers_updateFirst :
    Delivers config 2 {inserted,updated} [.deliver updated,.deliver inserted] where
  origin_ne := by decide
  schema := by decide
  eventsFrom cs hcs := by simpa [or_comm] using hcs
  all cs hcs := by simpa [or_comm] using hcs

/-- A transaction that deletes the row and inserts it again. -/
def reinserted : Changeset := ⟨⟨7,2⟩,⟨⟨2,0⟩,7⟩,
  [.delete key 2,.insert key 1 [⟨2,colText,.text,[100]⟩,⟨3,colText,.text,[100]⟩]],0⟩
def updatedLate : Changeset := ⟨⟨8,1⟩,⟨⟨3,0⟩,8⟩,
  [.update key 1 [⟨2,colText,.text,[99]⟩,⟨3,colText,.text,[99]⟩]],0⟩

end CellGroupSample

end Syzy
