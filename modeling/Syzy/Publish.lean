import Syzy.Apply

/-!
What a changeset does to the clock of one row. Publication writes all row clocks before all cell
clocks, from gates that were read before the transaction; for the changesets a producer makes the
result is that of absorbing the row's records one after another.
-/

namespace Syzy

open ExceptFold List RowState

namespace RowState

variable (rs : RowState) (col : ColumnID) (s : Stamp)

def put (rs st : RowState) (clearCells : Bool) : RowState :=
  if rs.dominatedBy st.cl st.base then
    if clearCells then { Cache.mergeState rs st with cells := ∅ } else Cache.mergeState rs st
  else rs

def putCell (stamp : Stamp) : RowState :=
  if stamp.dominates (rs.columnStamp col) then { rs with cells := rs.cells.insert col stamp } else rs

def putUpdate (u : RowClockUpdate) : RowState := rs.put u.state u.clearCells
def putCellUpdate (u : CellClockUpdate) : RowState := rs.putCell u.col u.stamp

@[simp] theorem putCell_cl : (rs.putCell col s).cl = rs.cl := by
  unfold putCell
  split_ifs <;> rfl

@[simp] theorem putCell_base : (rs.putCell col s).base = rs.base := by
  unfold putCell
  split_ifs <;> rfl

theorem columnStamp_putCell (c col : ColumnID) (s : Stamp) : (rs.putCell c s).columnStamp col =
      if col = c then max (rs.columnStamp col) s else rs.columnStamp col := by
  unfold putCell
  by_cases hc : col = c
  · subst hc
    by_cases hd : s.dominates (rs.columnStamp col) = true
    · rw [if_pos hd,if_pos rfl,max_eq_right (Stamp.dominates_iff.mp hd).le]
      simp [columnStamp_eq]
    · rw [if_neg hd,if_pos rfl,max_eq_left (not_lt.mp fun h => hd (Stamp.dominates_iff.mpr h))]
  · rw [if_neg hc]
    split_ifs
    · rw [columnStamp_eq,columnStamp_eq]
      simp [hc]
    · rfl

theorem put_ofBase {rs : RowState} {cl : ℕ} {base : Stamp} {clear : Bool}
    (hdom : rs.dominatedBy cl base = true) (h : clear = true ∨ rs.cells = ∅ ∨ rs.cl < cl) :
    rs.put (.ofBase cl base) clear = .ofBase cl base := by
  have hmerge : rs.cells = ∅ ∨ rs.cl < cl → Cache.mergeState rs (.ofBase cl base) = .ofBase cl base := by
    intro h
    unfold Cache.mergeState
    split_ifs with h₁ h₂
    · rfl
    · rcases h with h | h
      · rw [h]
        rfl
      · exact absurd h h₁
    · exact absurd rfl h₂
  have hclear : ({ Cache.mergeState rs (.ofBase cl base) with cells := ∅ } : RowState) =
      .ofBase cl base := by
    unfold Cache.mergeState
    split_ifs <;> rfl
  unfold put
  rw [ofBase_cl,ofBase_base,if_pos hdom]
  cases clear with
  | true => exact hclear
  | false => exact hmerge (by simpa using h)

theorem dominatedBy_of_lt {rs : RowState} {cl : ℕ} {stamp : Stamp} (h : rs.cl < cl) :
    rs.dominatedBy cl stamp = true :=
  dominatedBy_iff.mpr (Prod.Lex.toLex_lt_toLex.mpr (.inl h))

theorem put_ofBase_of_lt {rs : RowState} {cl : ℕ} (h : rs.cl < cl) (base : Stamp) (clear : Bool) :
    rs.put (.ofBase cl base) clear = .ofBase cl base :=
  put_ofBase (dominatedBy_of_lt h) (.inr (.inr h))

end RowState

namespace Cache

variable (c : Cache)

theorem rowState_clearCellsForRow (k k' : RowKey) : (c.clearCellsForRow k).rowState k' =
      if k' = k then { c.rowState k with cells := ∅ } else c.rowState k' :=
  FinMap.getD_insert ..

theorem rowState_publishRow (u : RowClockUpdate) (k : RowKey) : (c.publishRow u).rowState k =
      if u.key = k then (c.rowState k).putUpdate u else c.rowState k := by
  simp only [publishRow,putRowState_landed]
  by_cases hk : u.key = k
  · subst hk
    cases hd : (c.rowState u.key).dominatedBy u.state.cl u.state.base <;>
      cases hc : u.clearCells <;>
      simp [rowState_clearCellsForRow,rowState_putRowState,putUpdate,put,hd,hc]
  · have hk' : k ≠ u.key := fun e => hk e.symm
    rw [if_neg hk]
    split_ifs <;> simp [rowState_clearCellsForRow,rowState_putRowState,hk']

theorem rowState_publishCell (u : CellClockUpdate) (k : RowKey) : (c.publishCell u).rowState k =
      if u.key = k then (c.rowState k).putCellUpdate u else c.rowState k := by
  simp only [publishCell,putCellStamp,putCellUpdate,putCell]
  by_cases hk : u.key = k
  · subst hk
    rw [if_pos rfl]
    split_ifs
    · exact (FinMap.getD_insert ..).trans (if_pos rfl)
    · rfl
  · have hk' : k ≠ u.key := fun e => hk e.symm
    rw [if_neg hk]
    split_ifs
    · exact (FinMap.getD_insert ..).trans (if_neg hk')
    · rfl

theorem rowState_foldl_publishRow (us : List RowClockUpdate) (k : RowKey) (c : Cache) :
    (us.foldl publishRow c).rowState k =
      (us.filter fun u => u.key = k).foldl putUpdate (c.rowState k) := by
  induction us generalizing c with
  | nil => rfl
  | cons u us ih =>
    rw [foldl_cons,ih,rowState_publishRow]
    by_cases hk : u.key = k <;> simp [hk]

theorem rowState_foldl_publishCell (us : List CellClockUpdate) (k : RowKey) (c : Cache) :
    (us.foldl publishCell c).rowState k =
      (us.filter fun u => u.key = k).foldl putCellUpdate (c.rowState k) := by
  induction us generalizing c with
  | nil => rfl
  | cons u us ih =>
    rw [foldl_cons,ih,rowState_publishCell]
    by_cases hk : u.key = k <;> simp [hk]

/-- The clock of a row after a publication comes from its own updates only. -/
theorem rowState_publish (t : Txn) (k : RowKey) :
    (c.publish t).rowState k = (t.cellUpdates.filter fun u => u.key = k).foldl
      putCellUpdate ((t.updates.filter fun u => u.key = k).foldl putUpdate
        (c.rowState k)) := by
  rw [publish,rowState_foldl_publishCell,rowState_foldl_publishRow]

end Cache

/-- The clock writes of a gated record, columnwise or as a whole row. -/
def gatedClocks (tab : Table) (rs : RowState) (stamp : Stamp) (r : Record) :
    Option (List ColValue) → List RowClockUpdate × List CellClockUpdate
  | some changed =>
    if r.cl < rs.cl ∨ (¬cellUpdateHasCounter changed ∧ ¬rs.dominatedBy r.cl stamp) then ([],[])
    else if ¬rs.cl < r.cl ∧ cellWinners rs r.cl stamp changed = [] then ([],[])
    else cellClockUpdates tab r.key r.cl rs stamp (cellWinners rs r.cl stamp changed)
  | none =>
    if ¬rs.dominatedBy r.cl stamp then ([],[]) else ([⟨r.key,.ofBase r.cl stamp,false⟩],[])

/-- The clock writes of one record against the clock its gate reads; a patch writes none. -/
def clockEffect (tab : Table) (rs : RowState) (stamp : Stamp) (r : Record) :
    List RowClockUpdate × List CellClockUpdate :=
  if r.isBlobPatch then ([],[])
  else gatedClocks tab rs stamp r (if tab.cellGroup then asCellUpdate tab r rs else none)

def RowState.absorb (tab : Table) (stamp : Stamp) (rs : RowState) (r : Record) : RowState :=
  (clockEffect tab rs stamp r).2.foldl putCellUpdate
    ((clockEffect tab rs stamp r).1.foldl putUpdate rs)

section Effect

variable {tab : Table} {rs : RowState} {stamp : Stamp} {r : Record}

variable (us : List CellClockUpdate)

theorem cellClockUpdates_local {k : RowKey} {cl : ℕ} {winners : List ColValue} :
    (∀ u ∈ (cellClockUpdates tab k cl rs stamp winners).1,u.key = k) ∧
      ∀ u ∈ (cellClockUpdates tab k cl rs stamp winners).2,u.key = k ∧ u.stamp = stamp := by
  have hcells : ∀ u ∈ (winners.filter fun v => ¬tab.isCounterColumn v.column).map fun v =>
      (⟨k,v.column,stamp⟩ : CellClockUpdate),u.key = k ∧ u.stamp = stamp := by
    intro u hu
    obtain ⟨v,-,rfl⟩ := mem_map.mp hu
    exact ⟨rfl,rfl⟩
  unfold cellClockUpdates
  split_ifs
  · simp
  · exact ⟨by simp,hcells⟩
  · exact ⟨by simp,hcells⟩

theorem cellWinners_column {cl : ℕ} {changed : List ColValue} {v : ColValue} (hv : v ∈ cellWinners rs cl stamp changed) :
    ∃ w ∈ changed,w.column = v.column := by
  unfold cellWinners at hv
  split_ifs at hv
  · obtain ⟨w,hw,rfl⟩ := mem_map.mp hv
    refine ⟨w,hw,?_⟩
    split_ifs <;> rfl
  · exact ⟨v,(mem_filter.mp hv).1,rfl⟩

theorem gatedClocks_local (changed? : Option (List ColValue)) :
    (∀ u ∈ (gatedClocks tab rs stamp r changed?).1,u.key = r.key) ∧
      ∀ u ∈ (gatedClocks tab rs stamp r changed?).2,u.key = r.key ∧ u.stamp = stamp := by
  cases changed? with
  | none =>
    rw [gatedClocks]
    split_ifs <;> simp
  | some changed =>
    rw [gatedClocks]
    split_ifs
    · simp
    · simp
    · exact cellClockUpdates_local

theorem clockEffect_local (tab : Table) (rs : RowState) (stamp : Stamp) (r : Record) :
    (∀ u ∈ (clockEffect tab rs stamp r).1,u.key = r.key) ∧
      ∀ u ∈ (clockEffect tab rs stamp r).2,u.key = r.key ∧ u.stamp = stamp := by
  unfold clockEffect
  cases r.isBlobPatch with
  | true => simp
  | false => exact gatedClocks_local _

theorem put_cl (rs st : RowState) (clear : Bool) :
    (rs.put st clear).cl = if rs.dominatedBy st.cl st.base then st.cl else rs.cl := by
  unfold put Cache.mergeState
  split_ifs <;> rfl

theorem foldl_putCellUpdate_cl (rs : RowState) :
    (us.foldl putCellUpdate rs).cl = rs.cl := by
  induction us generalizing rs with
  | nil => rfl
  | cons u us ih =>
    rw [foldl_cons,ih]
    exact putCell_cl ..

theorem foldl_putCellUpdate_base (rs : RowState) :
    (us.foldl putCellUpdate rs).base = rs.base := by
  induction us generalizing rs with
  | nil => rfl
  | cons u us ih =>
    rw [foldl_cons,ih]
    exact putCell_base ..

theorem eq_of_not_dominatedBy {cl : ℕ} (hle : rs.cl ≤ cl) (h : ¬rs.dominatedBy cl stamp = true) :
    rs.cl = cl := by
  by_contra hne
  exact h (dominatedBy_of_lt (lt_of_le_of_ne hle hne))

theorem le_of_dominatedBy {cl : ℕ} (h : rs.dominatedBy cl stamp = true) : rs.cl ≤ cl := by
  rcases Prod.Lex.toLex_lt_toLex.mp (dominatedBy_iff.mp h) with h | h
  · exact h.le
  · exact h.1.le

theorem gatedClocks_cl {changed? : Option (List ColValue)}
    (h : gatedClocks tab rs stamp r changed? ≠ ([],[])) :
    rs.cl ≤ r.cl ∧
      ((gatedClocks tab rs stamp r changed?).1.foldl putUpdate rs).cl = r.cl := by
  cases changed? with
  | none =>
    rw [gatedClocks] at h ⊢
    split_ifs at h ⊢ with hdom
    · refine ⟨le_of_dominatedBy hdom,?_⟩
      simp [putUpdate,put_cl,hdom]
    · exact absurd rfl h
  | some changed =>
    rw [gatedClocks] at h ⊢
    split_ifs at h ⊢ with hskip hnone
    · exact absurd rfl h
    · exact absurd rfl h
    · have hle : rs.cl ≤ r.cl := not_lt.mp (not_or.mp hskip).1
      refine ⟨hle,?_⟩
      unfold cellClockUpdates
      split_ifs with hcov hlt
      · simp only [foldl_cons,foldl_nil,putUpdate,put_cl,ofBase_cl,
          ofBase_base]
        by_cases hdom : rs.dominatedBy r.cl stamp = true
        · exact if_pos hdom
        · exact (if_neg hdom).trans (eq_of_not_dominatedBy hle hdom)
      · simp [putUpdate,put_ofBase_of_lt hlt]
      · exact le_antisymm hle (not_lt.mp hlt)

theorem absorb_cl (h : clockEffect tab rs stamp r ≠ ([],[])) :
    rs.cl ≤ r.cl ∧ (rs.absorb tab stamp r).cl = r.cl := by
  rw [absorb,foldl_putCellUpdate_cl]
  unfold clockEffect at h ⊢
  cases hpatch : r.isBlobPatch with
  | true => exact absurd (by simp [hpatch]) h
  | false =>
    rw [hpatch] at h
    exact gatedClocks_cl h

section

variable (h : rs.cl < r.cl) (hupd : r.isUpdate = false)
include h hupd

theorem asCellUpdate_of_lt : asCellUpdate tab r rs = none := by
  cases r with
  | insert k cl image =>
    have hne : cl ≠ rs.cl := h.ne'
    simp [asCellUpdate,hne]
  | update k cl changed => simp [Record.isUpdate] at hupd
  | delete | blobPatch => rfl

theorem clockEffect_of_lt (hpatch : r.isBlobPatch = false) :
    clockEffect tab rs stamp r = ([⟨r.key,.ofBase r.cl stamp,false⟩],[]) := by
  have hrow : (if tab.cellGroup then asCellUpdate tab r rs else none) = none := by
    rw [asCellUpdate_of_lt h hupd,ite_self]
  rw [clockEffect,hrow,hpatch]
  simp [gatedClocks,dominatedBy_of_lt h]

theorem absorb_of_lt (hpatch : r.isBlobPatch = false) :
    rs.absorb tab stamp r = .ofBase r.cl stamp := by
  rw [absorb,clockEffect_of_lt h hupd hpatch]
  exact put_ofBase_of_lt h stamp false

end

theorem gatedClocks_of_lt (h : rs.cl < r.cl) (changed? : Option (List ColValue)) :
    gatedClocks tab rs stamp r changed? ≠ ([],[]) := by
  have hdom : rs.dominatedBy r.cl stamp = true := dominatedBy_of_lt h
  cases changed? with
  | none => simp [gatedClocks,hdom]
  | some changed =>
    rw [gatedClocks,if_neg (by simp [hdom,h.le]),if_neg fun hc => hc.1 h]
    unfold cellClockUpdates
    split_ifs <;> simp

theorem absorb_cl_eq_max (hpatch : r.isBlobPatch = false) :
    (rs.absorb tab stamp r).cl = max rs.cl r.cl := by
  by_cases heff : clockEffect tab rs stamp r = ([],[])
  · have hle : r.cl ≤ rs.cl := by
      by_contra hlt
      rw [clockEffect,hpatch] at heff
      exact gatedClocks_of_lt (not_le.mp hlt) _ heff
    rw [absorb,heff,max_eq_left hle]
    rfl
  · obtain ⟨hle,hcl⟩ := absorb_cl heff
    rw [hcl,max_eq_right hle]

theorem foldl_putCellUpdate_ofBase {us : List CellClockUpdate} (h : ∀ u ∈ us,u.stamp = stamp)
    (cl : ℕ) : us.foldl putCellUpdate (.ofBase cl stamp) = .ofBase cl stamp := by
  induction us with
  | nil => rfl
  | cons u us ih =>
    have hu : (ofBase cl stamp).putCellUpdate u = .ofBase cl stamp := by
      have hns : ¬stamp.dominates ((ofBase cl stamp).columnStamp u.col) = true := by
        rw [Stamp.dominates_iff,columnStamp_eq]
        simp
      rw [putCellUpdate,putCell,h u (by simp),if_neg hns]
    rw [foldl_cons,hu]
    exact ih fun u' hu' => h u' (by simp [hu'])

end Effect

section Transaction

variable {cat : Catalog} {tab : Table} {cache : Cache} {blob : BlobRangeClock} {stamp : Stamp}
  {t t' : Txn} {r : Record}

/-- The stamps of the owners that lost a key: of rows of the table, and none without a unique key. -/
def StolenIn (tab : Table) (us : List CellClockUpdate) : Prop :=
  (∀ u ∈ us,u.key.table = tab.id) ∧ (tab.uniqueKeys = [] → us = [])

theorem stolenIn_arbitrateKey {k : RowKey} {pkVals writes : List ColValue} {full : Bool}
    {a a' : Arbitration} {key : UniqueKey} (h : ∀ u ∈ a.stolen,u.key.table = tab.id)
    (hok : arbitrateKey cache tab k pkVals writes stamp full a key = .ok a') :
    ∀ u ∈ a'.stolen,u.key.table = tab.id := by
  simp only [arbitrateKey] at hok
  split_ifs at hok
  · cases hok
    exact h
  · cases hok
    exact h
  · obtain ⟨owner,howner,hok⟩ := bind_eq_ok.mp hok
    obtain ⟨vals,-,hvals⟩ := bind_eq_ok.mp howner
    cases owner with
    | none =>
      cases hok
      exact h
    | some q =>
      have hq : q.table = tab.id := by
        simp only [pure,Except.pure,Except.ok.injEq] at hvals
        split_ifs at hvals
        cases hvals
        rfl
      simp only at hok
      split_ifs at hok
      · cases hok
        exact h
      · obtain ⟨rows',-,hok⟩ := bind_eq_ok.mp hok
        cases hok
        intro u hu
        rcases mem_append.mp hu with hu | hu
        · exact h u hu
        · obtain ⟨c,-,rfl⟩ := mem_map.mp hu
          exact hq
      · cases hok
        exact h
  · cases hok
    exact h

theorem stolenIn_arbitrateWrites {rows : Rows} {k : RowKey} {writes : List ColValue} {full : Bool}
    {arb : List ColValue × List CellClockUpdate × Rows}
    (hok : arbitrateWrites cache tab rows k writes stamp full = .ok arb) : StolenIn tab arb.2.1 := by
  unfold arbitrateWrites at hok
  split_ifs at hok with hkeys
  · cases hok
    exact ⟨by simp,fun _ => rfl⟩
  · obtain ⟨pkVals,-,hok⟩ := bind_eq_ok.mp hok
    obtain ⟨a,ha,hok⟩ := bind_eq_ok.mp hok
    have hstolen : ∀ u ∈ a.stolen,u.key.table = tab.id :=
      foldlM_keeps (P := fun a => ∀ u ∈ a.stolen,u.key.table = tab.id)
        (fun _ _ _ h hok => stolenIn_arbitrateKey h hok) (by simp) ha
    split_ifs at hok <;> cases hok <;> exact ⟨hstolen,fun h => absurd h hkeys⟩

theorem applyCellUpdate_clocks {existing : BlobCols} {k : RowKey} {cl : ℕ} {changed : List ColValue}
    {rs : RowState} (hok : applyCellUpdate cache tab existing t k cl changed rs stamp = .ok t') :
    let e := if ¬rs.cl < cl ∧ cellWinners rs cl stamp changed = [] then ([],[])
      else cellClockUpdates tab k cl rs stamp (cellWinners rs cl stamp changed)
    ∃ stolen,StolenIn tab stolen ∧
      t'.updates = t.updates++e.1 ∧ t'.cellUpdates = t.cellUpdates++stolen++e.2 := by
  obtain ⟨-,-,hok⟩ := bind_eq_ok.mp hok
  split_ifs with hnone
  · rw [if_pos hnone] at hok
    cases hok
    exact ⟨[],⟨by simp,fun _ => rfl⟩,by simp,by simp⟩
  · rw [if_neg hnone] at hok
    obtain ⟨arb,harb,hok⟩ := bind_eq_ok.mp hok
    obtain ⟨dml,-,hok⟩ := bind_eq_ok.mp hok
    cases hok
    exact ⟨arb.2.1,stolenIn_arbitrateWrites harb,rfl,rfl⟩

theorem applyRowRecord_clocks {existing : BlobCols} {rs : RowState}
    (hok : applyRowRecord cache tab existing t r rs stamp = .ok t') :
    ∃ stolen,StolenIn tab stolen ∧ t'.updates = t.updates++[⟨r.key,.ofBase r.cl stamp,false⟩] ∧
      t'.cellUpdates = t.cellUpdates++stolen := by
  obtain ⟨-,-,hok⟩ := bind_eq_ok.mp hok
  obtain ⟨arb,harb,hok⟩ := bind_eq_ok.mp hok
  obtain ⟨dml,-,hok⟩ := bind_eq_ok.mp hok
  cases hok
  refine ⟨arb.2.1,?_,rfl,rfl⟩
  cases r with
  | insert | update =>
    obtain ⟨w,hw,harb⟩ := bind_eq_ok.mp harb
    cases harb
    exact stolenIn_arbitrateWrites hw
  | delete | blobPatch =>
    cases harb
    exact ⟨by simp,fun _ => rfl⟩

theorem applyRecord_clocks (hcat : cat.tableByID r.key.table = some tab)
    (hactive : tab.dropped = false) (hok : applyRecord cat cache blob stamp t r = .ok t') :
    ∃ stolen,StolenIn tab stolen ∧
      t'.updates = t.updates++(clockEffect tab (cache.rowState r.key) stamp r).1 ∧
      t'.cellUpdates = t.cellUpdates++stolen++
        (clockEffect tab (cache.rowState r.key) stamp r).2 := by
  have hnone : StolenIn tab [] := ⟨by simp,fun _ => rfl⟩
  unfold applyRecord at hok
  simp only [hcat,hactive,Bool.false_eq_true,if_false] at hok
  cases hpatch : r.isBlobPatch with
  | true =>
    refine ⟨[],hnone,?_⟩
    cases r with
    | blobPatch k cl col ranges =>
      simp only [applyPatchRecord] at hok
      split_ifs at hok
      · cases hok
        simp [clockEffect,hpatch]
      · obtain ⟨p,-,hok⟩ := bind_eq_ok.mp hok
        cases hok
        simp [clockEffect,hpatch]
    | _ => simp [Record.isBlobPatch] at hpatch
  | false =>
    have hok : applyGated cache tab (blob.getD r.key) t r (cache.rowState r.key) stamp =
        .ok t' := by
      cases r with
      | blobPatch k cl col ranges => simp [Record.isBlobPatch] at hpatch
      | _ => exact hok
    rw [clockEffect,hpatch]
    unfold applyGated at hok
    simp only [Bool.false_eq_true,if_false]
    generalize (if tab.cellGroup then asCellUpdate tab r (cache.rowState r.key) else none) = changed?
      at hok ⊢
    cases changed? with
    | none =>
      simp only [gatedClocks] at hok ⊢
      split_ifs at hok ⊢ with hdom
      · simpa using applyRowRecord_clocks hok
      · cases hok
        exact ⟨[],hnone,by simp,by simp⟩
    | some changed =>
      simp only [gatedClocks] at hok ⊢
      by_cases hskip : r.cl < (cache.rowState r.key).cl ∨
          ¬cellUpdateHasCounter changed = true ∧ ¬(cache.rowState r.key).dominatedBy r.cl stamp = true
      · rw [if_pos hskip] at hok ⊢
        cases hok
        exact ⟨[],hnone,by simp,by simp⟩
      · rw [if_neg hskip] at hok ⊢
        exact applyCellUpdate_clocks hok

/-- In a table without unique keys a record writes its own clocks only. -/
theorem applyRecord_keyless (hcat : cat.tableByID r.key.table = some tab)
    (hactive : tab.dropped = false) (hkeys : tab.uniqueKeys = [])
    (hok : applyRecord cat cache blob stamp t r = .ok t') :
    t'.updates = t.updates++(clockEffect tab (cache.rowState r.key) stamp r).1 ∧
      t'.cellUpdates = t.cellUpdates++(clockEffect tab (cache.rowState r.key) stamp r).2 := by
  obtain ⟨stolen,hstolen,hups,hcells⟩ := applyRecord_clocks hcat hactive hok
  rw [hstolen.2 hkeys,append_nil] at hcells
  exact ⟨hups,hcells⟩

theorem applyRecord_other {k : RowKey} (hk : r.key ≠ k)
    (hkeys : ∀ tab,cat.tableByID r.key.table = some tab → tab.uniqueKeys = [])
    (hok : applyRecord cat cache blob stamp t r = .ok t') :
    t'.updates.filter (fun u => u.key = k) = t.updates.filter (fun u => u.key = k) ∧
      t'.cellUpdates.filter (fun u => u.key = k) = t.cellUpdates.filter (fun u => u.key = k) := by
  cases hcat : cat.tableByID r.key.table with
  | none => simp [applyRecord,hcat] at hok
  | some tab =>
    cases hactive : tab.dropped with
    | true =>
      simp only [applyRecord,hcat,hactive,if_true] at hok
      cases hok
      exact ⟨rfl,rfl⟩
    | false =>
      obtain ⟨hups,hcells⟩ := applyRecord_keyless hcat hactive (hkeys tab hcat) hok
      obtain ⟨hl,hl'⟩ := clockEffect_local tab (cache.rowState r.key) stamp r
      have hnil : (clockEffect tab (cache.rowState r.key) stamp r).1.filter (fun u => u.key = k) =
          [] :=
        filter_eq_nil_iff.mpr fun u hu => by simpa [hl u hu] using hk
      have hnil' : (clockEffect tab (cache.rowState r.key) stamp r).2.filter (fun u => u.key = k) =
          [] :=
        filter_eq_nil_iff.mpr fun u hu => by simpa [(hl' u hu).1] using hk
      simp [hups,hcells,hnil,hnil']

/-- The transaction's clock updates of one row after the records `pre`. -/
structure PublishesAt (tab : Table) (cache : Cache) (stamp : Stamp) (k : RowKey)
    (pre : List Record) (t : Txn) : Prop where
  stamps : ∀ u ∈ t.cellUpdates.filter (fun u => u.key = k),u.stamp = stamp
  state : (cache.publish t).rowState k =
    (pre.filter fun r => r.key = k).foldl (absorb tab stamp) (cache.rowState k)
  touched : (t.updates.filter (fun u => u.key = k) = [] ∧
      t.cellUpdates.filter (fun u => u.key = k) = []) ∨
    (cache.rowState k).cl ≤ ((cache.publish t).rowState k).cl ∧
      ∃ r ∈ pre,r.key = k ∧ r.cl = ((cache.publish t).rowState k).cl

variable {pre : List Record} {k : RowKey}

theorem PublishesAt.begin (rows : Rows) (k : RowKey) :
    PublishesAt tab cache stamp k [] (.begin rows) where
  stamps := by simp [Txn.begin]
  state := by simp [Cache.publish,Txn.begin]
  touched := .inl (by simp [Txn.begin])

theorem PublishesAt.other (h : PublishesAt tab cache stamp k pre t) (hk : r.key ≠ k)
    (hkeys : ∀ tab,cat.tableByID r.key.table = some tab → tab.uniqueKeys = [])
    (hok : applyRecord cat cache blob stamp t r = .ok t') :
    PublishesAt tab cache stamp k (pre++[r]) t' := by
  obtain ⟨hups,hcells⟩ := applyRecord_other hk hkeys hok
  have hpub : (cache.publish t').rowState k = (cache.publish t).rowState k := by
    rw [Cache.rowState_publish,Cache.rowState_publish,hups,hcells]
  refine ⟨?_,?_,?_⟩
  · rw [hcells]
    exact h.stamps
  · rw [hpub,h.state]
    simp [hk]
  · rw [hups,hcells,hpub]
    refine h.touched.imp_right fun ⟨hle,r',hr',hrest⟩ => ⟨hle,r',?_,hrest⟩
    exact mem_append_left _ hr'

theorem applyRecord_own (hcat : cat.tableByID r.key.table = some tab)
    (hactive : tab.dropped = false) (hkeys : tab.uniqueKeys = [])
    (hok : applyRecord cat cache blob stamp t r = .ok t') :
    t'.updates.filter (fun u => u.key = r.key) = t.updates.filter (fun u => u.key = r.key)++
        (clockEffect tab (cache.rowState r.key) stamp r).1 ∧
      t'.cellUpdates.filter (fun u => u.key = r.key) =
        t.cellUpdates.filter (fun u => u.key = r.key)++
          (clockEffect tab (cache.rowState r.key) stamp r).2 := by
  obtain ⟨hups,hcells⟩ := applyRecord_keyless hcat hactive hkeys hok
  obtain ⟨hl,hl'⟩ := clockEffect_local tab (cache.rowState r.key) stamp r
  rw [hups,hcells,filter_append,filter_append]
  refine ⟨congrArg _ (filter_eq_self.mpr fun u hu => ?_),
    congrArg _ (filter_eq_self.mpr fun u hu => ?_)⟩
  · simpa using hl u hu
  · simpa using (hl' u hu).1

theorem PublishesAt.same (h : PublishesAt tab cache stamp r.key pre t)
    (hclimb : ∀ r' ∈ pre,r'.key = r.key → r'.cl < r.cl ∧ r.isUpdate = false)
    (hcat : cat.tableByID r.key.table = some tab) (hactive : tab.dropped = false)
    (hkeys : tab.uniqueKeys = []) (hok : applyRecord cat cache blob stamp t r = .ok t') :
    PublishesAt tab cache stamp r.key (pre++[r]) t' := by
  obtain ⟨hups,hcells⟩ := applyRecord_own hcat hactive hkeys hok
  have hstamps : ∀ u ∈ t'.cellUpdates.filter (fun u => u.key = r.key),u.stamp = stamp := by
    rw [hcells]
    intro u hu
    rcases mem_append.mp hu with hu | hu
    · exact h.stamps u hu
    · exact ((clockEffect_local tab (cache.rowState r.key) stamp r).2 u hu).2
  have hfold : ((pre++[r]).filter fun x => x.key = r.key).foldl (absorb tab stamp)
      (cache.rowState r.key) = ((cache.publish t).rowState r.key).absorb tab stamp r := by
    rw [h.state,filter_append,foldl_append]
    simp
  have hpub := cache.rowState_publish t r.key
  have hpub' := cache.rowState_publish t' r.key
  rcases h.touched with ⟨hnoups,hnocells⟩ | ⟨hle,r',hr',hkey,hcl⟩
  · have hrs : (cache.publish t).rowState r.key = cache.rowState r.key := by
      rw [hpub,hnoups,hnocells]
      rfl
    have habs : (cache.publish t').rowState r.key = (cache.rowState r.key).absorb tab stamp r := by
      rw [hpub',hups,hcells,hnoups,hnocells]
      rfl
    refine ⟨hstamps,by rw [hfold,hrs,habs],?_⟩
    by_cases hnone : clockEffect tab (cache.rowState r.key) stamp r = ([],[])
    · left
      rw [hups,hcells,hnoups,hnocells,hnone]
      exact ⟨rfl,rfl⟩
    · right
      obtain ⟨hge,hcl⟩ := absorb_cl hnone
      rw [habs,hcl]
      exact ⟨hge,r,by simp,rfl,rfl⟩
  · obtain ⟨hlt,hupd⟩ := hclimb r' hr' hkey
    rw [hcl] at hlt
    have hlt₀ := hle.trans_lt hlt
    cases hpatch : r.isBlobPatch with
    | true =>
      have hnone : ∀ rs,clockEffect tab rs stamp r = ([],[]) := fun rs => by
        simp [clockEffect,hpatch]
      have hsame : (cache.publish t').rowState r.key = (cache.publish t).rowState r.key := by
        rw [hpub',hups,hcells,hnone,append_nil,append_nil,hpub]
      refine ⟨hstamps,?_,?_⟩
      · rw [hfold,hsame,absorb,hnone]
        rfl
      · rw [hsame]
        exact .inr ⟨hle,r',mem_append_left _ hr',hkey,hcl⟩
    | false =>
      have hland : (cache.publish t').rowState r.key = .ofBase r.cl stamp := by
        rw [hpub,foldl_putCellUpdate_cl] at hlt
        rw [hpub',hups,hcells,clockEffect_of_lt hlt₀ hupd hpatch,append_nil,foldl_append]
        simp only [foldl_cons,foldl_nil,putUpdate]
        rw [put_ofBase_of_lt hlt]
        exact foldl_putCellUpdate_ofBase h.stamps r.cl
      refine ⟨hstamps,?_,?_⟩
      · rw [hfold,hland,absorb_of_lt hlt hupd hpatch]
      · rw [hland]
        exact .inr ⟨hle.trans hlt.le,r,by simp,rfl,rfl⟩

end Transaction

end Syzy
