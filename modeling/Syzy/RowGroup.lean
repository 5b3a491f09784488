import Syzy.LWW
import Syzy.Schedule
import Syzy.Statement

/-!
Row-group tables: each row is a last-writer-wins register over (causal length, stamp). An update
that finds no row fails its whole changeset, which waits in quarantine for the row's insert.
-/

namespace Syzy

open List

/-- An active table of the row clock group without unique keys or counters. -/
structure RowGroupTable (tab : Table) : Prop where
  active : tab.dropped = false
  rowGroup : tab.cellGroup = false
  noKeys : tab.uniqueKeys = []
  noCounters : tab.hasCounters = false
  binary : tab.BinaryKey

/-- A record of the table whose image is full; an update carries at least one column. -/
def RowGroupRecord (tab : Table) (r : Record) : Prop :=
  r.key.table = tab.id ∧ bindPK r.key = .ok () ∧ match r with
    | .insert _ _ image => FullImage tab image
    | .update _ _ changed =>
      FullImage tab changed ∧ ∃ v ∈ changed,(tab.columnByID v.column).isSome
    | .delete _ _ => True
    | .blobPatch _ _ _ _ => False

def Outran (rows : Rows) : Record → Prop
  | .update k _ _ => k ∉ rows
  | _ => False

instance (rows : Rows) (r : Record) : Decidable (Outran rows r) :=
  match r with
  | .update k _ _ => inferInstanceAs (Decidable (k ∉ rows))
  | .insert _ _ _ | .delete _ _ | .blobPatch _ _ _ _ => inferInstanceAs (Decidable False)

section Statement

variable {tab : Table} {rows : Rows}

/-- The statement of a record sets its row to the record's content, or finds no row to update. -/
theorem rowStatement_eq (htab : RowGroupTable tab) {r : Record} (hr : RowGroupRecord tab r)
    (hrow : ∀ row,rows.lookup r.key = some row → RowShape tab row) :
    rowStatement tab rows r = if Outran rows r then .error (.updateOutranInsert r.key)
      else .ok (setRow rows r.key (content tab r)) := by
  obtain ⟨-,hpk,hr⟩ := hr
  cases r with
  | insert k cl image =>
    simpa [rowStatement,Outran,setRow,content] using applyInsert_full htab.noKeys hpk hr hrow
  | update k cl changed =>
    have hupd := execRowUpdate_full htab.noKeys hpk hr.1 hr.2 hrow
    rw [Record.key_update] at hupd
    by_cases hk : k ∈ rows
    · simp [rowStatement,Outran,setRow,content,hupd,hk,bind,Except.bind,pure,Except.pure]
    · simp [rowStatement,Outran,hupd,hk,bind,Except.bind,throw,throwThe,MonadExceptOf.throw]
  | delete k cl =>
    have hpk' : bindPK k = .ok () := hpk
    simp [rowStatement,Outran,setRow,content,applyDelete,hpk',bind,Except.bind,pure,Except.pure]
  | blobPatch k cl col ranges => exact absurd hr id

end Statement

/-- The transaction after a record that passed its gate. -/
def Txn.land (tab : Table) (stamp : Stamp) (t : Txn) (r : Record) : Txn where
  rows := setRow t.rows r.key (content tab r)
  updates := t.updates++[⟨r.key,.ofBase r.cl stamp,false⟩]
  cellUpdates := t.cellUpdates
  blobMutations := t.blobMutations++[⟨r.key,∅⟩]

theorem applyRecord_rowGroup {cat : Catalog} {tab : Table} {cache : Cache} {stamp : Stamp} {t : Txn}
    {r : Record} (hcat : cat.tableByID tab.id = some tab) (htab : RowGroupTable tab)
    (hr : RowGroupRecord tab r)
    (hrow : ∀ row,t.rows.lookup r.key = some row → RowShape tab row) :
    applyRecord cat cache ∅ stamp t r = if ¬(cache.rowState r.key).dominatedBy r.cl stamp then .ok t
      else if Outran t.rows r then .error (.updateOutranInsert r.key)
      else .ok (t.land tab stamp r) := by
  have hst := rowStatement_eq htab hr hrow
  have hgated : applyRecord cat cache ∅ stamp t r =
      applyGated cache tab ∅ t r (cache.rowState r.key) stamp := by
    unfold applyRecord
    rw [hr.1,hcat]
    cases r with
    | blobPatch k cl col ranges => exact absurd hr.2.2 id
    | _ => simp [htab.active]
  rw [hgated,applyGated]
  simp only [htab.rowGroup]
  by_cases hdom : (cache.rowState r.key).dominatedBy r.cl stamp = true
  · have hval : validateRecord tab r = .ok () := by
      cases r <;> simp [validateRecord,validateInsertCounterImage,htab.noCounters]
    have harb : arbitrate cache tab t.rows r stamp = .ok (r,[],t.rows) := by
      cases r <;> simp [arbitrate,arbitrateWrites,htab.noKeys,bind,Except.bind,pure,Except.pure]
    have hmerge : mergeExisting tab t.rows (cache.rowState r.key) r = r := by
      cases r <;> simp [mergeExisting,htab.noCounters]
    simp only [hdom,not_true_eq_false,if_false,applyRowRecord,hval,harb,
      storedKey_of_binary htab.binary,Record.atKey_key,hmerge,rowDML,if_true,hst,bind,Except.bind]
    by_cases hout : Outran t.rows r
    · simp [hout,Except.map]
    · simp [hout,Except.map,pure,Except.pure,Txn.land]
  · simp [hdom]

def rowWrites (tab : Table) (k : RowKey) (ws : List (Stamp × Record)) :
    List ((ℕ ×ₗ Stamp) × Option Row) :=
  (ws.filter fun w => w.2.key = k).map fun w => (toLex (w.2.cl,w.1),content tab w.2)

def registerClock : Option ((ℕ ×ₗ Stamp) × Option Row) → RowState
  | none => default
  | some w => .ofBase (ofLex w.1).1 (ofLex w.1).2

def HoldsLatest (tab : Table) (ws : List (Stamp × Record)) (k : RowKey) (row : Option Row)
    (rs : RowState) : Prop :=
  ∃ s,LWW.IsLatest (rowWrites tab k ws) s ∧ rs = registerClock s ∧ row = s.bind Prod.snd

section Register

variable {tab : Table} {ws : List (Stamp × Record)} {k : RowKey} {row : Option Row} {rs : RowState}
  {stamp : Stamp} {r : Record}

theorem rowWrites_append (tab : Table) (k : RowKey) (ws ws' : List (Stamp × Record)) :
    rowWrites tab k (ws++ws') = rowWrites tab k ws++rowWrites tab k ws' := by
  simp [rowWrites]

theorem rowWrites_singleton (tab : Table) (k : RowKey) (stamp : Stamp) (r : Record) :
    rowWrites tab k [(stamp,r)] =
      if r.key = k then [(toLex (r.cl,stamp),content tab r)] else [] := by
  by_cases h : r.key = k <;> simp [rowWrites,h]

theorem HoldsLatest.other (h : HoldsLatest tab ws k row rs) (hk : r.key ≠ k) :
    HoldsLatest tab (ws++[(stamp,r)]) k row rs := by
  obtain ⟨s,hs⟩ := h
  refine ⟨s,?_⟩
  rwa [rowWrites_append,rowWrites_singleton,if_neg hk,append_nil]

theorem HoldsLatest.skip (h : HoldsLatest tab ws k row rs) (hpos : Stamp.zero < stamp)
    (hle : toLex (r.cl,stamp) ≤ rs.version) : HoldsLatest tab (ws++[(stamp,r)]) k row rs := by
  obtain ⟨s,hs,rfl,rfl⟩ := h
  by_cases hk : r.key = k
  · refine ⟨s,?_,rfl,rfl⟩
    rw [rowWrites_append,rowWrites_singleton,if_pos hk]
    cases s with
    | none =>
      rcases Prod.Lex.toLex_le_toLex.mp hle with h | h
      · exact absurd h (Nat.not_lt_zero _)
      · exact absurd h.2 (not_le.mpr hpos)
    | some w => exact hs.keep hle
  · exact HoldsLatest.other ⟨s,hs,rfl,rfl⟩ hk

theorem HoldsLatest.land (h : HoldsLatest tab ws r.key row rs)
    (hlt : rs.version < toLex (r.cl,stamp)) :
    HoldsLatest tab (ws++[(stamp,r)]) r.key (content tab r) (.ofBase r.cl stamp) := by
  obtain ⟨s,hs,rfl,rfl⟩ := h
  refine ⟨some (toLex (r.cl,stamp),content tab r),?_,rfl,rfl⟩
  rw [rowWrites_append,rowWrites_singleton,if_pos rfl]
  refine hs.take fun v hv => ?_
  rw [hv] at hlt
  exact hlt.le

theorem HoldsLatest.shape (h : HoldsLatest tab ws k row rs) {x : Row} (hx : row = some x) :
    RowShape tab x := by
  obtain ⟨s,hs,-,rfl⟩ := h
  cases s with
  | none => simp at hx
  | some w =>
    obtain ⟨w',-,rfl⟩ := mem_map.mp hs.1
    have hc : content tab w'.2 = some x := hx
    cases hr : w'.2 <;> simp only [hr,content,Option.some.injEq,reduceCtorEq] at hc <;>
      exact hc ▸ imageRow_shape _ _

end Register

theorem mergeState_ofBase {prev : RowState} (h : prev.cells = ∅) (cl : ℕ) (base : Stamp) :
    Cache.mergeState prev (.ofBase cl base) = .ofBase cl base := by
  unfold Cache.mergeState
  split_ifs <;> simp [RowState.ofBase,h]

/-- An open transaction over a node that holds the latest of `ws`, after the records `pre` of a
changeset: the rows and the clocks it would publish are those of the latest write. -/
structure RowGroupTxn (tab : Table) (ws : List (Stamp × Record)) (cache : Cache) (stamp : Stamp)
    (pre : List Record) (t : Txn) : Prop where
  cells : t.cellUpdates = []
  blobs : ∀ m ∈ t.blobMutations,m.cols = ∅
  latest : ∀ k,HoldsLatest tab (ws++pre.map fun r => (stamp,r)) k (t.rows.lookup k)
    ((cache.publish t).rowState k)
  moved : ∀ k,(cache.publish t).rowState k = cache.rowState k ∨
    (cache.rowState k).version < ((cache.publish t).rowState k).version ∧
      ∃ r ∈ pre,r.key = k ∧ ((cache.publish t).rowState k).version = toLex (r.cl,stamp)

section Transaction

variable {cat : Catalog} {tab : Table} {ws : List (Stamp × Record)} {cache : Cache} {stamp : Stamp}
  {pre : List Record} {t t' : Txn} {r : Record}

theorem RowGroupTxn.begin {rows : Rows}
    (h : ∀ k,HoldsLatest tab ws k (rows.lookup k) (cache.rowState k)) :
    RowGroupTxn tab ws cache stamp [] (.begin rows) where
  cells := rfl
  blobs := by simp [Txn.begin]
  latest := by simpa [Cache.publish,Txn.begin] using h
  moved := fun k => .inl rfl

section

variable (h : RowGroupTxn tab ws cache stamp pre t)
include h

theorem RowGroupTxn.version_le (k : RowKey) :
    (cache.rowState k).version ≤ ((cache.publish t).rowState k).version := by
  rcases h.moved k with h | h
  · rw [h]
  · exact h.1.le

theorem rowState_publish_land (k : RowKey)
    (hlt : ((cache.publish t).rowState r.key).version < toLex (r.cl,stamp)) :
    (cache.publish (t.land tab stamp r)).rowState k =
      if k = r.key then .ofBase r.cl stamp else (cache.publish t).rowState k := by
  have hcells : ((cache.publish t).rowState r.key).cells = ∅ := by
    obtain ⟨s,-,hs,-⟩ := h.latest r.key
    rw [hs]
    cases s <;> rfl
  have hpub : cache.publish (t.land tab stamp r) =
      ((cache.publish t).putRowState r.key (.ofBase r.cl stamp)).2 := by
    simp [Cache.publish,Txn.land,h.cells,Cache.publishRow]
  rw [hpub,Cache.rowState_putRowState,mergeState_ofBase hcells]
  simp [RowState.dominatedBy_iff,hlt]

theorem RowGroupTxn.land (hclimb : ∀ r' ∈ pre,r'.key = r.key → r'.cl < r.cl)
    (hdom : (cache.rowState r.key).version < toLex (r.cl,stamp)) :
    RowGroupTxn tab ws cache stamp (pre++[r]) (t.land tab stamp r) := by
  have hlt : ((cache.publish t).rowState r.key).version < toLex (r.cl,stamp) := by
    rcases h.moved r.key with hsame | ⟨-,r',hr',hkey,hver⟩
    · rwa [hsame]
    · rw [hver,Prod.Lex.toLex_lt_toLex]
      exact .inl (hclimb r' hr' hkey)
  have hpub := fun k => rowState_publish_land h k hlt
  refine ⟨h.cells,?_,fun k => ?_,fun k => ?_⟩
  · intro m hm
    rcases mem_concat.mp hm with hm | rfl
    · exact h.blobs m hm
    · rfl
  · rw [hpub,map_append,← append_assoc]
    have hrow : (t.land tab stamp r).rows.lookup k =
        if k = r.key then content tab r else t.rows.lookup k := lookup_setRow ..
    rw [hrow]
    by_cases hk : k = r.key
    · subst hk
      simpa using (h.latest r.key).land hlt
    · simpa [hk] using (h.latest k).other fun e => hk e.symm
  · rw [hpub]
    by_cases hk : k = r.key
    · subst hk
      exact .inr ⟨by simpa using hdom,r,by simp,rfl,by simp [RowState.version]⟩
    · rw [if_neg hk]
      refine (h.moved k).imp_right fun hmoved => ?_
      obtain ⟨hv,r',hr',hkey⟩ := hmoved
      exact ⟨hv,r',mem_append_left _ hr',hkey⟩

theorem RowGroupTxn.skip (hpos : Stamp.zero < stamp)
    (hle : toLex (r.cl,stamp) ≤ (cache.rowState r.key).version) :
    RowGroupTxn tab ws cache stamp (pre++[r]) t := by
  refine ⟨h.cells,h.blobs,fun k => ?_,fun k => ?_⟩
  · rw [map_append,← append_assoc]
    by_cases hk : r.key = k
    · subst hk
      exact (h.latest r.key).skip hpos (hle.trans (h.version_le r.key))
    · exact (h.latest k).other hk
  · refine (h.moved k).imp_right fun hmoved => ?_
    obtain ⟨hv,r',hr',hkey⟩ := hmoved
    exact ⟨hv,r',mem_append_left _ hr',hkey⟩

end

/-- A changeset leaves the latest writes, or stops at an update above the row's clock that found
no row. -/
theorem applyRecords_rowGroup {rows : Rows} {records : List Record}
    (hcat : cat.tableByID tab.id = some tab) (htab : RowGroupTable tab) (hpos : Stamp.zero < stamp)
    (hrec : ∀ r ∈ records,RowGroupRecord tab r)
    (hclimb : records.Pairwise fun r r' => r.key = r'.key → r.cl < r'.cl)
    (h : ∀ k,HoldsLatest tab ws k (rows.lookup k) (cache.rowState k)) :
    (∃ t,applyRecords cat cache ∅ stamp rows records = .ok t ∧
      RowGroupTxn tab ws cache stamp records t) ∨
    ∃ e pre r post t,applyRecords cat cache ∅ stamp rows records = .error e ∧
      records = pre++r::post ∧ RowGroupTxn tab ws cache stamp pre t ∧
      (cache.rowState r.key).version < toLex (r.cl,stamp) ∧ Outran t.rows r := by
  have hone : ∀ pre x post t,records = pre++x::post → RowGroupTxn tab ws cache stamp pre t →
      applyRecord cat cache ∅ stamp t x =
        if ¬(cache.rowState x.key).dominatedBy x.cl stamp then .ok t
        else if Outran t.rows x then .error (.updateOutranInsert x.key)
        else .ok (t.land tab stamp x) := fun pre x post t hsplit ht =>
    applyRecord_rowGroup hcat htab (hrec x (by simp [hsplit])) fun row hrow =>
      (ht.latest x.key).shape hrow
  have hstep : ∀ pre x post t t',records = pre++x::post → RowGroupTxn tab ws cache stamp pre t →
      applyRecord cat cache ∅ stamp t x = .ok t' →
      RowGroupTxn tab ws cache stamp (pre++[x]) t' := by
    intro pre x post t t' hsplit ht hx
    rw [hone pre x post t hsplit ht] at hx
    split_ifs at hx with hdom hout
    · cases hx
      refine ht.land (fun r' hr' hkey => ?_) (RowState.dominatedBy_iff.mp hdom)
      rw [hsplit,pairwise_append] at hclimb
      exact hclimb.2.2 r' hr' x (by simp) hkey
    · cases hx
      exact ht.skip hpos (RowState.not_dominatedBy_iff.mp (by simpa using hdom))
  rcases ExceptFold.foldlM_invariant (RowGroupTxn.begin h) hstep with
    ⟨t,hok,ht⟩ | ⟨e,pre,x,post,t,herr,hsplit,ht,hx⟩
  · exact .inl ⟨t,hok,ht⟩
  · right
    refine ⟨e,pre,x,post,t,herr,hsplit,ht,?_⟩
    rw [hone pre x post t hsplit ht] at hx
    split_ifs at hx with hdom hout
    exact ⟨RowState.dominatedBy_iff.mp hdom,hout⟩

end Transaction

/-- A node's data after the changesets of the list: every row holds its latest write. -/
def RowGroupData (tab : Table) : DataPred := fun applied rows clock blob =>
  blob = ∅ ∧ ∀ k,HoldsLatest tab (writes applied) k (rows.lookup k) (clock k)

/-- The workload's records belong to the table, and every update follows an insert of its
generation. -/
structure RowGroupWorkload (tab : Table) (S : Finset Changeset) : Prop extends Workload S where
  records : ∀ cs ∈ S,∀ r ∈ cs.records,RowGroupRecord tab r
  insertBefore : InsertBefore S

section Convergence

variable {cfg : Config} {me : Origin} {tab : Table} {S : Finset Changeset}
  {applied : List Changeset} {cs : Changeset}

section

variable (htab : RowGroupTable tab)
  (hS : RowGroupWorkload tab S)
  (hcat : cfg.catalog.tableByID tab.id = some tab)
include htab hS hcat

theorem RowGroupWorkload.noCounters (hcs : cs ∈ S) :
    counterBearing cfg.catalog cs.records = false := by
  rw [counterBearing,any_eq_false]
  intro r hr
  have hrec := hS.records cs hcs r hr
  rw [hrec.1,hcat]
  cases r with
  | insert k cl image => simp [recordCounterContribution,htab.noCounters]
  | update k cl changed => simpa [recordCounterContribution] using hrec.2.2.1.plain
  | delete k cl => simp [recordCounterContribution]
  | blobPatch k cl col ranges => exact absurd hrec.2.2 id

/-- A committed changeset of the workload keeps every row at its latest write. -/
theorem rowGroupData_invariant :
    DataInvariant cfg S (RowGroupData tab) where
  init := ⟨rfl,fun k => ⟨none,LWW.isLatest_nil,rfl,by simp⟩⟩
  step := by
    rintro applied d cs d' - hcs - ⟨hblob,hlatest⟩ hd'
    obtain ⟨t,hok,rfl⟩ := applyData_eq_ok.mp hd'
    rw [hblob] at hok
    have hwf := hS.wellFormed cs hcs
    rcases applyRecords_rowGroup hcat htab hwf.stamp_pos (hS.records cs hcs) hwf.climbs hlatest with
      ⟨t',hok',ht⟩ | ⟨e,pre,r,post,t',herr,-⟩
    · cases hok.symm.trans hok'
      refine ⟨?_,fun k => ?_⟩
      · rw [hblob]
        exact foldl_putBlobRangeClock_empty ht.blobs
      · rw [writes_concat]
        exact ht.latest k
    · cases hok.symm.trans herr

end

theorem HoldsLatest.present {ws : List (Stamp × Record)} {k : RowKey} {row : Option Row}
    {rs : RowState} (h : HoldsLatest tab ws k row rs) (hlive : rs.cl%2 = 1)
    (hws : ∀ w ∈ ws,RowGroupRecord tab w.2 ∧ w.2.ParityOK) : row.isSome := by
  obtain ⟨s,hs,rfl,rfl⟩ := h
  cases s with
  | none => simp [registerClock] at hlive
  | some w =>
    obtain ⟨w',hw',rfl⟩ := mem_map.mp hs.1
    obtain ⟨hrec,hpar⟩ := hws w' (mem_filter.mp hw').1
    have hcl : w'.2.cl%2 = 1 := hlive
    cases hr : w'.2 with
    | insert | update => simp [content]
    | delete k cl =>
      rw [hr] at hpar hcl
      have : cl%2 = 0 := hpar
      rw [Record.cl_delete] at hcl
      omega
    | blobPatch k cl col ranges =>
      rw [hr] at hrec
      exact absurd hrec.2.2 id

theorem RowGroupTxn.not_outran {ws : List (Stamp × Record)} {cache : Cache} {stamp s : Stamp}
    {pre : List Record} {t : Txn} {k : RowKey} {row : Option Row} {cl : ℕ}
    {changed image : List ColValue}
    (h : RowGroupTxn tab ws cache stamp pre t)
    (hws : ∀ w ∈ ws++pre.map fun r => (stamp,r),RowGroupRecord tab w.2 ∧ w.2.ParityOK)
    (hclimb : ∀ r' ∈ pre,r'.key = k → r'.cl < cl) (hodd : cl%2 = 1)
    (hlatest : HoldsLatest tab ws k row (cache.rowState k))
    (hins : (s,.insert k cl image) ∈ ws)
    (hdom : (cache.rowState k).version < toLex (cl,stamp)) : ¬Outran t.rows (.update k cl changed) := by
  have hge : toLex (cl,s) ≤ (cache.rowState k).version := by
    obtain ⟨w,hw,hrs,-⟩ := hlatest
    have hmem : (toLex (cl,s),content tab (.insert k cl image)) ∈ rowWrites tab k ws :=
      mem_map.mpr ⟨_,mem_filter.mpr ⟨hins,by simp⟩,rfl⟩
    rw [hrs]
    cases w with
    | none =>
      rw [hw] at hmem
      simp at hmem
    | some w => exact hw.2 _ hmem
  have hcl : (cache.rowState k).cl = cl := by
    have h₁ := Prod.Lex.toLex_le_toLex.mp hge
    have h₂ := Prod.Lex.toLex_lt_toLex.mp hdom
    simp only at h₁ h₂
    omega
  have hsame : (cache.publish t).rowState k = cache.rowState k := by
    rcases h.moved k with hsame | ⟨hlt,r',hr',hkey,hver⟩
    · exact hsame
    · have := Prod.Lex.toLex_lt_toLex.mp (hver ▸ hge.trans_lt hlt)
      have := hclimb r' hr' hkey
      simp only at *
      omega
  have hrow := (h.latest k).present (by rw [hsame,hcl,hodd]) hws
  intro hout
  exact hout (Finmap.mem_iff.mpr (Option.isSome_iff_exists.mp hrow))

section

variable (htab : RowGroupTable tab)
  (hS : RowGroupWorkload tab S)
  (hcat : cfg.catalog.tableByID tab.id = some tab)
include htab hS hcat

/-- A changeset that fails waits for the insert of one of its updates, made earlier and not
applied yet. -/
theorem exists_awaited_insert {d : Data} (happlied : ∀ c ∈ applied,c ∈ S)
    (hdata : RowGroupData tab applied d.rows d.cache.rowState d.blob) (hcs : cs ∈ S)
    {err : ApplyError} (herr : applyData cfg.catalog d cs.stamp cs.records = .error err) :
    ∃ cs' ∈ S,cs'.stamp < cs.stamp ∧ cs' ∉ applied := by
  obtain ⟨hblob,hlatest⟩ := hdata
  have hwf := hS.wellFormed cs hcs
  rcases applyRecords_rowGroup hcat htab hwf.stamp_pos (hS.records cs hcs) hwf.climbs hlatest with
    ⟨t,hok,-⟩ | ⟨e,pre,r,post,t,-,hsplit,ht,hdom,hout⟩
  · rw [← hblob] at hok
    rw [applyData_eq_ok.mpr ⟨t,hok,rfl⟩] at herr
    cases herr
  · cases r with
    | update k cl changed =>
      have hmem : Record.update k cl changed ∈ cs.records := by simp [hsplit]
      obtain ⟨cs',hcs',hlt,image,himage⟩ := hS.insertBefore cs hcs k cl changed hmem
      refine ⟨cs',hcs',hlt,fun hin => ?_⟩
      have hclimb := hwf.climbs
      rw [hsplit,pairwise_append] at hclimb
      have hws : ∀ w ∈ writes applied++pre.map fun r => (cs.stamp,r),
          RowGroupRecord tab w.2 ∧ w.2.ParityOK := by
        intro w hw
        rcases mem_append.mp hw with hw | hw
        · obtain ⟨c,hc,-,hr⟩ := mem_writes.mp hw
          have hc := happlied c hc
          exact ⟨hS.records c hc _ hr,(hS.wellFormed c hc).parity _ hr⟩
        · obtain ⟨r,hr,rfl⟩ := mem_map.mp hw
          have hr' : r ∈ cs.records := by simp [hsplit,hr]
          exact ⟨hS.records cs hcs r hr',hwf.parity r hr'⟩
      have hbelow : ∀ r' ∈ pre,r'.key = k → r'.cl < cl := fun r' hr' =>
        hclimb.2.2 r' hr' (.update k cl changed) (by simp)
      exact ht.not_outran hws hbelow (hwf.parity _ hmem) (hlatest k)
        (mem_writes.mpr ⟨cs',hin,rfl,himage⟩) hdom hout
    | _ => exact absurd hout id

/-- No set of waiting changesets can block itself: the earliest one waits for nothing. -/
theorem rowGroup_quarantine_empty {n : Node} (h : Reached me S (RowGroupData tab) n applied)
    (hall : ∀ cs ∈ S,cs ∈ applied++n.quarantined)
    (hstuck : ∀ cs ∈ n.quarantined,∃ err,applyData cfg.catalog n.toData cs.stamp cs.records = .error err) :
    n.quarantined = [] := by
  by_contra hne
  obtain ⟨cs,hcs,hmin⟩ := n.quarantined.toFinset.exists_min_image Changeset.stamp
    (by simpa [toFinset_nonempty_iff] using hne)
  rw [mem_toFinset] at hcs
  obtain ⟨err,herr⟩ := hstuck cs hcs
  have hcsS := h.ledger.mem cs (mem_append_right _ hcs)
  obtain ⟨cs',hcs',hlt,hnot⟩ := exists_awaited_insert htab hS hcat h.mem_applied h.data hcsS herr
  rcases mem_append.mp (hall cs' hcs') with hin | hin
  · exact hnot hin
  · exact absurd (hmin cs' (mem_toFinset.mpr hin)) (not_le.mpr hlt)

end

/-- The record of the workload with the greatest causal length and stamp among those of a row. -/
def Winner (S : Finset Changeset) (k : RowKey) (cs : Changeset) (r : Record) : Prop :=
  cs ∈ S ∧ r ∈ cs.records ∧ r.key = k ∧
    ∀ cs' ∈ S,∀ r' ∈ cs'.records,r'.key = k → toLex (r'.cl,cs'.stamp) ≤ toLex (r.cl,cs.stamp)

theorem mem_rowWrites {applied : List Changeset} {k : RowKey} {w : (ℕ ×ₗ Stamp) × Option Row} :
    w ∈ rowWrites tab k (writes applied) ↔ ∃ cs ∈ applied,∃ r ∈ cs.records,r.key = k ∧
      (toLex (r.cl,cs.stamp),content tab r) = w :=
  mem_filter_map_writes

theorem settled_rowGroup (htab : RowGroupTable tab) (hS : RowGroupWorkload tab S)
    (hcat : cfg.catalog.tableByID tab.id = some tab) {events : List Event}
    (h : DeliversAll cfg me S events) :
    (settle cfg (run cfg (Node.new me) events)).quarantine = [] ∧
      ∃ applied : List Changeset,(∀ cs,cs ∈ applied ↔ cs ∈ S) ∧
        ∀ k,HoldsLatest tab (writes applied) k
          ((settle cfg (run cfg (Node.new me) events)).rows.lookup k)
          ((settle cfg (run cfg (Node.new me) events)).cache.rowState k) := by
  have hR := h.remoteTo fun cs hcs => hS.noCounters htab hcat hcs
  obtain ⟨applied,hreach,hdel,hstuck⟩ := reached_settle hS.toWorkload hR
    (rowGroupData_invariant htab hS hcat) h.eventsFrom
  have hempty := rowGroup_quarantine_empty htab hS hcat hreach
    (fun cs hcs => hdel cs (h.delivered cs hcs)) hstuck
  refine ⟨map_eq_nil_iff.mp hempty,applied,fun cs => ⟨hreach.mem_applied cs,fun hcs => ?_⟩,
    hreach.data.2⟩
  have := hdel cs (h.delivered cs hcs)
  rwa [hempty,append_nil] at this

/-- A row of a settled replica is its winner's; a row without records is absent. -/
theorem HoldsLatest.winner (hS : Workload S) (hmem : ∀ cs,cs ∈ applied ↔ cs ∈ S) {k : RowKey}
    {row : Option Row} {rs : RowState} (h : HoldsLatest tab (writes applied) k row rs) :
    (∀ cs r,Winner S k cs r → row = content tab r ∧ rs = .ofBase r.cl cs.stamp) ∧
      ((∀ cs ∈ S,∀ r ∈ cs.records,r.key ≠ k) → row = none ∧ rs = default) := by
  obtain ⟨s,hs,rfl,rfl⟩ := h
  constructor
  · rintro cs r ⟨hcs,hr,hk,hmax⟩
    have hw : (toLex (r.cl,cs.stamp),content tab r) ∈ rowWrites tab k (writes applied) :=
      mem_rowWrites.mpr ⟨cs,(hmem cs).mpr hcs,r,hr,hk,rfl⟩
    cases s with
    | none =>
      rw [hs] at hw
      simp at hw
    | some w =>
      obtain ⟨cs',hcs',r',hr',hk',rfl⟩ := mem_rowWrites.mp hs.1
      rw [hmem] at hcs'
      have heq := le_antisymm (hmax cs' hcs' r' hr' hk') (hs.2 _ hw)
      have hpair := Prod.mk.inj (toLex.injective heq)
      obtain rfl := hS.record_unique hcs' hcs hr' hr (hk'.trans hk.symm) hpair.1 hpair.2
      simp [registerClock,hpair.2]
  · intro hnone
    cases s with
    | none => exact ⟨rfl,rfl⟩
    | some w =>
      obtain ⟨cs,hcs,r,hr,hk,-⟩ := mem_rowWrites.mp hs.1
      exact absurd hk (hnone cs ((hmem cs).mp hcs) r hr)

theorem exists_winner {k : RowKey} (h : ∃ cs ∈ S,∃ r ∈ cs.records,r.key = k) :
    ∃ cs r,Winner S k cs r := by
  let F : Finset (Changeset × Record) := S.biUnion fun cs =>
    (cs.records.toFinset.filter fun r => r.key = k).image fun r => (cs,r)
  have hF : ∀ p,p ∈ F ↔ p.1 ∈ S ∧ p.2 ∈ p.1.records ∧ p.2.key = k := by
    rintro ⟨cs,r⟩
    simp [F]
  obtain ⟨cs,hcs,r,hr,hk⟩ := h
  obtain ⟨⟨cs',r'⟩,hin,hmax⟩ := F.exists_max_image (fun p => toLex (p.2.cl,p.1.stamp))
    ⟨(cs,r),(hF _).mpr ⟨hcs,hr,hk⟩⟩
  obtain ⟨hcs',hr',hk'⟩ := (hF _).mp hin
  exact ⟨cs',r',hcs',hr',hk',fun c hc x hx hkx => hmax (c,x) ((hF _).mpr ⟨hc,hx,hkx⟩)⟩

end Convergence

namespace RowGroupSample

theorem workload : RowGroupWorkload table {inserted,updated} where
  wellFormed := by decide
  dot_inj := by decide
  stamp_inj := by decide
  records := by
    intro cs hcs r hr
    rcases Finset.mem_insert.mp hcs with rfl | hcs
    · rw [mem_singleton.mp hr]
      exact ⟨rfl,rfl,by simpa using ⟨_,rfl⟩,by decide,by decide,by decide⟩
    · rw [Finset.mem_singleton.mp hcs] at hr
      rw [mem_singleton.mp hr]
      exact ⟨rfl,rfl,⟨by simpa using ⟨_,rfl⟩,by decide,by decide,by decide⟩,by decide⟩
  insertBefore := by
    intro cs hcs k cl changed hr
    rcases Finset.mem_insert.mp hcs with rfl | hcs
    · simp [inserted] at hr
    · rw [Finset.mem_singleton.mp hcs] at hr ⊢
      obtain ⟨rfl,rfl,rfl⟩ : k = key ∧ cl = 1 ∧ changed = [⟨2,colText,.text,[99]⟩] := by
        simpa [updated] using hr
      exact ⟨inserted,by simp,by decide,_,mem_singleton.mpr rfl⟩

theorem deliversAll_inOrder :
    DeliversAll config 1 {inserted,updated} [.deliver inserted,.deliver updated] where
  origin_ne := by decide
  schema := by decide
  eventsFrom := by
    intro cs hcs
    simpa using hcs
  delivered := by
    intro cs hcs
    rcases Finset.mem_insert.mp hcs with rfl | hcs
    · exact ⟨[],by simp,rfl⟩
    · rw [Finset.mem_singleton.mp hcs]
      exact ⟨[.deliver inserted],by simp,rfl⟩

theorem deliversAll_outrun :
    DeliversAll config 2 {inserted,updated} [.deliver updated,.deliver inserted] where
  origin_ne := by decide
  schema := by decide
  eventsFrom := by
    intro cs hcs
    simpa [or_comm] using hcs
  delivered := by
    intro cs hcs
    rcases Finset.mem_insert.mp hcs with rfl | hcs
    · exact ⟨[.deliver updated],by simp,rfl⟩
    · rw [Finset.mem_singleton.mp hcs]
      exact ⟨[],by simp,rfl⟩

/-- A transaction that deletes the row and inserts it again. -/
def reinserted : Changeset :=
  ⟨⟨7,2⟩,⟨⟨2,0⟩,7⟩,[.delete key 2,.insert key 1 [⟨2,colText,.text,[100]⟩]],0⟩
def updatedLate : Changeset := ⟨⟨8,1⟩,⟨⟨3,0⟩,8⟩,[.update key 1 [⟨2,colText,.text,[99]⟩]],0⟩

end RowGroupSample

end Syzy
