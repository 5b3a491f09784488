import Mathlib.Algebra.Order.BigOperators.Group.Finset
import Syzy.CounterSum

/-!
Deliveries of counter changesets to one replica. Each transaction writes the applied marker of its
changeset, and a first delivery finds none, so every changeset contributes in full.
-/

namespace Syzy

open List

/-- What some changesets contribute to a counter in one generation of a row. -/
def generationSum (T : Finset Changeset) (k : RowKey) (cl : ℕ) (col : ColumnID) : ℤ :=
  ∑ cs ∈ T,(cs.records.map fun r => if r.key = k ∧ r.cl = cl then contribution r col else 0).sum

/-- The workload's records belong to the table, an update follows no other record of its row in
its changeset, and no partial sum of a counter overflows. -/
structure CounterWorkload (tab : Table) (S : Finset Changeset) : Prop extends Workload S where
  records : ∀ cs ∈ S,∀ r ∈ cs.records,CounterRecord tab r
  updatesFirst : ∀ cs ∈ S,cs.records.Pairwise fun r r' => r.key = r'.key → r'.isUpdate = false
  fits : ∀ T ⊆ S,∀ k cl col,tab.isCounterColumn col = true → InInt64 (generationSum T k cl col)

/-- Every update of the changeset that opens a generation on this node opens it whole. -/
def OpensAllWhole (tab : Table) (n : Node) (cs : Changeset) : Prop :=
  ∀ r ∈ cs.records,OpensWhole tab (n.rows.lookup r.key) (n.cache.rowState r.key) r

instance (tab : Table) (n : Node) (cs : Changeset) : Decidable (OpensAllWhole tab n cs) := by
  unfold OpensAllWhole
  exact inferInstance

section Sum

variable {applied : List Changeset} {cs : Changeset} {k : RowKey} {cl : ℕ} {col : ColumnID}

theorem counterSum_writes (applied : List Changeset) (k : RowKey) (cl : ℕ) (col : ColumnID) :
    counterSum (writes applied) k cl col = (applied.map fun cs =>
      (cs.records.map fun r => if r.key = k ∧ r.cl = cl then contribution r col else 0).sum).sum := by
  induction applied with
  | nil => rfl
  | cons cs applied ih =>
    rw [map_cons,sum_cons,← ih]
    simp [counterSum,writes,Function.comp_def]

theorem counterSum_eq_generationSum (h : applied.Nodup) :
    counterSum (writes applied) k cl col = generationSum applied.toFinset k cl col := by
  rw [counterSum_writes,generationSum,sum_toFinset _ h]

/-- A changeset carries at most one record of a row's generation, so the sum is complete with it. -/
theorem counterSum_of_split (hwf : cs.WellFormed) {pre post : List Record} {r : Record}
    (hsplit : cs.records = pre++r::post) :
    counterSum ((writes applied++pre.map fun r => (cs.stamp,r))++[(cs.stamp,r)]) r.key r.cl col =
      counterSum (writes (applied++[cs])) r.key r.cl col := by
  have hpost : counterSum (post.map fun r => (cs.stamp,r)) r.key r.cl col = 0 := by
    refine sum_eq_zero fun n hn => ?_
    obtain ⟨w,hw,rfl⟩ := mem_map.mp hn
    obtain ⟨r',hr',rfl⟩ := mem_map.mp hw
    have hclimb := hwf.climbs
    rw [hsplit,pairwise_append,pairwise_cons] at hclimb
    exact if_neg fun hc => absurd hc.2 (hclimb.2.1.1 r' hr' hc.1.symm).ne'
  have hall : writes (applied++[cs]) = ((writes applied++pre.map fun r => (cs.stamp,r))++
      [(cs.stamp,r)])++post.map fun r => (cs.stamp,r) := by
    rw [writes_concat,hsplit]
    simp
  rw [hall,counterSum_append _ (post.map fun r => (cs.stamp,r)),hpost,add_zero]

end Sum

section Apply

variable {cfg : Config} {tab : Table} {S : Finset Changeset} {applied : List Changeset}
  {cs : Changeset}

/-- A changeset whose updates open generations whole goes through and keeps every row at its
sums. -/
theorem applyData_counter (htab : CounterTable tab) (hS : CounterWorkload tab S)
    (hcat : cfg.catalog.tableByID tab.id = some tab) (happ : ∀ c ∈ applied++[cs],c ∈ S)
    (hnodup : (applied++[cs]).Nodup) {d : Data} (hblob : d.blob = ∅)
    (hsums : ∀ k,HoldsSums tab (writes applied) k (d.rows.lookup k) (d.cache.rowState k))
    (hopen : ∀ r ∈ cs.records,OpensWhole tab (d.rows.lookup r.key) (d.cache.rowState r.key) r) :
    ∃ d',applyData cfg.catalog d cs.stamp cs.records = .ok d' ∧ d'.blob = ∅ ∧
      ∀ k,HoldsSums tab (writes (applied++[cs])) k (d'.rows.lookup k) (d'.cache.rowState k) := by
  have hcs : cs ∈ S := happ cs (by simp)
  have hwf := hS.wellFormed cs hcs
  have hrule : ∀ pre r post,cs.records = pre++r::post → RowRule tab d.cache cs.stamp d.rows
      (writes applied++pre.map fun r => (cs.stamp,r)) r (HoldsSums tab) := by
    intro pre r post hsplit
    have hr : r ∈ cs.records := by simp [hsplit]
    have hrec := hS.records cs hcs r hr
    have hfit : ∀ col,tab.isCounterColumn col = true → InInt64 (counterSum
        ((writes applied++pre.map fun r => (cs.stamp,r))++[(cs.stamp,r)]) r.key r.cl col) := by
      intro col hcol
      rw [counterSum_of_split hwf hsplit,counterSum_eq_generationSum hnodup]
      exact hS.fits _ (fun c hc => happ c (mem_toFinset.mp hc)) _ _ _ hcol
    have hwhole : ∀ row rs,(r.isUpdate = true → row = d.rows.lookup r.key ∧
        rs = d.cache.rowState r.key) → OpensWhole tab row rs r := by
      intro row rs hsame hupd
      obtain ⟨rfl,rfl⟩ := hsame hupd
      exact hopen r hr hupd
    exact ⟨fun k row rs hk h => h.other hk,
      fun rows rs rs' h hsame hrs => h.fits htab hrec (hwf.parity r hr) (hwhole _ _ hsame) hfit hrs,
      fun row rs h hsame => h.absorb htab hrec (hwf.parity r hr) (hwhole _ _ hsame) hfit⟩
  exact applyData_cell htab.toCellTable (fun r hr => by rw [(hS.records cs hcs r hr).1,hcat]) hrule hwf
    (hS.updatesFirst cs hcs) hblob hsums

end Apply

/-- A replica after some deliveries: nothing was set aside, the markers name delivered changesets,
and every row holds its sums. -/
structure CounterState (tab : Table) (me : Origin) (S : Finset Changeset) (n : Node)
    (done : List Changeset) : Prop where
  ledger : Ledger me S n done
  quarantine : n.quarantine = []
  markers : ∀ ms,n.markers = some ms → ∀ d ∈ ms,∃ c ∈ done,c.dot = d
  noTable : n.markers = none → n.markerTableReady = false
  blob : n.blob = ∅
  sums : ∀ k,HoldsSums tab (writes done) k (n.rows.lookup k) (n.cache.rowState k)

theorem Ledger.congr {me : Origin} {S : Finset Changeset} {n n' : Node} {applied : List Changeset}
    (h : Ledger me S n applied) (hc : n'.cache = n.cache) (hq : n'.quarantine = n.quarantine) :
    Ledger me S n' applied := by
  have hq' : n'.quarantined = n.quarantined := by rw [Node.quarantined,hq,Node.quarantined]
  refine ⟨hc ▸ h.self_eq,hq' ▸ h.mem,hq' ▸ h.nodup,?_⟩
  rw [hc,hq']
  exact h.marked

section Deliver

variable {cfg : Config} {tab : Table} {me : Origin} {S : Finset Changeset} {n : Node}
  {done : List Changeset} {cs : Changeset}

/-- A changeset without a marker is planned in full, with its marker when it bears counters. -/
theorem planApply_unmarked (cfg : Config) (hms : ∀ ms,n.markers = some ms → cs.dot ∉ ms)
    (hready : n.markers = none → n.markerTableReady = false) :
    ∃ ready marker,planApply cfg n cs = (ready,.ok ⟨cs.records,marker⟩) ∧
      (∀ d,marker = some d → d = cs.dot ∧ cs.records ≠ []) ∧
      (n.markers = none → marker = none → ready = false) := by
  unfold planApply
  by_cases hcnt : counterBearing cfg.catalog cs.records = true
  · have hne : cs.records ≠ [] := by
      intro hnil
      simp [hnil,counterBearing] at hcnt
    rw [if_pos hcnt,appliedMarkerPresent]
    cases hm : n.markers with
    | none =>
      refine ⟨false,some cs.dot,by simp [hready hm,Except.map],?_,by simp⟩
      exact fun d hd => ⟨(Option.some.inj hd).symm,hne⟩
    | some ms =>
      refine ⟨true,some cs.dot,by simp [hms ms hm,Except.map],?_,by simp⟩
      exact fun d hd => ⟨(Option.some.inj hd).symm,hne⟩
  · rw [if_neg hcnt]
    exact ⟨n.markerTableReady,none,rfl,by simp,fun hm _ => hready hm⟩

/-- A first delivery that goes through leaves its data, its marker and its advance. -/
theorem applyPayload_first (hself : cs.dot.origin ≠ n.cache.self)
    (hnew : n.cache.isAppliedRemote cs.dot.origin cs.dot.seq = false)
    (hschema : cs.requiredSchemaSeq ≤ cfg.schemaSeq)
    (hms : ∀ ms,n.markers = some ms → cs.dot ∉ ms)
    (hready : n.markers = none → n.markerTableReady = false) {d : Data}
    (hd : applyData cfg.catalog n.toData cs.stamp cs.records = .ok d) :
    let n' := (applyPayload cfg n cs).1
    n'.cache = (Node.advance { n with toData := d } cs).cache ∧ n'.quarantine = n.quarantine ∧
      n'.rows = d.rows ∧ n'.blob = d.blob ∧
      (∀ ms,n'.markers = some ms → ∀ x ∈ ms,x = cs.dot ∨ ∃ ms',n.markers = some ms' ∧ x ∈ ms') ∧
      (n'.markers = none → n'.markerTableReady = false) := by
  obtain ⟨ready,marker,hplan,hmarker,hnone⟩ := planApply_unmarked cfg hms hready
  have hfresh : ¬(¬false = true ∧ n.cache.isAppliedRemote cs.dot.origin cs.dot.seq = true) := by
    simp [hnew]
  unfold applyPayload applyPayloadCache
  rw [if_neg hself,if_neg hfresh,if_neg hschema.not_gt,hplan]
  cases marker with
  | none =>
    simp only [Node.commit,hd,Except.map]
    refine ⟨rfl,rfl,rfl,rfl,fun ms hm x hx => .inr ⟨ms,hm,hx⟩,fun hm => ?_⟩
    simp [Node.advance,hnone hm rfl]
  | some dot =>
    obtain ⟨rfl,hne⟩ := hmarker dot rfl
    simp only [Node.commit,hd,Except.map,if_neg hne]
    refine ⟨rfl,rfl,rfl,rfl,fun ms hm x hx => ?_,by simp [Node.advance]⟩
    cases hm
    rcases (mem_writeAppliedMarker.mp hx).1 with hx | hx
    · exact .inl hx
    · cases hmk : n.markers with
      | none => simp [hmk] at hx
      | some ms' => exact .inr ⟨ms',rfl,by simpa [hmk] using hx⟩

theorem CounterState.new (tab : Table) (me : Origin) (S : Finset Changeset) :
    CounterState tab me S (Node.new me) [] where
  ledger := .new me S
  quarantine := rfl
  markers ms hm := by simp [Node.new] at hm
  noTable _ := rfl
  blob := rfl
  sums k := by
    have hrow : (Node.new me).cache.rowState k = default := by
      simp [Cache.rowState,Node.new,Cache.new]
    rw [hrow]
    exact .new tab k

/-- A first delivery whose updates open generations whole keeps the replica at the sums. -/
theorem CounterState.deliver (htab : CounterTable tab) (hS : CounterWorkload tab S)
    (hcat : cfg.catalog.tableByID tab.id = some tab) (hne : ∀ cs ∈ S,cs.dot.origin ≠ me)
    (hschema : ∀ cs ∈ S,cs.requiredSchemaSeq ≤ cfg.schemaSeq)
    (h : CounterState tab me S n done) (hcs : cs ∈ S) (hfresh : cs ∉ done)
    (hopen : OpensAllWhole tab n cs) :
    CounterState tab me S (applyPayload cfg n cs).1 (done++[cs]) := by
  have hq : done++n.quarantined = done := by rw [Node.quarantined,h.quarantine,map_nil,append_nil]
  have hmem : ∀ c ∈ done,c ∈ S := fun c hc => h.ledger.mem c (mem_append_left _ hc)
  have hnodup : done.Nodup := hq ▸ h.ledger.nodup
  have hnew : n.cache.isAppliedRemote cs.dot.origin cs.dot.seq = false := by
    rw [Bool.eq_false_iff]
    intro happ
    rw [h.ledger.marked cs hcs,hq] at happ
    exact hfresh happ
  have hms : ∀ ms,n.markers = some ms → cs.dot ∉ ms := by
    intro ms hm hdot
    obtain ⟨c,hc,hcd⟩ := h.markers ms hm _ hdot
    exact hfresh (hS.dot_inj c (hmem c hc) cs hcs hcd ▸ hc)
  have hall : ∀ c ∈ done++[cs],c ∈ S := by
    intro c hc
    rcases mem_append.mp hc with hc | hc
    · exact hmem c hc
    · rwa [mem_singleton.mp hc]
  have hnodup' : (done++[cs]).Nodup := by
    rw [nodup_append]
    refine ⟨hnodup,nodup_singleton cs,fun a ha b hb hab => hfresh ?_⟩
    rw [← mem_singleton.mp hb,← hab]
    exact ha
  obtain ⟨d,hd,hblob,hsums⟩ := applyData_counter htab hS hcat hall hnodup' h.blob h.sums hopen
  obtain ⟨hcache,hquar,hrows,hblob',hmarkers,hready⟩ := applyPayload_first
    (by rw [h.ledger.self_eq]; exact hne cs hcs) hnew (hschema cs hcs) hms h.noTable hd
  have hL := h.ledger.commit hS.toWorkload hne hcs (by rwa [hq]) (applyData_sameFrontier hd)
  refine ⟨hL.congr hcache hquar,hquar.trans h.quarantine,fun ms hm x hx => ?_,hready,
    hblob'.trans hblob,fun k => ?_⟩
  · rcases hmarkers ms hm x hx with rfl | ⟨ms',hms',hx⟩
    · exact ⟨cs,by simp,rfl⟩
    · obtain ⟨c,hc,hcd⟩ := h.markers ms' hms' x hx
      exact ⟨c,mem_append_left _ hc,hcd⟩
  · rw [hrows,hcache]
    exact hsums k

end Deliver

/-- A run that delivers every changeset of the workload exactly once to a remote replica. -/
structure DeliversOnce (cfg : Config) (me : Origin) (S : Finset Changeset)
    (order : List Changeset) : Prop where
  origin_ne : ∀ cs ∈ S,cs.dot.origin ≠ me
  schema : ∀ cs ∈ S,cs.requiredSchemaSeq ≤ cfg.schemaSeq
  nodup : order.Nodup
  mem : ∀ cs,cs ∈ order ↔ cs ∈ S

def deliverAll (cfg : Config) (me : Origin) (order : List Changeset) : Node :=
  run cfg (Node.new me) (order.map Event.deliver)

@[simp] theorem deliverAll_concat (cfg : Config) (me : Origin) (order : List Changeset)
    (cs : Changeset) : deliverAll cfg me (order++[cs]) = (applyPayload cfg (deliverAll cfg me order) cs).1 := by
  rw [deliverAll,map_append,map_singleton,run_concat]
  rfl

/-- At every delivery the updates that open a generation open it whole. -/
def OpensThroughout (tab : Table) (cfg : Config) (me : Origin) (order : List Changeset) : Prop :=
  ∀ i : Fin order.length,OpensAllWhole tab (deliverAll cfg me (order.take i)) (order.get i)

instance (tab : Table) (cfg : Config) (me : Origin) (order : List Changeset) :
    Decidable (OpensThroughout tab cfg me order) := by
  unfold OpensThroughout
  exact inferInstance

section Run

variable {cfg : Config} {tab : Table} {me : Origin} {S : Finset Changeset} {order : List Changeset}

theorem counterState_deliverAll (htab : CounterTable tab) (hS : CounterWorkload tab S)
    (hcat : cfg.catalog.tableByID tab.id = some tab) (h : DeliversOnce cfg me S order)
    (hopen : OpensThroughout tab cfg me order) (done : List Changeset) (hdone : done <+: order) :
    CounterState tab me S (deliverAll cfg me done) done := by
  induction done using reverseRecOn with
  | nil => exact .new tab me S
  | append_singleton done cs ih =>
    rw [deliverAll_concat]
    have hnodup := h.nodup.sublist hdone.sublist
    have hcs : cs ∈ S := (h.mem cs).mp (hdone.subset (by simp))
    have hnext : OpensAllWhole tab (deliverAll cfg me done) cs := by
      obtain ⟨rest,rfl⟩ := hdone
      simpa using hopen ⟨done.length,by simp⟩
    refine (ih ((prefix_append done [cs]).trans hdone)).deliver htab hS hcat h.origin_ne
      h.schema hcs (fun hc => ?_) hnext
    exact (nodup_append.mp hnodup).2.2 cs hc cs (by simp) rfl

theorem CounterState.mem_rows {n : Node} {done : List Changeset} (h : CounterState tab me S n done)
    (k : RowKey) : k ∈ n.rows ↔ (n.cache.rowState k).isLive = true := by
  rw [RowState.isLive_iff,Finmap.mem_iff]
  constructor
  · rintro ⟨x,hx⟩
    by_contra hd
    have hnone := (h.sums k).dead (by omega)
    cases hx.symm.trans hnone
  · intro hl
    obtain ⟨x,hx,-⟩ := (h.sums k).live hl
    exact ⟨x,hx⟩

theorem CounterState.counter_eq {n : Node} {done : List Changeset} (h : CounterState tab me S n done)
    (hnodup : done.Nodup) {k : RowKey} {x : Row} {col : ColumnID} (hx : n.rows.lookup k = some x)
    (hcol : tab.isCounterColumn col = true) :
    x col = .int (generationSum done.toFinset k (n.cache.rowState k).cl col) := by
  have hl := RowState.isLive_iff.mp ((h.mem_rows k).mp (Finmap.mem_of_lookup_eq_some hx))
  obtain ⟨y,hy,-,-,hsum⟩ := (h.sums k).live hl
  cases hx.symm.trans hy
  rw [hsum col hcol,counterSum_eq_generationSum hnodup]

theorem HoldsSums.cl_le {applied applied' : List Changeset} {k : RowKey} {row row' : Option Row}
    {rs rs' : RowState} (hsub : ∀ cs ∈ applied,cs ∈ applied')
    (h : HoldsSums tab (writes applied) k row rs)
    (h' : HoldsSums tab (writes applied') k row' rs') : rs.cl ≤ rs'.cl := by
  rcases h.attained with hz | ⟨w,hw,hk,hcl⟩
  · omega
  · obtain ⟨cs,hcs,hs,hr⟩ := mem_writes.mp hw
    rw [← hcl]
    exact h'.top w (mem_writes.mpr ⟨cs,hsub cs hcs,hs,hr⟩) hk

end Run

namespace CounterSample

def table : Table where
  id := 1
  columns := [⟨1,1,false,true,false,.null,.binary⟩,⟨2,0,true,true,false,.int 0,.binary⟩,
    ⟨3,0,false,false,false,.null,.binary⟩]
  uniqueKeys := []
  cellGroup := true
  dropped := false

def config : Config where
  catalog := ⟨fun id => if id = 1 then some table else none⟩
  schemaSeq := 0
  quarantineCap := 1

def key : RowKey := ⟨1,replicate 15 0++[1,3,1,97]⟩
def count (n : Byte) : ColValue := ⟨2,colInt,.text,[0,0,0,0,0,0,0,n]⟩
def name (b : Byte) : ColValue := ⟨3,colText,.text,[b]⟩
def inserted : Changeset := ⟨⟨7,1⟩,⟨⟨1,0⟩,7⟩,[.insert key 1 [count 5,name 97]],0⟩
def deleted : Changeset := ⟨⟨7,2⟩,⟨⟨2,0⟩,7⟩,[.delete key 2],0⟩
def inserted' : Changeset := ⟨⟨7,3⟩,⟨⟨3,0⟩,7⟩,[.insert key 3 [count 10,name 98]],0⟩
def updated : Changeset := ⟨⟨8,1⟩,⟨⟨4,0⟩,8⟩,[.update key 3 [name 99]],0⟩
def changesets : Finset Changeset := {inserted,deleted,inserted',updated}

theorem counterTable : CounterTable table := ⟨⟨rfl,rfl,rfl,by decide⟩,by decide,by decide⟩

theorem isCounterColumn_iff {col : ColumnID} (h : table.isCounterColumn col = true) : col = 2 := by
  obtain ⟨c,hc,rfl,hcnt⟩ := exists_counter h
  simp only [table,mem_cons,not_mem_nil,or_false] at hc
  rcases hc with rfl | rfl | rfl
  · simp at hcnt
  · rfl
  · simp at hcnt

theorem insertRecord (cl : ℕ) (n b : Byte) :
    CounterRecord table (.insert key cl [count n,name b]) := by
  refine ⟨rfl,rfl,by simp [Record.values,count,name],?_,⟨?_,?_,?_,?_⟩,?_⟩
  · intro v hv hc
    have hcol := isCounterColumn_iff hc
    simp only [Record.values,mem_cons,not_mem_nil,or_false] at hv
    rcases hv with rfl | rfl
    · exact ⟨rfl,rfl⟩
    · simp [name] at hcol
  · simpa using ⟨⟨_,rfl⟩,⟨_,rfl⟩⟩
  · simp [table,Table.nonPKColumns,count,name]
  · rfl
  · simp [count,name]
  · simp [count,name,table,Table.columnByID]

theorem contribution_bounds : ∀ cs ∈ changesets,∀ r ∈ cs.records,
    0 ≤ contribution r 2 ∧ contribution r 2 ≤ 10 := by decide

theorem generationSum_fits {T : Finset Changeset} (hT : T ⊆ changesets) (k : RowKey) (cl : ℕ) :
    InInt64 (generationSum T k cl 2) := by
  have hone : ∀ cs ∈ T,0 ≤ (cs.records.map fun r => if r.key = k ∧ r.cl = cl then contribution r 2
      else 0).sum ∧ (cs.records.map fun r => if r.key = k ∧ r.cl = cl then contribution r 2
      else 0).sum ≤ 10 := by
    intro cs hcs
    have hlen : ∀ cs ∈ changesets,∃ r,cs.records = [r] := by
      simp [changesets,inserted,deleted,inserted',updated]
    obtain ⟨r,hr⟩ := hlen cs (hT hcs)
    have := contribution_bounds cs (hT hcs) r (by simp [hr])
    rw [hr,map_singleton,sum_singleton]
    split_ifs
    · exact this
    · decide
  have hcard : T.card ≤ 4 := Finset.card_le_card hT
  have hlow : 0 ≤ generationSum T k cl 2 := Finset.sum_nonneg fun cs hcs => (hone cs hcs).1
  have hhigh := Finset.sum_le_card_nsmul T _ 10 fun cs hcs => (hone cs hcs).2
  have hsum : generationSum T k cl 2 ≤ T.card*10 := by simpa [generationSum] using hhigh
  constructor <;> omega

theorem workload : CounterWorkload table changesets where
  wellFormed := by decide
  dot_inj := by decide
  stamp_inj := by decide
  records := by
    intro cs hcs r hr
    simp only [changesets,Finset.mem_insert,Finset.mem_singleton] at hcs
    rcases hcs with rfl | rfl | rfl | rfl <;> rw [mem_singleton.mp hr]
    · exact insertRecord 1 5 97
    · exact ⟨rfl,rfl,by simp [Record.values],by simp [Record.values],trivial⟩
    · exact insertRecord 3 10 98
    · refine ⟨rfl,rfl,by simp [Record.values,name],?_,by simp,by simpa using ⟨_,rfl⟩,by decide,
        by decide,by decide⟩
      intro v hv hc
      have hcol := isCounterColumn_iff hc
      rw [mem_singleton.mp hv] at hcol
      simp [name] at hcol
  updatesFirst := by decide
  fits T hT k cl col hcol := by
    rw [isCounterColumn_iff hcol]
    exact generationSum_fits hT k cl

theorem deliversOnce {me : Origin} (hme : me ≠ 7 ∧ me ≠ 8) {order : List Changeset}
    (h : order.Nodup ∧ order.toFinset = changesets) : DeliversOnce config me changesets order where
  origin_ne := by
    intro cs hcs
    simp only [changesets,Finset.mem_insert,Finset.mem_singleton] at hcs
    rcases hcs with rfl | rfl | rfl | rfl
    · exact hme.1.symm
    · exact hme.1.symm
    · exact hme.1.symm
    · exact hme.2.symm
  schema := by decide
  nodup := h.1
  mem cs := by rw [← h.2,mem_toFinset]

end CounterSample

end Syzy
