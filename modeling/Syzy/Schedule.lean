import Mathlib.Data.List.Nodup
import Syzy.Frontier
import Syzy.Node

/-!
Runs of one replica under deliveries and retry rounds. However changesets are reordered,
redelivered, set aside and forced later, what a run leaves is the result of applying each changeset
at most once, in some order, with the rest in quarantine.
-/

namespace Syzy

open List Node

inductive Event where
  | deliver (cs : Changeset)
  | retry

def runEvent (cfg : Config) (n : Node) : Event → Node
  | .deliver cs => (applyPayload cfg n cs).1
  | .retry => retryQuarantined cfg n

def run (cfg : Config) (n : Node) (events : List Event) : Node := events.foldl (runEvent cfg) n

@[simp] theorem run_nil (cfg : Config) (n : Node) : run cfg n [] = n := rfl
@[simp] theorem run_concat (cfg : Config) (n : Node) (events : List Event) (e : Event) :
    run cfg n (events++[e]) = runEvent cfg (run cfg n events) e := by
  simp [run]

/-- Some delivery of the changeset in the run was accepted. -/
def Delivered (cfg : Config) (n : Node) (events : List Event) (cs : Changeset) : Prop :=
  ∃ pre,pre++[.deliver cs] <+: events ∧ (applyPayload cfg (run cfg n pre) cs).2 = .ok ()

def settleRounds (cfg : Config) : ℕ → Node → Node
  | 0,n => n
  | fuel+1,n =>
    let n' := retryQuarantined cfg n
    if n'.quarantine.length = n.quarantine.length then n' else settleRounds cfg fuel n'

def settle (cfg : Config) (n : Node) : Node := settleRounds cfg (n.quarantine.length+1) n

/-- A finite set of changesets as the cluster's producers make them: each dot and each stamp
names one changeset. -/
structure Workload (S : Finset Changeset) : Prop where
  wellFormed : ∀ cs ∈ S,cs.WellFormed
  dot_inj : ∀ a ∈ S,∀ b ∈ S,a.dot = b.dot → a = b
  stamp_inj : ∀ a ∈ S,∀ b ∈ S,a.stamp = b.stamp → a = b

theorem Workload.record_unique {S : Finset Changeset} (hS : Workload S) {cs cs' : Changeset} (hcs : cs ∈ S)
    (hcs' : cs' ∈ S) {r r' : Record} (hr : r ∈ cs.records) (hr' : r' ∈ cs'.records)
    (hkey : r.key = r'.key) (hcl : r.cl = r'.cl) (hstamp : cs.stamp = cs'.stamp) : r = r' := by
  obtain rfl := hS.stamp_inj cs hcs cs' hcs' hstamp
  by_contra hne
  have hpair := (hS.wellFormed cs hcs).climbs
  obtain ⟨pre,post,hsplit⟩ := append_of_mem hr
  rw [hsplit,pairwise_append,pairwise_cons] at hpair
  rw [hsplit] at hr'
  rcases mem_append.mp hr' with h | h
  · have := hpair.2.2 r' h r (by simp) hkey.symm
    omega
  · rcases mem_cons.mp h with h | h
    · exact hne h.symm
    · have := hpair.2.1.1 r' h hkey
      omega

/-- Every update of a row has an insert of its generation made earlier. -/
def InsertBefore (S : Finset Changeset) : Prop :=
  ∀ cs ∈ S,∀ k cl changed,.update k cl changed ∈ cs.records →
    ∃ cs' ∈ S,cs'.stamp < cs.stamp ∧ ∃ image,.insert k cl image ∈ cs'.records

/-- The workload reaches a remote replica that has its schema and needs no counter bookkeeping
for it. -/
structure RemoteTo (cfg : Config) (me : Origin) (S : Finset Changeset) : Prop where
  origin_ne : ∀ cs ∈ S,cs.dot.origin ≠ me
  schema : ∀ cs ∈ S,cs.requiredSchemaSeq ≤ cfg.schemaSeq
  noCounters : ∀ cs ∈ S,counterBearing cfg.catalog cs.records = false

def Node.quarantined (n : Node) : List Changeset := n.quarantine.map QuarantineEntry.changeset

/-- The bookkeeping of a reached node: `applied` lists the changesets whose transactions
committed, in order. -/
structure Ledger (me : Origin) (S : Finset Changeset) (n : Node) (applied : List Changeset) :
    Prop where
  self_eq : n.cache.self = me
  mem : ∀ cs ∈ applied++n.quarantined,cs ∈ S
  nodup : (applied++n.quarantined).Nodup
  marked : ∀ cs ∈ S,n.cache.isAppliedRemote cs.dot.origin cs.dot.seq = true ↔
    cs ∈ applied++n.quarantined

section Step

variable {cfg : Config} {me : Origin} {S : Finset Changeset} {n : Node}
  {applied : List Changeset} {cs : Changeset}

/-- Without counters the apply is the guarded transaction followed by the advance. -/
theorem applyPayloadCache_eq (hself : cs.dot.origin ≠ n.cache.self)
    (hcnt : counterBearing cfg.catalog cs.records = false) (force : Bool) :
    applyPayloadCache cfg n cs force =
      if ¬force ∧ n.cache.isAppliedRemote cs.dot.origin cs.dot.seq then (n,.ok ())
      else if cfg.schemaSeq < cs.requiredSchemaSeq then (n,.error (.schemaBehind 0))
      else match applyData cfg.catalog n.toData cs.stamp cs.records with
        | .error e => (n,.error e)
        | .ok d => (advance { n with toData := d } cs,.ok ()) := by
  unfold applyPayloadCache
  rw [if_neg hself]
  split_ifs with h₁ h₂
  · rfl
  · rfl
  · simp only [planApply,hcnt,commit]
    cases h : applyData cfg.catalog n.toData cs.stamp cs.records <;> simp [Except.map,h]

/-- Everything a delivery can do: nothing, commit and advance, or set the changeset aside. -/
theorem applyPayload_cases (cfg : Config) (hself : cs.dot.origin ≠ n.cache.self)
    (hcnt : counterBearing cfg.catalog cs.records = false) :
    ((applyPayload cfg n cs).1 = n ∧ ((applyPayload cfg n cs).2 = .ok () →
      n.cache.isAppliedRemote cs.dot.origin cs.dot.seq = true)) ∨
    (n.cache.isAppliedRemote cs.dot.origin cs.dot.seq = false ∧
      ∃ d,applyData cfg.catalog n.toData cs.stamp cs.records = .ok d ∧
        (applyPayload cfg n cs).1 = advance { n with toData := d } cs) ∨
    (n.cache.isAppliedRemote cs.dot.origin cs.dot.seq = false ∧
      ¬cfg.schemaSeq < cs.requiredSchemaSeq ∧
      ∃ e,applyData cfg.catalog n.toData cs.stamp cs.records = .error e ∧
        (applyPayload cfg n cs).1 = { n with
          quarantine := putQuarantine n.quarantine cs e
          cache := n.cache.markApplied cs.dot.origin cs.dot.seq cs.stamp.clock }) := by
  unfold applyPayload
  rw [applyPayloadCache_eq hself hcnt]
  by_cases happ : n.cache.isAppliedRemote cs.dot.origin cs.dot.seq = true
  · left
    simp [happ]
  · by_cases hs : cfg.schemaSeq < cs.requiredSchemaSeq
    · left
      simp [happ,hs,isDeterministicApplyFailure]
    · rw [if_neg (by simp [happ]),if_neg hs]
      rw [Bool.not_eq_true] at happ
      cases h : applyData cfg.catalog n.toData cs.stamp cs.records with
      | ok d => exact .inr (.inl ⟨happ,d,rfl,rfl⟩)
      | error e =>
        by_cases hdet : isDeterministicApplyFailure e = true
        · simp only [hdet,if_true]
          unfold quarantineFailure
          split_ifs with hcap
          · left
            simp
          · exact .inr (.inr ⟨happ,hs,e,rfl,rfl⟩)
        · left
          simp [hdet]

/-- Everything a forced retry can do: commit, advance and clear the entry, or count the failure. -/
theorem retryEntry_cases (cfg : Config) {e : QuarantineEntry}
    (hself : e.changeset.dot.origin ≠ n.cache.self)
    (hcnt : counterBearing cfg.catalog e.changeset.records = false) :
    (∃ d,applyData cfg.catalog n.toData e.changeset.stamp e.changeset.records = .ok d ∧
      retryEntry cfg n e = { advance { n with toData := d } e.changeset with
        quarantine := deleteQuarantine n.quarantine e.changeset.dot }) ∨
    (cfg.schemaSeq < e.changeset.requiredSchemaSeq ∨
        ∃ err,applyData cfg.catalog n.toData e.changeset.stamp e.changeset.records = .error err) ∧
      (retryEntry cfg n e = n ∨ retryEntry cfg n e = { n with
        quarantine := bumpQuarantineAttempt n.quarantine e.changeset.dot }) := by
  unfold retryEntry
  rw [applyPayloadCache_eq hself hcnt]
  simp only [not_true_eq_false,false_and,if_false]
  split_ifs with h
  · right
    exact ⟨.inl h,.inl (by simp [isDeterministicApplyFailure])⟩
  · cases hd : applyData cfg.catalog n.toData e.changeset.stamp e.changeset.records with
    | ok d => exact .inl ⟨d,rfl,rfl⟩
    | error err =>
      right
      refine ⟨.inr ⟨err,rfl⟩,?_⟩
      by_cases hdet : isDeterministicApplyFailure err = true
      · exact .inr (by simp [hdet])
      · exact .inl (by simp [hdet])

theorem Ledger.new (me : Origin) (S : Finset Changeset) : Ledger me S (new me) [] where
  self_eq := rfl
  mem := by simp [quarantined,Node.new]
  nodup := by simp [quarantined,Node.new]
  marked := fun cs _ => by
    simp [quarantined,Node.new,Cache.isAppliedRemote,Cache.new]

theorem marked_markApplied (hS : Workload S) (hne : ∀ cs ∈ S,cs.dot.origin ≠ me) {c : Cache}
    (hself : c.self = me) (hcs : cs ∈ S) {c' : Changeset} (hc' : c' ∈ S) (hlc : Clock) :
    (c.markApplied cs.dot.origin cs.dot.seq hlc).isAppliedRemote c'.dot.origin c'.dot.seq = true ↔
      c' = cs ∨ c.isAppliedRemote c'.dot.origin c'.dot.seq = true := by
  rw [Cache.isAppliedRemote_markApplied hlc (hS.wellFormed c' hc').seq_ne_zero,hself]
  refine or_congr_left ⟨fun h => ?_,fun h => ?_⟩
  · refine hS.dot_inj c' hc' cs hcs ?_
    cases hd : c'.dot
    cases hd' : cs.dot
    simp_all
  · subst h
    exact ⟨hne c' hc',rfl,rfl⟩

theorem Ledger.not_mem (hL : Ledger me S n applied) (hcs : cs ∈ S)
    (h : n.cache.isAppliedRemote cs.dot.origin cs.dot.seq = false) : cs ∉ applied++n.quarantined := by
  intro hmem
  rw [← hL.marked cs hcs,h] at hmem
  exact absurd hmem (by decide)

theorem Ledger.no_resident (hS : Workload S) (hL : Ledger me S n applied) (hcs : cs ∈ S)
    (h : cs ∉ applied++n.quarantined) : ∀ e ∈ n.quarantine,e.changeset.dot ≠ cs.dot := by
  intro e he hdot
  have hq : e.changeset ∈ n.quarantined := mem_map_of_mem he
  have heq := hS.dot_inj _ (hL.mem _ (mem_append_right _ hq)) _ hcs hdot
  exact h (mem_append_right _ (heq ▸ hq))

section

variable (hS : Workload S) (hne : ∀ cs ∈ S,cs.dot.origin ≠ me) (hL : Ledger me S n applied)
include hS hne hL

theorem Ledger.commit (hcs : cs ∈ S) (hfresh : cs ∉ applied++n.quarantined) {d : Data}
    (hd : n.cache.SameFrontier d.cache) :
    Ledger me S (advance { n with toData := d } cs) (applied++[cs]) := by
  have hperm : ((applied++[cs])++n.quarantined).Perm (cs::(applied++n.quarantined)) := by
    rw [append_assoc,singleton_append]
    exact perm_middle
  refine ⟨hd.self.trans hL.self_eq,fun c hc => ?_,?_,fun c hc => ?_⟩
  · rcases mem_cons.mp (hperm.mem_iff.mp hc) with rfl | hc
    · exact hcs
    · exact hL.mem c hc
  · exact hperm.nodup_iff.mpr (nodup_cons.mpr ⟨hfresh,hL.nodup⟩)
  · have hm := marked_markApplied hS hne (hd.self.trans hL.self_eq) hcs hc cs.stamp.clock
    rw [hd.isAppliedRemote] at hm
    exact hm.trans ((or_congr_right (hL.marked c hc)).trans
      (mem_cons.symm.trans hperm.mem_iff.symm))

theorem Ledger.setAside (hcs : cs ∈ S) (hfresh : cs ∉ applied++n.quarantined) (err : ApplyError) :
    Ledger me S { n with
      quarantine := putQuarantine n.quarantine cs err
      cache := n.cache.markApplied cs.dot.origin cs.dot.seq cs.stamp.clock } applied := by
  have hput : putQuarantine n.quarantine cs err = n.quarantine++[⟨cs,err,0⟩] := by
    unfold putQuarantine
    rw [if_neg]
    simpa using hL.no_resident hS hcs hfresh
  have hperm : (applied++(n.quarantined++[cs])).Perm (cs::(applied++n.quarantined)) := by
    rw [← append_assoc]
    exact perm_append_singleton cs _
  have hq : quarantined { n with
      quarantine := putQuarantine n.quarantine cs err
      cache := n.cache.markApplied cs.dot.origin cs.dot.seq cs.stamp.clock } =
        n.quarantined++[cs] := by
    simp [quarantined,hput]
  refine ⟨hL.self_eq,fun c hc => ?_,?_,fun c hc => ?_⟩
  · rw [hq,hperm.mem_iff] at hc
    rcases mem_cons.mp hc with rfl | hc
    · exact hcs
    · exact hL.mem c hc
  · rw [hq]
    exact hperm.nodup_iff.mpr (nodup_cons.mpr ⟨hfresh,hL.nodup⟩)
  · rw [hq,hperm.mem_iff,mem_cons,← hL.marked c hc]
    exact marked_markApplied hS hne hL.self_eq hcs hc cs.stamp.clock

end

theorem deleteQuarantine_quarantined (hS : Workload S) (hL : Ledger me S n applied) (hcs : cs ∈ S) :
    (deleteQuarantine n.quarantine cs.dot).map QuarantineEntry.changeset =
      n.quarantined.filter (· ≠ cs) := by
  unfold deleteQuarantine quarantined
  rw [filter_map]
  congr 1
  refine filter_congr fun e he => ?_
  have hq : e.changeset ∈ n.quarantined := mem_map_of_mem he
  have hmem := hL.mem _ (mem_append_right _ hq)
  by_cases h : e.changeset = cs
  · simp [h]
  · have hdot : e.changeset.dot ≠ cs.dot := fun hd => h (hS.dot_inj _ hmem _ hcs hd)
    simp [h,hdot]

@[simp] theorem bumpQuarantineAttempt_quarantined (q : List QuarantineEntry) (dot : Dot) :
    (bumpQuarantineAttempt q dot).map QuarantineEntry.changeset =
      q.map QuarantineEntry.changeset := by
  simp only [bumpQuarantineAttempt,map_map]
  refine map_congr_left fun e _ => ?_
  by_cases h : e.changeset.dot = dot <;> simp [h]

theorem Ledger.release (hS : Workload S) (hne : ∀ cs ∈ S,cs.dot.origin ≠ me) (hL : Ledger me S n applied)
    (hcs : cs ∈ n.quarantined) {d : Data} (hd : n.cache.SameFrontier d.cache) :
    Ledger me S { advance { n with toData := d } cs with
      quarantine := deleteQuarantine n.quarantine cs.dot } (applied++[cs]) := by
  have hmemS := hL.mem cs (mem_append_right _ hcs)
  have hq := deleteQuarantine_quarantined hS hL hmemS
  have hmem : ∀ c,c ∈ (applied++[cs])++n.quarantined.filter (· ≠ cs) ↔
      c ∈ applied++n.quarantined := by
    intro c
    by_cases h : c = cs
    · subst h
      simp [hcs]
    · simp [h]
  have hnq := (nodup_append.mp hL.nodup)
  refine ⟨hd.self.trans hL.self_eq,fun c hc => ?_,?_,fun c hc => ?_⟩
  · change c ∈ (applied++[cs])++(deleteQuarantine n.quarantine cs.dot).map _ at hc
    rw [hq,hmem] at hc
    exact hL.mem c hc
  · change ((applied++[cs])++(deleteQuarantine n.quarantine cs.dot).map _).Nodup
    rw [hq,nodup_append,nodup_append]
    refine ⟨⟨hnq.1,nodup_singleton cs,?_⟩,hnq.2.1.filter _,?_⟩
    · intro a ha b hb
      rw [mem_singleton.mp hb]
      exact hnq.2.2 a ha cs hcs
    · intro a ha b hb
      obtain ⟨hb,hne⟩ := mem_filter.mp hb
      rcases mem_concat.mp ha with ha | rfl
      · exact hnq.2.2 a ha b hb
      · exact fun h => by simp [h] at hne
  · change _ ↔ c ∈ (applied++[cs])++(deleteQuarantine n.quarantine cs.dot).map _
    have hm := marked_markApplied hS hne (hd.self.trans hL.self_eq) hmemS hc cs.stamp.clock
    rw [hd.isAppliedRemote] at hm
    rw [hq,hmem,← hL.marked c hc]
    refine hm.trans (or_iff_right_of_imp ?_)
    rintro rfl
    exact (hL.marked c hc).mpr (mem_append_right _ hcs)

end Step

/-- What the data of a node says about the changesets applied so far. -/
abbrev DataPred := List Changeset → Rows → (RowKey → RowState) → BlobRangeClock → Prop

/-- A statement about the data that a fresh node meets and every committed changeset keeps. -/
structure DataInvariant (cfg : Config) (S : Finset Changeset) (P : DataPred) : Prop where
  init : P [] ∅ (fun _ => default) ∅
  step : ∀ (applied : List Changeset) (d : Data) (cs : Changeset) (d' : Data),
    (∀ c ∈ applied,c ∈ S) → cs ∈ S → cs ∉ applied →
    P applied d.rows d.cache.rowState d.blob →
    applyData cfg.catalog d cs.stamp cs.records = .ok d' →
    P (applied++[cs]) d'.rows d'.cache.rowState d'.blob

structure Reached (me : Origin) (S : Finset Changeset) (P : DataPred) (n : Node)
    (applied : List Changeset) : Prop where
  ledger : Ledger me S n applied
  data : P applied n.rows n.cache.rowState n.blob

section Run

variable {cfg : Config} {me : Origin} {S : Finset Changeset} {P : DataPred} {n : Node}
  {applied : List Changeset} {cs : Changeset}

theorem Reached.new (hP : DataInvariant cfg S P) : Reached me S P (new me) [] where
  ledger := .new me S
  data := by
    have hrow : (Node.new me).cache.rowState = fun _ => default := by
      funext k
      simp [Cache.rowState,Node.new,Cache.new]
    rw [hrow]
    exact hP.init

theorem Reached.origin_ne (hR : RemoteTo cfg me S) (h : Reached me S P n applied) (hcs : cs ∈ S) :
    cs.dot.origin ≠ n.cache.self := by
  rw [h.ledger.self_eq]
  exact hR.origin_ne cs hcs

theorem Reached.mem_applied (h : Reached me S P n applied) : ∀ c ∈ applied,c ∈ S :=
  fun c hc => h.ledger.mem c (mem_append_left _ hc)

/-- A delivery keeps the invariant, loses no changeset and accounts for the one it accepts. -/
theorem Reached.deliver (hS : Workload S) (hR : RemoteTo cfg me S) (hP : DataInvariant cfg S P)
    (h : Reached me S P n applied) (hcs : cs ∈ S) :
    ∃ applied',Reached me S P (applyPayload cfg n cs).1 applied' ∧
      (∀ c ∈ applied++n.quarantined,c ∈ applied'++(applyPayload cfg n cs).1.quarantined) ∧
      ((applyPayload cfg n cs).2 = .ok () →
        cs ∈ applied'++(applyPayload cfg n cs).1.quarantined) := by
  rcases applyPayload_cases cfg (h.origin_ne hR hcs) (hR.noCounters cs hcs) with
    ⟨hn,hok⟩ | ⟨hnew,d,hd,hn⟩ | ⟨hnew,-,e,-,hn⟩
  · rw [hn]
    exact ⟨applied,h,fun c hc => hc,fun hacc => (h.ledger.marked cs hcs).mp (hok hacc)⟩
  · have hfresh := h.ledger.not_mem hcs hnew
    have hL := h.ledger.commit hS hR.origin_ne hcs hfresh (applyData_sameFrontier hd)
    have happ : cs ∉ applied := fun hc => hfresh (mem_append_left _ hc)
    rw [hn]
    refine ⟨applied++[cs],⟨hL,hP.step applied n.toData cs d h.mem_applied hcs happ h.data hd⟩,?_,?_⟩
    · intro c hc
      rcases mem_append.mp hc with hc | hc
      · exact mem_append_left _ (mem_append_left _ hc)
      · exact mem_append_right _ hc
    · exact fun _ => mem_append_left _ (by simp)
  · have hfresh := h.ledger.not_mem hcs hnew
    have hL := h.ledger.setAside hS hR.origin_ne hcs hfresh e
    rw [hn]
    refine ⟨applied,⟨hL,h.data⟩,fun c hc => ?_,fun _ => ?_⟩
    · exact (hL.marked c (h.ledger.mem c hc)).mp ((marked_markApplied hS hR.origin_ne h.ledger.self_eq hcs
        (h.ledger.mem c hc) cs.stamp.clock).mpr (.inr ((h.ledger.marked c (h.ledger.mem c hc)).mpr hc)))
    · exact (hL.marked cs hcs).mp ((marked_markApplied hS hR.origin_ne h.ledger.self_eq hcs hcs
        cs.stamp.clock).mpr (.inl rfl))

variable {e : QuarantineEntry} {events : List Event}

def Stuck (cfg : Config) (d : Data) (cs : Changeset) : Prop :=
  cfg.schemaSeq < cs.requiredSchemaSeq ∨
    ∃ err,applyData cfg.catalog d cs.stamp cs.records = .error err

@[simp] theorem quarantined_length (n : Node) : n.quarantined.length = n.quarantine.length := by
  simp [quarantined]

/-- A forced entry is cleared, or it was stuck and nothing but its attempt count moved. -/
theorem Reached.forceEntry_progress (hR : RemoteTo cfg me S) (h : Reached me S P n applied)
    (he : e.changeset ∈ n.quarantined) :
    (retryEntry cfg n e).quarantined.length < n.quarantined.length ∨
      (retryEntry cfg n e).quarantined = n.quarantined ∧
        (retryEntry cfg n e).toData = n.toData ∧ Stuck cfg n.toData e.changeset := by
  have hcs := h.ledger.mem _ (mem_append_right applied he)
  rcases retryEntry_cases cfg (h.origin_ne hR hcs) (hR.noCounters _ hcs) with
    ⟨d,-,hn⟩ | ⟨hstuck,hn | hn⟩
  · left
    rw [hn,quarantined_length,quarantined_length]
    obtain ⟨e',he',heq⟩ := mem_map.mp he
    exact length_filter_lt_length_iff_exists.mpr ⟨e',he',by simp [heq]⟩
  · right
    rw [hn]
    exact ⟨rfl,rfl,hstuck⟩
  · right
    rw [hn]
    exact ⟨bumpQuarantineAttempt_quarantined _ _,rfl,hstuck⟩

section

variable (hS : Workload S) (hR : RemoteTo cfg me S) (hP : DataInvariant cfg S P)
include hS hR hP

/-- Forcing a resident entry keeps the invariant and leaves every other entry where it is. -/
theorem Reached.forceEntry (h : Reached me S P n applied) (he : e.changeset ∈ n.quarantined) :
    ∃ applied',Reached me S P (retryEntry cfg n e) applied' ∧
      (∀ c ∈ applied++n.quarantined,c ∈ applied'++(retryEntry cfg n e).quarantined) ∧
      ∀ c ∈ n.quarantined,c ≠ e.changeset → c ∈ (retryEntry cfg n e).quarantined := by
  have hcs := h.ledger.mem _ (mem_append_right applied he)
  rcases retryEntry_cases cfg (h.origin_ne hR hcs) (hR.noCounters _ hcs) with
    ⟨d,hd,hn⟩ | ⟨-,hn | hn⟩
  · have hL := h.ledger.release hS hR.origin_ne he (applyData_sameFrontier hd)
    have happ : e.changeset ∉ applied := fun hc =>
      (nodup_append.mp h.ledger.nodup).2.2 _ hc _ he rfl
    have hkeep : ∀ c ∈ n.quarantined,c ≠ e.changeset → c ∈ (retryEntry cfg n e).quarantined := by
      intro c hc hne
      rw [hn]
      change c ∈ (deleteQuarantine n.quarantine e.changeset.dot).map _
      rw [deleteQuarantine_quarantined hS h.ledger hcs]
      simpa [hne] using hc
    refine ⟨applied++[e.changeset],?_,fun c hc => ?_,hkeep⟩
    · rw [hn]
      exact ⟨hL,hP.step applied n.toData _ d h.mem_applied hcs happ h.data hd⟩
    · rcases mem_append.mp hc with hc | hc
      · exact mem_append_left _ (mem_append_left _ hc)
      · by_cases hce : c = e.changeset
        · exact mem_append_left _ (by simp [hce])
        · exact mem_append_right _ (hkeep c hc hce)
  · rw [hn]
    exact ⟨applied,h,fun c hc => hc,fun c hc _ => hc⟩
  · have hq : (retryEntry cfg n e).quarantined = n.quarantined := by
      rw [hn]
      exact bumpQuarantineAttempt_quarantined _ _
    refine ⟨applied,?_,fun c hc => by rwa [hq],fun c hc _ => by rwa [hq]⟩
    rw [hn] at hq ⊢
    refine ⟨⟨h.ledger.self_eq,?_,?_,?_⟩,h.data⟩
    · rw [hq]
      exact h.ledger.mem
    · rw [hq]
      exact h.ledger.nodup
    · rw [hq]
      exact h.ledger.marked

theorem Reached.forceEntries (es : List QuarantineEntry)
    (hes : (es.map QuarantineEntry.changeset).Nodup) :
    ∀ (n : Node) (applied : List Changeset),Reached me S P n applied →
      (∀ e ∈ es,e.changeset ∈ n.quarantined) →
      (∃ applied',Reached me S P (es.foldl (retryEntry cfg) n) applied' ∧
        ∀ c ∈ applied++n.quarantined,c ∈ applied'++(es.foldl (retryEntry cfg) n).quarantined) ∧
      ((es.foldl (retryEntry cfg) n).quarantined.length < n.quarantined.length ∨
        (es.foldl (retryEntry cfg) n).quarantined = n.quarantined ∧
          (es.foldl (retryEntry cfg) n).toData = n.toData ∧
          ∀ e ∈ es,Stuck cfg n.toData e.changeset) := by
  induction es with
  | nil => exact fun n applied h _ => ⟨⟨applied,h,fun c hc => hc⟩,.inr ⟨rfl,rfl,by simp⟩⟩
  | cons e es ih =>
    intro n applied h hres
    rw [map_cons,nodup_cons] at hes
    obtain ⟨hhead,htail⟩ := hes
    have he := hres e (by simp)
    obtain ⟨applied₁,h₁,hsub₁,hkeep⟩ := h.forceEntry hS hR hP he
    have hres₁ : ∀ e' ∈ es,e'.changeset ∈ (retryEntry cfg n e).quarantined := fun e' he' =>
      hkeep _ (hres e' (by simp [he'])) fun heq => hhead (by
        rw [← heq]
        exact mem_map_of_mem he')
    obtain ⟨⟨applied₂,h₂,hsub₂⟩,hrest⟩ := ih htail (retryEntry cfg n e) applied₁ h₁ hres₁
    refine ⟨⟨applied₂,h₂,fun c hc => hsub₂ c (hsub₁ c hc)⟩,?_⟩
    rw [foldl_cons]
    rcases h.forceEntry_progress hR he with hlt | ⟨hq,hdata,hstuck⟩
    · left
      rcases hrest with hlt' | ⟨hq',-⟩
      · exact hlt'.trans hlt
      · rwa [hq']
    · rw [hq,hdata] at hrest
      rcases hrest with hlt' | ⟨hq',hdata',hstuck'⟩
      · exact .inl hlt'
      · refine .inr ⟨hq',hdata',fun e' he' => ?_⟩
        rcases mem_cons.mp he' with rfl | he'
        · exact hstuck
        · exact hstuck' e' he'

/-- A retry round keeps the invariant; it clears an entry, or every resident entry is stuck. -/
theorem Reached.retry (h : Reached me S P n applied) :
    (∃ applied',Reached me S P (retryQuarantined cfg n) applied' ∧
      ∀ c ∈ applied++n.quarantined,c ∈ applied'++(retryQuarantined cfg n).quarantined) ∧
    ((retryQuarantined cfg n).quarantined.length < n.quarantined.length ∨
      (retryQuarantined cfg n).quarantined = n.quarantined ∧
        (retryQuarantined cfg n).toData = n.toData ∧ ∀ c ∈ n.quarantined,Stuck cfg n.toData c) := by
  obtain ⟨hreached,hprogress⟩ := Reached.forceEntries hS hR hP n.quarantine
    (nodup_append.mp h.ledger.nodup).2.1 n applied h fun _ he => mem_map_of_mem he
  refine ⟨hreached,hprogress.imp_right fun ⟨hq,hdata,hstuck⟩ => ⟨hq,hdata,fun c hc => ?_⟩⟩
  obtain ⟨e,he,rfl⟩ := mem_map.mp hc
  exact hstuck e he

end

def EventsFrom (S : Finset Changeset) (events : List Event) : Prop :=
  ∀ cs,Event.deliver cs ∈ events → cs ∈ S

/-- Every run keeps the invariant for some order of the changesets it has applied, and each
accepted changeset is applied or in quarantine. -/
theorem reached_run (hS : Workload S) (hR : RemoteTo cfg me S) (hP : DataInvariant cfg S P)
    (events : List Event) (hev : EventsFrom S events) :
    ∃ applied,Reached me S P (run cfg (new me) events) applied ∧
      ∀ cs,Delivered cfg (new me) events cs →
        cs ∈ applied++(run cfg (new me) events).quarantined := by
  induction events using reverseRecOn with
  | nil =>
    refine ⟨[],.new hP,fun cs hcs => ?_⟩
    obtain ⟨pre,hpre,-⟩ := hcs
    simp at hpre
  | append_singleton events e ih =>
    obtain ⟨applied,h,hdel⟩ := ih fun cs hcs => hev cs (mem_append_left _ hcs)
    rw [run_concat]
    have hpast : ∀ cs,Delivered cfg (new me) (events++[e]) cs →
        Delivered cfg (new me) events cs ∨
          e = .deliver cs ∧ (applyPayload cfg (run cfg (new me) events) cs).2 = .ok () := by
      rintro cs ⟨pre,hpre,hok⟩
      rcases prefix_concat_iff.mp hpre with heq | hpre
      · obtain ⟨rfl,he⟩ := append_inj' heq rfl
        exact .inr ⟨(singleton_inj.mp he).symm,hok⟩
      · exact .inl ⟨pre,hpre,hok⟩
    cases e with
    | deliver cs =>
      obtain ⟨applied',h',hsub,hacc⟩ := h.deliver hS hR hP (hev cs (by simp))
      refine ⟨applied',h',fun c hc => ?_⟩
      rcases hpast c hc with hc | ⟨heq,hok⟩
      · exact hsub c (hdel c hc)
      · cases heq
        exact hacc hok
    | retry =>
      obtain ⟨applied',h',hsub⟩ := (h.retry hS hR hP).1
      refine ⟨applied',h',fun c hc => ?_⟩
      rcases hpast c hc with hc | ⟨heq,-⟩
      · exact hsub c (hdel c hc)
      · cases heq

/-- The data that the transactions of some changesets leave on a fresh node, one after another. -/
inductive Serial (cat : Catalog) : DataPred
  | nil : Serial cat [] ∅ (fun _ => default) ∅
  | concat {applied : List Changeset} {d d' : Data} {cs : Changeset}
      (h : Serial cat applied d.rows d.cache.rowState d.blob)
      (hcs : applyData cat d cs.stamp cs.records = .ok d') :
      Serial cat (applied++[cs]) d'.rows d'.cache.rowState d'.blob

namespace RowGroupSample

def table : Table where
  id := 1
  columns := [⟨1,1,false,true,false,.null,.binary⟩,⟨2,0,false,false,false,.null,.binary⟩]
  uniqueKeys := []
  cellGroup := false
  dropped := false

def config : Config where
  catalog := ⟨fun id => if id = 1 then some table else none⟩
  schemaSeq := 0
  quarantineCap := 1

def key : RowKey := ⟨1,replicate 15 0++[1,3,1,97]⟩
def inserted : Changeset := ⟨⟨7,1⟩,⟨⟨1,0⟩,7⟩,[.insert key 1 [⟨2,colText,.text,[98]⟩]],0⟩
def updated : Changeset := ⟨⟨8,1⟩,⟨⟨2,0⟩,8⟩,[.update key 1 [⟨2,colText,.text,[99]⟩]],0⟩

/-- The update fails before its insert, waits, lands in the retry round and comes once more. -/
def outrun : List Event := [.deliver updated,.deliver inserted,.retry,.deliver updated]

end RowGroupSample

/-- A run that delivers a whole workload to a remote replica: any order, any repetitions, retry
rounds anywhere between. -/
structure DeliversAll (cfg : Config) (me : Origin) (S : Finset Changeset) (events : List Event) :
    Prop where
  origin_ne : ∀ cs ∈ S,cs.dot.origin ≠ me
  schema : ∀ cs ∈ S,cs.requiredSchemaSeq ≤ cfg.schemaSeq
  eventsFrom : EventsFrom S events
  delivered : ∀ cs ∈ S,Delivered cfg (new me) events cs

theorem DeliversAll.remoteTo (h : DeliversAll cfg me S events)
    (hcnt : ∀ cs ∈ S,counterBearing cfg.catalog cs.records = false) : RemoteTo cfg me S :=
  ⟨h.origin_ne,h.schema,hcnt⟩

section

variable (hS : Workload S) (hR : RemoteTo cfg me S) (hP : DataInvariant cfg S P)
include hS hR hP

theorem Reached.afterRounds (fuel : ℕ) :
    ∀ (n : Node) (applied : List Changeset),Reached me S P n applied → n.quarantine.length < fuel →
      ∃ applied',Reached me S P (settleRounds cfg fuel n) applied' ∧ (∀ c ∈ applied++n.quarantined,
          c ∈ applied'++(settleRounds cfg fuel n).quarantined) ∧
        ∀ c ∈ (settleRounds cfg fuel n).quarantined,
          Stuck cfg (settleRounds cfg fuel n).toData c := by
  induction fuel with
  | zero => exact fun n _ _ hfuel => absurd hfuel (by simp)
  | succ fuel ih =>
    intro n applied h hfuel
    obtain ⟨⟨applied₁,h₁,hsub₁⟩,hlt | ⟨hq,hdata,hstuck⟩⟩ := h.retry hS hR hP <;> rw [settleRounds]
    · rw [quarantined_length,quarantined_length] at hlt
      rw [if_neg hlt.ne]
      obtain ⟨applied₂,h₂,hsub₂,hstuck⟩ := ih _ applied₁ h₁ (by omega)
      exact ⟨applied₂,h₂,fun c hc => hsub₂ c (hsub₁ c hc),hstuck⟩
    · have hlen : (retryQuarantined cfg n).quarantine.length = n.quarantine.length := by
        rw [← quarantined_length,hq,quarantined_length]
      rw [if_pos hlen]
      refine ⟨applied₁,h₁,hsub₁,fun c hc => ?_⟩
      rw [hdata]
      exact hstuck c (hq ▸ hc)

/-- Rounds of retries end in a node whose resident changesets all fail against its data. -/
theorem Reached.afterSettle (h : Reached me S P n applied) :
    ∃ applied',Reached me S P (settle cfg n) applied' ∧
      (∀ c ∈ applied++n.quarantined,c ∈ applied'++(settle cfg n).quarantined) ∧
      ∀ c ∈ (settle cfg n).quarantined,Stuck cfg (settle cfg n).toData c :=
  Reached.afterRounds hS hR hP _ n applied h (Nat.lt_succ_self _)

/-- A run followed by its settling: every accepted changeset is applied, or resident and stuck. -/
theorem reached_settle (hev : EventsFrom S events) :
    ∃ applied,Reached me S P (settle cfg (run cfg (new me) events)) applied ∧
      (∀ cs,Delivered cfg (new me) events cs →
        cs ∈ applied++(settle cfg (run cfg (new me) events)).quarantined) ∧
      ∀ cs ∈ (settle cfg (run cfg (new me) events)).quarantined,
        ∃ err,applyData cfg.catalog (settle cfg (run cfg (new me) events)).toData cs.stamp
          cs.records = .error err := by
  obtain ⟨applied,h,hdel⟩ := reached_run hS hR hP events hev
  obtain ⟨applied',h',hsub,hstuck⟩ := h.afterSettle hS hR hP
  refine ⟨applied',h',fun cs hcs => hsub cs (hdel cs hcs),fun cs hcs => ?_⟩
  rcases hstuck cs hcs with hschema | herr
  · have := hR.schema cs (h'.ledger.mem cs (mem_append_right _ hcs))
    omega
  · exact herr

end

theorem applyPayload_of_ok (hself : cs.dot.origin ≠ n.cache.self)
    (hschema : cs.requiredSchemaSeq ≤ cfg.schemaSeq)
    (hcnt : counterBearing cfg.catalog cs.records = false)
    (hok : ∃ d,applyData cfg.catalog n.toData cs.stamp cs.records = .ok d) :
    (applyPayload cfg n cs).2 = .ok () ∧ (applyPayload cfg n cs).1.quarantine = n.quarantine := by
  obtain ⟨d,hd⟩ := hok
  unfold applyPayload
  rw [applyPayloadCache_eq hself hcnt]
  by_cases happ : n.cache.isAppliedRemote cs.dot.origin cs.dot.seq = true
  · simp [happ]
  · rw [if_neg (by simp [happ]),if_neg hschema.not_gt,hd]
    exact ⟨rfl,rfl⟩

/-- A run over a workload that delivers each of its changesets at least once. -/
structure Delivers (cfg : Config) (me : Origin) (S : Finset Changeset) (events : List Event) :
    Prop where
  origin_ne : ∀ cs ∈ S,cs.dot.origin ≠ me
  schema : ∀ cs ∈ S,cs.requiredSchemaSeq ≤ cfg.schemaSeq
  eventsFrom : EventsFrom S events
  all : ∀ cs ∈ S,Event.deliver cs ∈ events

/-- Where no changeset can fail, every delivered one is applied and nothing is ever set aside. -/
theorem run_total (hS : Workload S) (hR : RemoteTo cfg me S) (hP : DataInvariant cfg S P)
    (htotal : ∀ applied (d : Data),∀ cs ∈ S,P applied d.rows d.cache.rowState d.blob →
      ∃ d',applyData cfg.catalog d cs.stamp cs.records = .ok d')
    (hev : EventsFrom S events) :
    ∃ applied,Reached me S P (run cfg (new me) events) applied ∧
      (run cfg (new me) events).quarantine = [] ∧
      ∀ cs,Event.deliver cs ∈ events → cs ∈ applied := by
  induction events using reverseRecOn with
  | nil => exact ⟨[],.new hP,rfl,by simp⟩
  | append_singleton events e ih =>
    obtain ⟨applied,h,hq,hdel⟩ := ih fun cs hcs => hev cs (mem_append_left _ hcs)
    rw [run_concat]
    cases e with
    | deliver cs =>
      have hcs := hev cs (by simp)
      obtain ⟨hacc,hq'⟩ := applyPayload_of_ok (h.origin_ne hR hcs) (hR.schema cs hcs)
        (hR.noCounters cs hcs) (htotal applied _ cs hcs h.data)
      obtain ⟨applied',h',hsub,hmem⟩ := h.deliver hS hR hP hcs
      have hnil : (applyPayload cfg (run cfg (new me) events) cs).1.quarantined = [] := by
        rw [quarantined,hq',hq,map_nil]
      rw [hnil,append_nil] at hsub hmem
      refine ⟨applied',h',hq'.trans hq,fun c hc => ?_⟩
      rcases mem_append.mp hc with hc | hc
      · exact hsub c (mem_append_left _ (hdel c hc))
      · cases mem_singleton.mp hc
        exact hmem hacc
    | retry =>
      have hsame : retryQuarantined cfg (run cfg (new me) events) =
          run cfg (new me) events := by
        rw [retryQuarantined,hq,foldl_nil]
      refine ⟨applied,?_,?_,fun c hc => hdel c (by simpa using hc)⟩
      · rw [runEvent,hsame]
        exact h
      · rw [runEvent,hsame,hq]

end Run

end Syzy
