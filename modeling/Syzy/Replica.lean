import Syzy.Machine
import Syzy.Node
import Syzy.Recover

/-!
One replica as a machine of its durable steps. Applies hold a lock from their transaction to the
end of their advance; setting a failure aside, clearing a retried entry and each stage of a snapshot
pass are steps of their own, so that anything may come between them. A crash keeps the committed
rows and markers, the quarantine table, the metadata store and a prefix of every mirror journal.
-/

namespace Syzy

/-- The apply up to its commit: nothing to do, or a commit and whether it added contributions. -/
def applyCommit (cfg : Config) (n : Node) (cs : Changeset) (force : Bool) :
    Node × Result (Option Bool) :=
  if cs.dot.origin = n.cache.self then (n,.ok none)
  else if ¬force ∧ n.cache.isAppliedRemote cs.dot.origin cs.dot.seq then (n,.ok none)
  else if cfg.schemaSeq < cs.requiredSchemaSeq then (n,.error (.schemaBehind 0))
  else
    let planned := planApply cfg n cs
    let n := { n with markerTableReady := planned.1 }
    match planned.2 with
    | .error e => (n,.error e)
    | .ok plan =>
      let n := { n with
        markerTableReady := n.markerTableReady || (plan.marker.isSome && !plan.records.isEmpty) }
      match n.commit cfg cs.stamp plan with
      | .error e => (n,.error e)
      | .ok n => (n,.ok (some plan.marker.isSome))

theorem applyPayloadCache_eq_commit (cfg : Config) (n : Node) (cs : Changeset) (force : Bool) :
    applyPayloadCache cfg n cs force = match applyCommit cfg n cs force with
      | (n,.ok (some _)) => (n.advance cs,.ok ())
      | (n,.ok none) => (n,.ok ())
      | (n,.error e) => (n,.error e) := by
  unfold applyPayloadCache applyCommit
  split_ifs
  · rfl
  · rfl
  · rfl
  · cases hplan : (planApply cfg n cs).2 with
    | error e => simp only [hplan]
    | ok plan =>
      simp only [hplan]
      cases Node.commit cfg { n with markerTableReady :=
          (planApply cfg n cs).1 || plan.marker.isSome && !plan.records.isEmpty } cs.stamp plan <;>
        rfl

/-- What a commit leaves of its node. A changeset that bears counters adds them exactly when it finds
no marker, and leaves its marker then. -/
structure Committed (cfg : Config) (n : Node) (cs : Changeset) (force : Bool) (n' : Node)
    (added : Bool) : Prop where
  remote : cs.dot.origin ≠ n.cache.self
  unapplied : force = true ∨ n.cache.isAppliedRemote cs.dot.origin cs.dot.seq = false
  ran : applyData cfg.catalog n.toData cs.stamp
    (if added then cs.records else stripCounterContributions cfg.catalog cs.records) = .ok n'.toData
  quarantine : n'.quarantine = n.quarantine
  mirror : n'.mirror = n.mirror
  markers : n'.markers.getD ∅ = if added then writeAppliedMarker n.cache (n.markers.getD ∅) cs.dot
    else n.markers.getD ∅
  unmarked : added = true → cs.dot ∉ n.markers.getD ∅
  added_of_unmarked : counterBearing cfg.catalog cs.records = true → cs.dot ∉ n.markers.getD ∅ →
    added = true
  bearing : added = true → counterBearing cfg.catalog cs.records = true

theorem Committed.cache {cfg : Config} {n n' : Node} {cs : Changeset} {force added : Bool}
    (h : Committed cfg n cs force n' added) : n.cache.SameFrontier n'.cache :=
  applyData_sameFrontier h.ran

theorem Committed.resident_eq {cfg : Config} {n n' : Node} {cs : Changeset} {force added : Bool}
    (h : Committed cfg n cs force n' added) (d : Dot) : n'.resident d = n.resident d := by
  rw [Node.resident,h.quarantine,Node.resident]

/-- The plan is the whole changeset with its marker, or what is left of it without contributions: all
of one without counters, the rest of one that was certified before. -/
theorem planApply_cases (cfg : Config) (n : Node) (cs : Changeset) :
    (∃ b,planApply cfg n cs = (b,.error .markerProbe)) ∨
    (counterBearing cfg.catalog cs.records = true ∧ cs.records ≠ [] ∧ cs.dot ∉ n.markers.getD ∅ ∧
      ∃ b,planApply cfg n cs = (b,.ok ⟨cs.records,some cs.dot⟩)) ∨
    ((counterBearing cfg.catalog cs.records = true → cs.dot ∈ n.markers.getD ∅) ∧
      ∃ b,planApply cfg n cs = (b,.ok ⟨stripCounterContributions cfg.catalog cs.records,none⟩)) := by
  unfold planApply
  by_cases hcnt : counterBearing cfg.catalog cs.records = true
  · have hne : cs.records ≠ [] := by
      intro hnil
      simp [hnil,counterBearing] at hcnt
    rw [if_pos hcnt,appliedMarkerPresent]
    cases hm : n.markers with
    | none =>
      cases hr : n.markerTableReady with
      | true => exact .inl ⟨true,by simp [Except.map]⟩
      | false => exact .inr (.inl ⟨hcnt,hne,by simp,false,by simp [Except.map]⟩)
    | some ms =>
      by_cases hdot : cs.dot ∈ ms
      · exact .inr (.inr ⟨fun _ => by simpa using hdot,true,by simp [Except.map,hdot]⟩)
      · exact .inr (.inl ⟨hcnt,hne,by simpa using hdot,true,by simp [Except.map,hdot]⟩)
  · rw [if_neg hcnt]
    refine .inr (.inr ⟨fun h => absurd h hcnt,n.markerTableReady,?_⟩)
    rw [strip_of_not_bearing (Bool.not_eq_true _ ▸ hcnt)]

theorem commit_cases (cfg : Config) (n : Node) (stamp : Stamp) (plan : Plan) :
    (∃ e,n.commit cfg stamp plan = .error e) ∨
    ∃ d,applyData cfg.catalog n.toData stamp plan.records = .ok d ∧
      n.commit cfg stamp plan = .ok { n with
        toData := d
        markers := match plan.marker with
          | some dot =>
            if plan.records = [] then n.markers
            else some (writeAppliedMarker n.cache (n.markers.getD ∅) dot)
          | none => n.markers } := by
  unfold Node.commit
  cases hd : applyData cfg.catalog n.toData stamp plan.records with
  | error e => exact .inl ⟨e,rfl⟩
  | ok d => exact .inr ⟨d,rfl,rfl⟩

theorem applyCommit_cases (cfg : Config) (n : Node) (cs : Changeset) (force : Bool) :
    (∃ b r,applyCommit cfg n cs force = ({ n with markerTableReady := b },r) ∧
      (r = .ok none ∧ (force = true → cs.dot.origin = n.cache.self) ∨
      ∃ e,r = .error e ∧ (isDeterministicApplyFailure e = true → cs.dot.origin ≠ n.cache.self ∧
        (force = true ∨ n.cache.isAppliedRemote cs.dot.origin cs.dot.seq = false)))) ∨
    ∃ n' added,applyCommit cfg n cs force = (n',.ok (some added)) ∧
      Committed cfg n cs force n' added := by
  unfold applyCommit
  by_cases hself : cs.dot.origin = n.cache.self
  · rw [if_pos hself]
    exact .inl ⟨n.markerTableReady,_,rfl,.inl ⟨rfl,fun _ => hself⟩⟩
  rw [if_neg hself]
  by_cases happ : ¬force = true ∧ n.cache.isAppliedRemote cs.dot.origin cs.dot.seq = true
  · rw [if_pos happ]
    exact .inl ⟨n.markerTableReady,_,rfl,.inl ⟨rfl,fun hf => absurd hf happ.1⟩⟩
  rw [if_neg happ]
  have hun : force = true ∨ n.cache.isAppliedRemote cs.dot.origin cs.dot.seq = false := by
    by_cases hf : force = true
    · exact .inl hf
    · exact .inr (by simpa [hf] using happ)
  by_cases hschema : cfg.schemaSeq < cs.requiredSchemaSeq
  · rw [if_pos hschema]
    exact .inl ⟨n.markerTableReady,_,rfl,.inr ⟨_,rfl,fun _ => ⟨hself,hun⟩⟩⟩
  rw [if_neg hschema]
  rcases planApply_cases cfg n cs with ⟨b,hplan⟩ | ⟨hcnt,hne,hmark,b,hplan⟩ |
    ⟨hmark,b,hplan⟩
  · rw [hplan]
    exact .inl ⟨b,_,rfl,.inr ⟨_,rfl,fun _ => ⟨hself,hun⟩⟩⟩
  · rw [hplan]
    simp only
    rcases commit_cases cfg { n with markerTableReady := b || ((some cs.dot).isSome &&
      !cs.records.isEmpty) } cs.stamp ⟨cs.records,some cs.dot⟩ with ⟨e,he⟩ | ⟨d,hd,hok⟩
    · rw [he]
      exact .inl ⟨_,_,rfl,.inr ⟨_,rfl,fun _ => ⟨hself,hun⟩⟩⟩
    · rw [hok]
      refine .inr ⟨_,_,rfl,⟨hself,hun,hd,rfl,rfl,?_,fun _ => hmark,fun _ _ => rfl,fun _ => hcnt⟩⟩
      simp [hne]
  · rw [hplan]
    simp only
    rcases commit_cases cfg { n with markerTableReady := b || ((none : Option Dot).isSome &&
      !(stripCounterContributions cfg.catalog cs.records).isEmpty) } cs.stamp
      ⟨stripCounterContributions cfg.catalog cs.records,none⟩ with ⟨e,he⟩ | ⟨d,hd,hok⟩
    · rw [he]
      exact .inl ⟨_,_,rfl,.inr ⟨_,rfl,fun _ => ⟨hself,hun⟩⟩⟩
    · rw [hok]
      exact .inr ⟨_,_,rfl,⟨hself,hun,hd,rfl,rfl,rfl,by simp,fun hb hn => absurd (hmark hb) hn,
        by simp⟩⟩

/-- An apply past its commit, which still holds the lock. -/
structure InFlight where
  changeset : Changeset
  force : Bool
  /-- The frontier has been advanced; the mirror journal is next. -/
  marked : Bool

structure Pass where
  snap : Snapshot
  written : Bool

/-- The durable state of a replica, its memory, and three records of its history. -/
structure Replica extends Node where
  store : Meta
  pass : Option Pass
  inFlight : Option InFlight
  /-- Deliveries that failed and are about to be set aside. -/
  failed : List (Changeset × ApplyError)
  /-- Stored entries whose frontier has not been advanced yet. -/
  stored : List Changeset
  /-- Retries that landed and whose entries are about to be deleted. -/
  landed : List Dot
  /-- The changesets whose contributions were added, once for each time. -/
  contributed : List Dot
  /-- The changesets that the frontier was ever advanced past. -/
  accepted : Finset Dot
  /-- The accepted changesets of origins that were evicted later. -/
  stale : Finset Dot

def Replica.new (self : Origin) : Replica where
  toNode := .new self
  store := .empty
  pass := none
  inFlight := none
  failed := []
  stored := []
  landed := []
  contributed := []
  accepted := ∅
  stale := ∅

inductive Action where
  | deliver (cs : Changeset)
  | retry (dot : Dot)
  | mark
  | journal
  | setAside (cs : Changeset) (err : ApplyError)
  | advancePast (cs : Changeset)
  | clearEntry (dot : Dot)
  | capture
  | write
  | writeFails
  | acknowledge
  | evict (origin : Origin)
  | crash (kept : Origin → ℕ) (origins : List Origin)

namespace Replica

variable (cfg : Config) (s : Replica) (cs : Changeset)

def apply (force : Bool) : Replica :=
  match applyCommit cfg s.toNode cs force with
  | (n,.ok none) => { s with
      toNode := n
      landed := if force then s.landed++[cs.dot] else s.landed }
  | (n,.ok (some added)) => { s with
      toNode := n
      inFlight := some ⟨cs,force,false⟩
      contributed := if added then s.contributed++[cs.dot] else s.contributed }
  | (n,.error e) =>
    if isDeterministicApplyFailure e then
      if force then { s with
        toNode := { n with quarantine := bumpQuarantineAttempt n.quarantine cs.dot } }
      else { s with toNode := n,failed := s.failed++[(cs,e)] }
    else { s with toNode := n }

def markApplied : Replica :=
  { s with
    cache := s.cache.markApplied cs.dot.origin cs.dot.seq cs.stamp.clock
    accepted := insert cs.dot s.accepted }

/-- Append to the mirror journal and move the marker to its head. -/
def appendMirror : Replica :=
  let log := s.mirror.getD cs.dot.origin++[cs]
  { s with
    cache := s.cache.setSnapshotMarker cs.dot.origin log.length
    mirror := s.mirror.insert cs.dot.origin log }

/-- Restart: the cache is loaded from the store and replayed over what is left of the journals. -/
def restart (kept : Origin → ℕ) (origins : List Origin) : Replica :=
  let mirror := FinMap.ofFinset s.mirror.keys fun o => (s.mirror.getD o).take (kept o)
  { s with
    cache := recoverMirror cfg.catalog mirror origins (.loadFromMeta s.cache.self s.store)
    markerTableReady := false
    mirror := mirror
    pass := none
    inFlight := none
    failed := []
    stored := []
    landed := [] }

def step : Action → Replica
  | .deliver cs => if s.inFlight.isSome then s else s.apply cfg cs false
  | .retry dot =>
    if s.inFlight.isSome then s
    else match s.quarantine.find? fun e => e.changeset.dot = dot with
      | some e => s.apply cfg e.changeset true
      | none => s
  | .mark => match s.inFlight with
    | some ⟨cs,force,false⟩ => { s.markApplied cs with inFlight := some ⟨cs,force,true⟩ }
    | _ => s
  | .journal => match s.inFlight with
    | some ⟨cs,force,true⟩ => { s.appendMirror cs with
        inFlight := none
        landed := if force then s.landed++[cs.dot] else s.landed }
    | _ => s
  | .setAside cs err =>
    if (cs,err) ∉ s.failed then s
    else if cfg.quarantineCap ≤
        (s.quarantine.filter fun e => e.changeset.dot.origin = cs.dot.origin).length
    then { s with failed := s.failed.erase (cs,err) }
    else { s with
      failed := s.failed.erase (cs,err)
      quarantine := putQuarantine s.quarantine cs err
      stored := s.stored++[cs] }
  | .advancePast cs =>
    if cs ∉ s.stored then s else { s.markApplied cs with stored := s.stored.erase cs }
  | .clearEntry dot =>
    if dot ∉ s.landed then s
    else { s with
      quarantine := deleteQuarantine s.quarantine dot
      landed := s.landed.erase dot }
  | .capture =>
    if s.pass.isSome ∨ ¬snapshotHasWork s.cache.snapshotIncremental then s
    else { s with pass := some ⟨s.cache.snapshotIncremental,false⟩ }
  | .write => match s.pass with
    | some ⟨snap,false⟩ => { s with store := writeSnapshot s.store snap,pass := some ⟨snap,true⟩ }
    | _ => s
  | .writeFails => match s.pass with
    | some ⟨_,false⟩ => { s with pass := none }
    | _ => s
  | .acknowledge => match s.pass with
    | some ⟨snap,true⟩ => { s with cache := s.cache.clearSnapshotDirty snap,pass := none }
    | _ => s
  | .evict origin =>
    if (s.cache.evictOrigin origin).1 then { s with
      cache := (s.cache.evictOrigin origin).2
      stale := s.stale ∪ s.accepted.filter fun d => d.origin = origin }
    else s
  | .crash kept origins => s.restart cfg kept origins

def run (actions : List Action) : Replica :=
  actions.foldl (step cfg) s

/-- A delivery by the node is a run of the replica: commit, mark and journal, or set aside. -/
theorem run_applyPayload {s : Replica} (hidle : s.inFlight = none)
    (hfailed : s.failed = []) (hstored : s.stored = []) (cs : Changeset) : ∃ rest,
      (run cfg s (.deliver cs::rest)).toNode = (applyPayload cfg s.toNode cs).1 := by
  have hstep : s.step cfg (.deliver cs) = s.apply cfg cs false := by simp [step,hidle]
  unfold applyPayload run
  simp only [List.foldl_cons,hstep,applyPayloadCache_eq_commit]
  rcases hc : applyCommit cfg s.toNode cs false with ⟨n,r⟩
  rcases r with e | (- | added)
  · by_cases hdet : isDeterministicApplyFailure e = true
    · have happly : s.apply cfg cs false = { s with toNode := n,failed := s.failed++[(cs,e)] } := by
        simp [apply,hc,hdet]
      simp only [happly,hdet,if_true,Node.quarantineFailure]
      split_ifs with hcap
      · exact ⟨[],rfl⟩
      · exact ⟨[.setAside cs e,.advancePast cs],by
          simp [step,hfailed,hstored,hcap,markApplied]⟩
    · exact ⟨[],by simp [apply,hc,hdet]⟩
  · exact ⟨[],by simp [apply,hc]⟩
  · exact ⟨[.mark,.journal],by simp [apply,hc,step,markApplied,appendMirror,Node.advance]⟩

/-- A retry by the node is a run too, which ends with the entry cleared where it landed. -/
theorem run_retryEntry {s : Replica} (hidle : s.inFlight = none) {e : QuarantineEntry}
    (he : s.quarantine.find? (fun e' => e'.changeset.dot = e.changeset.dot) = some e) : ∃ rest,
      (run cfg s (.retry e.changeset.dot::rest)).toNode = retryEntry cfg s.toNode e := by
  have hstep : s.step cfg (.retry e.changeset.dot) = s.apply cfg e.changeset true := by
    simp [step,hidle,he]
  unfold retryEntry run
  simp only [List.foldl_cons,hstep,applyPayloadCache_eq_commit]
  rcases hc : applyCommit cfg s.toNode e.changeset true with ⟨n,r⟩
  rcases r with err | (- | added)
  · by_cases hdet : isDeterministicApplyFailure err = true <;> exact ⟨[],by simp [apply,hc,hdet]⟩
  · exact ⟨[.clearEntry e.changeset.dot],by simp [apply,hc,step]⟩
  · exact ⟨[.mark,.journal,.clearEntry e.changeset.dot],by
      simp [apply,hc,step,markApplied,appendMirror,Node.advance]⟩

def prunes : Finset Dot :=
  if counterBearing cfg.catalog cs.records ∧ cs.dot ∉ s.markers.getD ∅ then
    (s.markers.getD ∅).filter fun d => d.origin = cs.dot.origin ∧
      d.seq ≤ Cache.markerPruneBound (s.cache.persistedFrontierBound cs.dot.origin) cs.dot.seq
  else ∅

/-- The changeset is in quarantine, or a failed delivery of it is on its way there. -/
def awaitsRetry (d : Dot) : Bool :=
  s.resident d || s.failed.any fun f => f.1.dot = d

/-- An apply may not prune the marker of a changeset that awaits a retry, and a changeset that was
accepted before its origin was evicted may not be delivered again. -/
def Permits : Action → Prop
  | .deliver cs => cs.dot ∉ s.stale ∧ ∀ d ∈ s.prunes cfg cs,s.awaitsRetry d = false
  | .retry dot => ∀ e ∈ s.quarantine,e.changeset.dot = dot →
    ∀ d ∈ s.prunes cfg e.changeset,s.awaitsRetry d = false
  | _ => True

instance decidablePermits (cfg : Config) (s : Replica) (a : Action) : Decidable (Permits cfg s a) := by
  cases a <;> unfold Permits <;> infer_instance

end Replica

end Syzy
