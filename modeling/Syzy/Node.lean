import Syzy.Apply

/-!
One replica with its durable side tables: the applied markers that certify counter contributions,
the quarantine of changesets that failed deterministically, and the mirror journals. Deliveries
and forced retries go through the same apply.
-/

namespace Syzy

variable (cfg : Config) (n : Node) (cs : Changeset)

structure Config where
  catalog : Catalog
  schemaSeq : ℕ
  quarantineCap : ℕ

structure QuarantineEntry where
  changeset : Changeset
  err : ApplyError
  attempts : ℕ

structure Node extends Data where
  /-- The rows of `_syzy_applied`, or nothing before the table is created. -/
  markers : Option (Finset Dot)
  /-- The broker's memory of having created the marker table. -/
  markerTableReady : Bool
  /-- The resident entries, oldest first. -/
  quarantine : List QuarantineEntry
  mirror : FinMap Origin (List Changeset)

namespace Node

def new (self : Origin) : Node where
  rows := ∅
  cache := .new self
  blob := ∅
  markers := none
  markerTableReady := false
  quarantine := []
  mirror := ∅

end Node

def isDeterministicApplyFailure : ApplyError → Bool
  | .constraintFailed _ _ | .counterApply _ _ | .updateOutranInsert _ => true
  | _ => false

/-- Insert the marker and prune those the persisted frontier covers. -/
def writeAppliedMarker (cache : Cache) (markers : Finset Dot) (dot : Dot) : Finset Dot :=
  let bound := Cache.markerPruneBound (cache.persistedFrontierBound dot.origin) dot.seq
  if 0 < bound
  then (insert dot markers).filter fun d => ¬(d.origin = dot.origin ∧ d.seq ≤ bound)
  else insert dot markers

theorem mem_writeAppliedMarker {c : Cache} {ms : Finset Dot} {dot d : Dot} :
    d ∈ writeAppliedMarker c ms dot ↔ (d = dot ∨ d ∈ ms) ∧
      ¬(0 < Cache.markerPruneBound (c.persistedFrontierBound dot.origin) dot.seq ∧
        d.origin = dot.origin ∧
        d.seq ≤ Cache.markerPruneBound (c.persistedFrontierBound dot.origin) dot.seq) := by
  unfold writeAppliedMarker
  simp only
  split_ifs with hb
  · simp [hb]
  · simp [hb]

/-- Whether the marker is present, with what the broker now remembers of the table. A remembered
table that was rolled back makes the query fail. -/
def appliedMarkerPresent (dot : Dot) : Bool × Result Bool :=
  match n.markers with
  | some ms => (true,.ok (dot ∈ ms))
  | none => (n.markerTableReady,if n.markerTableReady then .error .markerProbe else .ok false)

/-- The records to run and the marker to write for them. -/
structure Plan where
  records : List Record
  marker : Option Dot

/-- A contribution that a marker certifies is stripped; any other asks for its marker. -/
def planApply : Bool × Result Plan :=
  if counterBearing cfg.catalog cs.records then
    let probe := appliedMarkerPresent n cs.dot
    (probe.1,probe.2.map fun marked =>
      if marked then ⟨stripCounterContributions cfg.catalog cs.records,none⟩
      else ⟨cs.records,some cs.dot⟩)
  else (n.markerTableReady,.ok ⟨cs.records,none⟩)

/-- Apply the planned records and write the marker in the same transaction. -/
def Node.commit (stamp : Stamp) (plan : Plan) : Result Node :=
  (applyData cfg.catalog n.toData stamp plan.records).map fun d =>
    { n with
      toData := d
      markers := match plan.marker with
        | some dot =>
          if plan.records = [] then n.markers
          else some (writeAppliedMarker n.cache (n.markers.getD ∅) dot)
        | none => n.markers }

/-- Mark the changeset applied, append it to its mirror journal and move the snapshot marker to
the journal's head. -/
def Node.advance : Node :=
  let log := n.mirror.getD cs.dot.origin++[cs]
  { n with
    cache := (n.cache.markApplied cs.dot.origin cs.dot.seq cs.stamp.clock).setSnapshotMarker
      cs.dot.origin log.length
    mirror := n.mirror.insert cs.dot.origin log }

def applyPayloadCache (force : Bool) :
    Node × Result Unit :=
  if cs.dot.origin = n.cache.self then (n,.ok ())
  else if ¬force ∧ n.cache.isAppliedRemote cs.dot.origin cs.dot.seq then (n,.ok ())
  else if cfg.schemaSeq < cs.requiredSchemaSeq then (n,.error (.schemaBehind 0))
  else
    let planned := planApply cfg n cs
    let n := { n with markerTableReady := planned.1 }
    match planned.2 with
    | .error e => (n,.error e)
    | .ok plan =>
      let n := { n with
        markerTableReady := n.markerTableReady || (plan.marker.isSome && !plan.records.isEmpty) }
      match n.commit cfg cs.stamp plan with
      | .error e => (n,.error e)
      | .ok n => (n.advance cs,.ok ())

def Node.resident (dot : Dot) : Bool := n.quarantine.any fun e => e.changeset.dot = dot

/-- Upsert an entry: one that is already resident keeps its payload and its place. -/
def putQuarantine (q : List QuarantineEntry) (cs : Changeset) (err : ApplyError) :
    List QuarantineEntry :=
  if q.any fun e => e.changeset.dot = cs.dot
  then q.map fun e => if e.changeset.dot = cs.dot then { e with err } else e
  else q++[⟨cs,err,0⟩]

/-- Set a changeset aside and advance past it, unless its origin is at the cap. -/
def Node.quarantineFailure (err : ApplyError) :
    Option Node :=
  if cfg.quarantineCap ≤ (n.quarantine.filter fun e => e.changeset.dot.origin = cs.dot.origin).length
  then none
  else some { n with
    quarantine := putQuarantine n.quarantine cs err
    cache := n.cache.markApplied cs.dot.origin cs.dot.seq cs.stamp.clock }

/-- Deliver a changeset, with whether the node accepted it. -/
def applyPayload : Node × Result Unit :=
  match applyPayloadCache cfg n cs false with
  | (n,.ok ()) => (n,.ok ())
  | (n,.error e) =>
    if isDeterministicApplyFailure e then
      match n.quarantineFailure cfg cs e with
      | some n => (n,.ok ())
      | none => (n,.error e)
    else (n,.error e)

def deleteQuarantine (q : List QuarantineEntry) (dot : Dot) : List QuarantineEntry :=
  q.filter fun e => e.changeset.dot ≠ dot

def bumpQuarantineAttempt (q : List QuarantineEntry) (dot : Dot) : List QuarantineEntry :=
  q.map fun e => if e.changeset.dot = dot then { e with attempts := e.attempts+1 } else e

def retryEntry (e : QuarantineEntry) : Node :=
  match applyPayloadCache cfg n e.changeset true with
  | (n,.ok ()) => { n with quarantine := deleteQuarantine n.quarantine e.changeset.dot }
  | (n,.error err) =>
    if isDeterministicApplyFailure err
    then { n with quarantine := bumpQuarantineAttempt n.quarantine e.changeset.dot } else n

/-- One retry round over the entries resident at its start. -/
def retryQuarantined : Node := n.quarantine.foldl (retryEntry cfg) n

end Syzy
