import Syzy.CausalLength
import Syzy.Recover

/-!
The self-log of one node. The drain appends each changeset it builds with the journal offset past its
commit, syncs the batch once, and only then hands the changesets to its listeners and moves the seq
counter and the snapshot marker. A restart replays the log and drains on from the recovered marker.
-/

namespace Syzy

structure SelfLogEntry where
  changeset : Changeset
  endOffset : Offset

namespace Cache

variable (c : Cache) (origin : Origin)

def senderNext : Seq :=
  if c.senderNextSeq.getD origin = 0 then 1 else c.senderNextSeq.getD origin

/-- The next seq is at least the one after an observed one. -/
def observeSelfSeq (seq : Seq) : Cache :=
  if c.senderNextSeq.getD origin < seq+1 then { c with
    senderNextSeq := c.senderNextSeq.insert origin (seq+1)
    dirtySenderSeqs := insert origin c.dirtySenderSeqs
    metaDirty := true }
  else c

def snapshotMarker : Offset := c.snapshotMarkers.getD origin

end Cache

inductive RecoverError where
  | originMismatch (self payload : Origin)
  | uncaptured (maxSeq claimedNext : Seq)

structure SelfReplay where
  cache : Cache
  marker : Offset
  maxSeq : Seq
  legacy : ℕ

/-- Replay one entry: its seq, its clock and its row clocks. An entry without an offset stems from
before the log carried them. -/
def recoverEntry (cat : Catalog) (s : SelfReplay) (e : SelfLogEntry) : Except RecoverError SelfReplay :=
  let cs := e.changeset
  if e.endOffset = 0 then .ok { s with legacy := s.legacy+1 }
  else if cs.dot.origin ≠ s.cache.self then .error (.originMismatch s.cache.self cs.dot.origin)
  else .ok { s with
    cache := (cs.records.filter fun r => ¬r.isBlobPatch).foldl (replayRecord cat cs.stamp)
      ((s.cache.observeSelfSeq s.cache.self cs.dot.seq).observeHLC cs.stamp.clock)
    marker := if s.marker < e.endOffset then e.endOffset else s.marker
    maxSeq := if s.maxSeq < cs.dot.seq then cs.dot.seq else s.maxSeq }

/-- Replay the self-log. It must cover every seq the snapshot claims to have produced. -/
def recoverSelf (cat : Catalog) (log : List SelfLogEntry) (c : Cache) : Except RecoverError Cache := do
  let s ← log.foldlM (recoverEntry cat) ⟨c,c.snapshotMarker c.self,0,0⟩
  if s.legacy = 0 ∧ 1 < c.senderNext c.self ∧ s.maxSeq < c.senderNext c.self-1
  then throw (.uncaptured s.maxSeq (c.senderNext c.self))
  else return s.cache.setSnapshotMarker c.self s.marker

/-- What a batch has still to do, in this order. -/
structure SelfBatch where
  toAppend : List SelfLogEntry
  toSync : Bool
  toHand : List Changeset
  toPublish : List RowClockUpdate × List CellClockUpdate
  toAlloc : ℕ
  endOffset : Offset

/-- A running process: its cache, how far it has drained, the batch at hand, and the capture of a
snapshot pass that is not written yet. A drainer that met an error is dead. -/
structure Process where
  cache : Cache
  drained : Offset
  batch : Option SelfBatch
  dead : Bool
  snapshot : Option Snapshot

structure SelfNode where
  self : Origin
  journal : List Commit
  log : List SelfLogEntry
  /-- How many entries of the log the last sync covered. -/
  synced : ℕ
  store : Meta
  /-- The changesets handed to the listeners so far. -/
  handed : List Changeset
  process : Option Process

def SelfNode.new (self : Origin) : SelfNode := ⟨self,[],[],0,.empty,[],none⟩

/-- The changesets of a batch with consecutive seqs; a commit that comes to nothing takes none. -/
def buildChangesets (cat : Catalog) (self : Origin) (schemaSeq : ℕ) :
    SinkBatch → Seq → List (Offset × Stamp × List RecordEvidence) → List SelfLogEntry × SinkBatch
  | b,_,[] => ([],b)
  | b,seq,(off,stamp,evs)::rest =>
    let b' := SinkBatch.buildRecords cat stamp { b with records := [] } evs
    if b'.records = [] then buildChangesets cat self schemaSeq b' seq rest
    else
      let r := buildChangesets cat self schemaSeq b' (seq+1) rest
      (⟨⟨⟨self,seq⟩,stamp,b'.records,schemaSeq⟩,off⟩::r.1,r.2)

/-- The evidence of the next commits, each with the offset past it. -/
def parseBatch (cat : Catalog) (journal : List Commit) (drained n : ℕ) :
    Except CaptureError (List (Offset × Stamp × List RecordEvidence)) :=
  (((journal.drop drained).take n).zipIdx (drained+1)).mapM fun x =>
    (buildRecordEvidence cat x.1.touches).map fun evs => (x.2,x.1.stamp,evs)

namespace Process

/-- Begin a batch. The row states it reads may move under it. -/
def collect (cat : Catalog) (self : Origin) (journal : List Commit) (p : Process) (n : ℕ)
    (view : RowKey → RowState) (schemaSeq : ℕ) : Process :=
  if p.dead ∨ p.batch.isSome then p
  else match parseBatch cat journal p.drained n with
    | .error _ => { p with dead := true }
    | .ok parsed =>
      let built := buildChangesets cat self schemaSeq (.new view) (p.cache.senderNext self) parsed
      if built.1 = [] then { p with drained := p.drained+parsed.length }
      else { p with batch := some {
        toAppend := built.1
        toSync := true
        toHand := built.1.map SelfLogEntry.changeset
        toPublish := (built.2.clocks,built.2.cellClocks)
        toAlloc := built.1.length
        endOffset := p.drained+parsed.length } }

end Process

namespace SelfNode

/-- The next action of the batch at hand: append, sync, hand out, publish the clocks, take the seqs,
move the marker. -/
def tickBatch (s : SelfNode) (p : Process) (b : SelfBatch) : SelfNode :=
  match b.toAppend with
  | e::rest => { s with
    log := s.log++[e]
    process := some { p with batch := some { b with toAppend := rest } } }
  | [] =>
    if b.toSync then { s with
      synced := s.log.length
      process := some { p with batch := some { b with toSync := false } } }
    else match b.toHand with
      | cs::rest => { s with
        handed := s.handed++[cs]
        process := some { p with batch := some { b with toHand := rest } } }
      | [] =>
        match b.toAlloc with
        | n+1 => { s with process := some { p with
            cache := (b.toPublish.2.foldl Cache.publishCell
              (b.toPublish.1.foldl Cache.publishRow p.cache)).allocSelfSeq s.self |>.2
            batch := some { b with toPublish := ([],[]),toAlloc := n } } }
        | 0 => { s with process := some { p with
            cache := p.cache.setSnapshotMarker s.self b.endOffset
            drained := b.endOffset
            batch := none } }

end SelfNode

/-- What can happen to a node. An inbound apply moves the cache but not the node's own seqs and
marker. -/
inductive SelfStep where
  | commit (c : Commit)
  | collect (n : ℕ) (view : RowKey → RowState) (schemaSeq : ℕ)
  | tick
  | fail
  | inbound (cache : Cache)
  | capture
  | write
  | crash
  | hostCrash (kept : ℕ)
  | restart

/-- The part of the cache that belongs to the node's own changesets. -/
structure Cache.SameSelf (c c' : Cache) : Prop where
  self : c'.self = c.self
  senderNextSeq : c'.senderNextSeq = c.senderNextSeq
  dirtySenderSeqs : c'.dirtySenderSeqs = c.dirtySenderSeqs
  marker : c'.snapshotMarker c.self = c.snapshotMarker c.self
  metaDirty : c.metaDirty = true → c'.metaDirty = true

instance (c c' : Cache) : Decidable (c.SameSelf c') :=
  decidable_of_iff (c'.self = c.self ∧ c'.senderNextSeq = c.senderNextSeq ∧
    c'.dirtySenderSeqs = c.dirtySenderSeqs ∧ c'.snapshotMarker c.self = c.snapshotMarker c.self ∧
    (c.metaDirty = true → c'.metaDirty = true))
    ⟨fun ⟨a,b,c,d,e⟩ => ⟨a,b,c,d,e⟩,fun ⟨a,b,c,d,e⟩ => ⟨a,b,c,d,e⟩⟩

namespace SelfNode

/-- How much of the log a host crash leaves, if it may lose all but so many entries. -/
def survivors (s : SelfNode) (kept : ℕ) : List SelfLogEntry := s.log.take (max kept s.synced)

def restart (cat : Catalog) (s : SelfNode) : SelfNode :=
  match recoverSelf cat s.log (Cache.loadFromMeta s.self s.store) with
  | .error _ => s
  | .ok c => { s with process := some ⟨c,c.snapshotMarker s.self,none,false,none⟩ }

/-- Write a captured snapshot and clear the marks it covers. -/
def writeSnapshot (s : SelfNode) (p : Process) (snap : Snapshot) : SelfNode :=
  { s with
    store := Syzy.writeSnapshot s.store snap
    process := some { p with cache := p.cache.clearSnapshotDirty snap,snapshot := none } }

def step (cat : Catalog) (s : SelfNode) : SelfStep → SelfNode
  | .commit c => { s with journal := s.journal++[c] }
  | .crash => { s with process := none }
  | .hostCrash kept => { s with
      log := s.survivors kept
      synced := (s.survivors kept).length
      process := none }
  | .restart => if s.process.isSome then s else s.restart cat
  | a => match s.process with
    | none => s
    | some p => match a with
      | .collect n view schemaSeq =>
        { s with process := some (p.collect cat s.self s.journal n view schemaSeq) }
      | .tick => match p.batch with
        | some b => s.tickBatch p b
        | none => s
      | .fail => { s with process := some { p with batch := none,dead := true } }
      | .inbound c => if p.cache.SameSelf c then { s with process := some { p with cache := c } } else s
      | .capture => { s with process := some { p with snapshot := some p.cache.snapshotIncremental } }
      | .write => match p.snapshot with
        | some snap => s.writeSnapshot p snap
        | none => s
      | _ => s

end SelfNode

end Syzy
