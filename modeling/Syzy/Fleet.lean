import Syzy.Head
import Syzy.Machine

/-!
Publisher processes over one bucket, in time. A process claims the lease in HEAD, lists the bucket to
seed its TXID counters, and uploads immutable objects while its lease has more than a heartbeat
interval to go. What was sent stays in flight when its process stops or dies. One process of a node
runs at a time.
-/

namespace Syzy

inductive StreamName where
  | app
  | metadata
deriving DecidableEq

structure Upload where
  generation : ℕ
  stream : StreamName
  minTXID : ℕ
  maxTXID : ℕ
  issuedUS : ℤ
deriving DecidableEq

inductive PublisherStage where
  | down
  | claiming
  | seeding
  | leading
  | stopped
deriving DecidableEq

/-- A conditional write of HEAD, with the HEAD that it expects. -/
structure HeadPut where
  nodeID : String
  op : HeadOp
  seen : Option HEAD
  next : HEAD
deriving DecidableEq

/-- A claim that found its own node in HEAD, or a released lease, and so did not wait for the expiry. -/
def HeadPut.Unwaited (put : HeadPut) : Prop :=
  ∃ p ∈ put.seen.bind HEAD.publisher,p.nodeID = put.nodeID ∨ p.expiresAtUS = 0

instance (put : HeadPut) : Decidable put.Unwaited :=
  inferInstanceAs (Decidable (∃ p ∈ put.seen.bind HEAD.publisher,_))

structure PublisherProcess where
  stage : PublisherStage
  localFreshAtOpen : Bool
  generation : ℕ
  leaseExpiresAtUS : ℤ
  unwaited : Bool
  lastBucketTXID : ℕ
  metaTXIDCounter : ℕ
  /-- The writes whose answers it waits for. -/
  awaits : List HeadPut

namespace PublisherProcess

def off : PublisherProcess := ⟨.down,false,0,0,false,0,0,[]⟩

/-- The process holds a generation that it has not given up. -/
def Active (p : PublisherProcess) : Prop := p.stage = .seeding ∨ p.stage = .leading

instance (p : PublisherProcess) : Decidable p.Active := inferInstanceAs (Decidable (_ ∨ _))

end PublisherProcess

/-- What a listing for the TXID counters found. -/
structure Listing where
  generation : ℕ
  objects : List Upload
  /-- The baselines in HEAD, below which nothing is listed. -/
  seeded : StreamName → ℕ
  baselineTXID : ℕ

/-- The settings that every publisher of a bucket shares, as `New` checks them. -/
structure FleetConfig where
  clusterID : String
  leaseExpiryUS : ℤ
  heartbeatIntervalUS : ℤ
  heartbeat_pos : 0 < heartbeatIntervalUS
  heartbeat_lt : heartbeatIntervalUS < leaseExpiryUS-heartbeatIntervalUS

structure Fleet where
  nowUS : ℤ
  head : Option HEAD
  processes : String → PublisherProcess
  puts : List HeadPut
  inflight : List Upload
  objects : List Upload
  listings : List Listing

inductive HeadRequest where
  | resolveClusterID (cid : String)
  | claimOrTakeover
  | heartbeat (fresh : Bool)
  | releaseLease
  | publishMetadataBaseline (txid : ℕ) (ref : FileRef)
  | publishCoupledBaselines (txid : ℕ) (appRef metaRef : FileRef)

inductive FleetAction where
  | tick (d : ℕ)
  | start (n : String) (localFreshAtOpen : Bool)
  | crash (n : String)
  /-- The end of `Run`: everything is joined, what was sent may still be in flight. -/
  | stop (n : String)
  | request (n : String) (r : HeadRequest)
  /-- A write of HEAD takes effect, or fails; its answer may be lost. -/
  | land (i : ℕ) (answered : Bool)
  | seedTXIDCounters (n : String)
  | upload (n : String) (stream : StreamName) (minTXID maxTXID : ℕ)
  | effect (i : ℕ)
  | drop (i : ℕ)

namespace Fleet

def setProcess (s : Fleet) (n : String) (p : PublisherProcess) : Fleet :=
  { s with processes := Function.update s.processes n p }

variable (c : FleetConfig)

def config (n : String) (p : PublisherProcess) : PublisherConfig :=
  ⟨n,c.clusterID,c.leaseExpiryUS,c.heartbeatIntervalUS,p.localFreshAtOpen⟩

def op (n : String) (p : PublisherProcess) (nowUS : ℤ) (r : HeadRequest) : Option HeadOp :=
  match p.stage,r with
  | .claiming,.resolveClusterID cid => some (.resolveClusterID cid)
  | .claiming,.claimOrTakeover => some (.claimOrTakeover (config c n p) nowUS)
  | .leading,.heartbeat fresh =>
    some (.heartbeat (config c n p) p.generation p.leaseExpiresAtUS fresh nowUS nowUS nowUS)
  | .leading,.publishMetadataBaseline txid ref =>
    some (.publishMetadataBaseline c.clusterID ⟨n,p.generation⟩ nowUS txid ref)
  | .leading,.publishCoupledBaselines txid appRef metaRef =>
    some (.publishCoupledBaselines c.clusterID ⟨n,p.generation⟩ nowUS txid appRef metaRef)
  | .stopped,.releaseLease => some (.releaseLease (config c n p) p.generation)
  | _,_ => none

def put (s : Fleet) (n : String) (r : HeadRequest) : Option HeadPut :=
  (op c n (s.processes n) s.nowUS r).bind fun op =>
    match HeadStore.apply op s.head with
    | .ok (some next) => some ⟨n,op,s.head,next⟩
    | _ => none

/-- What a process makes of the news that its write took effect. -/
def settle (p : PublisherProcess) (put : HeadPut) : PublisherProcess :=
  match put.op with
  | .claimOrTakeover cfg nowUS =>
    if p.stage = .claiming then
      { p with
        stage := .seeding
        generation := put.next.generation
        leaseExpiresAtUS := nowUS+cfg.leaseExpiryUS
        unwaited := put.Unwaited }
    else p
  | .heartbeat cfg generation _ _ _ casUS _ =>
    if p.generation = generation then { p with leaseExpiresAtUS := casUS+cfg.leaseExpiryUS } else p
  | _ => p

def checkMutationWindow (p : PublisherProcess) (nowUS : ℤ) : Prop :=
  p.stage = .leading ∧ nowUS+c.heartbeatIntervalUS < p.leaseExpiresAtUS

instance (p : PublisherProcess) (nowUS : ℤ) : Decidable (checkMutationWindow c p nowUS) :=
  inferInstanceAs (Decidable (_ ∧ _))

/-- The counter of a stream, raised to the active baseline and to every object that starts behind
it. -/
def seedFromBucket (stream : StreamName) (baseline counter : ℕ) (objects : List Upload) : ℕ :=
  (objects.filter fun o => o.stream = stream ∧ baseline < o.minTXID).foldl
    (fun m o => max m o.maxTXID) (max counter baseline)

def allocBaselineTXID (lastBucketTXID metaTXIDCounter : ℕ) : ℕ :=
  max (lastBucketTXID+1) (metaTXIDCounter+1)

def headBaseline (head : Option HEAD) : StreamName → ℕ
  | .app => baselineTXID (head.bind HEAD.baseline)
  | .metadata => baselineTXID (head.bind HEAD.metaBaseline)

/-- List the bucket, and allocate the TXID of the claim's baseline. -/
def seedTXIDCounters (s : Fleet) (n : String) : Fleet :=
  let p := s.processes n
  let app := seedFromBucket .app (headBaseline s.head .app) p.lastBucketTXID s.objects
  let metadata := seedFromBucket .metadata (headBaseline s.head .metadata) p.metaTXIDCounter s.objects
  let txid := allocBaselineTXID app metadata
  { s.setProcess n { p with stage := .leading,lastBucketTXID := txid,metaTXIDCounter := txid } with
    listings := s.listings++[⟨p.generation,s.objects,headBaseline s.head,txid⟩] }

def land (s : Fleet) (i : ℕ) (put : HeadPut) (answered : Bool) : Fleet :=
  if s.head = put.seen then
    { s with
      head := some put.next
      puts := s.puts.eraseIdx i
      processes :=
        if answered = true ∧ put ∈ (s.processes put.nodeID).awaits then
          Function.update s.processes put.nodeID (settle (s.processes put.nodeID) put)
        else s.processes }
  else { s with puts := s.puts.eraseIdx i }

def step (s : Fleet) : FleetAction → Fleet
  | .tick d => { s with nowUS := s.nowUS+d }
  | .start n fresh =>
    if (s.processes n).stage = .down then
      s.setProcess n { PublisherProcess.off with stage := .claiming,localFreshAtOpen := fresh }
    else s
  | .crash n => s.setProcess n .off
  | .stop n =>
    if (s.processes n).stage = .leading then
      s.setProcess n { s.processes n with stage := .stopped,awaits := [] }
    else s
  | .request n r =>
    match put c s n r with
    | none => s
    | some put =>
      { s.setProcess n { s.processes n with awaits := (s.processes n).awaits++[put] } with
        puts := s.puts++[put] }
  | .land i answered =>
    match s.puts[i]? with
    | none => s
    | some put => land s i put answered
  | .seedTXIDCounters n => if (s.processes n).stage = .seeding then seedTXIDCounters s n else s
  | .upload n stream minTXID maxTXID =>
    if checkMutationWindow c (s.processes n) s.nowUS then
      { s with
        inflight := s.inflight++[⟨(s.processes n).generation,stream,minTXID,maxTXID,s.nowUS⟩] }
    else s
  | .effect i =>
    match s.inflight[i]? with
    | none => s
    | some u => { s with inflight := s.inflight.eraseIdx i,objects := s.objects++[u] }
  | .drop i => { s with inflight := s.inflight.eraseIdx i }

def init (t : ℕ) : Fleet := ⟨t,none,fun _ => .off,[],[],[],[]⟩

/-- A request takes effect, or never does, within a heartbeat interval. -/
def Timely (s : Fleet) : FleetAction → Prop
  | .tick d => ∀ u ∈ s.inflight,s.nowUS+d ≤ u.issuedUS+c.heartbeatIntervalUS
  | _ => True

/-- A claim that did not wait for the expiry lists the bucket more than a heartbeat interval after the
last upload of an earlier generation was sent that is in flight. -/
def Waited (s : Fleet) : FleetAction → Prop
  | .seedTXIDCounters n => (s.processes n).unwaited = true →
      ∀ u ∈ s.inflight,u.generation < (s.processes n).generation →
        u.issuedUS+c.heartbeatIntervalUS < s.nowUS
  | _ => True

instance (s : Fleet) (a : FleetAction) : Decidable (Timely c s a) :=
  match a with
  | .tick d => inferInstanceAs (Decidable (∀ u ∈ s.inflight,s.nowUS+d ≤ _))
  | .start _ _ | .crash _ | .stop _ | .request _ _ | .land _ _ | .seedTXIDCounters _
  | .upload _ _ _ _ | .effect _ | .drop _ => isTrue trivial

instance (s : Fleet) (a : FleetAction) : Decidable (Waited c s a) :=
  match a with
  | .seedTXIDCounters n => inferInstanceAs (Decidable ((s.processes n).unwaited = true →
      ∀ u ∈ s.inflight,u.generation < (s.processes n).generation → u.issuedUS+_ < s.nowUS))
  | .tick _ | .start _ _ | .crash _ | .stop _ | .request _ _ | .land _ _
  | .upload _ _ _ _ | .effect _ | .drop _ => isTrue trivial

/-- Objects of earlier generations that were not there when a generation listed the bucket. -/
def Isolated (s : Fleet) : Prop :=
  ∀ l ∈ s.listings,∀ o ∈ s.objects,o.generation < l.generation → o ∈ l.objects ∧
    (o.minTXID ≤ l.seeded o.stream ∨ o.maxTXID < l.baselineTXID)

end Fleet

end Syzy
