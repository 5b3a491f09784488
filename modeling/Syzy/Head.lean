import Mathlib.Algebra.Group.Nat.Defs
import Syzy.Cas
import Syzy.ExceptFold

/-!
HEAD, the one mutable object of a bucket: the publisher's lease and the two baseline pointers. Every
operation on it loads HEAD, validates what it loaded and writes back under the etag it loaded.
-/

namespace Syzy

open ExceptFold List

structure Publisher where
  nodeID : String
  generation : ℕ
  expiresAtUS : ℤ
deriving DecidableEq

/-- The part of a publisher claim that never changes. -/
structure PublisherIdentity where
  nodeID : String
  generation : ℕ
deriving DecidableEq

structure FileRef where
  key : String
  size : ℤ
  sha256 : String
deriving DecidableEq

structure Baseline where
  txid : ℕ
  ltxRef : FileRef
  builtAtUS : ℤ
deriving DecidableEq

structure HEAD where
  version : ℕ
  clusterID : String
  publisher : Option Publisher
  baseline : Option Baseline
  metaBaseline : Option Baseline
deriving DecidableEq

def headVersion : ℕ := 3

namespace PublisherIdentity

variable (id : PublisherIdentity) (p : Option Publisher)

def Matches : Prop :=
  ∃ q,p = some q ∧ q.nodeID = id.nodeID ∧ q.generation = id.generation

instance (id : PublisherIdentity) (p : Option Publisher) : Decidable (id.Matches p) :=
  match p with
  | none => isFalse (by simp [Matches])
  | some q => decidable_of_iff (q.nodeID = id.nodeID ∧ q.generation = id.generation) (by simp [Matches])

/-- A lease that expires now authorises nothing any more. -/
def ActiveAt (nowUS : ℤ) : Prop :=
  id.Matches p ∧ ∀ q ∈ p,nowUS < q.expiresAtUS

instance (id : PublisherIdentity) (p : Option Publisher) (nowUS : ℤ) : Decidable (id.ActiveAt p nowUS) :=
  inferInstanceAs (Decidable (_ ∧ _))

end PublisherIdentity

def baselineTXID (b : Option Baseline) : ℕ := (b.map Baseline.txid).getD 0

namespace HEAD

def generation (h : HEAD) : ℕ := (h.publisher.map Publisher.generation).getD 0
def nodeID (h : HEAD) : Option String := h.publisher.map Publisher.nodeID

end HEAD

inductive HeadError where
  | noHEAD
  | unsupportedVersion (v : ℕ)
  | clusterIDMismatch (head own : String)
  | publisherOwnershipLost
  | publisherUnhealthy
  | ltxConflict
  | baselineRegression (candidate app metadata : ℕ)
  | publisherLeaseActive (nodeID : String) (generation : ℕ)
  | generationExhausted
  | maintenanceReservationInactive
  | behindBucket

/-- What every process of a publisher is configured with. -/
structure PublisherConfig where
  nodeID : String
  clusterID : String
  leaseExpiryUS : ℤ
  heartbeatIntervalUS : ℤ
  localFreshAtOpen : Bool
deriving DecidableEq

/-- One attempt of an operation, with the clock readings it makes. -/
inductive HeadOp where
  | resolveClusterID (cid : String)
  | claimOrTakeover (cfg : PublisherConfig) (nowUS : ℤ)
  | heartbeat (cfg : PublisherConfig) (generation : ℕ) (leaseExpiresAtUS : ℤ) (fresh : Bool)
      (nowUS casUS putUS : ℤ)
  | releaseLease (cfg : PublisherConfig) (generation : ℕ)
  | publishMetadataBaseline (clusterID : String) (expected : PublisherIdentity) (nowUS : ℤ) (txid : ℕ)
      (ref : FileRef)
  | publishCoupledBaselines (clusterID : String) (expected : PublisherIdentity) (nowUS : ℤ) (txid : ℕ)
      (appRef metaRef : FileRef)
  | acquireMaintenanceReservation (clusterID nodeID : String) (nowUS expiresAtUS : ℤ)
  | releaseMaintenanceReservation (clusterID : String) (identity : PublisherIdentity)
deriving DecidableEq

namespace HeadOp

def isClaim : HeadOp → Bool
  | .claimOrTakeover .. => true
  | .acquireMaintenanceReservation .. => true
  | _ => false

def identity : HeadOp → Option PublisherIdentity
  | .heartbeat cfg generation .. => some ⟨cfg.nodeID,generation⟩
  | .releaseLease cfg generation => some ⟨cfg.nodeID,generation⟩
  | .publishMetadataBaseline _ expected .. => some expected
  | .publishCoupledBaselines _ expected .. => some expected
  | .releaseMaintenanceReservation _ id => some id
  | _ => none

end HeadOp

open Cas

/-- An error, or the HEAD to write, or nothing to write. -/
abbrev HeadResult := Except HeadError (Option HEAD)

variable {ε : Type}

namespace HeadStore

def loadHEAD (seen : Option HEAD) : Except HeadError HEAD :=
  match seen with
  | none => .error .noHEAD
  | some h => if h.version = headVersion then .ok h else .error (.unsupportedVersion h.version)

/-- A stub with a fresh cluster id, if there is no HEAD. -/
def resolveClusterID (cid : String) (seen : Option HEAD) : HeadResult :=
  match loadHEAD seen with
  | .ok _ => .ok none
  | .error .noHEAD => .ok (some ⟨headVersion,cid,none,none,none⟩)
  | .error e => .error e

/-- An empty database must not become the baseline of a bucket that has one, unless the node
resumes its own lease. -/
def claim (cfg : PublisherConfig) (nowUS : ℤ) (head : HEAD) (oldGeneration : ℕ) (resume : Bool) :
    HeadResult :=
  if resume = false ∧ head.baseline.isSome = true ∧ cfg.localFreshAtOpen = true then .error .behindBucket
  else .ok (some { head with
    publisher := some ⟨cfg.nodeID,oldGeneration+1,nowUS+cfg.leaseExpiryUS⟩ })

/-- A node takes over its own lease at any time and another's once it has expired. -/
def claimOrTakeover (cfg : PublisherConfig) (nowUS : ℤ) (seen : Option HEAD) : HeadResult := do
  let head ← loadHEAD seen
  if head.clusterID ≠ cfg.clusterID then .error (.clusterIDMismatch head.clusterID cfg.clusterID)
  else match head.publisher with
    | none => claim cfg nowUS head 0 false
    | some p =>
      if p.nodeID = cfg.nodeID then claim cfg nowUS head p.generation true
      else if p.expiresAtUS ≤ nowUS then claim cfg nowUS head p.generation false
      else .ok none

/-- The local fence of a lease: one heartbeat interval before its expiry. -/
def renewalWindowClosed (cfg : PublisherConfig) (nowUS leaseExpiresAtUS : ℤ) : Prop :=
  leaseExpiresAtUS ≤ nowUS+cfg.heartbeatIntervalUS

instance (cfg : PublisherConfig) (nowUS leaseExpiresAtUS : ℤ) :
    Decidable (renewalWindowClosed cfg nowUS leaseExpiresAtUS) :=
  inferInstanceAs (Decidable (_ ≤ _))

def heartbeat (cfg : PublisherConfig) (generation : ℕ) (leaseExpiresAtUS : ℤ) (fresh : Bool)
    (nowUS casUS putUS : ℤ) (seen : Option HEAD) : HeadResult := do
  let head ← loadHEAD seen
  let id : PublisherIdentity := ⟨cfg.nodeID,generation⟩
  if ¬id.ActiveAt head.publisher nowUS then .error .publisherOwnershipLost
  else if fresh = false then
    if renewalWindowClosed cfg nowUS leaseExpiresAtUS then .error .publisherUnhealthy else .ok none
  else if renewalWindowClosed cfg casUS leaseExpiresAtUS then .error .publisherUnhealthy
  else if ¬id.ActiveAt head.publisher casUS then .error .publisherOwnershipLost
  else if renewalWindowClosed cfg putUS leaseExpiresAtUS then .error .publisherUnhealthy
  else .ok (some { head with
    publisher := head.publisher.map fun p => { p with expiresAtUS := casUS+cfg.leaseExpiryUS } })

def expire (head : HEAD) : HEAD :=
  { head with publisher := head.publisher.map fun p => { p with expiresAtUS := 0 } }

def releaseLease (cfg : PublisherConfig) (generation : ℕ) (seen : Option HEAD) : HeadResult :=
  match loadHEAD seen with
  | .error .noHEAD => .ok none
  | .error e => .error e
  | .ok head =>
    if generation = 0 ∨ ¬(PublisherIdentity.mk cfg.nodeID generation).Matches head.publisher then .ok none
    else .ok (some (expire head))

def validateOwnedHEAD (head : HEAD) (clusterID : String) (expected : PublisherIdentity) (nowUS : ℤ) :
    Except HeadError Unit :=
  if head.clusterID ≠ "" ∧ head.clusterID ≠ clusterID then
    .error (.clusterIDMismatch head.clusterID clusterID)
  else if ¬expected.ActiveAt head.publisher nowUS then .error .publisherOwnershipLost
  else .ok ()

def mutateOwnedHEAD (clusterID : String) (expected : PublisherIdentity) (nowUS : ℤ)
    (apply : HEAD → HeadResult) (seen : Option HEAD) : HeadResult :=
  match loadHEAD seen with
  | .error .noHEAD => .error .publisherOwnershipLost
  | .error e => .error e
  | .ok cur => do
    validateOwnedHEAD cur clusterID expected nowUS
    apply cur

/-- A pointer at the same TXID must name the same bytes. -/
def checkBaselineDigest (cur : Option Baseline) (txid : ℕ) (ref : FileRef) : Except HeadError Unit :=
  if ∃ b ∈ cur,b.txid = txid ∧ b.ltxRef.sha256 ≠ ref.sha256 then .error .ltxConflict else .ok ()

def publishMetadataBaseline (clusterID : String) (expected : PublisherIdentity) (nowUS : ℤ) (txid : ℕ)
    (ref : FileRef) : Option HEAD → HeadResult :=
  mutateOwnedHEAD clusterID expected nowUS fun cur => do
    checkBaselineDigest cur.metaBaseline txid ref
    if ∃ b ∈ cur.metaBaseline,txid ≤ b.txid then .ok none
    else .ok (some { cur with metaBaseline := some ⟨txid,ref,nowUS⟩ })

def publishCoupledBaselines (clusterID : String) (expected : PublisherIdentity) (nowUS : ℤ) (txid : ℕ)
    (appRef metaRef : FileRef) : Option HEAD → HeadResult :=
  mutateOwnedHEAD clusterID expected nowUS fun cur => do
    checkBaselineDigest cur.baseline txid appRef
    checkBaselineDigest cur.metaBaseline txid metaRef
    let appTXID := baselineTXID cur.baseline
    let metaTXID := baselineTXID cur.metaBaseline
    if txid ≤ appTXID ∧ txid ≤ metaTXID then .ok none
    else if txid < appTXID ∨ txid < metaTXID then .error (.baselineRegression txid appTXID metaTXID)
    else .ok (some { cur with
      version := headVersion
      clusterID := clusterID
      baseline := some ⟨txid,appRef,nowUS⟩
      metaBaseline := some ⟨txid,metaRef,nowUS⟩ })

def reservable (clusterID : String) (nowUS : ℤ) (seen : Option HEAD) : Except HeadError HEAD :=
  match loadHEAD seen with
  | .error .noHEAD => .ok ⟨headVersion,clusterID,none,none,none⟩
  | .error e => .error e
  | .ok head =>
    if head.clusterID ≠ "" ∧ head.clusterID ≠ clusterID then
      .error (.clusterIDMismatch head.clusterID clusterID)
    else match head.publisher with
      | some p =>
        if nowUS < p.expiresAtUS then .error (.publisherLeaseActive p.nodeID p.generation) else .ok head
      | none => .ok head

def acquireMaintenanceReservation (clusterID nodeID : String) (nowUS expiresAtUS : ℤ)
    (seen : Option HEAD) : HeadResult :=
  if expiresAtUS ≤ nowUS then .error .maintenanceReservationInactive
  else do
    let head ← reservable clusterID nowUS seen
    if head.generation = 2^64-1 then .error .generationExhausted
    else .ok (some { head with
      version := headVersion
      clusterID := clusterID
      publisher := some ⟨nodeID,head.generation+1,expiresAtUS⟩ })

def releaseMaintenanceReservation (clusterID : String) (id : PublisherIdentity) (seen : Option HEAD) :
    HeadResult :=
  match loadHEAD seen with
  | .error .noHEAD => .ok none
  | .error e => .error e
  | .ok head =>
    if head.clusterID ≠ "" ∧ head.clusterID ≠ clusterID then
      .error (.clusterIDMismatch head.clusterID clusterID)
    else if ¬id.Matches head.publisher ∨ ∃ p ∈ head.publisher,p.expiresAtUS = 0 then .ok none
    else .ok (some (expire head))

def apply : HeadOp → Option HEAD → HeadResult
  | .resolveClusterID cid => resolveClusterID cid
  | .claimOrTakeover cfg nowUS => claimOrTakeover cfg nowUS
  | .heartbeat cfg generation leaseExpiresAtUS fresh nowUS casUS putUS =>
    heartbeat cfg generation leaseExpiresAtUS fresh nowUS casUS putUS
  | .releaseLease cfg generation => releaseLease cfg generation
  | .publishMetadataBaseline clusterID expected nowUS txid ref =>
    publishMetadataBaseline clusterID expected nowUS txid ref
  | .publishCoupledBaselines clusterID expected nowUS txid appRef metaRef =>
    publishCoupledBaselines clusterID expected nowUS txid appRef metaRef
  | .acquireMaintenanceReservation clusterID nodeID nowUS expiresAtUS =>
    acquireMaintenanceReservation clusterID nodeID nowUS expiresAtUS
  | .releaseMaintenanceReservation clusterID id => releaseMaintenanceReservation clusterID id

abbrev Head (ε : Type) := Object HEAD ε HeadOp

/-- Every operation writes under the etag it has loaded, or where there was no HEAD. -/
def write (op : HeadOp) (seen : Option (Version HEAD ε HeadOp)) : Option (Expect ε × HEAD) :=
  match apply op (seen.map Version.content) with
  | .ok (some next) => some (match seen with | none => .absent | some v => .etag v.etag,next)
  | _ => none

def step [DecidableEq ε] : Head ε → Action ε HeadOp → Head ε := Object.step write

/-- Claims open generations; everything else keeps the generation and its node. -/
def tenure : Tenure HEAD HeadOp (Option String) := ⟨HEAD.generation,HEAD.nodeID,none,HeadOp.isClaim⟩

/-- What an operation may make of the HEAD it has loaded. -/
structure Follows (prev : Option HEAD) (op : HeadOp) (c : HEAD) : Prop where
  link : tenure.Link prev op c
  baseline : baselineTXID (prev.bind HEAD.baseline) ≤ baselineTXID c.baseline
  metaBaseline : baselineTXID (prev.bind HEAD.metaBaseline) ≤ baselineTXID c.metaBaseline
  owned : ∀ id,op.identity = some id → id.Matches (prev.bind HEAD.publisher)
  pointers : op.identity = none →
    c.baseline = prev.bind HEAD.baseline ∧ c.metaBaseline = prev.bind HEAD.metaBaseline

section Operations

variable {seen : Option HEAD} {head c : HEAD} {op : HeadOp}

theorem loadHEAD_ok : loadHEAD seen = .ok head → seen = some head := by
  unfold loadHEAD
  split
  · exact fun h => absurd h (by simp)
  · split_ifs
    · exact fun h => congrArg some (Except.ok.inj h)
    · exact fun h => absurd h (by simp)

theorem loadHEAD_noHEAD : loadHEAD seen = .error .noHEAD → seen = none := by
  unfold loadHEAD
  split
  · exact fun _ => rfl
  · split_ifs <;> exact fun h => absurd h (by simp)

theorem Follows.of_claim {prev : Option HEAD} (hclaim : op.isClaim = true) (hid : op.identity = none)
    (hgen : c.generation = tenure.genOf prev+1) (hb : c.baseline = prev.bind HEAD.baseline)
    (hm : c.metaBaseline = prev.bind HEAD.metaBaseline) : Follows prev op c where
  link := by
    rw [Tenure.Link,if_pos (show tenure.opens op = true from hclaim)]
    exact hgen
  baseline := by rw [hb]
  metaBaseline := by rw [hm]
  owned := fun id h => absurd (hid.symm.trans h) (by simp)
  pointers := fun _ => ⟨hb,hm⟩

variable {cfg : PublisherConfig} {clusterID : String} {expected id : PublisherIdentity}
  {generation txid : ℕ} {nowUS : ℤ}

theorem Follows.of_owner (hop : op.identity = some id) (hclaim : op.isClaim = false)
    (hid : id.Matches head.publisher) (hgen : c.generation = head.generation)
    (hnode : c.nodeID = head.nodeID) (hb : baselineTXID head.baseline ≤ baselineTXID c.baseline)
    (hm : baselineTXID head.metaBaseline ≤ baselineTXID c.metaBaseline) : Follows (some head) op c where
  link := by
    rw [Tenure.Link,if_neg (by simp [tenure,hclaim])]
    exact ⟨hgen,hnode⟩
  baseline := hb
  metaBaseline := hm
  owned := by
    intro id' h
    rw [hop] at h
    rw [← Option.some.inj h]
    exact hid
  pointers := fun h => absurd (hop.symm.trans h) (by simp)

theorem follows_resolveClusterID {cid : String} (h : resolveClusterID cid seen = .ok (some c)) :
    Follows seen (.resolveClusterID cid) c := by
  unfold resolveClusterID at h
  split at h
  · cases h
  · rename_i hload
    cases h
    rw [loadHEAD_noHEAD hload]
    exact ⟨⟨rfl,rfl⟩,le_rfl,le_rfl,fun id h => absurd h (by simp [HeadOp.identity]),fun _ => ⟨rfl,rfl⟩⟩
  · cases h

theorem claim_ok {oldGeneration : ℕ} {resume : Bool}
    (h : claim cfg nowUS head oldGeneration resume = .ok (some c)) :
    c.generation = oldGeneration+1 ∧ c.baseline = head.baseline ∧ c.metaBaseline = head.metaBaseline := by
  unfold claim at h
  split_ifs at h
  cases h
  exact ⟨rfl,rfl,rfl⟩

theorem follows_claimOrTakeover (h : claimOrTakeover cfg nowUS seen = .ok (some c)) :
    Follows seen (.claimOrTakeover cfg nowUS) c := by
  obtain ⟨head,hload,h⟩ := bind_eq_ok.mp h
  rw [loadHEAD_ok hload]
  have hclaimed : ∃ resume,claim cfg nowUS head head.generation resume = .ok (some c) := by
    split_ifs at h
    unfold HEAD.generation
    cases hp : head.publisher with
    | none =>
      rw [hp] at h
      exact ⟨false,h⟩
    | some p =>
      rw [hp] at h
      dsimp only at h
      split_ifs at h
      · exact ⟨true,h⟩
      · exact ⟨false,h⟩
      · cases h
  obtain ⟨resume,hclaim⟩ := hclaimed
  obtain ⟨hgen,hb,hm⟩ := claim_ok hclaim
  exact .of_claim rfl rfl hgen hb hm

theorem Follows.of_expiry {f : Publisher → Publisher} (hop : op.identity = some id)
    (hclaim : op.isClaim = false) (hid : id.Matches head.publisher)
    (hf : ∀ p,(f p).nodeID = p.nodeID ∧ (f p).generation = p.generation) :
    Follows (some head) op { head with publisher := head.publisher.map f } := by
  refine .of_owner hop hclaim hid ?_ ?_ le_rfl le_rfl
  · simp [HEAD.generation,Function.comp_def,hf]
  · simp [HEAD.nodeID,Function.comp_def,hf]

theorem follows_heartbeat {leaseExpiresAtUS : ℤ} {fresh : Bool} {casUS putUS : ℤ}
    (h : heartbeat cfg generation leaseExpiresAtUS fresh nowUS casUS putUS seen = .ok (some c)) :
    Follows seen (.heartbeat cfg generation leaseExpiresAtUS fresh nowUS casUS putUS) c := by
  obtain ⟨head,hload,h⟩ := bind_eq_ok.mp h
  rw [loadHEAD_ok hload]
  dsimp only at h
  split_ifs at h with hactive
  · cases h
  · cases h
    exact .of_expiry rfl rfl hactive.1 fun p => ⟨rfl,rfl⟩

theorem follows_releaseLease (h : releaseLease cfg generation seen = .ok (some c)) :
    Follows seen (.releaseLease cfg generation) c := by
  unfold releaseLease at h
  split at h
  · cases h
  · cases h
  · rename_i head hload
    split_ifs at h with hout
    · cases h
    · rw [not_or,not_not] at hout
      cases h
      rw [loadHEAD_ok hload]
      exact .of_expiry rfl rfl hout.2 fun p => ⟨rfl,rfl⟩

theorem follows_releaseMaintenanceReservation
    (h : releaseMaintenanceReservation clusterID id seen = .ok (some c)) :
    Follows seen (.releaseMaintenanceReservation clusterID id) c := by
  unfold releaseMaintenanceReservation at h
  split at h
  · cases h
  · cases h
  · rename_i head hload
    split_ifs at h with hcluster hout
    · cases h
    · rw [not_or,not_not] at hout
      cases h
      rw [loadHEAD_ok hload]
      exact .of_expiry rfl rfl hout.1 fun p => ⟨rfl,rfl⟩

theorem mutateOwnedHEAD_ok {apply : HEAD → HeadResult}
    (h : mutateOwnedHEAD clusterID expected nowUS apply seen = .ok (some c)) :
    ∃ head,seen = some head ∧ expected.Matches head.publisher ∧ apply head = .ok (some c) := by
  unfold mutateOwnedHEAD at h
  split at h
  · cases h
  · cases h
  · rename_i head hload
    obtain ⟨_,hvalid,h⟩ := bind_eq_ok.mp h
    refine ⟨head,loadHEAD_ok hload,?_,h⟩
    unfold validateOwnedHEAD at hvalid
    split_ifs at hvalid with hcluster hactive
    exact hactive.1

theorem follows_publishMetadataBaseline {ref : FileRef}
    (h : publishMetadataBaseline clusterID expected nowUS txid ref seen = .ok (some c)) :
    Follows seen (.publishMetadataBaseline clusterID expected nowUS txid ref) c := by
  obtain ⟨head,rfl,hid,h⟩ := mutateOwnedHEAD_ok h
  obtain ⟨_,-,h⟩ := bind_eq_ok.mp h
  split_ifs at h with hcovered
  · cases h
  cases h
  refine .of_owner rfl rfl hid rfl rfl le_rfl ?_
  cases hb : head.metaBaseline with
  | none => exact Nat.zero_le _
  | some b =>
    have hlt : ¬txid ≤ b.txid := fun hle => hcovered ⟨b,hb,hle⟩
    simp only [baselineTXID,Option.map_some,Option.getD_some]
    omega

theorem follows_publishCoupledBaselines {appRef metaRef : FileRef}
    (h : publishCoupledBaselines clusterID expected nowUS txid appRef metaRef seen = .ok (some c)) :
    Follows seen (.publishCoupledBaselines clusterID expected nowUS txid appRef metaRef) c := by
  obtain ⟨head,rfl,hid,h⟩ := mutateOwnedHEAD_ok h
  obtain ⟨_,-,h⟩ := bind_eq_ok.mp h
  obtain ⟨_,-,h⟩ := bind_eq_ok.mp h
  dsimp only at h
  split_ifs at h with hcovered hregress
  · cases h
  · rw [not_or,not_lt,not_lt] at hregress
    cases h
    exact .of_owner rfl rfl hid rfl rfl hregress.1 hregress.2

theorem follows_acquireMaintenanceReservation {nodeID : String} {expiresAtUS : ℤ}
    (h : acquireMaintenanceReservation clusterID nodeID nowUS expiresAtUS seen = .ok (some c)) :
    Follows seen (.acquireMaintenanceReservation clusterID nodeID nowUS expiresAtUS) c := by
  unfold acquireMaintenanceReservation at h
  split_ifs at h
  obtain ⟨head,hhead,h⟩ := bind_eq_ok.mp h
  split_ifs at h
  cases h
  have hsource : tenure.genOf seen = head.generation ∧ head.baseline = seen.bind HEAD.baseline ∧
      head.metaBaseline = seen.bind HEAD.metaBaseline := by
    unfold reservable at hhead
    split at hhead
    · rename_i hload
      cases hhead
      rw [loadHEAD_noHEAD hload]
      exact ⟨rfl,rfl,rfl⟩
    · cases hhead
    · rename_i head' hload
      obtain rfl : head' = head := by
        split_ifs at hhead
        split at hhead
        · split_ifs at hhead
          exact Except.ok.inj hhead
        · exact Except.ok.inj hhead
      rw [loadHEAD_ok hload]
      exact ⟨rfl,rfl,rfl⟩
  refine .of_claim rfl rfl ?_ hsource.2.1 hsource.2.2
  rw [hsource.1]
  rfl

theorem follows_apply (h : apply op seen = .ok (some c)) : Follows seen op c := by
  cases op with
  | resolveClusterID => exact follows_resolveClusterID h
  | claimOrTakeover => exact follows_claimOrTakeover h
  | heartbeat => exact follows_heartbeat h
  | releaseLease => exact follows_releaseLease h
  | publishMetadataBaseline => exact follows_publishMetadataBaseline h
  | publishCoupledBaselines => exact follows_publishCoupledBaselines h
  | acquireMaintenanceReservation => exact follows_acquireMaintenanceReservation h
  | releaseMaintenanceReservation => exact follows_releaseMaintenanceReservation h

end Operations

variable {o : Head ε} {op : HeadOp} {seen : Option (Version HEAD ε HeadOp)} {x : Expect ε} {c : HEAD}

theorem follows_current (h : o.Sound) (hmem : (op,seen) ∈ o.pending) (hw : write op seen = some (x,c))
    (hmet : x.Met o.versions) : Follows (o.versions.getLast?.map Version.content) op c := by
  unfold write at hw
  split at hw
  · rename_i next happly
    obtain ⟨rfl,rfl⟩ := Prod.mk.inj (Option.some.inj hw)
    have hfollows := follows_apply happly
    cases seen with
    | none =>
      have hnil : o.versions = [] := hmet
      rw [hnil]
      exact hfollows
    | some v =>
      obtain ⟨w,hlast,hc⟩ := h.faithful.content_of_met (h.loaded _ hmem v rfl) hmet
      rw [hlast,Option.map_some,hc]
      exact hfollows
  · cases hw

variable [DecidableEq ε]

theorem linked_step {a : Action ε HeadOp} (h : o.Sound) (hl : Linked Follows o.versions) :
    Linked Follows (step o a).versions := by
  rcases o.step_versions write a with hv | ⟨i,e,op,x,c,-,hw,hmet,hv⟩
  · rw [step,hv]
    exact hl
  · obtain ⟨seen,hmem,hwrite⟩ := Object.pending_of_attempt hw
    rw [step,hv,linked_concat]
    exact ⟨hl,follows_current h (mem_of_getElem? hmem) hwrite hmet⟩

def claimed (o : Head ε) : List ℕ :=
  (o.versions.filter fun v => v.writer.isClaim).map fun v => v.content.generation

/-- In every interleaving generations and baseline TXIDs never fall, a generation is one claim's,
and only the claim that HEAD records moves a baseline pointer. -/
theorem head_fencing (as : List (Action ε HeadOp))
    (h : Machine.Permitted step (Honest write) Object.empty as) :
    ((as.foldl step Object.empty : Head ε).versions.map fun v => v.content.generation).Pairwise (· ≤ ·) ∧
    (∀ v ∈ (as.foldl step Object.empty : Head ε).versions,0 < v.content.generation →
      (claimed (as.foldl step Object.empty : Head ε)).count v.content.generation = 1 ∧
      ∀ w ∈ (as.foldl step Object.empty : Head ε).versions,
        w.content.generation = v.content.generation → w.content.nodeID = v.content.nodeID) ∧
    (((as.foldl step Object.empty : Head ε).versions.map fun v => baselineTXID v.content.baseline).Pairwise
        (· ≤ ·) ∧
      ((as.foldl step Object.empty : Head ε).versions.map
        fun v => baselineTXID v.content.metaBaseline).Pairwise (· ≤ ·)) ∧
    (∀ pre v post,(as.foldl step Object.empty : Head ε).versions = pre++v::post →
      (v.content.baseline ≠ (pre.getLast?.map Version.content).bind HEAD.baseline ∨
        v.content.metaBaseline ≠ (pre.getLast?.map Version.content).bind HEAD.metaBaseline) →
      ∃ id,v.writer.identity = some id ∧
        id.Matches ((pre.getLast?.map Version.content).bind HEAD.publisher)) ∧
    ∀ i etag op seen id,(as.foldl step Object.empty : Head ε).pending[i]? = some (op,seen) →
      op.identity = some id →
      (∃ v ∈ (as.foldl step Object.empty : Head ε).versions,id.generation < v.content.generation) →
      (step (as.foldl step Object.empty) (.put i etag)).versions =
        (as.foldl step Object.empty : Head ε).versions := by
  have hrun : (as.foldl step Object.empty : Head ε).Sound ∧
      Linked Follows (as.foldl step Object.empty : Head ε).versions :=
    h.invariant (I := fun o : Head ε => o.Sound ∧ Linked Follows o.versions)
      (fun o a ho ha => ⟨ho.1.step ha,linked_step ho.1 ho.2⟩) ⟨Object.sound_empty,linked_nil⟩
  generalize (as.foldl step Object.empty : Head ε) = o at hrun
  obtain ⟨hsound,hlinked⟩ := hrun
  have htenure : Linked tenure.Link o.versions := fun pre v post hsplit => (hlinked pre v post hsplit).link
  refine ⟨?_,fun v hv hpos => ⟨Tenure.count_opened htenure hv hpos,fun w hw hgen => ?_⟩,⟨?_,?_⟩,
    fun pre v post hsplit hmoved => ?_,?_⟩
  · have hgen := Tenure.gen_le htenure
    rw [pairwise_map] at hgen ⊢
    exact hgen
  · exact Tenure.owner_eq htenure hw hv hgen
  · have hmono := hlinked.pairwise (R := fun a b => baselineTXID a.baseline ≤ baselineTXID b.baseline)
      (fun a b c => le_trans) fun p op c hf => hf.baseline
    rw [pairwise_map] at hmono ⊢
    exact hmono
  · have hmono := hlinked.pairwise
      (R := fun a b => baselineTXID a.metaBaseline ≤ baselineTXID b.metaBaseline)
      (fun a b c => le_trans) fun p op c hf => hf.metaBaseline
    rw [pairwise_map] at hmono ⊢
    exact hmono
  · have hf := hlinked pre v post hsplit
    cases hid : v.writer.identity with
    | none =>
      obtain ⟨hb,hm⟩ := hf.pointers hid
      exact absurd hmoved (by simp [hb,hm])
    | some id => exact ⟨id,rfl,hf.owned id hid⟩
  · intro i etag op seen id hpending hid ⟨v,hv,hlater⟩
    rcases o.step_versions write (.put i etag) with hsame | ⟨j,e,op',x,c,hput,hw,hmet,-⟩
    · exact hsame
    · cases hput
      obtain ⟨seen',hpending',hwrite⟩ := Object.pending_of_attempt hw
      obtain ⟨rfl,rfl⟩ := Prod.mk.inj (Option.mem_unique hpending hpending')
      have hf := follows_current hsound (mem_of_getElem? hpending) hwrite hmet
      obtain ⟨q,hq,-,hgen⟩ := hf.owned id hid
      obtain ⟨head,hhead,hpub⟩ := Option.bind_eq_some_iff.mp hq
      obtain ⟨w,hlast,rfl⟩ := Option.map_eq_some_iff.mp hhead
      have hle : v.content.generation ≤ w.content.generation := Tenure.gen_le_last htenure hv hlast
      have hcur : w.content.generation = q.generation := by simp [HEAD.generation,hpub]
      omega

end HeadStore

/-! Two processes of one node. -/
namespace HeadSample

open HeadStore

def node : PublisherConfig := ⟨"n","c",30,10,false⟩
def ref : FileRef := ⟨"db/0009/1-1.ltx",4,"s"⟩

/-- The second process claims while the first one's promotion is between its load and its write. -/
def restarts : List (Action ℕ HeadOp) :=
  [.load (.resolveClusterID "c") 0,.put 0 1,.load (.claimOrTakeover node 0) 1,.put 0 2,
    .load (.publishCoupledBaselines "c" ⟨"n",1⟩ 5 1 ref ref) 2,.load (.claimOrTakeover node 6) 2,.put 1 3]

theorem restarts_fenced :
    (restarts.foldl step Object.empty).versions.map (fun v => v.content.generation) = [0,1,2] ∧
    (step (restarts.foldl step Object.empty) (.put 0 4)).versions =
      (restarts.foldl step Object.empty).versions :=
  ⟨by decide,(head_fencing restarts (by decide)).2.2.2.2 0 4
    (.publishCoupledBaselines "c" ⟨"n",1⟩ 5 1 ref ref)
    (some ⟨⟨3,"c",some ⟨"n",1,30⟩,none,none⟩,2,.claimOrTakeover node 0⟩) ⟨"n",1⟩
    (by decide) rfl (by decide)⟩

end HeadSample

end Syzy
