import Syzy.TailedLog

/-!
How a publisher anchors its stream: a claim or a lost position takes a baseline of the database, and
the tailer then starts at the zero position, which accepts the generation it finds.
-/

namespace Syzy

open Paged

/-- The database as of a number of transactions of a generation. -/
structure Pin where
  generation : ℕ
  txns : ℕ
deriving DecidableEq

/-- Transaction `i` of generation `k` is committed after the pin. -/
def Pin.Before (p : Pin) (k i : ℕ) : Prop := p.generation < k ∨ p.generation = k ∧ p.txns ≤ i

instance (p : Pin) (k i : ℕ) : Decidable (p.Before k i) := inferInstanceAs (Decidable (_ ∨ _))

inductive AnchorPhase where
  | standby
  /-- The lease is claimed. -/
  | claimed
  | pinned (p : Pin)
  /-- HEAD names the baseline. -/
  | promoted
  | leading
  | tailing
  /-- A pass found the log recycled; `OnRecycle` takes a new baseline. -/
  | recycling
  | recyclePinned (p : Pin)
  | recyclePromoted
deriving DecidableEq

structure Anchoring where
  tailed : TailedLog
  phase : AnchorPhase
  leading : Bool
  /-- The standby loop has found that the node does not lead and goes on to truncate. -/
  truncating : Bool
  /-- The pin of the baseline that HEAD names. -/
  baseline : Option Pin

inductive AnchorAction where
  /-- Steps of other connections at any time, those of the tailer while it runs. -/
  | tail (a : TailedAction)
  | standbyCheck
  /-- The standby's checkpoint is busy, or it truncates the log. -/
  | standbyTruncate (h : Option WalHeader)
  | claim
  | pin
  | promote
  | lead
  | startStream (ck : Option ChecksumState)
  | reset (ck : Option ChecksumState)
  /-- The claim or the new baseline fails. -/
  | fail

namespace TailedLog

variable (word : ChecksumPage)

variable (s : TailedLog)

def pinNow : Pin := ⟨s.log.past.length,s.log.live.txns.length⟩

def recycled (r : Reading) : Bool :=
  match s.tailer.sync word (s.log.file r.missing r.tail) r.nextTXID with
  | .failed .prevFrameMismatch _ _ => true
  | _ => false

/-- The tailer at the zero position, with a checksum state if there is one. -/
def rewind (ck : Option ChecksumState) : TailedLog :=
  s.setTailer ⟨.zero,ck.or s.tailer.ck⟩

end TailedLog

namespace Anchoring

variable (word : ChecksumPage)

variable (s : Anchoring)

def setPhase (phase : AnchorPhase) : Anchoring := { s with phase }

def setTailed (t : TailedLog) : Anchoring := { s with tailed := t }

def promoteTo (p : Pin) (phase : AnchorPhase) : Anchoring :=
  { s with phase,baseline := some p }

def step : AnchorAction → Anchoring
  | .tail (.other a) => s.setTailed (s.tailed.step word (.other a))
  | .tail (.sync r) =>
    match s.phase,s.tailed.stage with
    | .tailing,.idle =>
      (s.setTailed (s.tailed.step word (.sync r))).setPhase
        (if s.tailed.recycled word r then .recycling else .tailing)
    | _,_ => s
  | .tail a =>
    match s.phase with
    | .tailing => s.setTailed (s.tailed.step word a)
    | _ => s
  | .standbyCheck => { s with truncating := !s.leading }
  | .standbyTruncate h =>
    if s.truncating then
      let l := s.tailed.log.backfill s.tailed.log.mxFrame
      { s.setTailed (h.elim s.tailed fun h => s.tailed.setLog (l.restart h false)) with truncating := false }
    else s
  | .claim =>
    match s.phase with
    | .standby => s.setPhase .claimed
    | _ => s
  | .pin =>
    match s.phase with
    | .claimed => s.setPhase (.pinned s.tailed.pinNow)
    | .recycling => s.setPhase (.recyclePinned s.tailed.pinNow)
    | _ => s
  | .promote =>
    match s.phase with
    | .pinned p => s.promoteTo p .promoted
    | .recyclePinned p => s.promoteTo p .recyclePromoted
    | _ => s
  | .lead =>
    match s.phase with
    | .promoted => { s.setPhase .leading with leading := true }
    | _ => s
  | .startStream ck =>
    match s.phase with
    | .leading => (s.setTailed (s.tailed.setTailer ⟨.zero,ck⟩)).setPhase .tailing
    | _ => s
  | .reset ck =>
    match s.phase with
    | .recyclePromoted => (s.setTailed (s.tailed.rewind ck)).setPhase .tailing
    | _ => s
  | .fail =>
    match s.phase with
    | .claimed => s.setPhase .standby
    | .pinned _ => s.setPhase .standby
    | .recycling => s.setPhase .tailing
    | .recyclePinned _ => s.setPhase .tailing
    | _ => s

def Sqlite : AnchorAction → Prop
  | .tail a => s.tailed.Sqlite a
  | .standbyTruncate h =>
    ∀ hdr ∈ h,(s.tailed.log.backfill s.tailed.log.mxFrame).Restarts hdr
  | _ => True

instance (s : Anchoring) (a : AnchorAction) : Decidable (s.Sqlite a) := by
  cases a with
  | tail a => exact inferInstanceAs (Decidable (s.tailed.Sqlite a))
  | standbyTruncate h => exact inferInstanceAs (Decidable (∀ hdr ∈ h,_))
  | _ => exact inferInstanceAs (Decidable True)

/-- The pin after which nothing was read yet: the tailer starts, or will start, at the zero position. -/
def openPin : Option Pin :=
  match s.phase with
  | .pinned p => some p
  | .recyclePinned p => some p
  | .promoted => s.baseline
  | .leading => s.baseline
  | .recyclePromoted => s.baseline
  | .tailing => if s.tailed.tailer.pos.IsZero then s.baseline else none
  | _ => none

/-- The live generation holds no transaction after a pin that is still open. -/
def Settled : Prop :=
  ∀ p ∈ s.openPin,∀ i < s.tailed.log.live.txns.length,¬p.Before s.tailed.log.past.length i

instance (s : Anchoring) : Decidable s.Settled := inferInstanceAs (Decidable (∀ p ∈ _,∀ i < _,_))

/-- The log is restarted only while it holds nothing that the tailer has still to read from the zero
position. -/
def Calm : AnchorAction → Prop
  | .tail (.other (.restart _ _)) => s.Settled
  | .standbyTruncate _ => s.Settled
  | _ => True

instance (s : Anchoring) (a : AnchorAction) : Decidable (s.Calm a) := by
  rw [Calm.eq_def]
  split
  · infer_instance
  · infer_instance
  · infer_instance

def next : TailedLog :=
  match s.phase with
  | .promoted => s.tailed.rewind none
  | .leading => s.tailed.rewind none
  | .recyclePromoted => s.tailed.rewind none
  | _ => s.tailed

/-- Whatever was committed after the pin of the baseline is in an accepted file, is there for the next
pass, or makes it ask for a new baseline; and a pass that ends well leaves nothing behind. -/
structure NoSilentGap (s : Anchoring) : Prop where
  accounted : ∀ p ∈ s.baseline,∀ {k G},s.tailed.log.generations[k]? = some G →
    ∀ i < G.txns.length,p.Before k i → s.next.Shipped k i ∨
      (k = s.tailed.log.past.length ∧ s.next.tailer.pos.IsZero ∨ s.next.Ahead k i) ∨
      s.next.Refused word
  synced : ∀ p ∈ s.baseline,∀ r : Reading,s.tailed.log.written = true →
    Uncommitted s.tailed.log.live.header s.tailed.log.live.txns r.tail →
    (s.next.pass word s.next.tailer.pos none r).1 = true →
    ∀ {k G},s.tailed.log.generations[k]? = some G → ∀ i < G.txns.length,p.Before k i →
      (s.next.pass word s.next.tailer.pos none r).2.Shipped k i

structure Starts (first : UInt32) (s : Anchoring) : Prop where
  sound : s.tailed.log.Sound first
  idle : s.tailed.stage = .idle
  phase : s.phase = .standby
  baseline : s.baseline = none

end Anchoring

end Syzy
