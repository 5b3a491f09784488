import Syzy.Machine
import Syzy.WalLog

/-!
A tailer beside the writers of its log: passes, and the coordinated recycle of the log, between whose
steps any connection may commit, checkpoint or restart.
-/

namespace Syzy

open Paged

structure CheckpointResult where
  busy : Bool
  nLog : ℕ
  nCkpt : ℕ

inductive Validation where
  | drained
  /-- A transaction was committed behind the drain. -/
  | commitBehind
  | stale

def Tailer.validateDrained (t : Tailer) (wal : Option WalFile) : Validation :=
  match wal with
  | none => .stale
  | some w =>
    match newWALReaderWithOffset w t.pos.offset t.pos.salt1 t.pos.salt2 with
    | .error _ => .stale
    | .ok r => if ∃ f ∈ readFrames r.header r.chksum r.rest,f.commit ≠ 0 then .commitBehind else .drained

def readWALHeader (wal : Option WalFile) : Option (UInt32 × UInt32) :=
  (wal.bind newWALReader).map fun r => (r.header.salt1,r.header.salt2)

/-- What a pass meets: a file without a header may be missing, `tail` stands behind the committed
frames, and `OnLTX` accepts or not. -/
structure Reading where
  missing : Bool
  tail : List WalFrame
  nextTXID : ℕ → ℕ
  accepted : Bool

/-- An accepted file and the frames that it was read from. -/
structure ShippedBatch where
  generation : ℕ
  fromFrame : ℕ
  toFrame : ℕ
  file : LtxFile

/-- The file is the merge of the transactions of its frames, and transaction `i` of generation `k` is
one of them. -/
def ShippedBatch.Contains (b : ShippedBatch) (l : WalLog) (k i : ℕ) : Prop :=
  b.generation = k ∧ ∃ G xs ys zs,l.generations[k]? = some G ∧ G.txns = xs++ys++zs ∧
    b.fromFrame = (walWrites xs).length ∧ b.toFrame = (walWrites (xs++ys)).length ∧
    xs.length ≤ i ∧ i < xs.length+ys.length ∧ b.file.patch = (merge ys).trim

/-- Where a call of `CheckpointUnderLock` stands; it holds the tailer's lock until it is idle again. -/
inductive RecycleStage where
  | idle
  | drain (attempts : ℕ)
  | checkpoint (attempts : ℕ)
  | recycle (attempts nLog : ℕ)
  | sample (nLog frames : ℕ)
  /-- The restart was prevented, and the write stands in the same generation. -/
  | inPlace
  | adopt (salt1 salt2 : UInt32)
deriving DecidableEq

def RecycleStage.retry : ℕ → RecycleStage
  | 0 => .idle
  | attempts+1 => .drain attempts

/-- The write of a recycle: it fails, or commits `w` in the same or in a new generation, with or
without the count of frames that the hook records. -/
inductive RecycleWrite where
  | failed
  | commit (w : Patch Bytes) (restart : Option WalHeader) (captured : Bool)

structure TailedLog where
  log : WalLog
  tailer : Tailer
  stage : RecycleStage
  shipped : List ShippedBatch

inductive TailedAction where
  | other (a : WalStep)
  | sync (r : Reading)
  | checkpointUnderLock
  /-- The pass that the stage asks for. -/
  | drain (r : Reading)
  | checkpoint (failed busy : Bool) (frames : ℕ)
  | recycle (missing : Bool) (tail : List WalFrame) (write : RecycleWrite)
  | sample (missing : Bool)

namespace TailedLog

variable (word : ChecksumPage)

variable (s : TailedLog) (l : WalLog)

def atStage (stage : RecycleStage) : TailedLog := { s with stage }

def setTailer (t : Tailer) : TailedLog := { s with tailer := t }

def setLog : TailedLog := { s with log := l }

def pass (pos : Position) (expect : Option (UInt32 × UInt32)) (r : Reading) :
    Bool × TailedLog :=
  match s.tailer.syncFrom word (s.log.file r.missing r.tail) pos expect r.nextTXID with
  | .idle => (true,s)
  | .skip t => (true,s.setTailer t)
  | .failed _ _ t => (false,s.setTailer t)
  | .ship f _ rejected accepted =>
    if r.accepted then
      (true,{ s.setTailer accepted with
        shipped := s.shipped++[⟨s.log.past.length,pos.frameN,accepted.pos.frameN,f⟩] })
    else (false,s.setTailer rejected)

def recycleWrite (w : Patch Bytes) : Option WalHeader → WalLog
  | none => l.commit w
  | some h => (l.restart h true).commit w

def step : TailedAction → TailedLog
  | .other a => s.setLog (a.run s.log)
  | .sync r =>
    match s.stage with
    | .idle => (s.pass word s.tailer.pos none r).2
    | _ => s
  | .checkpointUnderLock =>
    match s.stage with
    | .idle => s.atStage (.drain 2)
    | _ => s
  | .drain r =>
    match s.stage with
    | .drain attempts =>
      let p := s.pass word s.tailer.pos none r
      p.2.atStage (if p.1 then .checkpoint attempts else .idle)
    | .inPlace => (s.pass word s.tailer.pos none r).2.atStage .idle
    | .adopt salt1 salt2 => (s.pass word .zero (some (salt1,salt2)) r).2.atStage .idle
    | _ => s
  | .checkpoint failed busy frames =>
    match s.stage with
    | .checkpoint attempts =>
      let l := s.log.backfill frames
      let res : CheckpointResult := ⟨busy,l.mxFrame,l.backfilled⟩
      (s.setLog l).atStage
        (if failed then .idle
        else if res.busy = true ∨ res.nCkpt ≠ res.nLog then .idle
        else if res.nLog = 0 then .idle
        else if s.tailer.pos.frameN ≠ res.nLog then .retry attempts
        else .recycle attempts res.nLog)
    | _ => s
  | .recycle missing tail write =>
    match s.stage with
    | .recycle attempts nLog =>
      match write with
      | .failed => s.atStage .idle
      | .commit w restart captured =>
        match s.tailer.validateDrained (s.log.file missing tail) with
        | .stale => s.atStage .idle
        | .commitBehind => s.atStage (.retry attempts)
        | .drained =>
          let l := recycleWrite s.log w restart
          let frames := if captured then l.mxFrame else 0
          (s.setLog l).atStage (if frames = 0 then .idle else .sample nLog frames)
    | _ => s
  | .sample missing =>
    match s.stage with
    | .sample nLog frames =>
      match readWALHeader (s.log.file missing []) with
      | none => s.atStage .idle
      | some (salt1,salt2) => s.atStage
        (if salt1 = s.tailer.pos.salt1 ∧ salt2 = s.tailer.pos.salt2 then .inPlace
        else if frames ≤ nLog ∧ salt1 = s.tailer.pos.salt1+1 then .adopt salt1 salt2
        else .idle)
    | _ => s

/-- What SQLite allows: restarts of copied logs only, and no commit behind the committed frames. -/
def Sqlite : TailedAction → Prop
  | .other a => a.Ok s.log
  | .sync r => Uncommitted s.log.live.header s.log.live.txns r.tail
  | .checkpointUnderLock => True
  | .drain r => Uncommitted s.log.live.header s.log.live.txns r.tail
  | .checkpoint _ _ frames => frames ≤ s.log.mxFrame
  | .recycle _ tail .failed => Uncommitted s.log.live.header s.log.live.txns tail
  | .recycle _ tail (.commit w restart _) =>
    Uncommitted s.log.live.header s.log.live.txns tail ∧ SqliteCommit w ∧ ∀ h ∈ restart,s.log.Restarts h
  | .sample _ => True

instance (s : TailedLog) (a : TailedAction) : Decidable (s.Sqlite a) := by
  cases a with
  | other a => exact inferInstanceAs (Decidable (a.Ok s.log))
  | sync r => exact inferInstanceAs (Decidable (Uncommitted _ _ _))
  | checkpointUnderLock => exact inferInstanceAs (Decidable True)
  | drain r => exact inferInstanceAs (Decidable (Uncommitted _ _ _))
  | checkpoint _ _ frames => exact inferInstanceAs (Decidable (_ ≤ _))
  | recycle _ tail write =>
    cases write with
    | failed => exact inferInstanceAs (Decidable (Uncommitted _ _ _))
    | commit w restart _ => exact inferInstanceAs (Decidable (_ ∧ _ ∧ ∀ h ∈ restart,_))
  | sample _ => exact inferInstanceAs (Decidable True)

/-- Transaction `i` of generation `k` is in an accepted file. -/
def Shipped (k i : ℕ) : Prop := ∃ b ∈ s.shipped,b.Contains s.log k i

/-- The transaction lies behind the tailer's position in the live generation. -/
def Ahead (k i : ℕ) : Prop :=
  k = s.log.past.length ∧ s.tailer.pos.salt1 = s.log.live.header.salt1 ∧
    s.tailer.pos.salt2 = s.log.live.header.salt2 ∧
    s.tailer.pos.frameN ≤ (walWrites (s.log.live.txns.take i)).length

/-- A pass against the live header asks for a new baseline. -/
def Refused : Prop :=
  ∀ frames nextTXID,s.tailer.sync word (some ⟨some s.log.live.header,frames⟩) nextTXID =
    .failed .prevFrameMismatch 0 s.tailer

structure NeverSkips (s : TailedLog) : Prop where
  accounted : ∀ {k G},s.log.generations[k]? = some G → ∀ i < G.txns.length,
    s.Shipped k i ∨ s.Ahead k i ∨ s.Refused word
  /-- The position has moved past accepted transactions only. -/
  passed : ∀ {m M},s.log.generations[m]? = some M →
    M.header.salt1 = s.tailer.pos.salt1 → M.header.salt2 = s.tailer.pos.salt2 →
    ∀ {k G},s.log.generations[k]? = some G → ∀ i < G.txns.length,
      k < m ∨ k = m ∧ (walWrites (G.txns.take (i+1))).length ≤ s.tailer.pos.frameN → s.Shipped k i

/-- The tailer stands in the live generation behind its first `n` transactions, all of them accepted. -/
structure Starts (n : ℕ) (s : TailedLog) : Prop where
  first : s.log.past = []
  idle : s.stage = .idle
  written : s.log.written = true
  pageSize : s.log.live.header.pageSize ≠ 0
  committed : ∀ w ∈ s.log.live.txns,SqliteCommit w
  pos : 0 < n
  le : n ≤ s.log.live.txns.length
  placed : s.tailer.pos.At s.log.live.header (walWrites (s.log.live.txns.take n))
  shipped : ∀ i < n,s.Shipped 0 i

end TailedLog

end Syzy
