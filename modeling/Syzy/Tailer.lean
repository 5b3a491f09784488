import Syzy.Ltx
import Syzy.WalReader

/-!
The tailer of a write-ahead log. A pass reads the frames behind its position and makes one
transaction file of the committed ones; the position and the checksum state move when the file is
accepted.
-/

namespace Syzy

open Paged

structure Position where
  salt1 : UInt32
  salt2 : UInt32
  frameN : ℕ
  offset : ℕ
  chksum : UInt32 × UInt32
  txid : ℕ
deriving DecidableEq

namespace Position

def zero : Position := ⟨0,0,0,0,(0,0),0⟩

def IsZero (p : Position) : Prop := p.offset = 0 ∧ p.salt1 = 0 ∧ p.salt2 = 0

instance (p : Position) : Decidable p.IsZero := inferInstanceAs (Decidable (_ ∧ _))

end Position

structure Tailer where
  pos : Position
  ck : Option ChecksumState

/-- What a pass has read: all frames, and the state at the last commit. -/
structure FrameScan where
  frameN : ℕ
  staged : List (ℕ × Bytes)
  commits : ℕ
  committedFrames : ℕ
  lastCommit : ℕ
  lastNextOffset : ℕ
  lastChksum : UInt32 × UInt32
deriving DecidableEq

namespace FrameScan

def start (frameN : ℕ) : FrameScan := ⟨frameN,[],0,0,0,0,(0,0)⟩

def frame (h : WalHeader) (s : FrameScan) (f : WalFrame) : FrameScan :=
  let staged := s.staged++[(f.pgno,f.data)]
  if f.commit = 0 then { s with frameN := s.frameN+1,staged }
  else ⟨s.frameN+1,staged,s.commits+1,staged.length,f.commit,
    walHeaderSize+(s.frameN+1)*h.frameSize,f.chksum⟩

/-- The committed pages, the latest bytes of each, up to the last commit's end. -/
def pageMap (s : FrameScan) : List (ℕ × Bytes) :=
  (latest (s.staged.take s.committedFrames)).filter fun e => e.1 ≤ s.lastCommit

end FrameScan

def WALReader.scan (r : WALReader) : FrameScan :=
  (readFrames r.header r.chksum r.rest).foldl (FrameScan.frame r.header) (.start r.frameN)

inductive SyncError where
  | prevFrameMismatch
  | resume (e : WalError)
  | generation
  | encode (e : EncodeError)

inductive SyncPass where
  /-- Nothing to read. -/
  | idle
  /-- The position moves, and nothing is left to ship. -/
  | skip (t : Tailer)
  /-- One file for `OnLTX`, with the TXIDs drawn and the tailer after a rejection and an acceptance. -/
  | ship (f : LtxFile) (draws : ℕ) (rejected accepted : Tailer)
  | failed (e : SyncError) (draws : ℕ) (t : Tailer)

namespace Tailer

variable (word : ChecksumPage)

variable (t : Tailer) (wal : Option WalFile) (pos : Position)

/-- The reader of a pass from `pos`; a zero position takes the salts it finds. -/
def openReader (w : WalFile) (pos : Position) : Except SyncError (Option (WALReader × Position)) :=
  if pos.IsZero then
    .ok ((newWALReader w).map fun r => (r,{ pos with salt1 := r.header.salt1,salt2 := r.header.salt2 }))
  else match newWALReaderWithOffset w pos.offset pos.salt1 pos.salt2 with
  | .error .prevFrameMismatch => .error .prevFrameMismatch
  | .error e => .error (.resume e)
  | .ok r => .ok (some (r,pos))

def advance (s : FrameScan) : Position :=
  { pos with
    frameN := pos.frameN+s.committedFrames
    offset := s.lastNextOffset
    chksum := s.lastChksum }

def attest (ck : Option ChecksumState) (pageMap : List (ℕ × Bytes)) (commit : ℕ) :
    Checksum × Checksum × Option ChecksumState :=
  match ck with
  | none => (0,0,none)
  | some ck =>
    let att := ck.stage word pageMap commit
    (att.pre,att.post,some (att.commitTo ck))

def emit (pageSize : ℕ) (s : FrameScan) (nextTXID : ℕ → ℕ) : SyncPass :=
  let pageMap := s.pageMap
  if s.commits = 0 then .idle
  else if pageMap = [] then
    .skip ⟨advance pos s,(attest word t.ck [] s.lastCommit).2.2⟩
  else
    -- one TXID for each commit
    let firstTXID := nextTXID 0
    let lastTXID := nextTXID (s.commits-1)
    -- a state of another page size is of no use
    let ck := t.ck.filter fun ck => ck.pageSize = pageSize
    let att := attest word ck pageMap s.lastCommit
    let hdr : LtxHeader := ⟨pageSize,s.lastCommit,firstTXID,lastTXID,ck.isNone,att.1⟩
    match encodeIncremental pageMap hdr att.2.1 with
    | .error e => .failed (.encode e) s.commits ⟨t.pos,ck⟩
    | .ok f => .ship f s.commits ⟨t.pos,ck⟩ ⟨{ advance pos s with txid := lastTXID },att.2.2⟩

def syncFrom (expect : Option (UInt32 × UInt32)) (nextTXID : ℕ → ℕ) : SyncPass :=
  match wal with
  | none => .idle
  | some w =>
    match openReader w pos with
    | .error e => .failed e 0 t
    | .ok none => .idle
    | .ok (some (r,pos)) =>
      if expect.isSome = true ∧ expect ≠ some (r.header.salt1,r.header.salt2) then
        .failed .generation 0 t
      else if r.header.pageSize = 0 then .idle
      else emit word t pos r.header.pageSize r.scan nextTXID

def sync (nextTXID : ℕ → ℕ) : SyncPass :=
  syncFrom word t wal t.pos none nextTXID

end Tailer

end Syzy
