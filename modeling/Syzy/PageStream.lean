import Syzy.PhysicalRestore
import Syzy.TailerPass

/-!
One stream of transaction files over one generation of the log: transactions commit, and passes of
the tailer ship them, each file accepted, or rejected with or without having been stored.
-/

namespace Syzy

open Paged

/-- Where a stream starts: the log's header and a baseline of the database. -/
structure StreamOrigin where
  header : WalHeader
  word : ChecksumPage
  image : Paged.Image (lockPgno header.pageSize) Bytes
  baselineTXID : ℕ
  pageSize_ne_zero : header.pageSize ≠ 0
  full : image.Full
  nonempty : 0 < image.commit

/-- A pass whose file was accepted, with the transactions behind the position before and after it. -/
structure AcceptedPass where
  file : LtxFile
  before : ℕ
  after : ℕ

structure PageStream where
  txns : List (Patch Bytes)
  tailer : Tailer
  /-- The transactions behind the tailer's position. -/
  consumed : ℕ
  /-- The last TXID drawn. -/
  counter : ℕ
  stored : List LtxFile
  accepted : List AcceptedPass

inductive OnLTX where
  | accepted
  | rejected (stored : Bool)

inductive StreamAction where
  | commit (w : Patch Bytes)
  /-- A pass that finds `tail` behind the committed frames; `others i` TXIDs are drawn elsewhere before
  its draw `i`. -/
  | sync (tail : List WalFrame) (others : ℕ → ℕ) (answer : OnLTX)

def drawn (counter : ℕ) (others : ℕ → ℕ) : ℕ → ℕ
  | 0 => counter+others 0+1
  | i+1 => drawn counter others i+others (i+1)+1

def counterAfter (counter : ℕ) (others : ℕ → ℕ) : ℕ → ℕ
  | 0 => counter
  | draws+1 => drawn counter others draws

namespace PageStream

variable (o : StreamOrigin)

variable (s : PageStream)

def baseline : LtxFile := (encodeBaseline o.word o.image o.baselineTXID).1

def start : PageStream where
  txns := []
  tailer := ⟨.zero,some (encodeBaseline o.word o.image o.baselineTXID).2⟩
  consumed := 0
  counter := o.baselineTXID
  stored := []
  accepted := []

def imageAt (n : ℕ) : Paged.Image (lockPgno o.header.pageSize) Bytes :=
  (s.txns.take n).foldl Paged.Image.apply o.image

def ship (f : LtxFile) (rejected accepted : Tailer) : OnLTX → PageStream
  | .accepted =>
    { s with
      tailer := accepted
      consumed := s.txns.length
      stored := s.stored++[f]
      accepted := s.accepted++[⟨f,s.consumed,s.txns.length⟩] }
  | .rejected stored =>
    { s with
      tailer := rejected
      stored := if stored then s.stored++[f] else s.stored }

def step : StreamAction → PageStream
  | .commit w => { s with txns := s.txns++[w] }
  | .sync tail others answer =>
    match s.tailer.sync o.word (some (walFile o.header s.txns tail)) (drawn s.counter others) with
    | .idle => s
    | .skip t => { s with tailer := t,consumed := s.txns.length }
    | .failed _ draws t => { s with tailer := t,counter := counterAfter s.counter others draws }
    | .ship f draws rejected accepted =>
      { s with counter := counterAfter s.counter others draws }.ship f rejected accepted answer

/-- What SQLite does: a transaction writes what its change of size asks for, and the frames behind the
last committed one carry no commit. -/
def Sqlite (skips : Bool) (s : PageStream) : StreamAction → Prop
  | .commit w => w.pages ≠ [] ∧ w.Complete skips (s.imageAt o s.txns.length)
  | .sync tail _ _ => Uncommitted o.header s.txns tail

/-- Every accepted file attests the database before and after its pass, and the chain up to it is
restored to that database. -/
def Faithful : Prop :=
  ∀ r ∈ s.accepted,r.file.header.preApplyChecksum = rolling o.word (s.imageAt o r.before) ∧
    r.file.postApplyChecksum = rolling o.word (s.imageAt o r.after) ∧
    ∃ dst,materializeChain o.word (baseline o)
        (sortLTXChain (filterLTXRange s.stored o.baselineTXID r.file.maxTXID)) = .ok dst ∧
      dst.image o.header.pageSize = s.imageAt o r.after

theorem txns_sync (tail : List WalFrame) (others : ℕ → ℕ) (answer : OnLTX) :
    (step o s (.sync tail others answer)).txns = s.txns := by
  rw [step]
  cases Tailer.sync _ _ _ _ with
  | ship f draws rejected accepted => cases answer <;> rfl
  | _ => rfl

end PageStream

end Syzy
