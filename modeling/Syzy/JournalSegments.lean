import Syzy.JournalRecovery

/-!
The journal over its segments: an append rotates to a fresh segment when the record and a seal behind
it do not fit any more, an iterator walks over the seals, and a reopened journal takes up the numbering
from what its files hold. Segment files are their bytes and their size.
-/

namespace Syzy

inductive JournalError where
  | noSegments
  | segmentTooSmall (size : ℕ)
  | corruption (num : ℕ)
  | kindRequired
  | payloadTooLarge
  | payloadTooLargeForSegment
  | closed
  | noRoomForSeal
  | segmentFull
  | segmentNotFound (num : ℕ)
  | crcMismatch (num off : ℕ)
  | outOfFuel

def makeOffset (seg byteOff : ℕ) : ℕ := seg*2^32+byteOff%2^32
def offsetSeg (o : ℕ) : ℕ := o/2^32
def offsetByte (o : ℕ) : ℕ := o%2^32

/-- The segments with their numbers, oldest first; the last one is active. -/
structure Journal where
  segmentSize : ℕ
  segments : List (ℕ × Segment)
  nextSeq : UInt64

namespace Journal

variable (j : Journal) (num : ℕ)

def findSegment : Option Segment :=
  (j.segments.find? fun p => p.1 = num).map Prod.snd

def putSegment (s : Segment) : Journal :=
  { j with segments := j.segments.map fun p => if p.1 = num then (p.1,s) else p }

def createSegment (size : ℕ) : Except JournalError Segment :=
  if size < minSegmentSize then .error (.segmentTooSmall size) else .ok (.create size)

/-- Reopen one file, with the highest seq that it holds. -/
def openFile (f : ℕ × (ℕ → Byte) × ℕ) : Except JournalError (ℕ × Segment × UInt64) :=
  match openSegmentFile f.2.1 f.2.2 with
  | none => .error (.corruption f.1)
  | some s => .ok (f.1,s,(scanRecords f.2.1 f.2.2).lastSeq)

def files : List (ℕ × (ℕ → Byte) × ℕ) :=
  j.segments.map fun p => (p.1,p.2.data,p.2.segmentSize)

def maxSeq (segs : List (ℕ × Segment × UInt64)) : UInt64 :=
  segs.foldl (fun l p => if l < p.2.2 then p.2.2 else l) 0

/-- Open a directory. A size of zero opens for reading; a writer plants the first segment and the one
behind a seal. -/
def openDir (fs : List (ℕ × (ℕ → Byte) × ℕ)) (segmentSize : ℕ) : Except JournalError Journal :=
  if fs = [] then
    if segmentSize = 0 then .error .noSegments
    else do
      let s ← createSegment segmentSize
      return ⟨segmentSize,[(0,s)],1⟩
  else do
    let segs ← fs.mapM openFile
    match segs.getLast? with
    | none => .error .noSegments
    | some (num,last,_) =>
      let size := if segmentSize = 0 then last.segmentSize else segmentSize
      let opened := segs.map fun p => (p.1,p.2.1)
      if last.sealed then do
        let s ← createSegment size
        return ⟨size,opened++[(num+1,s)],maxSeq segs+1⟩
      else return ⟨size,opened,maxSeq segs+1⟩

def sealRecord : JournalRecord := ⟨kindSeal,0,0,0,0,0,[]⟩

/-- Seal the active segment, unless it is sealed, and continue in a new one. -/
def rotate (minSize : ℕ) : Except JournalError Journal :=
  match j.segments.getLast? with
  | none => .error .closed
  | some (num,s) => do
    let fresh ← createSegment (max j.segmentSize minSize)
    if s.sealed then return { j with segments := j.segments++[(num+1,fresh)] }
    else if s.segmentSize < s.head+recordTotalLen 0 then .error .noRoomForSeal
    else match s.append sealRecord with
      | none => .error .segmentFull
      | some s' => return { j with segments := (j.putSegment num s').segments++[(num+1,fresh)] }

def requiredSegmentSize (recordLen : ℕ) : Except JournalError ℕ :=
  if 2^32-1 < fileHeaderSize+recordLen+recordTotalLen 0 then .error .payloadTooLargeForSegment
  else .ok (fileHeaderSize+recordLen+recordTotalLen 0)

/-- Append to the active segment, or rotate and try again. -/
def appendLoop (r : JournalRecord) (need : ℕ) : ℕ → Journal →
    Except JournalError (Journal × ℕ × UInt64)
  | 0,_ => .error .outOfFuel
  | fuel+1,j =>
    match j.segments.getLast? with
    | none => .error .closed
    | some (num,s) =>
      if s.sealed ∨ s.segmentSize < need ∨ s.segmentSize < s.head+r.total+recordTotalLen 0 then do
        let j' ← j.rotate need
        appendLoop r need fuel j'
      else match s.append { r with seq := j.nextSeq } with
        | some s' =>
          .ok ({ j.putSegment num s' with nextSeq := j.nextSeq+1 },makeOffset num s.head,j.nextSeq)
        | none => do
          let j' ← j.rotate need
          appendLoop r need fuel j'

/-- The offset and the seq of the new record. The loop runs at most twice. -/
def appendWithSchemaSeq (kind : UInt8) (hlc origin : UInt64) (schemaSeq : UInt32)
    (payload : Bytes) : Except JournalError (Journal × ℕ × UInt64) :=
  if kind = 0 ∨ kind = kindSeal then .error .kindRequired
  else if 2^32-1 < payload.length then .error .payloadTooLarge
  else do
    let need ← requiredSegmentSize (recordTotalLen payload.length)
    appendLoop ⟨kind,0,0,hlc,origin,schemaSeq,payload⟩ need 2 j

inductive IterResult where
  | record (r : JournalRecord) (off next : ℕ)
  | pending (off : ℕ)
  | eof (off : ℕ)
  | failed (e : JournalError)

/-- The iterator's next record; seals and the ends of segments lead on to later segments. -/
def next : ℕ → Journal → ℕ → Journal × IterResult
  | 0,j,_ => (j,.failed .outOfFuel)
  | fuel+1,j,off =>
    let num := offsetSeg off
    match j.findSegment num with
    | none =>
      match j.segments.head? with
      | none => (j,.eof off)
      | some (oldest,_) =>
        if num < oldest then next fuel j (makeOffset oldest fileHeaderSize)
        else (j,.failed (.segmentNotFound num))
    | some s =>
      match s.next (offsetByte off) with
      | (s',.record r stop) =>
        let j' := j.putSegment num s'
        if r.kind = kindSeal then
          if (j'.findSegment (num+1)).isSome then next fuel j' (makeOffset (num+1) fileHeaderSize)
          else (j',.failed (.segmentNotFound (num+1)))
        else (j',.record r off (makeOffset num stop))
      | (_,.pending) => (j,.pending off)
      | (_,.crcMismatch) => (j,.failed (.crcMismatch num (offsetByte off)))
      | (_,.eof) =>
        match (j.segments.filter fun p => num < p.1).head? with
        | some (later,_) => next fuel j (makeOffset later fileHeaderSize)
        | none => (j,.eof off)

def iterateStart : ℕ :=
  match j.segments.head? with
  | some (num,_) => makeOffset num fileHeaderSize
  | none => 0

def iterate : ℕ → Journal → ℕ → List (JournalRecord × ℕ) × IterResult
  | 0,_,_ => ([],.failed .outOfFuel)
  | fuel+1,j,off =>
    match next (j.segments.length+1) j off with
    | (j',.record r at_ off') => ((r,at_)::(iterate fuel j' off').1,(iterate fuel j' off').2)
    | (_,stop) => ([],stop)

end Journal

inductive JournalOp where
  | append (kind : UInt8) (hlc origin : UInt64) (schemaSeq : UInt32) (payload : Bytes)
  | reopen (segmentSize : ℕ)

namespace JournalOp

/-- The sizes and kinds that the journal's own checks let through. -/
def Accepted : JournalOp → Prop
  | .append kind _ _ _ payload => kind ≠ 0 ∧ kind ≠ kindSeal ∧
      fileHeaderSize+recordTotalLen payload.length+recordTotalLen 0 < 2^32
  | .reopen size => size = 0 ∨ minSegmentSize ≤ size ∧ size < 2^32

/-- The records that a run appends, numbered from `n` on. -/
def records : ℕ → List JournalOp → List JournalRecord
  | _,[] => []
  | n,.append kind hlc origin schemaSeq payload::os =>
    ⟨kind,0,UInt64.ofNat (n+1),hlc,origin,schemaSeq,payload⟩::records (n+1) os
  | n,.reopen _::os => records n os

end JournalOp

namespace Journal

def op (j : Journal) : JournalOp → Except JournalError (Journal × Option (ℕ × UInt64))
  | .append kind hlc origin schemaSeq payload => do
    let (j',off,seq) ← j.appendWithSchemaSeq kind hlc origin schemaSeq payload
    return (j',some (off,seq))
  | .reopen size => do
    let j' ← openDir j.files size
    return (j',none)

def run (j : Journal) : List JournalOp → Except JournalError (Journal × List (ℕ × UInt64))
  | [] => .ok (j,[])
  | o::os => do
    let (j',r) ← j.op o
    let (j'',rs) ← run j' os
    return (j'',r.toList++rs)

end Journal

end Syzy
