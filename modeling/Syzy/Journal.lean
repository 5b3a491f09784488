import Syzy.ByteMem
import Syzy.Identity

/-!
One segment of the journal as the bytes of its file. A record is written below a zero publish word
and published by storing its kind there; a reopened segment finds its head by scanning the published
records. The file header, which no append touches, is left out.
-/

namespace Syzy

open ByteMem

def crcShift (c : UInt32) : UInt32 := if c &&& 1 = 1 then c >>> 1 ^^^ 0xEDB88320 else c >>> 1

def crcByte (c : UInt32) (b : Byte) : UInt32 := crcShift^[8] (c ^^^ UInt32.ofNat b.val)

def crc32 (bs : Bytes) : UInt32 := bs.foldl crcByte 0xFFFFFFFF ^^^ 0xFFFFFFFF

def fileHeaderSize : ℕ := 64
def recordHeaderLen : ℕ := 40
def crcLen : ℕ := 4
def recordTrailerLen : ℕ := 8
def recordAlign : ℕ := 8
def kindSeal : UInt8 := 255
def minPayloadReserve : ℕ := 1024
def minSegmentSize : ℕ := fileHeaderSize+minPayloadReserve

/-- The size of a record on disk, padded to the alignment. -/
def recordTotalLen (payloadLen : ℕ) : ℕ :=
  (recordHeaderLen+payloadLen+recordTrailerLen+recordAlign-1)/recordAlign*recordAlign

structure JournalRecord where
  kind : UInt8
  flags : UInt16
  seq : UInt64
  hlc : UInt64
  origin : UInt64
  schemaSeq : UInt32
  payload : Bytes
deriving DecidableEq

namespace JournalRecord

/-- What the journal's own appends hand to a segment. -/
structure Valid (r : JournalRecord) : Prop where
  kind_ne_zero : r.kind ≠ 0
  payload_lt : r.payload.length < 2^32
  seal_empty : r.kind = kindSeal → r.payload = []

def total (r : JournalRecord) : ℕ := recordTotalLen r.payload.length

def header (r : JournalRecord) (kindWord : ℕ) : Bytes :=
  leBytes 4 kindWord++(leBytes 4 r.flags.toNat++(leBytes 4 r.payload.length++
    (leBytes 4 r.schemaSeq.toNat++(leBytes 8 r.seq.toNat++(leBytes 8 r.hlc.toNat++
      leBytes 8 r.origin.toNat)))))

end JournalRecord

/-- The checksum leaves out the publish word and the flags. -/
def recordCRC (header payload : Bytes) : ℕ := (crc32 (header.drop 8++payload)).toNat

/-- The bytes an append stores before it publishes, in the order of its stores. -/
def JournalRecord.image (r : JournalRecord) : Bytes :=
  r.header 0++(r.payload++(leBytes crcLen (recordCRC (r.header 0) r.payload)++
    List.replicate (r.total-recordHeaderLen-r.payload.length-crcLen) 0))

inductive ParseStop where
  | pending
  | endOfData
  | invalid
deriving DecidableEq

def field (header : Bytes) (i w : ℕ) : ℕ := leNat ((header.drop i).take w)

def parseRecordAt (data : ℕ → Byte) (off limit : ℕ) : Except ParseStop (JournalRecord × ℕ) :=
  if limit < off+recordHeaderLen+crcLen then .error .endOfData
  else
    let hdr := read data off recordHeaderLen
    let kindWord := field hdr 0 4
    if kindWord = 0 then .error .pending
    else if kindWord % 256 = 0 then .error .invalid
    else
      let payloadLen := field hdr 8 4
      let stop := off+recordTotalLen payloadLen
      if limit < stop then .error .endOfData
      else
        let payload := read data (off+recordHeaderLen) payloadLen
        if kindWord % 256 = kindSeal.toNat ∧ payload ≠ [] then .error .invalid
        else if leNat (read data (off+recordHeaderLen+payloadLen) crcLen) ≠ recordCRC hdr payload
        then .error .invalid
        else .ok ({
          kind := UInt8.ofNat kindWord
          flags := UInt16.ofNat (field hdr 4 4)
          seq := UInt64.ofNat (field hdr 16 8)
          hlc := UInt64.ofNat (field hdr 24 8)
          origin := UInt64.ofNat (field hdr 32 8)
          schemaSeq := UInt32.ofNat (field hdr 12 4)
          payload := payload },stop)

structure Segment where
  data : ℕ → Byte
  segmentSize : ℕ
  head : ℕ
  sealed : Bool

namespace Segment

/-- A created segment: its file is all zeros behind the header. -/
def create (size : ℕ) : Segment := ⟨fun _ => 0,size,fileHeaderSize,false⟩

/-- Whether an append of the record gets past its checks. -/
def accepts (s : Segment) (r : JournalRecord) : Bool := !s.sealed ∧ s.head+r.total ≤ s.segmentSize

/-- Store the image, publish it and move the head; a full or sealed segment takes nothing. -/
def append (s : Segment) (r : JournalRecord) : Option Segment :=
  if s.accepts r then
    some { s with
      data := store (store s.data s.head r.image) s.head (leBytes 4 r.kind.toNat)
      head := s.head+r.total
      sealed := r.kind = kindSeal }
  else none

/-- The file after a crash inside an append that had made its first `k` byte stores. -/
def interrupted (s : Segment) (r : JournalRecord) (k : ℕ) : ℕ → Byte :=
  if s.accepts r then store s.data s.head (r.image.take k) else s.data

/-- Append one record after another, with those that were taken. -/
def appendAll (s : Segment) : List JournalRecord → Segment × List JournalRecord
  | [] => (s,[])
  | r::rs =>
    match s.append r with
    | some s' => ((s'.appendAll rs).1,r::(s'.appendAll rs).2)
    | none => s.appendAll rs

end Segment

structure Scan where
  head : ℕ
  lastSeq : UInt64
  sealed : Bool
  /-- Why the scan stopped; nothing at a seal. -/
  stop : Option ParseStop

/-- Walk the records from `off`; the fuel bounds their number. -/
def scanFrom (data : ℕ → Byte) (size : ℕ) : ℕ → ℕ → UInt64 → Scan
  | 0,off,lastSeq => ⟨off,lastSeq,false,some .endOfData⟩
  | fuel+1,off,lastSeq =>
    match parseRecordAt data off size with
    | .error e => ⟨off,lastSeq,false,some e⟩
    | .ok (rec,stop) =>
      let lastSeq := if lastSeq < rec.seq then rec.seq else lastSeq
      if rec.kind = kindSeal then ⟨stop,lastSeq,true,none⟩ else scanFrom data size fuel stop lastSeq

def scanRecords (data : ℕ → Byte) (size : ℕ) : Scan := scanFrom data size (size+1) fileHeaderSize 0

/-- Whether a valid record starts at an aligned offset past `start`. -/
def recordAfter (data : ℕ → Byte) (start size : ℕ) : Bool :=
  (List.range size).any fun i =>
    let off := start+recordAlign*(i+1)
    off+recordHeaderLen+crcLen ≤ size && (parseRecordAt data off size).isOk

/-- Reopen a file. A torn record at the head is cleared, unless a valid one follows it. -/
def openSegmentFile (data : ℕ → Byte) (size : ℕ) : Option Segment :=
  let scan := scanRecords data size
  if scan.stop = some .invalid then
    if recordAfter data scan.head size then none
    else some ⟨fun a => if scan.head ≤ a ∧ a < size then 0 else data a,size,scan.head,scan.sealed⟩
  else some ⟨data,size,scan.head,scan.sealed⟩

inductive NextResult where
  | record (rec : JournalRecord) (stop : ℕ)
  | pending
  | eof
  | crcMismatch
deriving DecidableEq

/-- Read the record at an offset; a reader that is ahead moves the head. -/
def Segment.next (s : Segment) (off : ℕ) : Segment × NextResult :=
  if s.segmentSize ≤ off then (s,.eof)
  else match parseRecordAt s.data off s.segmentSize with
    | .error .pending => (s,.pending)
    | .error .endOfData => (s,.eof)
    | .error .invalid => (s,.crcMismatch)
    | .ok (rec,stop) =>
      ({ s with head := max s.head stop,sealed := s.sealed || rec.kind = kindSeal },.record rec stop)

inductive IterStop where
  | pending
  | eof
  | sealed
  | crcMismatch
deriving DecidableEq

/-- Read on from an offset until there is nothing more, or the seal. -/
def Segment.iterate : ℕ → Segment → ℕ → List JournalRecord × IterStop
  | 0,_,_ => ([],.eof)
  | fuel+1,s,off =>
    match s.next off with
    | (_,.pending) => ([],.pending)
    | (_,.eof) => ([],.eof)
    | (_,.crcMismatch) => ([],.crcMismatch)
    | (s,.record rec stop) =>
      if rec.kind = kindSeal then ([rec],.sealed)
      else (rec::(iterate fuel s stop).1,(iterate fuel s stop).2)

end Syzy
