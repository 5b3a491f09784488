import Mathlib
import Syzy.Ltx

/-!
The restoring side of a page stream: a baseline and a chain of transaction files are written into a
file page by page, while the checksum of the materialized state is compared with what the files
attest.
-/

namespace Syzy

open XorSum

namespace LtxFile

def minTXID (f : LtxFile) : ℕ := f.header.minTXID
def maxTXID (f : LtxFile) : ℕ := f.header.maxTXID

end LtxFile

inductive RestoreError where
  | pageSize
  | readPage (pgno : ℕ)
  | snapshotChecksum
  | postApply
  | shortFile
  | finalChecksum
  | invertedRange
  | overlap

/-- The materialized file in pages; those that were never written are zero. -/
structure DbFile where
  pageSize : ℕ
  size : ℕ
  page : ℕ → Bytes

namespace DbFile

variable (f : DbFile) (pageSize : ℕ) (pgno : ℕ)

def create : DbFile := ⟨pageSize,0,fun _ => List.replicate pageSize 0⟩

def writeAt (data : Bytes) : DbFile :=
  { f with size := max f.size pgno,page := Function.update f.page pgno data }

def truncate (n : ℕ) : DbFile :=
  { f with size := n,page := fun p => if p ≤ n then f.page p else List.replicate f.pageSize 0 }

def readPageAt : Option Bytes := if pgno ≤ f.size then some (f.page pgno) else none

def checksumFilePages (word : ChecksumPage) (f : DbFile) (commit : ℕ) :
    Except RestoreError Checksum :=
  (List.range' 1 commit).foldlM (fun sum p =>
    if p = lockPgno f.pageSize then .ok sum
    else match f.readPageAt p with
    | none => .error (.readPage p)
    | some data => .ok (flag ||| (sum ^^^ word p data))) flag

def image (f : DbFile) : Paged.Image (lockPgno pageSize) Bytes where
  commit := f.size
  page p := if Paged.Present (lockPgno pageSize) f.size p then some (f.page p) else none
  outside _ h := if_neg h

end DbFile

structure ChainVerifier where
  pageSize : ℕ
  commit : ℕ
  running : Checksum
  valid : Bool
  aligned : Bool
  finalPost : Checksum
  hasFinal : Bool
  finalIsSelf : Bool
deriving DecidableEq

namespace ChainVerifier

variable (word : ChecksumPage)

variable (v : ChainVerifier) (dst : DbFile) (f : LtxFile)

def start : ChainVerifier := ⟨0,0,0,false,false,0,false,false⟩

def beginFile (hdr : LtxHeader) : Except RestoreError ChainVerifier :=
  if v.pageSize = 0 then .ok { v with pageSize := hdr.pageSize }
  else if v.pageSize ≠ hdr.pageSize then .error .pageSize
  else .ok v

def ensureSeeded : Except RestoreError ChainVerifier :=
  if v.valid then .ok v
  else (dst.checksumFilePages word v.commit).map fun sum =>
    { v with running := sum,valid := true }

def checkPreApply (hdr : LtxHeader) : ChainVerifier :=
  if v.valid = true ∧ hdr.preApplyChecksum = v.running then { v with aligned := true } else v

def setRunning (sum : Checksum) : ChainVerifier := { v with running := sum }

/-- Fold one overwrite into the checksum; `dst` still has the old bytes. -/
def observePage (pgno : ℕ) (data : Bytes) : ChainVerifier :=
  if v.valid = false ∨ pgno = lockPgno v.pageSize then v
  else
    let delta := word pgno data
    let delta := if pgno ≤ v.commit then
        (dst.readPageAt pgno).elim delta fun old => delta ^^^ word pgno old
      else delta
    v.setRunning (flag ||| (v.running ^^^ delta))

def dropPages (commit : ℕ) : ChainVerifier :=
  (List.range' (commit+1) (v.commit-commit)).foldl (fun v p =>
    if p = lockPgno v.pageSize then v
    else (dst.readPageAt p).elim v fun old =>
      v.setRunning (flag ||| (v.running ^^^ word p old))) v

def endFile (attested : Bool) :
    Except RestoreError ChainVerifier :=
  let v := if v.valid then v.dropPages word dst f.header.commit else v
  let v := { v with commit := f.header.commit }
  if attested = false then .ok { v with hasFinal := false }
  else if v.valid = true ∧ v.running ≠ f.postApplyChecksum ∧ v.aligned = true then .error .postApply
  else
    let v := if v.valid = true ∧ v.running = f.postApplyChecksum then { v with aligned := true } else v
    .ok { v with finalPost := f.postApplyChecksum,hasFinal := true,finalIsSelf := false }

def adoptSnapshot (attested : Bool) : ChainVerifier :=
  let v := { v with commit := f.header.commit }
  if attested then
    { v with
      running := f.postApplyChecksum
      valid := true
      finalPost := f.postApplyChecksum
      hasFinal := true
      finalIsSelf := true }
  else { v with valid := false,hasFinal := false }

def verifyFinal : Except RestoreError Unit :=
  if v.hasFinal = false ∨ (v.aligned = false ∧ v.finalIsSelf = false) then .ok ()
  else
    match dst.checksumFilePages word v.commit with
    | .error e => .error e
    | .ok sum => if sum = v.finalPost then .ok () else .error .finalChecksum

end ChainVerifier

section Decode

variable (word : ChecksumPage)

/-- The pages of an increment, each observed and then written. -/
def decodePages (pages : List (ℕ × Bytes)) (st : DbFile × ChainVerifier) : DbFile × ChainVerifier :=
  pages.foldl (fun st e => (st.1.writeAt e.1 e.2,st.2.observePage word st.1 e.1 e.2)) st

/-- A snapshot into a fresh file; the decoder checks its pages against the trailer. -/
def decodeSnapshot (f : LtxFile) (v : ChainVerifier) : Except RestoreError (DbFile × ChainVerifier) := do
  let v ← v.beginFile f.header
  let dst := f.pages.foldl (fun (dst : DbFile) e => dst.writeAt e.1 e.2)
    (.create f.header.pageSize)
  let sum := f.pages.foldl (fun sum e => flag ||| (sum ^^^ word e.1 e.2)) flag
  let attested : Bool := ¬f.header.noChecksum ∧ f.header.IsSnapshot
  if attested = true ∧ sum ≠ f.postApplyChecksum then throw .snapshotChecksum
  return (dst.truncate f.header.commit,v.adoptSnapshot f attested)

def decodeIncrement (st : DbFile × ChainVerifier) (f : LtxFile) :
    Except RestoreError (DbFile × ChainVerifier) := do
  let v ← st.2.beginFile f.header
  let v ← if f.header.noChecksum then pure v
    else (v.ensureSeeded word st.1).map (·.checkPreApply f.header)
  let st := decodePages word f.pages (st.1,v)
  let v ← st.2.endFile word st.1 f (!f.header.noChecksum)
  return (st.1,v)

/-- The file must have the pages of the last applied file, and no more. -/
def verifyMaterializedSize (dst : DbFile) (hdr : LtxHeader) : Except RestoreError DbFile :=
  if hdr.commit = 0 ∨ hdr.pageSize = 0 then .ok dst
  else if dst.size < hdr.commit then .error .shortFile
  else if hdr.commit < dst.size then .ok (dst.truncate hdr.commit)
  else .ok dst

def verifyChainTXIDs : Option ℕ → List LtxFile → Except RestoreError Unit
  | _,[] => .ok ()
  | prev,f::fs =>
    if f.maxTXID < f.minTXID then .error .invertedRange
    else if ∃ p ∈ prev,f.minTXID ≤ p then .error .overlap
    else verifyChainTXIDs (some f.maxTXID) fs

def materializeChain (baseline : LtxFile) (entries : List LtxFile) : Except RestoreError DbFile := do
  let st ← decodeSnapshot word baseline .start
  verifyChainTXIDs none entries
  let st ← entries.foldlM (decodeIncrement word) st
  let hdr := ((entries.getLast?).getD baseline).header
  let dst ← verifyMaterializedSize st.1 hdr
  st.2.verifyFinal word dst
  return dst

end Decode

section Selection

variable (files : List LtxFile)

def ChainLE (f g : LtxFile) : Prop :=
  f.minTXID < g.minTXID ∨ f.minTXID = g.minTXID ∧ f.maxTXID ≤ g.maxTXID

instance : DecidableRel ChainLE := fun _ _ => inferInstanceAs (Decidable (_ ∨ _))

def sortLTXChain : List LtxFile := files.insertionSort ChainLE

def filterLTXRange (after through : ℕ) : List LtxFile :=
  files.filter fun f => ¬(f.maxTXID ≤ after ∨ through < f.minTXID)

end Selection

end Syzy
