import Syzy.ByteMem
import Syzy.Identity

/-!
The reader of a write-ahead log: a header with two salts, then frames whose checksums continue one
another. A frame with other salts or a broken checksum ends the log.
-/

namespace Syzy

open ByteMem

def walHeaderSize : ℕ := 32
def walFrameHeaderSize : ℕ := 24

structure WalHeader where
  bigEndian : Bool
  pageSize : ℕ
  salt1 : UInt32
  salt2 : UInt32
  chksum : UInt32 × UInt32

structure WalFrame where
  pgno : ℕ
  /-- The number of pages of the database after a transaction's last frame, zero on other frames. -/
  commit : ℕ
  salt1 : UInt32
  salt2 : UInt32
  chksum : UInt32 × UInt32
  data : Bytes

/-- The file has no header while it is empty, torn or fails the header's checksum. -/
structure WalFile where
  header : Option WalHeader
  frames : List WalFrame

def uint32 (bigEndian : Bool) (bs : Bytes) : UInt32 :=
  .ofNat (leNat (if bigEndian then bs.reverse else bs))

def walChecksum (bigEndian : Bool) : UInt32 × UInt32 → Bytes → UInt32 × UInt32
  | s,b0::b1::b2::b3::b4::b5::b6::b7::bs =>
    let s0 := s.1+(uint32 bigEndian [b0,b1,b2,b3]+s.2)
    let s1 := s.2+(uint32 bigEndian [b4,b5,b6,b7]+s0)
    walChecksum bigEndian (s0,s1) bs
  | s,_ => s

namespace WalHeader

variable (h : WalHeader)

variable (c : UInt32 × UInt32) (f : WalFrame)

def frameSize : ℕ := h.pageSize+walFrameHeaderSize

/-- The checksum of a frame after one with checksum `c`. -/
def frameChecksum (pgno commit : ℕ) (data : Bytes) : UInt32 × UInt32 :=
  walChecksum h.bigEndian
    (walChecksum h.bigEndian c ((leBytes 4 pgno).reverse++(leBytes 4 commit).reverse)) data

def SameSalts : Prop := f.salt1 = h.salt1 ∧ f.salt2 = h.salt2

instance (f : WalFrame) : Decidable (h.SameSalts f) := inferInstanceAs (Decidable (_ ∧ _))

def Continues : Prop :=
  h.SameSalts f ∧ h.frameChecksum c f.pgno f.commit f.data = f.chksum

instance (c : UInt32 × UInt32) (f : WalFrame) : Decidable (h.Continues c f) :=
  inferInstanceAs (Decidable (_ ∧ _))

end WalHeader

structure WALReader where
  header : WalHeader
  frameN : ℕ
  chksum : UInt32 × UInt32
  /-- The frames behind the last one read. -/
  rest : List WalFrame

inductive WalError where
  | offset
  | header
  | unaligned
  | prevFrameMismatch

def newWALReader (w : WalFile) : Option WALReader := w.header.map fun h => ⟨h,0,h.chksum,w.frames⟩

namespace WALReader

def readFrame (r : WALReader) (verifyChecksum : Bool) : Option (WalFrame × WALReader) :=
  match r.rest with
  | [] => none
  | f::rest =>
    if ¬r.header.SameSalts f then none
    else if verifyChecksum = true ∧ r.header.frameChecksum r.chksum f.pgno f.commit f.data ≠ f.chksum
    then none
    else some (f,⟨r.header,r.frameN+1,f.chksum,rest⟩)

end WALReader

def newWALReaderWithOffset (w : WalFile) (offset : ℕ) (salt1 salt2 : UInt32) :
    Except WalError WALReader :=
  if offset ≤ walHeaderSize then .error .offset
  else match w.header with
  | none => .error .header
  | some h =>
    if h.salt1 ≠ salt1 ∨ h.salt2 ≠ salt2 then .error .prevFrameMismatch
    else if (offset-walHeaderSize)%h.frameSize ≠ 0 then .error .unaligned
    else
      let frameN := (offset-walHeaderSize)/h.frameSize-1
      match (⟨h,frameN,h.chksum,w.frames.drop frameN⟩ : WALReader).readFrame false with
      | none => .error .prevFrameMismatch
      | some (_,r) => .ok r

/-- The frames that a reader returns before the end of the log. -/
def readFrames (h : WalHeader) : UInt32 × UInt32 → List WalFrame → List WalFrame
  | _,[] => []
  | c,f::fs => if h.Continues c f then f::readFrames h f.chksum fs else []

/-! What a writer appends. -/

/-- A page of a transaction: its number, the size mark and the bytes. -/
abbrev WalWrite := ℕ × ℕ × Bytes

namespace WalHeader

variable (h : WalHeader)

def frame (c : UInt32 × UInt32) (w : WalWrite) : WalFrame :=
  ⟨w.1,w.2.1,h.salt1,h.salt2,h.frameChecksum c w.1 w.2.1 w.2.2,w.2.2⟩

def appendFrames : UInt32 × UInt32 → List WalWrite → List WalFrame
  | _,[] => []
  | c,w::ws => h.frame c w::appendFrames (h.frame c w).chksum ws

def endChecksum (c : UInt32 × UInt32) (ws : List WalWrite) : UInt32 × UInt32 :=
  ws.foldl (fun c w => (h.frame c w).chksum) c

variable {h} {c : UInt32 × UInt32}

theorem frame_continues (w : WalWrite) : h.Continues c (h.frame c w) := ⟨⟨rfl,rfl⟩,rfl⟩

@[simp] theorem length_appendFrames (ws : List WalWrite) : (h.appendFrames c ws).length = ws.length := by
  induction ws generalizing c with
  | nil => rfl
  | cons w ws ih => rw [appendFrames,List.length_cons,ih,List.length_cons]

theorem appendFrames_append (xs ys : List WalWrite) :
    h.appendFrames c (xs++ys) = h.appendFrames c xs++h.appendFrames (h.endChecksum c xs) ys := by
  induction xs generalizing c with
  | nil => rfl
  | cons w xs ih => exact congrArg (h.frame c w::·) ih

theorem endChecksum_append (xs ys : List WalWrite) :
    h.endChecksum c (xs++ys) = h.endChecksum (h.endChecksum c xs) ys := List.foldl_append

theorem readFrames_appendFrames (ws : List WalWrite) (tail : List WalFrame) :
    readFrames h c (h.appendFrames c ws++tail) =
      h.appendFrames c ws++readFrames h (h.endChecksum c ws) tail := by
  induction ws generalizing c with
  | nil => rfl
  | cons w ws ih =>
    rw [appendFrames,List.cons_append,readFrames,if_pos (frame_continues w),ih]
    rfl

end WalHeader

end Syzy
