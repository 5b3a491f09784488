import Syzy.ByteMem
import Syzy.Identity
import Syzy.Machine

/-!
A lazily restored database file: missing pages are fetched on a read and stored into a sparse backing
file; writes go to the same file. A request takes one action of its own at a time; a page fault checks
the presence bit, fetches, stores and then sets both bits without a lock, and writes exclude each
other. Pages count from zero. A page that a sibling mount clones has the bytes a fetch would store.
-/

namespace Syzy

open ByteMem

structure LazyManifest where
  pageSize : ℕ
  commitPages : ℕ
  /-- The bytes of the manifest's pages, one after the other. -/
  image : ℕ → Byte
  pageSize_pos : 0 < pageSize

inductive ReadPhase where
  | ensurePagesPresent (g : ℕ)
  | fetchPage (g : ℕ)
  | pwrite (g k : ℕ)
  | setPresent (g : ℕ)
  | setClean (g : ℕ)
  | pread (k : ℕ)
  | done
  | failed
deriving DecidableEq

inductive WritePhase where
  | lock
  | clearClean (g : ℕ)
  | pwrite (k : ℕ)
  | setPresent (g : ℕ)
  | done
  | failed
deriving DecidableEq

inductive LazyRequest where
  | read (off len : ℕ) (phase : ReadPhase)
  | write (off : ℕ) (data : Bytes) (phase : WritePhase)
deriving DecidableEq

def LazyRequest.faulting : LazyRequest → Option ℕ
  | .read _ _ (.fetchPage g) => some g
  | .read _ _ (.pwrite g _) => some g
  | .read _ _ (.setPresent g) => some g
  | .read _ _ (.setClean g) => some g
  | _ => none

structure WriteEntry where
  off : ℕ
  data : Bytes
  completed : Bool
deriving DecidableEq

def WriteEntry.byteAt (e : WriteEntry) (a : ℕ) : Option Byte :=
  if e.off ≤ a then e.data[a-e.off]? else none

/-- The backing file with its bitmaps, the request that has the write lock, and the writes in the order
in which they took it, newest first. -/
structure LazyFile where
  backing : ℕ → Byte
  bitmap : ℕ → Bool
  cleanBitmap : ℕ → Bool
  writer : Option ℕ
  log : List WriteEntry

def LazyFile.writing (f : LazyFile) : Option WriteEntry := if f.writer.isSome then f.log.head? else none

structure LazyMount where
  file : LazyFile
  requests : List LazyRequest

inductive LazyAction where
  /-- The next step of a request; a transfer moves at most `n+1` bytes. -/
  | advance (i n : ℕ)
  /-- A fetch or a transfer returns an error. -/
  | fail (i : ℕ)

namespace LazyMount

variable (m : LazyManifest)

variable (f : LazyFile) (backing : ℕ → Byte) (present : ℕ → Bool)

/-- Whether page `g` is not among those of a request that the manifest has. -/
def Past (off len g : ℕ) : Prop := (off+len-1)/m.pageSize < g ∨ m.commitPages ≤ g

instance (off len g : ℕ) : Decidable (Past m off len g) := inferInstanceAs (Decidable (_ ∨ _))

def readStep (n off len : ℕ) : ReadPhase → LazyFile × ReadPhase
  | .ensurePagesPresent g =>
    if len = 0 ∨ Past m off len g then (f,.pread 0)
    else if f.bitmap g then (f,.ensurePagesPresent (g+1))
    else (f,.fetchPage g)
  | .fetchPage g => (f,.pwrite g 0)
  | .pwrite g k =>
    let page := read m.image (g*m.pageSize) m.pageSize
    ({ f with backing := store f.backing (g*m.pageSize+k) ((page.drop k).take (n+1)) },
      if m.pageSize ≤ k+(n+1) then .setPresent g else .pwrite g (k+(n+1)))
  | .setPresent g => ({ f with bitmap := Function.update f.bitmap g true },.setClean g)
  | .setClean g =>
    ({ f with cleanBitmap := Function.update f.cleanBitmap g true },.ensurePagesPresent (g+1))
  | .pread k => (f,if len ≤ k+(n+1) then .done else .pread (k+(n+1)))
  | .done => (f,.done)
  | .failed => (f,.failed)

def complete : List WriteEntry → List WriteEntry
  | [] => []
  | e::es => { e with completed := true }::es

def writeStep (i n off : ℕ) (data : Bytes) : WritePhase → LazyFile × WritePhase
  | .lock =>
    if data = [] then (f,.done)
    else if f.writer = none then
      ({ f with writer := some i,log := ⟨off,data,false⟩::f.log },.clearClean (off/m.pageSize))
    else (f,.lock)
  | .clearClean g =>
    if Past m off data.length g then (f,.pwrite 0)
    else ({ f with cleanBitmap := Function.update f.cleanBitmap g false },.clearClean (g+1))
  | .pwrite k =>
    ({ f with backing := store f.backing (off+k) ((data.drop k).take (n+1)) },
      if data.length ≤ k+(n+1) then .setPresent (off/m.pageSize) else .pwrite (k+(n+1)))
  | .setPresent g =>
    if Past m off data.length g then ({ f with writer := none,log := complete f.log },.done)
    else ({ f with bitmap := Function.update f.bitmap g true },.setPresent (g+1))
  | .done => (f,.done)
  | .failed => (f,.failed)

/-- An error ends the request; a write gives its lock back and completes nothing. -/
def failStep : LazyRequest → LazyFile × LazyRequest
  | .read off len (.fetchPage _) => (f,.read off len .failed)
  | .read off len (.pwrite _ _) => (f,.read off len .failed)
  | .read off len (.pread _) => (f,.read off len .failed)
  | .write off data (.pwrite _) => ({ f with writer := none },.write off data .failed)
  | r => (f,r)

def advance (i n : ℕ) : LazyRequest → LazyFile × LazyRequest
  | .read off len phase =>
    ((readStep m f n off len phase).1,.read off len (readStep m f n off len phase).2)
  | .write off data phase =>
    ((writeStep m f i n off data phase).1,.write off data (writeStep m f i n off data phase).2)

def step (s : LazyMount) : LazyAction → LazyMount
  | .advance i n =>
    match s.requests[i]? with
    | none => s
    | some r => ⟨(advance m s.file i n r).1,s.requests.set i (advance m s.file i n r).2⟩
  | .fail i =>
    match s.requests[i]? with
    | none => s
    | some r => ⟨(failStep s.file r).1,s.requests.set i (failStep s.file r).2⟩

/-- A mount over a file in which some pages are present already. -/
def init (requests : List LazyRequest) : LazyMount :=
  ⟨⟨backing,present,fun _ => false,none,[]⟩,requests⟩

/-- A request that has not begun; writes cover whole pages. -/
def Fresh : LazyRequest → Prop
  | .read off _ phase => phase = .ensurePagesPresent (off/m.pageSize)
  | .write off data phase => phase = .lock ∧ m.pageSize ∣ off ∧ m.pageSize ∣ data.length

/-- The byte at `a` before the first write: the image's, or what the file had there. -/
def base (a : ℕ) : Byte :=
  if a/m.pageSize < m.commitPages ∧ present (a/m.pageSize) = false then m.image a else backing a

/-- The bytes that may stand at `a`: one of a write that no later completed write covers, or the
first byte if no completed write covers it. -/
def Allowed (first : Byte) (a : ℕ) : List WriteEntry → Byte → Prop
  | [],b => b = first
  | e::es,b =>
    match e.byteAt a with
    | none => Allowed first a es b
    | some v => b = v ∨ e.completed = false ∧ Allowed first a es b

instance decidableAllowed (first : Byte) (a : ℕ) : ∀ log b,Decidable (Allowed first a log b)
  | [],b => inferInstanceAs (Decidable (b = first))
  | e::es,b =>
    match h : e.byteAt a with
    | none =>
      haveI := decidableAllowed first a es b
      decidable_of_iff (Allowed first a es b) (by rw [Allowed,h])
    | some v =>
      haveI := decidableAllowed first a es b
      decidable_of_iff (b = v ∨ e.completed = false ∧ Allowed first a es b) (by rw [Allowed,h])

structure KeepsWrites (backing : ℕ → Byte) (present : ℕ → Bool) (s : LazyMount) : Prop where
  /-- Every byte that a read is about to return is allowed. -/
  reads : ∀ off len k,.read off len (.pread k) ∈ s.requests → ∀ a,off ≤ a → a < off+len →
    Allowed (base m backing present a) a s.file.log (s.file.backing a)
  /-- Where a write has completed, the file has its byte or a later write's. -/
  writes : ∀ e ∈ s.file.log,e.completed = true → ∀ a,e.byteAt a ≠ none →
    Allowed (base m backing present a) a s.file.log (s.file.backing a)
  /-- A page that a sibling may clone is the manifest's. -/
  clean : ∀ g,s.file.bitmap g = true → s.file.cleanBitmap g = true → ∀ a,a/m.pageSize = g →
    s.file.backing a = m.image a

def Covers (off len g : ℕ) : Prop := off/m.pageSize ≤ g ∧ g ≤ (off+len-1)/m.pageSize

instance (off len g : ℕ) : Decidable (Covers m off len g) := inferInstanceAs (Decidable (_ ∧ _))

/-- A page is not faulted in while a write of it runs: no fault begins under the write, and the write
does not begin during a fault. -/
def Apart (s : LazyMount) : LazyAction → Prop
  | .advance i _ =>
    match s.requests[i]? with
    | some (.read off len (.ensurePagesPresent g)) =>
      ¬(len = 0 ∨ Past m off len g) → s.file.bitmap g = false →
        ∀ e ∈ s.file.writing,¬Covers m e.off e.data.length g
    | some (.write off data .lock) =>
      ∀ r ∈ s.requests,∀ g ∈ r.faulting,¬Covers m off data.length g
    | _ => True
  | .fail _ => True

instance decidableApart (s : LazyMount) (a : LazyAction) : Decidable (Apart m s a) := by
  unfold Apart
  split
  · split <;> infer_instance
  · infer_instance

end LazyMount

end Syzy
