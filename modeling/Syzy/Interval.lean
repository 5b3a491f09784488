import Mathlib.Data.List.TakeWhile
import Syzy.Identity

/-!
The per-byte clock of a blob cell: stamped byte intervals in ascending order, each byte governed
by the greatest stamp written over it.
-/

namespace Syzy

/-- The half-open byte interval from `start` to `stop`. -/
structure ByteRange where
  start : ℕ
  stop : ℕ
deriving DecidableEq

namespace ByteRange

def empty (r : ByteRange) : Bool := r.stop ≤ r.start
def length (r : ByteRange) : ℕ := if r.empty then 0 else r.stop-r.start

end ByteRange

structure IntervalEntry where
  range : ByteRange
  stamp : Stamp
deriving DecidableEq

abbrev IntervalMap := List IntervalEntry

namespace IntervalMap

variable (m : IntervalMap) (off : ℕ)

/-- The entry the binary search lands on: the last one that starts at or below `off`. -/
def predecessor : Option IntervalEntry :=
  (m.takeWhile fun e => e.range.start ≤ off).getLast?

/-- The stamp that governs a byte, zero where no entry covers it. -/
def stampAt : Stamp :=
  match predecessor m off with
  | some e => if off < e.range.stop then e.stamp else Stamp.zero
  | none => Stamp.zero

/-- Entries put out and ranges won by one stretch of an `apply`. -/
abbrev Piece := List IntervalEntry × List ByteRange

def claim (lo hi : ℕ) (c : Stamp) : Piece := ([⟨⟨lo,hi⟩,c⟩],[⟨lo,hi⟩])
def emit (lo hi : ℕ) (s : Stamp) : Piece := ([⟨⟨lo,hi⟩,s⟩],[])

def Piece.append (p q : Piece) : Piece := (p.1++q.1,p.2++q.2)

/-- The bytes no entry covers: `c` takes them when it dominates the baseline. -/
def gap (lo hi : ℕ) (c baseline : Stamp) : Piece :=
  if lo < hi ∧ c.dominates baseline then claim lo hi c else ([],[])

/-- The bytes of `e` above the cursor: `c` takes them when it dominates `e`. -/
def overlap (lo hi : ℕ) (c : Stamp) (e : IntervalEntry) : Piece :=
  if lo < hi then if c.dominates e.stamp then claim lo hi c else emit lo hi e.stamp else ([],[])

/-- The loop over the entries that overlap the write, with its cursor, then the trailing gap and
the entries past the write. -/
def applyFrom (stop : ℕ) (c baseline : Stamp) : ℕ → List IntervalEntry → Piece
  | cur,[] => gap cur stop c baseline
  | cur,e::es =>
    if e.range.start < stop then
      let pre : Piece := if e.range.start < cur then emit e.range.start cur e.stamp else ([],[])
      let gapEnd := min e.range.start stop
      let cur₁ := max cur gapEnd
      let ovEnd := min e.range.stop stop
      let post : Piece :=
        if stop < e.range.stop then emit stop e.range.stop e.stamp else ([],[])
      pre.append ((gap cur gapEnd c baseline).append ((overlap cur₁ ovEnd c e).append
        (post.append (applyFrom stop c baseline (max cur₁ ovEnd) es))))
    else (gap cur stop c baseline).append (e::es,[])

/-- Join the entries that continue `last` at the same stamp. -/
def coalesceFrom (last : IntervalEntry) : List IntervalEntry → List IntervalEntry
  | [] => [last]
  | e::es =>
    if last.range.stop = e.range.start ∧ last.stamp = e.stamp
    then coalesceFrom ⟨⟨last.range.start,e.range.stop⟩,last.stamp⟩ es
    else last::coalesceFrom e es

def coalesce : List IntervalEntry → List IntervalEntry
  | [] => []
  | e::es => coalesceFrom e es

/-- Integrate a write of `c` over the bytes from `start` to `stop`, and the ranges it won. -/
def apply (start stop : ℕ) (c baseline : Stamp) :
    IntervalMap × List ByteRange :=
  if stop ≤ start then (m,[])
  else
    let r := applyFrom stop c baseline start (m.dropWhile fun e => e.range.stop ≤ start)
    (coalesce ((m.takeWhile fun e => e.range.stop ≤ start)++r.1),r.2)

def prune (floor : Stamp) : IntervalMap :=
  m.filter fun e => e.stamp.dominates floor

def clip (maxEnd : ℕ) : IntervalMap :=
  (m.filter fun e => e.range.start < maxEnd).map fun e =>
    ⟨⟨e.range.start,min e.range.stop maxEnd⟩,e.stamp⟩

end IntervalMap

end Syzy
