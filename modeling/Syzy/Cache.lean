import Mathlib.Data.Finset.Image
import Syzy.RowState
import Syzy.SeqSet

/-!
The runtime state of one node: row clocks, each origin's applied frontier with its gaps, the
node's own sequence counters and clock, and the dirty sets the snapshotter drains.
-/

namespace Syzy

abbrev Offset := ℕ

/-- The contiguously applied head of one origin and the greatest clock applied from it. -/
structure FrontierEntry where
  lastSeq : Seq
  lastHLC : Clock
deriving DecidableEq

instance : Inhabited FrontierEntry := ⟨⟨0,default⟩⟩

structure Cache where
  self : Origin
  senderNextSeq : FinMap Origin Seq
  hlcLast : Clock
  dirtySenderSeqs : Finset Origin
  rowClock : FinMap RowKey RowState
  frontier : FinMap Origin FrontierEntry
  appliedGaps : FinMap Origin SeqSet
  snapshotMarkers : FinMap Origin Offset
  dirtyRows : Finset RowKey
  dirtyFrontiers : Finset Origin
  dirtyCells : Finset (RowKey × ColumnID)
  dirtyClearedRows : FinMap RowKey ℕ
  forgottenOrigins : Finset Origin
  persistedFrontier : FinMap Origin Seq
  prevPersistedFrontier : FinMap Origin Seq
  metaDirty : Bool

namespace Cache

variable (c : Cache) (origin : Origin) (k : RowKey)

def new (self : Origin) : Cache where
  self := self
  senderNextSeq := ∅
  hlcLast := default
  dirtySenderSeqs := ∅
  rowClock := ∅
  frontier := ∅
  appliedGaps := ∅
  snapshotMarkers := ∅
  dirtyRows := ∅
  dirtyFrontiers := ∅
  dirtyCells := ∅
  dirtyClearedRows := ∅
  forgottenOrigins := ∅
  persistedFrontier := ∅
  prevPersistedFrontier := ∅
  metaDirty := false

def persistedFrontierBound : Seq :=
  c.prevPersistedFrontier.getD origin

/-- How far an apply may prune applied markers: never the seq it certifies itself. -/
def markerPruneBound (persisted seq : Seq) : Seq := if seq ≤ persisted then seq-1 else persisted

/-- Advance to the wall clock, or tick the logical counter (an `int32`) when it does not move. -/
def stampHLC (wall : ℤ) : Clock × Cache :=
  let clk : Clock :=
    if c.hlcLast.less ⟨wall,0⟩ then ⟨wall,0⟩
    else ⟨c.hlcLast.wallTime,(c.hlcLast.logical+1).bmod (2^32)⟩
  (clk,{ c with hlcLast := clk,metaDirty := true })

def observeHLC (clk : Clock) : Cache :=
  if c.hlcLast.less clk then { c with hlcLast := clk,metaDirty := true } else c

def allocSelfSeq : Seq × Cache :=
  let seq := if c.senderNextSeq.getD origin = 0 then 1 else c.senderNextSeq.getD origin
  (seq,{ c with
    senderNextSeq := c.senderNextSeq.insert origin (seq+1)
    dirtySenderSeqs := insert origin c.dirtySenderSeqs
    metaDirty := true })

def rowState : RowState := c.rowClock.getD k

def dropDirtyCells (s : Finset (RowKey × ColumnID)) : Finset (RowKey × ColumnID) :=
  s.filter fun e => e.1 ≠ k

/-- Record a new clock for a row unless it would regress, and say whether it landed. A rise of
`cl` drops every override and queues their deletion when any may be stored. -/
def putRowState (st : RowState) : Bool × Cache :=
  let prev := c.rowState k
  if st.cl < prev.cl ∨ (prev.cl = st.cl ∧ ¬prev.dominatedBy st.cl st.base) then (false,c)
  else if prev.cl < st.cl then
    (true,{ c with
      rowClock := c.rowClock.insert k { st with cells := ∅,ranges := ∅ }
      dirtyRows := insert k c.dirtyRows
      dirtyClearedRows :=
        if prev.cl ≠ 0 ∨ prev.cells ≠ ∅ ∨ c.dirtyClearedRows.getD k ≠ 0
        then c.dirtyClearedRows.insert k (c.dirtyClearedRows.getD k+1)
        else c.dirtyClearedRows
      dirtyCells := dropDirtyCells k c.dirtyCells })
  else
    (true,{ c with
      rowClock := c.rowClock.insert k
        { st with cells := if st.cells = ∅ then prev.cells else st.cells }
      dirtyRows := insert k c.dirtyRows })

def mergeState (prev st : RowState) : RowState :=
  if prev.cl < st.cl then { st with cells := ∅,ranges := ∅ }
  else { st with cells := if st.cells = ∅ then prev.cells else st.cells }

theorem regresses_iff (prev st : RowState) :
    (st.cl < prev.cl ∨ (prev.cl = st.cl ∧ ¬prev.dominatedBy st.cl st.base)) ↔
      ¬prev.dominatedBy st.cl st.base := by
  rw [Bool.not_eq_true,RowState.not_dominatedBy_iff,RowState.version,Prod.Lex.toLex_le_toLex]
  constructor
  · rintro (h | h)
    · exact .inl h
    · exact h.2
  · rintro (h | h)
    · exact .inl h
    · exact .inr ⟨h.1.symm,.inr h⟩

theorem putRowState_landed (st : RowState) :
    (c.putRowState k st).1 = (c.rowState k).dominatedBy st.cl st.base := by
  simp only [putRowState,regresses_iff]
  split_ifs <;> simp_all

theorem rowState_putRowState (k k' : RowKey) (st : RowState) : (c.putRowState k st).2.rowState k' =
      if k' = k ∧ (c.rowState k).dominatedBy st.cl st.base then mergeState (c.rowState k) st
      else c.rowState k' := by
  simp only [putRowState,regresses_iff,mergeState]
  by_cases hd : (c.rowState k).dominatedBy st.cl st.base = true
  · by_cases hcl : (c.rowState k).cl < st.cl
    · simp only [hd,hcl,not_true_eq_false,if_false,if_true,and_true]
      exact FinMap.getD_insert ..
    · simp only [hd,hcl,not_true_eq_false,if_false,and_true]
      exact FinMap.getD_insert ..
  · simp [hd]

def putCellStamp (col : ColumnID) (stamp : Stamp) : Cache :=
  let st := c.rowState k
  if ¬stamp.dominates (st.columnStamp col) then c
  else { c with
    rowClock := c.rowClock.insert k { st with cells := st.cells.insert col stamp }
    dirtyCells := insert (k,col) c.dirtyCells }

def clearCellsForRow : Cache :=
  { c with
    rowClock := c.rowClock.insert k { c.rowState k with cells := ∅ }
    dirtyClearedRows := c.dirtyClearedRows.insert k (c.dirtyClearedRows.getD k+1)
    dirtyCells := dropDirtyCells k c.dirtyCells }

def isAppliedRemote (seq : Seq) : Bool :=
  if origin = c.self then false
  else (c.frontier.lookup origin).any (fun f => seq ≤ f.lastSeq) ||
    (c.appliedGaps.lookup origin).any (fun gaps => gaps.contains seq)

def lastSeq : Seq := (c.frontier.getD origin).lastSeq
def gaps : SeqSet := c.appliedGaps.getD origin

/-- Add a seq to its origin's gaps and fold the contiguous run into the frontier. -/
def markApplied (seq : Seq) (hlc : Clock) : Cache :=
  let front := c.frontier.getD origin
  let promoted := ((c.gaps origin).add seq).promoteContiguous front.lastSeq
  { c with
    appliedGaps := c.appliedGaps.insert origin promoted.2
    frontier := c.frontier.insert origin
      { lastSeq := if front.lastSeq < promoted.1 then promoted.1 else front.lastSeq
        lastHLC := front.lastHLC.forward hlc }
    dirtyFrontiers := insert origin c.dirtyFrontiers
    forgottenOrigins := c.forgottenOrigins.erase origin
    metaDirty := true
    hlcLast := c.hlcLast.forward hlc }

@[simp] theorem markApplied_self (o : Origin) (seq : Seq) (hlc : Clock) :
    (c.markApplied o seq hlc).self = c.self := rfl

/-- Forget a dead origin. The persisted-frontier ledger keeps its entries. -/
def evictOrigin : Bool × Cache :=
  if origin = c.self ∨ (origin ∉ c.frontier ∧ origin ∉ c.appliedGaps ∧ origin ∉ c.snapshotMarkers)
  then (false,c)
  else (true,{ c with
    frontier := c.frontier.erase origin
    appliedGaps := c.appliedGaps.erase origin
    snapshotMarkers := c.snapshotMarkers.erase origin
    dirtyFrontiers := c.dirtyFrontiers.erase origin
    forgottenOrigins := insert origin c.forgottenOrigins
    metaDirty := true })

def setSnapshotMarker (off : Offset) : Cache :=
  { c with snapshotMarkers := c.snapshotMarkers.insert origin off,metaDirty := true }

end Cache

end Syzy
