import Syzy.Machine
import Syzy.Publish

/-!
The blob range clocks of local commits. The drain computes the effect of every record of a batch
from the row clocks and the stored clocks before the batch, then writes the effects in order; the
replay after a crash goes changeset by changeset.
-/

namespace Syzy

open Machine List

namespace LocalBlob

variable (blob : BlobRangeClock) (ms : List BlobMutation)

abbrev Commit := Stamp × List Record
abbrev State := (RowKey → RowState) × BlobRangeClock

/-- What a record makes of its row's clock. -/
abbrev Advance := RowState → Stamp → Record → RowState
abbrev Gate := RowState → Stamp → Record → Bool

def foldBlobPatchLocal (existing : BlobCols) (col : ColumnID) (ranges : List PatchRange)
    (stamp baseline : Stamp) : BlobCols :=
  let maps := loadIntervalMaps existing
  entriesFromMaps (maps.insert col (ranges.foldl
    (fun m r => (m.apply r.offset r.stop stamp baseline).1) ((maps.lookup col).getD [])))

/-- What a record does to its row's clock: a patch folds, anything else drops. -/
def blobMutation (s : State) (stamp : Stamp) : Record → BlobMutation
  | .blobPatch k _ col ranges =>
    ⟨k,foldBlobPatchLocal (FinMap.getD s.2 k) col ranges stamp (s.1 k).base⟩
  | r => ⟨r.key,∅⟩

def persistBlobMutations : BlobRangeClock :=
  ms.foldl putBlobRangeClock blob

def records (cs : List Commit) : List (Stamp × Record) := cs.flatMap fun c => c.2.map (Prod.mk c.1)

def drain (s : State) (batch : List Commit) : BlobRangeClock :=
  persistBlobMutations s.2 ((records batch).map fun p => blobMutation s p.1 p.2)

/-- One commit against the current state, of the records a gate lets through. -/
def commit (adv : Advance) (gate : Gate) (s : State) (c : Commit) : State :=
  (c.2.foldl (fun rs r => Function.update rs r.key (adv (rs r.key) c.1 r)) s.1,
    persistBlobMutations s.2
      ((c.2.filter fun r => gate (s.1 r.key) c.1 r).map (blobMutation s c.1)))

/-- The gate of the replay: the generation of a patch, the dominance of anything else. -/
def replayGate (rs : RowState) (stamp : Stamp) : Record → Bool
  | .blobPatch _ cl _ _ => rs.cl = cl ∨ (rs.cl = 0 ∧ cl = 1)
  | r => rs.dominatedBy r.cl stamp

def replayBlobClock (adv : Advance) (s : State) (cs : List Commit) : State :=
  cs.foldl (commit adv replayGate) s

/-- The batch's records one at a time, each against what those before it left. -/
def singles (cs : List Commit) : List Commit := (records cs).map fun p => (p.1,[p.2])

def oneAtATime (adv : Advance) (s : State) (cs : List Commit) : State :=
  (singles cs).foldl (commit adv fun _ _ _ => true) s

/-- The last record of a row, with the stamp of its commit and the commits before that. -/
def lastAt (k : RowKey) : List Commit → Option (List Commit × Stamp × Record)
  | [] => none
  | c::cs => ((lastAt k cs).map fun x => (c::x.1,x.2)).or
    ((c.2.filter fun r => r.key = k).getLast?.map fun r => ([],c.1,r))

/-- The row's last record makes of the state it meets what it makes of the state before the batch;
one that is no patch always does. -/
def FoldsAlike (k : RowKey) (s : State) (run : List Commit → State) (cs : List Commit) : Prop :=
  ∀ x ∈ lastAt k cs,
    (blobMutation s x.2.1 x.2.2).cols = (blobMutation (run x.1) x.2.1 x.2.2).cols

variable {adv : Advance} {gate : Gate}
  {s : State} {k : RowKey}

@[simp] theorem key_blobMutation (s : State) (stamp : Stamp) (r : Record) :
    (blobMutation s stamp r).key = r.key := by
  cases r <;> rfl

theorem getD_persist :
    FinMap.getD (persistBlobMutations blob ms) k =
      ((ms.filter fun m => m.key = k).getLast?.map BlobMutation.cols).getD (blob.getD k) := by
  induction ms using reverseRecOn with
  | nil => rfl
  | append_singleton ms m ih =>
    have hput : FinMap.getD (putBlobRangeClock (persistBlobMutations blob ms) m) k =
        if m.key = k then m.cols else FinMap.getD (persistBlobMutations blob ms) k := by
      unfold putBlobRangeClock
      by_cases hk : k = m.key
      · subst hk
        rw [if_pos rfl]
        split_ifs with hcols <;> simp [FinMap.getD,hcols]
      · have hk' : ¬m.key = k := fun h => hk h.symm
        rw [if_neg hk']
        split_ifs <;> simp [FinMap.getD,hk]
    rw [persistBlobMutations,foldl_concat]
    refine hput.trans ?_
    by_cases hk : m.key = k
    · simp [filter_append,hk]
    · simp [filter_append,hk,ih]

/-- Every record passes the gate where the run meets its changeset. -/
def Passes (adv : Advance) (gate : Gate) (s : State) (cs : List Commit) : Prop :=
  Permitted (commit adv gate) (fun s c => ∀ r ∈ c.2,gate (s.1 r.key) c.1 r = true) s cs

theorem getD_persist_commit (s : State) (c : Commit) :
    FinMap.getD (persistBlobMutations blob (c.2.map (blobMutation s c.1))) k =
      ((c.2.filter fun r => r.key = k).getLast?.map fun r => (blobMutation s c.1 r).cols).getD
        (FinMap.getD blob k) := by
  rw [getD_persist,filter_map,getLast?_map,Option.map_map]
  simp only [Function.comp_def,key_blobMutation]

/-- The drain stores what the row's last record makes of the state before the batch. -/
theorem getD_drain (s : State) (cs : List Commit) (k : RowKey) :
    FinMap.getD (drain s cs) k =
      ((lastAt k cs).map fun x => (blobMutation s x.2.1 x.2.2).cols).getD (FinMap.getD s.2 k) := by
  suffices h : ∀ blob,FinMap.getD (persistBlobMutations blob
      ((records cs).map fun p => blobMutation s p.1 p.2)) k =
        ((lastAt k cs).map fun x => (blobMutation s x.2.1 x.2.2).cols).getD (FinMap.getD blob k) from
    h s.2
  induction cs with
  | nil => exact fun _ => rfl
  | cons c cs ih =>
    intro blob
    have hrec : (records (c::cs)).map (fun p => blobMutation s p.1 p.2) =
        c.2.map (blobMutation s c.1)++(records cs).map fun p => blobMutation s p.1 p.2 := by
      simp [records]
    rw [hrec,persistBlobMutations,foldl_append]
    refine (ih _).trans ?_
    rw [lastAt]
    cases lastAt k cs with
    | some x => simp
    | none => simpa [Function.comp_def,persistBlobMutations] using getD_persist_commit blob s c

theorem getD_commits {cs : List Commit} (hgate : Passes adv gate s cs) (k : RowKey) :
    FinMap.getD (cs.foldl (commit adv gate) s).2 k = ((lastAt k cs).map fun x =>
      (blobMutation (x.1.foldl (commit adv gate) s) x.2.1 x.2.2).cols).getD (FinMap.getD s.2 k) := by
  induction cs generalizing s with
  | nil => rfl
  | cons c cs ih =>
    rw [foldl_cons,ih hgate.2,lastAt]
    cases lastAt k cs with
    | some x => simp
    | none =>
      have hall : (c.2.filter fun r => gate (s.1 r.key) c.1 r) = c.2 := filter_eq_self.mpr hgate.1
      simpa [Function.comp_def,commit,hall] using getD_persist_commit s.2 s c

theorem drain_eq_iff {cs : List Commit} (hgate : Passes adv gate s cs) (k : RowKey) :
    FinMap.getD (drain s cs) k = FinMap.getD (cs.foldl (commit adv gate) s).2 k ↔
      FoldsAlike k s (fun pre => pre.foldl (commit adv gate) s) cs := by
  rw [getD_drain,getD_commits hgate,FoldsAlike]
  cases lastAt k cs <;> simp

/-- How a record may move its row's clock. -/
structure Advances (adv : Advance) : Prop where
  patch : ∀ rs stamp r,r.isBlobPatch = true → adv rs stamp r = rs
  cl : ∀ rs stamp r,r.isBlobPatch = false → (adv rs stamp r).cl = max rs.cl r.cl
  base : ∀ rs stamp r,(adv rs stamp r).base = rs.base ∨ (adv rs stamp r).base = stamp ∨
    (adv rs stamp r).base = Stamp.zero

theorem put_base (rs st : RowState) (clear : Bool) :
    (rs.put st clear).base = rs.base ∨ (rs.put st clear).base = st.base := by
  unfold RowState.put Cache.mergeState
  split_ifs <;> simp

theorem advances_absorb (tab : Table) : Advances fun rs stamp r => rs.absorb tab stamp r where
  patch rs stamp r h := by simp [RowState.absorb,clockEffect,h]
  cl rs stamp r h := absorb_cl_eq_max h
  base rs stamp r := by
    have hput := fun st clear => put_base rs st clear
    rw [RowState.absorb,foldl_putCellUpdate_base,clockEffect]
    generalize (if tab.cellGroup then asCellUpdate tab r rs else none) = changed?
    cases changed? <;> simp only [gatedClocks,cellClockUpdates] <;> split_ifs <;>
      simp only [foldl_cons,foldl_nil,RowState.putUpdate,true_or] <;> grind [RowState.ofBase_base]

def numbering (cls : RowKey → ℕ) (c : Commit) : RowKey → ℕ :=
  c.2.foldl (fun cls r => if r.isBlobPatch then cls
    else Function.update cls r.key (max (cls r.key) r.cl)) cls

/-- Causal lengths and stamps as the drain hands them out: a record has at least its row's causal
length and a patch exactly it, and the stamps ascend from above the rows' own. -/
structure Numbered (s : State) (cs : List Commit) : Prop where
  cls : Permitted numbering (fun cls c => ∀ r ∈ c.2,if r.isBlobPatch
    then cls r.key = r.cl ∨ cls r.key = 0 ∧ r.cl = 1 else cls r.key ≤ r.cl) (fun k => (s.1 k).cl) cs
  above : ∀ c ∈ cs,Stamp.zero < c.1 ∧ ∀ r ∈ c.2,(s.1 r.key).base < c.1
  ascending : cs.Pairwise fun c c' => c.1 < c'.1

theorem cl_commit (hadv : Advances adv) (s : State) (c : Commit) :
    (fun k => ((commit adv gate s c).1 k).cl) = numbering (fun k => (s.1 k).cl) c := by
  obtain ⟨rs,blob⟩ := s
  obtain ⟨stamp,recs⟩ := c
  simp only [commit,numbering]
  induction recs generalizing rs with
  | nil => rfl
  | cons r recs ih =>
    rw [foldl_cons,foldl_cons,ih]
    congr 1
    funext k
    cases hr : r.isBlobPatch with
    | true => simp [hadv.patch _ _ _ hr]
    | false => by_cases hk : k = r.key <;> simp [hk,hadv.cl _ _ _ hr]

theorem base_commit (hadv : Advances adv) (s : State) (c : Commit) (k : RowKey) :
    ((commit adv gate s c).1 k).base = (s.1 k).base ∨ ((commit adv gate s c).1 k).base = c.1 ∨
      ((commit adv gate s c).1 k).base = Stamp.zero := by
  obtain ⟨rs,blob⟩ := s
  obtain ⟨stamp,recs⟩ := c
  simp only [commit]
  induction recs generalizing rs with
  | nil => exact .inl rfl
  | cons r recs ih =>
    have hr := hadv.base (rs r.key) stamp r
    have htail := ih (Function.update rs r.key (adv (rs r.key) stamp r))
    rw [foldl_cons]
    by_cases hk : k = r.key
    · subst hk
      rw [Function.update_self] at htail
      grind
    · rwa [Function.update_of_ne hk] at htail

theorem Numbered.passes (hadv : Advances adv) {cs : List Commit} (h : Numbered s cs) :
    Passes adv replayGate s cs := by
  induction cs generalizing s with
  | nil => trivial
  | cons c cs ih =>
    have hc := h.above c mem_cons_self
    refine ⟨fun r hr => ?_,ih ⟨?_,fun c' hc' => ?_,(pairwise_cons.mp h.ascending).2⟩⟩
    · have hcl := h.cls.1 r hr
      have hbase := hc.2 r hr
      cases r with
      | blobPatch => exact decide_eq_true hcl
      | _ => exact RowState.dominatedBy_iff.mpr (Prod.Lex.toLex_lt_toLex.mpr
          ((Nat.lt_or_eq_of_le hcl).imp_right fun e => ⟨e,hbase⟩))
    · rw [cl_commit hadv]
      exact h.cls.2
    · have hc'' := h.above c' (mem_cons_of_mem _ hc')
      have hlt := (pairwise_cons.mp h.ascending).1 c' hc'
      refine ⟨hc''.1,fun r hr => ?_⟩
      rcases base_commit hadv s c r.key with e | e | e <;> rw [e]
      exacts [hc''.2 r hr,hlt,hc''.1]

namespace FoldSample

def key : RowKey := ⟨1,[]⟩
def patch (off : ℕ) (data : Bytes) : Record := .blobPatch key 1 7 [⟨off,data⟩]
def stamp (t : ℤ) : Stamp := ⟨⟨t,0⟩,1⟩
def state : State := (fun _ => .ofBase 1 (stamp 1),∅)
def table : Table := ⟨1,[⟨7,0,false,false,false,.null,.binary⟩],[],false,false⟩
def absorbed : Advance := fun rs st r => rs.absorb table st r
def apart : List Commit := [(stamp 5,[patch 0 [9]]),(stamp 6,[patch 1 [9]])]
def wider : List Commit := [(stamp 5,[patch 0 [9]]),(stamp 6,[patch 0 [9,9]])]

end FoldSample

end LocalBlob

end Syzy
