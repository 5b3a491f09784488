import Syzy.EpochFetch

/-!
The reaper of mirror journals. With a bucket, a foreign origin's journal goes once the highest seq
among the bucket's epochs of that origin reaches the highest applied one.
-/

namespace Syzy

open List

variable {κ : Type*}

def bucketTip (epochs : List (EpochObject κ)) (o : Origin) : Seq :=
  ((epochs.filter fun e => e.origin = o).map EpochObject.hiSeq).foldl max 0

def reapable (isSealed replicated hasBucket : Bool) : Bool :=
  if isSealed then true else replicated && !hasBucket

abbrev Mirror := FinMap Origin (List Seq)

/-- One node's reaper: the seqs it applied of each origin, and whether its peers applied them. -/
structure Reaper where
  self : Origin
  applied : Origin → List Seq
  replicated : Origin → Bool

namespace Reaper

def appliedTip (n : Reaper) (o : Origin) : Seq := (n.applied o).foldl max 0

/-- The loop over the mirrored origins, with what is left of the pass's budget. -/
def reapFrom (n : Reaper) (tips : Origin → Seq) : ℕ → List Origin → Mirror → Mirror
  | _,[],m => m
  | budget,o::os,m =>
    if o = n.self ∨ n.appliedTip o = 0 then reapFrom n tips budget os m
    else if reapable (n.appliedTip o ≤ tips o) (n.replicated o) true then
      if budget ≤ 1 then m.erase o else reapFrom n tips (budget-1) os (m.erase o)
    else reapFrom n tips budget os m

/-- A pass: the order in which it meets the origins, and whether the tips were discovered. -/
structure Pass where
  tipsOK : Bool
  origins : List Origin

def reapOrigins [LinearOrder κ] (n : Reaper) (bucket : List (EpochObject κ)) (m : Mirror) (p : Pass) :
    Mirror :=
  n.reapFrom (if p.tipsOK then bucketTip (Bucket.discoverTips bucket) else fun _ => 0) 64 p.origins m

variable {n : Reaper} {tips : Origin → Seq} {o : Origin} {seq : Seq}

theorem getD_reapFrom (os : List Origin) (budget : ℕ) (m : Mirror) :
    FinMap.getD (n.reapFrom tips budget os m) o = FinMap.getD m o ∨
      o ≠ n.self ∧ n.appliedTip o ≠ 0 ∧ n.appliedTip o ≤ tips o := by
  induction os generalizing budget m with
  | nil => exact .inl rfl
  | cons p os ih =>
    rw [reapFrom]
    by_cases hskip : p = n.self ∨ n.appliedTip p = 0
    · rw [if_pos hskip]
      exact ih budget m
    · rw [if_neg hskip]
      by_cases hreap : reapable (n.appliedTip p ≤ tips p) (n.replicated p) true = true
      · have hreached : n.appliedTip p ≤ tips p := by simpa [reapable] using hreap
        have herase : FinMap.getD (m.erase p) o = FinMap.getD m o ∨
            o ≠ n.self ∧ n.appliedTip o ≠ 0 ∧ n.appliedTip o ≤ tips o := by
          by_cases ho : o = p
          · subst ho
            exact .inr ⟨fun h => hskip (.inl h),fun h => hskip (.inr h),hreached⟩
          · exact .inl (by simp [FinMap.getD,ho])
        rw [if_pos hreap]
        split_ifs
        · exact herase
        · refine (ih (budget-1) (m.erase p)).elim (fun hsame => ?_) .inr
          rwa [hsame]
      · rw [if_neg hreap]
        exact ih budget m

theorem reaped_recoverable [LinearOrder κ] {bucket : List (EpochObject κ)} {m : Mirror}
    (hholes : ∀ o ≠ n.self,n.appliedTip o ≤ bucketTip (Bucket.discoverTips bucket) o →
      ∀ seq ∈ FinMap.getD m o,∃ e ∈ bucket,e.origin = o ∧ ∃ r ∈ e.records,r.seq = seq)
    (passes : List Pass) (ho : o ≠ n.self) (hseq : seq ∈ FinMap.getD m o) :
    seq ∈ FinMap.getD (passes.foldl (n.reapOrigins bucket) m) o ∨
      ∃ e ∈ bucket,e.origin = o ∧ ∃ r ∈ e.records,r.seq = seq := by
  induction passes using reverseRecOn with
  | nil => exact .inl hseq
  | append_singleton passes p ih =>
    refine ih.elim (fun hmem => ?_) .inr
    rw [foldl_concat,reapOrigins]
    obtain hsame | ⟨-,hpos,hle⟩ := getD_reapFrom p.origins 64 (passes.foldl (n.reapOrigins bucket) m)
    · rw [hsame]
      exact .inl hmem
    · split_ifs at hle
      · exact .inr (hholes o ho hle seq hseq)
      · exact absurd (le_antisymm hle (UInt64.le_iff_toNat_le.mpr (Nat.zero_le _))) hpos

end Reaper

namespace ReapSample

def node : Reaper := ⟨1,fun _ => [1,2,3],fun _ => false⟩
def mirrored : Mirror := (∅ : Mirror).insert 2 [1,2,3]
def epoch (i : ℕ) (s : Seq) : EpochObject ℕ := ⟨i,2,s,s,[⟨s,s,[⟨s,[]⟩]⟩]⟩
def pass : Reaper.Pass := ⟨true,[2]⟩

/-- Seq 2 was never sealed; the tip says 3. -/
theorem hole_reaped :
    FinMap.getD (node.reapOrigins [epoch 0 1,epoch 1 3] mirrored pass) 2 = [] ∧
      ¬∃ e ∈ [epoch 0 1,epoch 1 3],e.origin = 2 ∧ ∃ r ∈ e.records,r.seq = 2 := by
  refine ⟨by decide,?_⟩
  simp [epoch,EpochObject.records]

theorem sealed_reaped :
    2 ∈ FinMap.getD ([pass].foldl (node.reapOrigins [epoch 0 1,epoch 1 2,epoch 2 3]) mirrored) 2 ∨
      ∃ e ∈ [epoch 0 1,epoch 1 2,epoch 2 3],e.origin = 2 ∧ ∃ r ∈ e.records,r.seq = 2 := by
  have hmem : ∀ o,∀ seq ∈ mirrored.getD o,o = 2 ∧ seq ∈ [1,2,3] := by
    intro o seq h
    rw [mirrored,FinMap.getD_insert] at h
    split_ifs at h with ho
    · exact ⟨ho,h⟩
    · rw [FinMap.getD_empty] at h
      cases h
  refine Reaper.reaped_recoverable (fun o _ _ seq h => ?_) [pass] (show 2 ≠ node.self by decide)
    (by decide)
  obtain ⟨rfl,hseq⟩ := hmem o seq h
  simp only [mem_cons,not_mem_nil,or_false] at hseq
  rcases hseq with rfl | rfl | rfl <;> simp [epoch,EpochObject.records]

end ReapSample

end Syzy
