import Mathlib.Data.List.Sort
import Syzy.BlobReconcile

/-!
What a local blob write ships: the runs of bytes in which two images of the blob differ, and the
announced ranges of a transaction, joined where they touch.
-/

namespace Syzy

open List

section Diff

variable {old newB b : Bytes} {common i j : ℕ}

/-- The inner loop: the end of the run of differing bytes. -/
def runEnd (old newB : Bytes) (common j : ℕ) : ℕ :=
  if j < common ∧ old[j]? ≠ newB[j]? then runEnd old newB common (j+1) else j
termination_by common-j

theorem le_runEnd : j ≤ runEnd old newB common j := by
  fun_induction runEnd old newB common j <;> omega

theorem runEnd_le (h : j ≤ common) : runEnd old newB common j ≤ common := by
  fun_induction runEnd old newB common j with
  | case1 j hj ih => exact ih hj.1
  | case2 j => exact h

/-- The outer loop, and the range of the bytes that `newB` has more. -/
def diffFrom (old newB : Bytes) (common i : ℕ) : List PatchRange :=
  if i < common then
    if old[i]? = newB[i]? then diffFrom old newB common (i+1)
    else
      ⟨i,(newB.take (runEnd old newB common (i+1))).drop i⟩::
        diffFrom old newB common (runEnd old newB common (i+1))
  else if common < newB.length then [⟨common,newB.drop common⟩] else []
termination_by common-i
decreasing_by
  · omega
  · have := @le_runEnd old newB common (i+1)
    omega

def diffBlobRanges (old newB : Bytes) : List PatchRange :=
  diffFrom old newB (min old.length newB.length) 0

/-- Ranges of `newB` in order and apart, outside of which the bytes from `i` on have not changed. -/
structure DiffOK (old newB : Bytes) (i : ℕ) (rs : List PatchRange) : Prop where
  ascending : rs.Pairwise fun r r' => r.stop ≤ r'.offset
  within : ∀ r ∈ rs,i ≤ r.offset ∧ r.offset < r.stop ∧ r.stop ≤ newB.length
  bytes : ∀ r ∈ rs,r.bytes = (newB.take r.stop).drop r.offset
  same : ∀ k,i ≤ k → k < newB.length → (¬∃ r ∈ rs,r.offset ≤ k ∧ k < r.stop) → old[k]? = newB[k]?

theorem diffOK_diffFrom (hlen : common ≤ newB.length) (hi : i ≤ common) :
    DiffOK old newB i (diffFrom old newB common i) := by
  fun_induction diffFrom old newB common i with
  | case1 i hlt heq ih =>
    have h := ih hlt
    refine ⟨h.ascending,fun r hr => ?_,h.bytes,fun k hk => ?_⟩
    · have := h.within r hr
      omega
    · rcases hk.eq_or_lt with rfl | hk
      · exact fun _ _ => heq
      · exact h.same k hk
  | case2 i hlt hne ih =>
    have hgt := @le_runEnd old newB common (i+1)
    have hle := @runEnd_le old newB common (i+1) hlt
    generalize runEnd old newB common (i+1) = j at *
    have h := ih hle
    have hstop : (⟨i,(newB.take j).drop i⟩ : PatchRange).stop = j := by
      simp [PatchRange.stop]
      omega
    refine ⟨pairwise_cons.mpr ⟨fun r hr => hstop.trans_le (h.within r hr).1,h.ascending⟩,
      forall_mem_cons.mpr ⟨by simp [hstop]; omega,fun r hr => ?_⟩,
      forall_mem_cons.mpr ⟨by simp [hstop],h.bytes⟩,fun k hk hkl hout => ?_⟩
    · have := h.within r hr
      omega
    · simp only [mem_cons,exists_eq_or_imp,not_or,hstop] at hout
      exact h.same k (by omega) hkl hout.2
  | case3 i hge hlt =>
    have hstop : (⟨common,newB.drop common⟩ : PatchRange).stop = newB.length := by
      simp [PatchRange.stop]
      omega
    refine ⟨pairwise_singleton _ _,by simp [hstop]; omega,by simp [hstop],fun k hk hkl hout => ?_⟩
    exact absurd ⟨_,mem_singleton_self _,by simp; omega,hstop ▸ hkl⟩ hout
  | case4 i hge hle => exact ⟨.nil,by simp,by simp,fun k hk hkl => by omega⟩

def overwriteAll (b : Bytes) (rs : List PatchRange) : Option Bytes :=
  rs.foldlM (fun b r => writeBytes b r.offset r.bytes) b

theorem overwriteAll_patched {rs : List PatchRange} (hb : newB.length ≤ b.length)
    (hrs : ∀ r ∈ rs,r.offset ≤ r.stop ∧ r.stop ≤ newB.length ∧
      r.bytes = (newB.take r.stop).drop r.offset) :
    ∃ b',overwriteAll b rs = some b' ∧
      Patched (fun i => ∃ r ∈ rs,r.offset ≤ i ∧ i < r.stop) newB b b' := by
  induction rs generalizing b with
  | nil => exact ⟨b,rfl,rfl,fun i hi => by simp at hi,fun _ _ => rfl⟩
  | cons r rs ih =>
    obtain ⟨⟨hle,hstop,hbytes⟩,hrest⟩ := forall_mem_cons.mp hrs
    obtain ⟨b₁,h₁,hp₁⟩ := writeBytes_patched hle hstop (hstop.trans hb)
    obtain ⟨b₂,h₂,hp₂⟩ := ih (hp₁.length ▸ hb) hrest
    refine ⟨b₂,?_,(hp₁.trans hp₂).congr fun i => by simp⟩
    rw [overwriteAll,foldlM_cons,hbytes,h₁]
    exact h₂

end Diff

/-- The bytes that one intent announces, from its offset to its end. -/
abbrev IntentRange := ByteRange

/-- A sort of ranges by their offsets, which need not be stable. -/
structure OffsetSort where
  sort : List IntentRange → List IntentRange
  perm : ∀ l,(sort l).Perm l
  sorted : ∀ l,(sort l).Pairwise fun r r' => r.start ≤ r'.start

/-- The loop over the sorted ranges, which extends the last range or starts another one. -/
def mergeFrom (last : IntentRange) : List IntentRange → List IntentRange
  | [] => [last]
  | r::rs =>
    if r.start ≤ last.stop then
      mergeFrom ⟨last.start,if last.stop < r.stop then r.stop else last.stop⟩ rs
    else last::mergeFrom r rs

def coalesceIntentRanges (s : OffsetSort) (l : List IntentRange) : List IntentRange :=
  if l.length ≤ 1 then l
  else match s.sort l with
    | [] => []
    | r::rs => mergeFrom r rs

def Apart (l : List IntentRange) : Prop :=
  l.Pairwise fun r r' => r.start ≤ r'.start ∧ r.stop < r'.start

theorem mergeFrom_spec {last : IntentRange} {rs : List IntentRange}
    (hs : (last::rs).Pairwise fun r r' => r.start ≤ r'.start) :
    Apart (mergeFrom last rs) ∧ (∀ r ∈ mergeFrom last rs,last.start ≤ r.start) ∧
      ∀ i,(∃ r ∈ mergeFrom last rs,r.Covers i) ↔ ∃ r ∈ last::rs,r.Covers i := by
  induction rs generalizing last with
  | nil => exact ⟨pairwise_singleton _ _,by simp [mergeFrom],by simp [mergeFrom]⟩
  | cons r rs ih =>
    obtain ⟨hlast,hrs⟩ := pairwise_cons.mp hs
    obtain ⟨hr,hlast⟩ := forall_mem_cons.mp hlast
    rw [mergeFrom]
    by_cases htouch : r.start ≤ last.stop
    · rw [if_pos htouch]
      generalize hstop : (if last.stop < r.stop then r.stop else last.stop) = stop
      obtain ⟨hap,hle,hsame⟩ := @ih ⟨last.start,stop⟩ (pairwise_cons.mpr ⟨hlast,hrs.of_cons⟩)
      have hcov : ∀ i,(⟨last.start,stop⟩ : ByteRange).Covers i ↔ last.Covers i ∨ r.Covers i := by
        intro i
        simp only [ByteRange.Covers]
        split_ifs at hstop <;> omega
      exact ⟨hap,hle,fun i => by simp [hsame,hcov,or_assoc]⟩
    · rw [if_neg htouch]
      obtain ⟨hap,hle,hsame⟩ := ih hrs
      have hgap : ∀ r' ∈ mergeFrom r rs,last.start ≤ r'.start ∧ last.stop < r'.start := by
        intro r' hr'
        have := hle r' hr'
        omega
      exact ⟨pairwise_cons.mpr ⟨hgap,hap⟩,
        forall_mem_cons.mpr ⟨le_rfl,fun r' hr' => (hgap r' hr').1⟩,
        fun i => by simpa using or_congr_right (hsame i)⟩

theorem coalesceIntentRanges_spec (s : OffsetSort) (l : List IntentRange) :
    Apart (coalesceIntentRanges s l) ∧
      ∀ i,(∃ r ∈ coalesceIntentRanges s l,r.Covers i) ↔ ∃ r ∈ l,r.Covers i := by
  unfold coalesceIntentRanges
  split_ifs with hlen
  · refine ⟨?_,fun i => Iff.rfl⟩
    rcases l with - | ⟨r,- | ⟨r',l⟩⟩
    · exact .nil
    · exact pairwise_singleton _ _
    · simp at hlen
  · have hmem : ∀ r,r ∈ s.sort l ↔ r ∈ l := fun r => (s.perm l).mem_iff
    have hsorted := s.sorted l
    simp only [← hmem]
    cases hl : s.sort l with
    | nil => simp [Apart]
    | cons r rs =>
      obtain ⟨hap,-,hsame⟩ := mergeFrom_spec (hl ▸ hsorted)
      exact ⟨hap,hsame⟩

theorem blob_diff_exact {old newB : Bytes} (hlen : old.length ≤ newB.length) (s : OffsetSort)
    (l : List IntentRange) :
    overwriteAll (old++replicate (newB.length-old.length) 0) (diffBlobRanges old newB) = some newB ∧
      (diffBlobRanges old newB).Pairwise (fun r r' => r.stop ≤ r'.offset) ∧
      (∀ r ∈ diffBlobRanges old newB,r.offset < r.stop ∧ r.stop ≤ newB.length) ∧
      Apart (coalesceIntentRanges s l) ∧
      ∀ i,(∃ r ∈ coalesceIntentRanges s l,r.Covers i) ↔ ∃ r ∈ l,r.Covers i := by
  have h : DiffOK old newB 0 (diffBlobRanges old newB) := diffOK_diffFrom (by omega) (Nat.zero_le _)
  have hext : (old++replicate (newB.length-old.length) (0 : Byte)).length = newB.length := by
    simp
    omega
  refine ⟨?_,h.ascending,fun r hr => (h.within r hr).2,coalesceIntentRanges_spec s l⟩
  obtain ⟨b,hb,hp⟩ := overwriteAll_patched hext.ge fun r hr =>
    ⟨(h.within r hr).2.1.le,(h.within r hr).2.2,h.bytes r hr⟩
  rw [hb]
  refine congrArg some (ext_getElem? fun k => ?_)
  by_cases hk : k < newB.length
  · by_cases hin : ∃ r ∈ diffBlobRanges old newB,r.offset ≤ k ∧ k < r.stop
    · exact hp.inside k hin
    · have hsame := h.same k (Nat.zero_le k) hk hin
      have hold : k < old.length := by
        by_contra hge
        simp [hk,getElem?_eq_none (not_lt.mp hge)] at hsame
      rw [hp.outside k hin,getElem?_append_left hold,hsame]
  · have hb' : b.length = newB.length := hp.length.trans hext
    rw [getElem?_eq_none (by omega),getElem?_eq_none (by omega)]

namespace DiffSample

def byOffset : OffsetSort where
  sort l := l.insertionSort fun r r' => r.start ≤ r'.start
  perm l := perm_insertionSort _ l
  sorted l := pairwise_insertionSort _ l

theorem grown_blob :
    overwriteAll [1,2,0] (diffBlobRanges [1,2] [1,3,4]) = some [1,3,4] ∧
      Apart (coalesceIntentRanges byOffset [⟨2,5⟩,⟨0,3⟩]) :=
  have h := @blob_diff_exact [1,2] [1,3,4] (by decide) byOffset [⟨2,5⟩,⟨0,3⟩]
  ⟨h.1,h.2.2.2.1⟩

end DiffSample

end Syzy
