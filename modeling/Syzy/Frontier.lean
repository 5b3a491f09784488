import Mathlib.Order.Bounds.Basic
import Mathlib.Data.Finset.Lattice.Basic
import Syzy.Cache

/-!
What `MarkApplied` makes of an origin's frontier and gaps: which seqs count as applied after any
sequence of calls, and when the frontier head is the exact contiguous prefix of them.
-/

namespace Syzy

open UInt64 List

namespace Cache

theorem lastSeq_markApplied (c : Cache) (o o' : Origin) (seq : Seq) (hlc : Clock) :
    (c.markApplied o seq hlc).lastSeq o' = if o' = o
      then max (c.lastSeq o) (((c.gaps o).add seq).promoteContiguous (c.lastSeq o)).1
      else c.lastSeq o' := by
  by_cases h : o' = o
  · subst h
    simp only [lastSeq,markApplied,FinMap.getD_insert,if_true,max_def]
    split_ifs with h₁ h₂ h₂
    · rfl
    · exact absurd h₁.le h₂
    · exact le_antisymm h₂ (not_lt.mp h₁)
    · rfl
  · simp [lastSeq,markApplied,FinMap.getD_insert,h]

theorem gaps_markApplied (c : Cache) (o o' : Origin) (seq : Seq) (hlc : Clock) :
    (c.markApplied o seq hlc).gaps o' = if o' = o
      then (((c.gaps o).add seq).promoteContiguous (c.lastSeq o)).2 else c.gaps o' := by
  simp [gaps,markApplied,FinMap.getD_insert,lastSeq]

theorem lastSeq_le_markApplied (c : Cache) (o : Origin) (seq : Seq) (hlc : Clock) :
    c.lastSeq o ≤ (c.markApplied o seq hlc).lastSeq o := by
  rw [lastSeq_markApplied,if_pos rfl]
  exact le_max_left _ _

variable {c : Cache} {calls : List (Seq × Clock)} {marked : Seq → Prop} {o : Origin} {s seq : Seq}

theorem isAppliedRemote_iff (hseq : seq ≠ 0) :
    c.isAppliedRemote o seq = true ↔ o ≠ c.self ∧ (seq ≤ c.lastSeq o ∨ seq ∈ c.gaps o) := by
  have hfront : (c.frontier.lookup o).any (fun f => decide (seq ≤ f.lastSeq)) = true ↔
      seq ≤ c.lastSeq o := by
    cases hf : c.frontier.lookup o with
    | none =>
      have hzero : ¬seq ≤ (default : FrontierEntry).lastSeq := fun h => hseq (by
        rw [le_iff_toNat_le] at h
        exact UInt64.toNat_inj.mp (Nat.le_zero.mp h))
      simp [lastSeq,FinMap.getD,hf,hzero]
    | some f => simp [lastSeq,FinMap.getD,hf]
  have hgaps : (c.appliedGaps.lookup o).any (fun gaps => gaps.contains seq) = true ↔
      seq ∈ c.gaps o := by
    cases hg : c.appliedGaps.lookup o with
    | none =>
      have hnone : seq ∉ (default : SeqSet) := SeqSet.not_mem_empty
      simp [gaps,FinMap.getD,hg,hnone]
    | some g => simp [gaps,FinMap.getD,hg,SeqSet.contains_iff]
  unfold isAppliedRemote
  by_cases ho : o = c.self
  · simp [ho]
  · rw [if_neg ho,Bool.or_eq_true,hfront,hgaps]
    simp [ho]

theorem applied_markApplied (c : Cache) (o o' : Origin) (seq x : Seq) (hlc : Clock) :
    x ≤ (c.markApplied o seq hlc).lastSeq o' ∨ x ∈ (c.markApplied o seq hlc).gaps o' ↔
      o' = o ∧ x = seq ∨ (x ≤ c.lastSeq o' ∨ x ∈ c.gaps o') := by
  rw [lastSeq_markApplied,gaps_markApplied]
  by_cases h : o' = o
  · subst h
    have hp := SeqSet.promoteContiguous_applied ((c.gaps o').add seq) (c.lastSeq o') x
    rw [if_pos rfl,if_pos rfl,hp,SeqSet.mem_add]
    grind
  · simp [h]

theorem isAppliedRemote_markApplied {o' : Origin} {x : Seq} (hlc : Clock) (hx : x ≠ 0) :
    (c.markApplied o seq hlc).isAppliedRemote o' x = true ↔
      o' ≠ c.self ∧ o' = o ∧ x = seq ∨ c.isAppliedRemote o' x = true := by
  rw [isAppliedRemote_iff hx,isAppliedRemote_iff hx,applied_markApplied,markApplied_self]
  grind

def markAll (c : Cache) (o : Origin) (calls : List (Seq × Clock)) : Cache :=
  calls.foldl (fun c q => c.markApplied o q.1 q.2) c

@[simp] theorem markAll_concat (c : Cache) (o : Origin) (calls : List (Seq × Clock))
    (q : Seq × Clock) : c.markAll o (calls++[q]) = (c.markAll o calls).markApplied o q.1 q.2 := by
  simp [markAll]
@[simp] theorem markAll_self (c : Cache) (o : Origin) (calls : List (Seq × Clock)) :
    (c.markAll o calls).self = c.self := by
  induction calls using reverseRecOn with
  | nil => rfl
  | append_singleton calls q ih => simpa using ih

/-- The head is the greatest `n` with every seq of `1..n` marked, the gaps are the marked seqs
above it, and the applied test answers for the marked seqs alone. -/
structure FrontierExact (c : Cache) (o : Origin) (marked : Seq → Prop) : Prop where
  head : IsGreatest { n | ∀ s,1 ≤ s → s ≤ n → marked s } (c.lastSeq o)
  gaps : ∀ s,s ∈ c.gaps o ↔ marked s ∧ c.lastSeq o < s
  applied : ∀ s,1 ≤ s → (c.isAppliedRemote o s = true ↔ marked s)

def Marked (calls : List (Seq × Clock)) (s : Seq) : Prop := ∃ q ∈ calls,q.1 = s

theorem marked_concat {q : Seq × Clock} :
    Marked (calls++[q]) s ↔ Marked calls s ∨ s = q.1 := by
  simp [Marked,or_and_right,exists_or,eq_comm]

@[simp] theorem lastSeq_new (self o : Origin) : (new self).lastSeq o = 0 := by
  simp [lastSeq,new]
  rfl
theorem not_mem_gaps_new {self : Origin} : s ∉ (new self).gaps o := by
  have hnone : s ∉ (default : SeqSet) := SeqSet.not_mem_empty
  simpa [gaps,new] using hnone

theorem frontierExact_new (self o : Origin) : FrontierExact (new self) o (Marked []) where
  head := by
    rw [lastSeq_new]
    refine ⟨fun s h₁ h₂ => absurd (h₁.trans h₂) (by decide),fun n hn => ?_⟩
    by_contra hlt
    have hpos : 1 ≤ n := by
      rw [not_le,lt_iff_toNat_lt] at hlt
      rw [le_iff_toNat_le]
      exact hlt
    obtain ⟨q,hq,-⟩ := hn n hpos le_rfl
    simp at hq
  gaps := fun s => by simp [not_mem_gaps_new,Marked]
  applied := fun s _ => by simp [isAppliedRemote,new,Marked]

theorem FrontierExact.markApplied (h : FrontierExact c o marked) (hself : o ≠ c.self)
    (hlt : c.lastSeq o < seq) (hlc : Clock) :
    FrontierExact (c.markApplied o seq hlc) o (fun s => marked s ∨ s = seq) := by
  have hmem : ∀ s,s ∈ (c.gaps o).add seq ↔ c.lastSeq o < s ∧ (marked s ∨ s = seq) := fun s => by
    rw [SeqSet.mem_add,h.gaps s]
    constructor
    · rintro (rfl | hs)
      · exact ⟨hlt,.inr rfl⟩
      · exact ⟨hs.2,.inl hs.1⟩
    · rintro ⟨hs,hm | rfl⟩
      · exact .inr ⟨hm,hs⟩
      · exact .inl rfl
  have hmax : (c.lastSeq o).toNat+1 < 2^64 := by
    have := seq.toNat_lt
    rw [lt_iff_toNat_lt] at hlt
    omega
  obtain ⟨hle,hrun,hrest,hstop⟩ :=
    SeqSet.promoteContiguous_exact (fun s hs => ((hmem s).mp hs).1) hmax
  have hlast : (c.markApplied o seq hlc).lastSeq o =
      (((c.gaps o).add seq).promoteContiguous (c.lastSeq o)).1 := by
    rw [lastSeq_markApplied,if_pos rfl,max_eq_right hle]
  refine ⟨⟨fun s hs hs' => ?_,fun n hn => ?_⟩,fun s => ?_,fun s hs => ?_⟩
  · rw [hlast] at hs'
    rcases le_or_gt s (c.lastSeq o) with hs'' | hs''
    · exact .inl (h.head.1 s hs hs'')
    · exact ((hmem s).mp (hrun s hs'' hs')).2
  · rw [hlast]
    by_contra hgt
    rw [not_le] at hgt
    generalize (((c.gaps o).add seq).promoteContiguous (c.lastSeq o)).1 = head at *
    have hnext : (head+1).toNat = head.toNat+1 := by
      have := n.toNat_lt
      rw [lt_iff_toNat_lt] at hgt
      rw [UInt64.toNat_add,toNat_one,Nat.mod_eq_of_lt (by omega)]
    have hmarked := hn (head+1)
      (by rw [le_iff_toNat_le,hnext]; simp)
      (by rw [le_iff_toNat_le,hnext]; exact lt_iff_toNat_lt.mp hgt)
    have habove : c.lastSeq o < head+1 := by
      rw [le_iff_toNat_le] at hle
      rw [lt_iff_toNat_lt,hnext]
      omega
    exact hstop (head+1) ((hmem _).mpr ⟨habove,hmarked⟩) hnext
  · rw [gaps_markApplied,if_pos rfl,hrest s,hlast,hmem s]
    exact ⟨fun hs => ⟨hs.1.2,hs.2⟩,fun hs => ⟨⟨hle.trans_lt hs.2,hs.1⟩,hs.2⟩⟩
  · have hne : s ≠ 0 := by
      rintro rfl
      exact absurd hs (by decide)
    rw [isAppliedRemote_markApplied hlc hne,h.applied s hs]
    grind

theorem FrontierExact.not_markApplied {marked' : Seq → Prop} (h : FrontierExact c o marked)
    (hseq : seq ≠ 0) (hle : seq ≤ c.lastSeq o) (hlc : Clock) :
    ¬FrontierExact (c.markApplied o seq hlc) o marked' := by
  intro h'
  have hzero : (0 : Seq) ∉ (c.gaps o).add seq := by
    rw [SeqSet.mem_add,h.gaps 0]
    rintro (h₀ | h₀)
    · exact hseq h₀.symm
    · exact absurd h₀.2 (not_lt.mpr (by simp [le_iff_toNat_le]))
  have hstays := SeqSet.promoteContiguous_keeps (SeqSet.mem_add.mpr (.inl rfl)) hle hzero
  have hgap : seq ∈ (c.markApplied o seq hlc).gaps o := by
    rw [gaps_markApplied,if_pos rfl]
    exact hstays
  have hlt := ((h'.gaps seq).mp hgap).2
  exact absurd (hle.trans (lastSeq_le_markApplied c o seq hlc)) (not_le.mpr hlt)

/-- After each of the calls the frontier is exact for the seqs marked so far and its head is no
lower than before. -/
def FrontierTracks (self o : Origin) (calls : List (Seq × Clock)) : Prop :=
  ∀ pre,pre <+: calls → FrontierExact ((new self).markAll o pre) o (Marked pre) ∧
    ∀ q,pre++[q] <+: calls →
      ((new self).markAll o pre).lastSeq o ≤ ((new self).markAll o (pre++[q])).lastSeq o

def CallsAboveHead (self o : Origin) (calls : List (Seq × Clock)) : Prop :=
  ∀ pre q,pre++[q] <+: calls → ((new self).markAll o pre).lastSeq o < q.1

theorem frontierExact_of_callsAboveHead {self : Origin} (hself : o ≠ self)
    (h : CallsAboveHead self o calls) :
    FrontierExact ((new self).markAll o calls) o (Marked calls) := by
  induction calls using reverseRecOn with
  | nil => exact frontierExact_new self o
  | append_singleton calls q ih =>
    have hprev := ih fun pre q' hpre => h pre q' (hpre.trans (prefix_append _ _))
    have hself' : o ≠ ((new self).markAll o calls).self := by simpa [new] using hself
    have hstep := hprev.markApplied hself' (h calls q (prefix_refl _)) q.2
    have hmarked : (fun s => Marked calls s ∨ s = q.1) = Marked (calls++[q]) := by
      funext s
      exact propext marked_concat.symm
    rw [markAll_concat,← hmarked]
    exact hstep

theorem frontierTracks_iff_callsAboveHead {self o : Origin} (hself : o ≠ self)
    (calls : List (Seq × Clock)) (hseq : ∀ q ∈ calls,1 ≤ q.1) :
    FrontierTracks self o calls ↔ CallsAboveHead self o calls := by
  constructor
  · intro h pre q hpre
    by_contra hle
    have hne : q.1 ≠ 0 := by
      intro h₀
      have := hseq q (hpre.subset (by simp))
      rw [h₀] at this
      exact absurd this (by decide)
    have hbefore := (h pre ((prefix_append _ _).trans hpre)).1
    have hafter := (h (pre++[q]) hpre).1
    rw [markAll_concat] at hafter
    exact hbefore.not_markApplied hne (not_lt.mp hle) q.2 hafter
  · intro h pre hpre
    refine ⟨frontierExact_of_callsAboveHead hself fun pre' q hpre' => h pre' q (hpre'.trans hpre),
      fun q _ => ?_⟩
    rw [markAll_concat]
    exact lastSeq_le_markApplied _ _ _ _

theorem frontierTracks_iff_of_gap_then_fill :
    (7 ≠ 1 ∧ ∀ q ∈ [((2 : Seq),(⟨5,0⟩ : Clock)),(1,⟨4,0⟩)],1 ≤ q.1) ∧
      (FrontierTracks 1 7 [(2,⟨5,0⟩),(1,⟨4,0⟩)] ↔ CallsAboveHead 1 7 [(2,⟨5,0⟩),(1,⟨4,0⟩)]) :=
  ⟨⟨by decide,by decide⟩,frontierTracks_iff_callsAboveHead (by decide) _ (by decide)⟩

/-- A quarantined changeset is marked when it is set aside and again when its retry succeeds. -/
theorem not_frontierTracks_of_retry : ¬FrontierTracks 1 7 [(1,⟨5,0⟩),(1,⟨5,0⟩)] := by
  intro h
  have hbefore := (h [(1,⟨5,0⟩)] (prefix_append [_] [_])).1
  have hafter := (h [(1,⟨5,0⟩),(1,⟨5,0⟩)] (prefix_refl _)).1
  exact hbefore.not_markApplied (by decide) (by decide) ⟨5,0⟩ hafter

end Cache

end Syzy
