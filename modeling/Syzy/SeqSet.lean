import Mathlib.Algebra.Group.Nat.Defs
import Mathlib.Data.List.TakeWhile
import Mathlib.Data.List.Basic
import Mathlib.Order.MinMax
import Syzy.Identity

/-!
Sparse sets of sequence numbers: sorted, non-adjacent inclusive ranges. They hold the changesets
received above an origin's contiguous frontier head.
-/

namespace Syzy

open UInt64 List

structure SeqRange where
  lo : Seq
  hi : Seq
deriving DecidableEq

namespace SeqRange

def Mem (r : SeqRange) (v : Seq) : Prop := r.lo ≤ v ∧ v ≤ r.hi

def Before (a b : SeqRange) : Prop := a.hi.toNat+1 < b.lo.toNat

end SeqRange

/-- Sorted by `lo`, every range nonempty, no two adjacent or overlapping. -/
structure SortedRanges (l : List SeqRange) : Prop where
  nonempty : ∀ r ∈ l,r.lo ≤ r.hi
  before : l.Pairwise SeqRange.Before

structure SeqSet where
  ranges : List SeqRange
  sorted : SortedRanges ranges
deriving DecidableEq

namespace SeqSet

/-- Put `v` between the ranges that start at or below it and those that start above it,
joining the neighbours it touches. -/
def coalesce (before : List SeqRange) (v : Seq) (after : List SeqRange) : List SeqRange :=
  let prevAdj := before.getLast?.any fun p => p.hi+1 = v
  let nextAdj := after.head?.any fun n => v+1 = n.lo
  if before.getLast?.any fun p => v ≤ p.hi then before++after
  else match prevAdj,nextAdj,before.getLast?,after.head? with
    | true,true,some p,some n => before.dropLast++⟨p.lo,n.hi⟩::after.tail
    | true,_,some p,_ => before.dropLast++⟨p.lo,v⟩::after
    | _,true,_,some n => before++⟨v,n.hi⟩::after.tail
    | _,_,_,_ => before++⟨v,v⟩::after

/-- The ranges before and from the first one whose `lo` exceeds `v`: where the binary search
of a sorted list stops. -/
def search (l : List SeqRange) (v : Seq) : List SeqRange × List SeqRange :=
  (l.takeWhile fun r => r.lo ≤ v,l.dropWhile fun r => r.lo ≤ v)

def addRanges (l : List SeqRange) (v : Seq) : List SeqRange :=
  coalesce (search l v).1 v (search l v).2

variable {after l : List SeqRange} {r : SeqRange} {s : SeqSet} {v : Seq}

theorem succ_eq_iff {a : Seq} (h : a < v) : a+1 = v ↔ a.toNat+1 = v.toNat := by
  have hv := v.toNat_lt
  rw [lt_iff_toNat_lt] at h
  rw [← UInt64.toNat_inj,UInt64.toNat_add,toNat_one,Nat.mod_eq_of_lt (by omega)]

def MemRanges (l : List SeqRange) (v : Seq) : Prop := ∃ r ∈ l,r.Mem v

theorem memRanges_append {l' : List SeqRange} :
    MemRanges (l++l') v ↔ MemRanges l v ∨ MemRanges l' v := by
  simp [MemRanges,or_and_right,exists_or]
theorem memRanges_cons :
    MemRanges (r::l) v ↔ r.Mem v ∨ MemRanges l v := by
  simp [MemRanges]
@[simp] theorem not_memRanges_nil : ¬MemRanges [] v := by simp [MemRanges]

theorem sortedRanges_append {l' : List SeqRange} :
    SortedRanges (l++l') ↔ SortedRanges l ∧ SortedRanges l' ∧ ∀ a ∈ l,∀ b ∈ l',a.Before b := by
  constructor
  · rintro ⟨hn,hp⟩
    rw [pairwise_append] at hp
    exact ⟨⟨fun r hr => hn r (by simp [hr]),hp.1⟩,⟨fun r hr => hn r (by simp [hr]),hp.2.1⟩,hp.2.2⟩
  · rintro ⟨h,h',hb⟩
    refine ⟨fun r hr => ?_,pairwise_append.mpr ⟨h.before,h'.before,hb⟩⟩
    rcases mem_append.mp hr with hr | hr
    · exact h.nonempty r hr
    · exact h'.nonempty r hr
theorem sortedRanges_cons :
    SortedRanges (r::l) ↔ r.lo ≤ r.hi ∧ SortedRanges l ∧ ∀ b ∈ l,r.Before b := by
  constructor
  · rintro ⟨hn,hp⟩
    rw [pairwise_cons] at hp
    exact ⟨hn r (by simp),⟨fun b hb => hn b (by simp [hb]),hp.2⟩,hp.1⟩
  · rintro ⟨hr,h,hb⟩
    refine ⟨fun b hb' => ?_,pairwise_cons.mpr ⟨hb,h.before⟩⟩
    rcases mem_cons.mp hb' with rfl | hb'
    · exact hr
    · exact h.nonempty b hb'

def joinNext (v : Seq) : List SeqRange → SeqRange × List SeqRange
  | [] => (⟨v,v⟩,[])
  | n::rest => if v+1 = n.lo then (⟨v,n.hi⟩,rest) else (⟨v,v⟩,n::rest)

theorem coalesce_nil (v : Seq) (after : List SeqRange) :
    coalesce [] v after = (joinNext v after).1::(joinNext v after).2 := by
  cases after with
  | nil => simp [coalesce,joinNext]
  | cons n rest => by_cases h : v+1 = n.lo <;> simp [coalesce,joinNext,h]

theorem coalesce_concat (pre : List SeqRange) (p : SeqRange) (v : Seq) (after : List SeqRange) :
    coalesce (pre++[p]) v after = if v ≤ p.hi then pre++p::after
      else if p.hi+1 = v then pre++⟨p.lo,(joinNext v after).1.hi⟩::(joinNext v after).2
      else pre++p::(joinNext v after).1::(joinNext v after).2 := by
  by_cases hv : v ≤ p.hi
  · simp [coalesce,hv]
  · cases after with
    | nil => by_cases hp : p.hi+1 = v <;> simp [coalesce,joinNext,hv,hp]
    | cons n rest =>
      by_cases hp : p.hi+1 = v <;> by_cases hn : v+1 = n.lo <;>
        simp [coalesce,joinNext,hv,hp,hn]

@[simp] theorem joinNext_lo (v : Seq) (after : List SeqRange) : (joinNext v after).1.lo = v := by
  cases after with
  | nil => rfl
  | cons n rest => by_cases h : v+1 = n.lo <;> simp [joinNext,h]

theorem joinNext_sorted (hs : SortedRanges after) (ha : ∀ r ∈ after,v < r.lo) :
    SortedRanges ((joinNext v after).1::(joinNext v after).2) := by
  cases after with
  | nil => simp [joinNext,sortedRanges_cons,hs]
  | cons n rest =>
    have hv := ha n (by simp)
    obtain ⟨hn,hr,hb⟩ := sortedRanges_cons.mp hs
    by_cases h : v+1 = n.lo
    · simp only [joinNext,h,if_true]
      exact sortedRanges_cons.mpr ⟨hv.le.trans hn,hr,hb⟩
    · rw [succ_eq_iff hv] at h
      have hgap : ∀ b ∈ n::rest,(SeqRange.mk v v).Before b := by
        rw [lt_iff_toNat_lt] at hv
        rw [le_iff_toNat_le] at hn
        intro b hb'
        rcases mem_cons.mp hb' with rfl | hb'
        · simp only [SeqRange.Before]
          omega
        · have := hb b hb'
          simp only [SeqRange.Before] at this ⊢
          omega
      have h' : ¬v+1 = n.lo := mt (succ_eq_iff hv).mp h
      simp only [joinNext,h',if_false]
      exact sortedRanges_cons.mpr ⟨le_rfl,hs,hgap⟩

theorem joinNext_mem (hs : SortedRanges after) (ha : ∀ r ∈ after,v < r.lo) (x : Seq) :
    MemRanges ((joinNext v after).1::(joinNext v after).2) x ↔ x = v ∨ MemRanges after x := by
  have hpoint : (SeqRange.mk v v).Mem x ↔ x = v := by
    simp only [SeqRange.Mem]
    exact ⟨fun h => le_antisymm h.2 h.1,fun h => by simp [h]⟩
  cases after with
  | nil => simp [joinNext,memRanges_cons,hpoint]
  | cons n rest =>
    have hv := ha n (by simp)
    have hn := hs.nonempty n (by simp)
    by_cases h : v+1 = n.lo
    · have hjoin : (SeqRange.mk v n.hi).Mem x ↔ x = v ∨ n.Mem x := by
        rw [succ_eq_iff hv] at h
        simp only [SeqRange.Mem,← UInt64.toNat_inj,le_iff_toNat_le] at hn ⊢
        omega
      simp only [joinNext,h,if_true,memRanges_cons,hjoin,or_assoc]
    · simp only [joinNext,h,if_false,memRanges_cons,hpoint]

theorem coalesce_sorted {before : List SeqRange} (hs : SortedRanges (before++after))
    (hb : ∀ r ∈ before,r.lo ≤ v) (ha : ∀ r ∈ after,v < r.lo) :
    SortedRanges (coalesce before v after) := by
  obtain ⟨hsb,hsa,hba⟩ := sortedRanges_append.mp hs
  have hj := joinNext_sorted hsa ha
  obtain ⟨hne,hrest,hbr⟩ := sortedRanges_cons.mp hj
  rcases eq_nil_or_concat' before with rfl | ⟨pre,p,rfl⟩
  · rw [coalesce_nil]
    exact hj
  · obtain ⟨hsp,hp,hpp⟩ := sortedRanges_append.mp hsb
    have hpv := hb p (by simp)
    have hpre : ∀ a ∈ pre,a.hi.toNat+1 < p.lo.toNat := fun a ha => hpp a ha p (by simp)
    rw [joinNext_lo] at hne
    rw [le_iff_toNat_le] at hpv hne
    have hle : ∀ b ∈ (joinNext v after).2,v.toNat < b.lo.toNat := fun b hb => by
      have := hbr b hb
      simp only [SeqRange.Before] at this
      omega
    rw [coalesce_concat]
    split_ifs with hin hadj
    · simpa using hs
    · refine sortedRanges_append.mpr ⟨hsp,sortedRanges_cons.mpr ⟨?_,hrest,hbr⟩,?_⟩
      · rw [le_iff_toNat_le]
        exact hpv.trans hne
      · intro a ha' b hb'
        have := hpre a ha'
        rcases mem_cons.mp hb' with rfl | hb'
        · exact this
        · have := hle b hb'
          simp only [SeqRange.Before]
          omega
    · have hlt := not_le.mp hin
      have hgap : p.hi.toNat+1 < v.toNat := by
        rw [succ_eq_iff hlt] at hadj
        rw [lt_iff_toNat_lt] at hlt
        omega
      have hafter : ∀ b ∈ (joinNext v after).1::(joinNext v after).2,v.toNat ≤ b.lo.toNat := by
        intro b hb'
        rcases mem_cons.mp hb' with rfl | hb'
        · rw [joinNext_lo]
        · exact (hle b hb').le
      have hphi := hp.nonempty p (by simp)
      rw [le_iff_toNat_le] at hphi
      refine sortedRanges_append.mpr ⟨hsp,sortedRanges_cons.mpr ⟨hphi,hj,?_⟩,?_⟩
      · intro b hb'
        have := hafter b hb'
        simp only [SeqRange.Before]
        omega
      · intro a ha' b hb'
        have := hpre a ha'
        rcases mem_cons.mp hb' with rfl | hb'
        · exact this
        · have := hafter b hb'
          simp only [SeqRange.Before]
          omega

theorem coalesce_mem {before : List SeqRange} (hs : SortedRanges (before++after))
    (hb : ∀ r ∈ before,r.lo ≤ v) (ha : ∀ r ∈ after,v < r.lo) (x : Seq) :
    MemRanges (coalesce before v after) x ↔ x = v ∨ MemRanges (before++after) x := by
  obtain ⟨hsb,hsa,hba⟩ := sortedRanges_append.mp hs
  have hj := joinNext_mem hsa ha x
  rcases eq_nil_or_concat' before with rfl | ⟨pre,p,rfl⟩
  · rw [coalesce_nil]
    exact hj
  · have hpv := hb p (by simp)
    rw [coalesce_concat]
    split_ifs with hin hadj
    · have hv : x = v → p.Mem x := fun h => h ▸ ⟨hpv,hin⟩
      simp only [memRanges_append,memRanges_cons,not_memRanges_nil,or_false]
      grind
    · have hlt := not_le.mp hin
      have hne := (sortedRanges_cons.mp (joinNext_sorted hsa ha)).1
      rw [succ_eq_iff hlt] at hadj
      rw [joinNext_lo,le_iff_toNat_le] at hne
      have hsplit : (SeqRange.mk p.lo (joinNext v after).1.hi).Mem x ↔
          p.Mem x ∨ (joinNext v after).1.Mem x := by
        simp only [SeqRange.Mem,joinNext_lo,le_iff_toNat_le] at *
        omega
      simp only [memRanges_append,memRanges_cons,not_memRanges_nil,or_false,hsplit] at hj ⊢
      grind
    · simp only [memRanges_append,memRanges_cons,not_memRanges_nil,or_false] at hj ⊢
      grind

theorem search_append (l : List SeqRange) (v : Seq) : (search l v).1++(search l v).2 = l :=
  takeWhile_append_dropWhile
theorem search_before (h : r ∈ (search l v).1) :
    r.lo ≤ v := by
  simpa using mem_takeWhile_imp h
theorem search_after (hs : SortedRanges l) (h : r ∈ (search l v).2) : v < r.lo := by
  induction l with
  | nil => simp [search] at h
  | cons a l ih =>
    obtain ⟨ha,hl,hb⟩ := sortedRanges_cons.mp hs
    by_cases hv : a.lo ≤ v
    · exact ih hl (by simpa [search,hv] using h)
    · have h' : r = a ∨ r ∈ l := by simpa [search,hv] using h
      rcases h' with rfl | h'
      · exact not_le.mp hv
      · have hgap := hb r h'
        rw [not_le] at hv
        simp only [SeqRange.Before,lt_iff_toNat_lt,le_iff_toNat_le] at *
        omega

theorem addRanges_sorted (hs : SortedRanges l) (v : Seq) :
    SortedRanges (addRanges l v) :=
  coalesce_sorted ((search_append l v).symm ▸ hs) (fun _ => search_before)
    (fun _ => search_after hs)

def empty : SeqSet := ⟨[],⟨by simp,Pairwise.nil⟩⟩
instance : Inhabited SeqSet := ⟨empty⟩

instance : Membership Seq SeqSet := ⟨fun s v => MemRanges s.ranges v⟩

theorem mem_def : v ∈ s ↔ MemRanges s.ranges v := Iff.rfl

def isEmpty (s : SeqSet) : Bool := s.ranges.isEmpty

def contains (s : SeqSet) (v : Seq) : Bool :=
  (search s.ranges v).1.getLast?.any fun r => v ≤ r.hi

def add (s : SeqSet) (v : Seq) : SeqSet := ⟨addRanges s.ranges v,addRanges_sorted s.sorted v⟩

@[simp] theorem not_mem_empty : v ∉ empty := by simp [mem_def,empty]

@[simp] theorem mem_add {x : Seq} : x ∈ s.add v ↔ x = v ∨ x ∈ s := by
  have h := coalesce_mem ((search_append s.ranges v).symm ▸ s.sorted) (fun _ => search_before)
    (fun _ => search_after s.sorted) x
  rwa [search_append] at h

/-- The highest seq of the run that continues `above`, and the set without that run. -/
def promoteContiguous (s : SeqSet) (above : Seq) : Seq × SeqSet :=
  match s with
  | ⟨[],_⟩ => (above,s)
  | ⟨first::rest,h⟩ =>
    if first.lo = above+1 then (first.hi,⟨rest,(sortedRanges_cons.mp h).2.1⟩) else (above,s)

theorem contains_iff : s.contains v = true ↔ v ∈ s := by
  have hafter : ¬MemRanges (search s.ranges v).2 v := fun ⟨r,hr,hm⟩ =>
    absurd hm.1 (not_le.mpr (search_after s.sorted hr))
  have hbefore : ∀ r ∈ (search s.ranges v).1,r.lo ≤ v := fun _ => search_before
  have hs := s.sorted
  rw [mem_def,← search_append s.ranges v,memRanges_append,or_iff_left hafter]
  rw [← search_append s.ranges v] at hs
  unfold contains
  rcases eq_nil_or_concat' (search s.ranges v).1 with h | ⟨pre,p,h⟩
  · simp [h]
  · rw [h] at hbefore hs ⊢
    have hpv := hbefore p (by simp)
    have hpre : ¬MemRanges pre v := by
      rintro ⟨r,hr,hm⟩
      have hgap := (sortedRanges_append.mp (sortedRanges_append.mp hs).1).2.2 r hr p (by simp)
      simp only [SeqRange.Before,SeqRange.Mem,le_iff_toNat_le] at *
      omega
    simp [memRanges_append,memRanges_cons,hpre,SeqRange.Mem,hpv]

/-- Moving a run from the set into the head changes no seq's applied status. -/
theorem promoteContiguous_applied (s : SeqSet) (above x : Seq) :
    (x ≤ max above (s.promoteContiguous above).1 ∨ x ∈ (s.promoteContiguous above).2) ↔
      (x ≤ above ∨ x ∈ s) := by
  obtain ⟨l,hl⟩ := s
  cases l with
  | nil => simp [promoteContiguous]
  | cons first rest =>
    by_cases h : first.lo = above+1
    · have hne := (sortedRanges_cons.mp hl).1
      simp only [promoteContiguous,h,if_true,mem_def,memRanges_cons,SeqRange.Mem,le_max_iff]
      rw [h] at hne
      by_cases hmax : above.toNat+1 < 2^64
      · have hs : (above+1).toNat = above.toNat+1 := by
          rw [UInt64.toNat_add,toNat_one,Nat.mod_eq_of_lt hmax]
        rw [← or_assoc]
        refine or_congr_left ?_
        simp only [le_iff_toNat_le,hs] at hne ⊢
        omega
      · have hx : x ≤ above := by
          have := x.toNat_lt
          rw [le_iff_toNat_le]
          omega
        simp [hx]
    · simp [promoteContiguous,h]

theorem promoteContiguous_keeps {above x : Seq} (hx : x ∈ s) (hle : x ≤ above) (hzero : 0 ∉ s) :
    x ∈ (s.promoteContiguous above).2 := by
  obtain ⟨l,hl⟩ := s
  cases l with
  | nil => simp [mem_def] at hx
  | cons first rest =>
    by_cases h : first.lo = above+1
    · have hne := (sortedRanges_cons.mp hl).1
      have hmax : above.toNat+1 < 2^64 := by
        by_contra hmax
        refine hzero ⟨first,by simp,?_,by simp [le_iff_toNat_le]⟩
        have := above.toNat_lt
        simp [h,le_iff_toNat_le,UInt64.toNat_add,show above.toNat+1 = 2^64 by omega]
      have hs : (above+1).toNat = above.toNat+1 := by
        rw [UInt64.toNat_add,toNat_one,Nat.mod_eq_of_lt hmax]
      simp only [promoteContiguous,h,if_true]
      rcases memRanges_cons.mp hx with hx | hx
      · simp only [SeqRange.Mem,h,le_iff_toNat_le,hs] at hx hle
        omega
      · exact hx
    · simpa [promoteContiguous,h] using hx

/-- When every member lies above the head, the new head swallows exactly the members that
continue it and stops before a seq that is not a member. -/
theorem promoteContiguous_exact {above : Seq} (h : ∀ x ∈ s,above < x)
    (hmax : above.toNat+1 < 2^64) :
    above ≤ (s.promoteContiguous above).1 ∧
      (∀ x,above < x → x ≤ (s.promoteContiguous above).1 → x ∈ s) ∧
      (∀ x,x ∈ (s.promoteContiguous above).2 ↔ x ∈ s ∧ (s.promoteContiguous above).1 < x) ∧
      ∀ x ∈ s,x.toNat ≠ (s.promoteContiguous above).1.toNat+1 := by
  obtain ⟨l,hl⟩ := s
  have hsucc : (above+1).toNat = above.toNat+1 := by
    rw [UInt64.toNat_add,toNat_one,Nat.mod_eq_of_lt hmax]
  cases l with
  | nil =>
    have hempty : ∀ x,x ∉ (⟨[],hl⟩ : SeqSet) := fun x => by simp [mem_def]
    refine ⟨le_rfl,fun x hx hx' => absurd hx' (not_le.mpr hx),fun x => ?_,fun x hx => ?_⟩
    · simp [promoteContiguous,hempty]
    · exact absurd hx (hempty x)
  | cons first rest =>
    obtain ⟨hne,hrest,hbefore⟩ := sortedRanges_cons.mp hl
    have hgap : ∀ x,MemRanges rest x → first.hi.toNat+1 < x.toNat := by
      rintro x ⟨r,hr,hm⟩
      have := hbefore r hr
      simp only [SeqRange.Before,SeqRange.Mem,le_iff_toNat_le] at *
      omega
    by_cases heq : first.lo = above+1
    · simp only [promoteContiguous,heq,if_true,mem_def,memRanges_cons,SeqRange.Mem]
      rw [heq] at hne
      simp only [le_iff_toNat_le,lt_iff_toNat_lt,hsucc] at hne ⊢
      refine ⟨by omega,fun x hx hx' => .inl ⟨by omega,hx'⟩,fun x => ?_,fun x hx => ?_⟩
      · constructor
        · intro hx
          have := hgap x hx
          exact ⟨.inr hx,by omega⟩
        · rintro ⟨hx | hx,hlt⟩
          · omega
          · exact hx
      · rcases hx with hx | hx
        · omega
        · have := hgap x hx
          omega
    · have hlo : above < first.lo := h _ ⟨first,by simp,⟨le_rfl,hne⟩⟩
      rw [lt_iff_toNat_lt] at hlo
      rw [← UInt64.toNat_inj,hsucc] at heq
      have hab : ∀ x,MemRanges (first::rest) x → above.toNat+1 < x.toNat := by
        intro x hx
        rcases memRanges_cons.mp hx with hx | hx
        · simp only [SeqRange.Mem,le_iff_toNat_le] at hx
          omega
        · have := hgap x hx
          simp only [le_iff_toNat_le] at hne
          omega
      have heq' : ¬first.lo = above+1 := by rwa [← UInt64.toNat_inj,hsucc]
      simp only [promoteContiguous,heq',if_false]
      refine ⟨le_rfl,fun x hx hx' => absurd hx' (not_le.mpr hx),fun x => ?_,fun x hx => ?_⟩
      · exact ⟨fun hx => ⟨hx,h x hx⟩,fun hx => hx.1⟩
      · exact (hab x hx).ne'

end SeqSet

end Syzy
