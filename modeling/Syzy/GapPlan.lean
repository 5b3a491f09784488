import Syzy.Frontier

/-!
The planning of gap fills: the ranges an origin misses up to a tip, and the chain of fillers, in
which each is asked for what those before it did not apply.
-/

namespace Syzy

open UInt64 List

open SeqSet

/-- The seqs from `lo` to `tip` outside the ranges, as the planner's loop collects them. -/
def missingFrom (tip : Seq) : Seq → List SeqRange → List SeqRange
  | lo,[] => if lo ≤ tip then [⟨lo,tip⟩] else []
  | lo,r::rs =>
    if tip < r.lo then if lo ≤ tip then [⟨lo,tip⟩] else []
    else (if lo < r.lo then [⟨lo,r.lo-1⟩] else [])++
      missingFrom tip (if lo ≤ r.hi then r.hi+1 else lo) rs

def Cache.missingRangesUpTo (c : Cache) (o : Origin) (tip : Seq) : List SeqRange :=
  if tip ≤ c.lastSeq o then [] else missingFrom tip (c.lastSeq o+1) (c.gaps o).ranges

/-- A span of one origin's seqs; `hi = 0` leaves it open. -/
structure Range where
  origin : Origin
  lo : Seq
  hi : Seq

namespace Range

variable (r : Range)

def openEnded : Bool := r.hi = 0
def contains (seq : Seq) : Bool := r.lo ≤ seq ∧ (r.openEnded ∨ seq ≤ r.hi)

/-- Shift `lo` past the coverage at the bottom of an open range. -/
def shiftOpen : Seq → List SeqRange → Seq
  | lo,[] => lo
  | lo,sr::rs => if lo < sr.lo then lo else shiftOpen (if lo ≤ sr.hi then sr.hi+1 else lo) rs

def subtractFrom (hi : Seq) : Seq → List SeqRange → List SeqRange
  | lo,[] => if lo ≤ hi then [⟨lo,hi⟩] else []
  | lo,sr::rs =>
    if sr.hi < lo then subtractFrom hi lo rs
    else if hi < sr.lo then if lo ≤ hi then [⟨lo,hi⟩] else []
    else (if lo < sr.lo then [⟨lo,sr.lo-1⟩] else [])++
      if hi < sr.hi+1 then [] else subtractFrom hi (sr.hi+1) rs

def subtractRange (set : SeqSet) : List Range :=
  if r.openEnded then [{ r with lo := shiftOpen r.lo set.ranges }]
  else (subtractFrom r.hi r.lo set.ranges).map fun s => ⟨r.origin,s.lo,s.hi⟩

def Asks (rs : List Range) (o : Origin) (v : Seq) : Prop := ∃ r ∈ rs,r.origin = o ∧ r.contains v

end Range

namespace GapFill

variable (run : List (List Range × List Delivery)) (seen : Seen)

/-- A payload handed to apply, and whether apply took it. -/
structure Delivery where
  origin : Origin
  seq : Seq
  applied : Bool

abbrev Filler := List Range → List Delivery
abbrev Seen := FinMap Origin SeqSet

def wrappedApply (d : Delivery) : Seen :=
  if d.applied then seen.insert d.origin ((seen.getD d.origin).add d.seq) else seen

def unseen (r : Range) : List Range :=
  match seen.lookup r.origin with
  | none => [r]
  | some s => if s.isEmpty then [r] else r.subtractRange s

def remaining (ranges : List Range) (seen : Seen) : List Range := ranges.flatMap (unseen seen)

/-- The requests the chain makes, each with what its filler delivered. -/
def fetch : List Filler → List Range → Seen → List (List Range × List Delivery)
  | [],_,_ => []
  | f::fs,current,seen =>
    if current.isEmpty then []
    else
      let seen' := (f current).foldl wrappedApply seen
      (current,f current)::fetch fs (remaining current seen') seen'

def handed (k : ℕ) : List Range := (run[k]?.getD ([],[])).1

def AppliedBy (k : ℕ) (o : Origin) (v : Seq) : Prop :=
  ∃ e ∈ run.take k,∃ d ∈ e.2,d.applied = true ∧ d.origin = o ∧ d.seq = v

end GapFill

section Subtraction

variable {rs : List SeqRange} {lo hi : Seq}

/-- No range that begins up to `tip` reaches the last seq, whose successor is zero. -/
def BelowLast (tip : Seq) (rs : List SeqRange) : Prop := ∀ r ∈ rs,r.lo ≤ tip → r.hi.toNat+1 < 2^64

theorem BelowLast.tail {r : SeqRange} (h : BelowLast hi (r::rs)) : BelowLast hi rs :=
  fun r hr => h r (mem_cons_of_mem _ hr)

theorem toNat_succ {a : Seq} (h : a.toNat+1 < 2^64) : (a+1).toNat = a.toNat+1 := by
  rw [UInt64.toNat_add,toNat_one,Nat.mod_eq_of_lt h]

theorem toNat_pred {a b : Seq} (h : a < b) : (b-1).toNat = b.toNat-1 := by
  rw [lt_iff_toNat_lt] at h
  refine UInt64.toNat_sub_of_le _ _ ?_
  rw [le_iff_toNat_le,toNat_one]
  omega

theorem next_le_iff {r : SeqRange} (hr : r.hi.toNat+1 < 2^64) {v : Seq} :
    (if lo ≤ r.hi then r.hi+1 else lo) ≤ v ↔ lo ≤ v ∧ r.hi < v := by
  have hsucc := toNat_succ hr
  simp only [le_iff_toNat_le,lt_iff_toNat_lt]
  split_ifs <;> omega

theorem missingFrom_past (hlast : BelowLast hi rs) (h : hi < lo) : missingFrom hi lo rs = [] := by
  induction rs generalizing lo with
  | nil => exact if_neg (not_le.mpr h)
  | cons r rs ih =>
    rw [missingFrom,if_neg (not_le.mpr h)]
    by_cases hhi : hi < r.lo
    · exact if_pos hhi
    · rw [if_neg hhi,if_neg fun hlo => hhi (h.trans hlo),nil_append]
      refine ih hlast.tail (not_le.mp fun hle => ?_)
      exact absurd ((next_le_iff (hlast r (by simp) (not_lt.mp hhi))).mp hle).1 (not_le.mpr h)

theorem subtractFrom_eq (hs : SortedRanges rs) (hlast : BelowLast hi rs) :
    Range.subtractFrom hi lo rs = missingFrom hi lo rs := by
  induction rs generalizing lo with
  | nil => rfl
  | cons r rs ih =>
    obtain ⟨hr,hs',-⟩ := sortedRanges_cons.mp hs
    have hlast' := hlast.tail
    rw [Range.subtractFrom,missingFrom]
    by_cases hlo : r.hi < lo
    · rw [if_pos hlo,if_neg (not_lt.mpr (hr.trans hlo.le)),if_neg (not_le.mpr hlo),ih hs' hlast']
      by_cases hhi : hi < r.lo
      · have hpast : hi < lo := hhi.trans_le (hr.trans hlo.le)
        rw [if_pos hhi,if_neg (not_le.mpr hpast),missingFrom_past hlast' hpast]
      · rw [if_neg hhi]
        rfl
    · rw [if_neg hlo,if_pos (not_lt.mp hlo)]
      by_cases hpast : hi < r.hi+1
      · rw [if_pos hpast,missingFrom_past hlast' hpast]
      · rw [if_neg hpast,ih hs' hlast']

theorem span_spec : SortedRanges (if lo ≤ hi then [⟨lo,hi⟩] else []) ∧
    ∀ v,MemRanges (if lo ≤ hi then [⟨lo,hi⟩] else []) v ↔ lo ≤ v ∧ v ≤ hi := by
  split_ifs with h
  · exact ⟨⟨by simpa using h,by simp⟩,fun v => by simp [memRanges_cons,SeqRange.Mem]⟩
  · exact ⟨⟨by simp,by simp⟩,fun v => ⟨fun hv => absurd hv not_memRanges_nil,
      fun hv => absurd (hv.1.trans hv.2) h⟩⟩

theorem piece_spec (lo b : Seq) : SortedRanges (if lo < b then [⟨lo,b-1⟩] else []) ∧
    ∀ v,MemRanges (if lo < b then [⟨lo,b-1⟩] else []) v ↔ lo ≤ v ∧ v < b := by
  split_ifs with h
  · have hpred := toNat_pred h
    rw [lt_iff_toNat_lt] at h
    refine ⟨⟨?_,by simp⟩,fun v => ?_⟩
    · simp only [mem_singleton,forall_eq,le_iff_toNat_le]
      omega
    · simp only [memRanges_cons,not_memRanges_nil,or_false,SeqRange.Mem,le_iff_toNat_le,
        lt_iff_toNat_lt]
      omega
  · exact ⟨⟨by simp,by simp⟩,fun v => ⟨fun hv => absurd hv not_memRanges_nil,
      fun hv => absurd (hv.1.trans_lt hv.2) h⟩⟩

/-- What the planner's loop collects: sorted ranges over exactly the seqs it was to find. -/
theorem missingFrom_spec (hs : SortedRanges rs) (hlast : BelowLast hi rs) :
    SortedRanges (missingFrom hi lo rs) ∧
      ∀ v,MemRanges (missingFrom hi lo rs) v ↔ lo ≤ v ∧ v ≤ hi ∧ ¬MemRanges rs v := by
  induction rs generalizing lo with
  | nil => exact ⟨span_spec.1,fun v => (span_spec.2 v).trans (by simp)⟩
  | cons r rs ih =>
    obtain ⟨hr,hs',hb⟩ := sortedRanges_cons.mp hs
    have hlater : ∀ v,v < r.lo → ¬MemRanges (r::rs) v := by
      rintro v hv ⟨b,hb',hm⟩
      rcases mem_cons.mp hb' with rfl | hb'
      · exact absurd hm.1 (not_le.mpr hv)
      · have hgap := hb b hb'
        simp only [SeqRange.Before,SeqRange.Mem,lt_iff_toNat_lt,le_iff_toNat_le] at *
        omega
    rw [missingFrom]
    by_cases hhi : hi < r.lo
    · rw [if_pos hhi]
      refine ⟨span_spec.1,fun v => (span_spec.2 v).trans ⟨fun hv => ⟨hv.1,hv.2,?_⟩,fun hv => ⟨hv.1,hv.2.1⟩⟩⟩
      exact hlater v (hv.2.trans_lt hhi)
    · rw [if_neg hhi]
      have hnext : ∀ v,(if lo ≤ r.hi then r.hi+1 else lo) ≤ v ↔ lo ≤ v ∧ r.hi < v := fun _ =>
        next_le_iff (hlast r (by simp) (not_lt.mp hhi))
      generalize (if lo ≤ r.hi then r.hi+1 else lo) = next at hnext ⊢
      obtain ⟨hsort,hmem⟩ := @ih next hs' hlast.tail
      obtain ⟨hpiece,hpmem⟩ := piece_spec lo r.lo
      constructor
      · refine sortedRanges_append.mpr ⟨hpiece,hsort,fun a ha b hb' => ?_⟩
        have ha' := ((hpmem a.hi).mp ⟨a,ha,hpiece.nonempty a ha,le_rfl⟩).2
        have hb'' := ((hnext _).mp ((hmem b.lo).mp ⟨b,hb',le_rfl,hsort.nonempty b hb'⟩).1).2
        simp only [SeqRange.Before,lt_iff_toNat_lt,le_iff_toNat_le] at *
        omega
      · intro v
        have hv := hlater v
        rw [memRanges_append,hpmem,hmem,hnext,memRanges_cons,SeqRange.Mem]
        rw [memRanges_cons] at hv
        grind

theorem belowLast_ranges {s : SeqSet} (h : ∀ v ∈ s,v.toNat+1 < 2^64) : BelowLast hi s.ranges :=
  fun r hr _ => h r.hi ⟨r,hr,s.sorted.nonempty r hr,le_rfl⟩

end Subtraction

namespace Range

def Closed (r : Range) : Prop := r.lo ≠ 0 ∧ r.hi ≠ 0

theorem Closed.contains_iff {r : Range} (h : r.Closed) {v : Seq} :
    r.contains v = true ↔ r.lo ≤ v ∧ v ≤ r.hi := by
  simp [contains,openEnded,h.2]

theorem subtractRange_spec {r : Range} {set : SeqSet} (h : r.Closed) (hlast : BelowLast r.hi set.ranges) :
    (∀ r' ∈ r.subtractRange set,r'.Closed) ∧ ∀ o v,
      Asks (r.subtractRange set) o v ↔ r.origin = o ∧ r.contains v ∧ v ∉ set := by
  have hopen : r.openEnded = false := by simp [openEnded,h.2]
  obtain ⟨hsort,hmem⟩ := @missingFrom_spec set.ranges r.lo r.hi set.sorted hlast
  have hne : ∀ {a b : Seq},a ≠ 0 → a ≤ b → b ≠ 0 := by
    rintro a b ha hab rfl
    rw [le_iff_toNat_le,UInt64.toNat_zero,Nat.le_zero] at hab
    exact ha (UInt64.toNat_inj.mp hab)
  have hclosed : ∀ s ∈ missingFrom r.hi r.lo set.ranges,(Range.mk r.origin s.lo s.hi).Closed := by
    intro s hs
    have hlo := hne h.1 ((hmem s.lo).mp ⟨s,hs,le_rfl,hsort.nonempty s hs⟩).1
    exact ⟨hlo,hne hlo (hsort.nonempty s hs)⟩
  rw [subtractRange,hopen,subtractFrom_eq set.sorted hlast,if_neg Bool.false_ne_true]
  constructor
  · intro r' hr'
    obtain ⟨s,hs,rfl⟩ := mem_map.mp hr'
    exact hclosed s hs
  · intro o v
    rw [h.contains_iff,mem_def,and_assoc,← hmem v]
    constructor
    · rintro ⟨r',hr',rfl,hv⟩
      obtain ⟨s,hs,rfl⟩ := mem_map.mp hr'
      exact ⟨rfl,s,hs,(hclosed s hs).contains_iff.mp hv⟩
    · rintro ⟨ho,s,hs,hv⟩
      exact ⟨_,mem_map_of_mem hs,ho,(hclosed s hs).contains_iff.mpr hv⟩

end Range

namespace GapFill

variable {ranges : List Range} {seen : Seen} {o : Origin} {v : Seq}

theorem mem_wrappedApply (ds : List Delivery) (seen : Seen) :
    v ∈ FinMap.getD (ds.foldl wrappedApply seen) o ↔
      v ∈ seen.getD o ∨ ∃ d ∈ ds,d.applied = true ∧ d.origin = o ∧ d.seq = v := by
  induction ds generalizing seen with
  | nil => simp
  | cons d ds ih =>
    have hd : v ∈ FinMap.getD (wrappedApply seen d) o ↔
        v ∈ seen.getD o ∨ d.applied = true ∧ d.origin = o ∧ d.seq = v := by
      unfold wrappedApply
      split_ifs with ha
      · rw [FinMap.getD_insert]
        by_cases ho : o = d.origin
        · subst ho
          simp [ha,or_comm,eq_comm]
        · simp [ho,Ne.symm ho]
      · simp [ha]
    rw [foldl_cons,ih,hd,or_assoc]
    simp

section Chain

variable (hlast : ∀ o,∀ v ∈ seen.getD o,v.toNat+1 < 2^64)

include hlast

theorem unseen_spec {r : Range} (h : r.Closed) : (∀ r' ∈ unseen seen r,r'.Closed) ∧ ∀ o v,
    Range.Asks (unseen seen r) o v ↔ r.origin = o ∧ r.contains v ∧ v ∉ seen.getD o := by
  have hkeep : (∀ v,v ∉ seen.getD r.origin) → (∀ r' ∈ [r],r'.Closed) ∧ ∀ o v,
      Range.Asks [r] o v ↔ r.origin = o ∧ r.contains v ∧ v ∉ seen.getD o := by
    refine fun hnone => ⟨by simpa using h,fun o v => ?_⟩
    constructor
    · rintro ⟨r',hr',ho,hv⟩
      rw [mem_singleton] at hr'
      subst hr' ho
      exact ⟨rfl,hv,hnone v⟩
    · exact fun hv => ⟨r,by simp,hv.1,hv.2.1⟩
  unfold unseen
  cases hl : seen.lookup r.origin with
  | none =>
    refine hkeep fun v => ?_
    rw [FinMap.getD,hl]
    exact not_mem_empty
  | some set =>
    have hset : seen.getD r.origin = set := FinMap.getD_of_lookup hl
    by_cases he : set.isEmpty = true
    · simp only [he,if_true]
      refine hkeep fun v => ?_
      rw [hset,mem_def,isEmpty_iff.mp he]
      exact not_memRanges_nil
    · obtain ⟨hclosed,hasks⟩ := Range.subtractRange_spec h (belowLast_ranges (hset ▸ hlast r.origin))
      simp only [he,Bool.false_eq_true,if_false]
      refine ⟨hclosed,fun o v => (hasks o v).trans (and_congr_right fun ho => ?_)⟩
      rw [← ho,hset]

theorem remaining_spec (hclosed : ∀ r ∈ ranges,r.Closed) :
    (∀ r ∈ remaining ranges seen,r.Closed) ∧ ∀ o v,
      Range.Asks (remaining ranges seen) o v ↔ Range.Asks ranges o v ∧ v ∉ seen.getD o := by
  constructor
  · intro r hr
    obtain ⟨q,hq,hr⟩ := mem_flatMap.mp hr
    exact (unseen_spec hlast (hclosed q hq)).1 r hr
  · intro o v
    constructor
    · rintro ⟨r,hr,ho,hv⟩
      obtain ⟨q,hq,hr⟩ := mem_flatMap.mp hr
      have := ((unseen_spec hlast (hclosed q hq)).2 o v).mp ⟨r,hr,ho,hv⟩
      exact ⟨⟨q,hq,this.1,this.2.1⟩,this.2.2⟩
    · rintro ⟨⟨q,hq,ho,hv⟩,hnot⟩
      obtain ⟨r,hr,hr'⟩ := ((unseen_spec hlast (hclosed q hq)).2 o v).mpr ⟨ho,hv,hnot⟩
      exact ⟨r,mem_flatMap.mpr ⟨q,hq,hr⟩,hr'⟩

end Chain

/-- Each filler is asked for what was asked and those before it did not apply. -/
theorem handed_spec {fs : List Filler}
    (hfs : ∀ f ∈ fs,∀ req,∀ d ∈ f req,d.applied = true → d.seq.toNat+1 < 2^64)
    (hclosed : ∀ r ∈ ranges,r.Closed) (hlast : ∀ o,∀ v ∈ seen.getD o,v.toNat+1 < 2^64)
    (hfresh : Range.Asks ranges o v → v ∉ seen.getD o) {k : ℕ} (hk : k < fs.length) :
    Range.Asks (handed (fetch fs ranges seen) k) o v ↔
      Range.Asks ranges o v ∧ ¬AppliedBy (fetch fs ranges seen) k o v := by
  induction fs generalizing ranges seen k with
  | nil => simp at hk
  | cons f fs ih =>
    rw [fetch]
    by_cases he : ranges.isEmpty = true
    · rw [if_pos he]
      simp [isEmpty_iff.mp he,handed,Range.Asks]
    · rw [if_neg he]
      cases k with
      | zero => simp [handed,AppliedBy]
      | succ k =>
        set seen' := (f ranges).foldl wrappedApply seen with hseen'
        have hmem : ∀ o v,v ∈ seen'.getD o ↔ _ := fun o v => mem_wrappedApply (f ranges) seen
        have hlast' : ∀ o,∀ v ∈ seen'.getD o,v.toNat+1 < 2^64 := by
          intro o v hv
          rcases (hmem o v).mp hv with hv | ⟨d,hd,ha,-,rfl⟩
          · exact hlast o v hv
          · exact hfs f (by simp) ranges d hd ha
        obtain ⟨hclosed',hasks⟩ := remaining_spec hlast' hclosed
        have hnext := ih (fun g hg => hfs g (by simp [hg])) hclosed' hlast'
          (fun h => ((hasks o v).mp h).2) (Nat.lt_of_succ_lt_succ hk)
        have happ : AppliedBy ((ranges,f ranges)::fetch fs (remaining ranges seen') seen') (k+1) o v ↔
            (∃ d ∈ f ranges,d.applied = true ∧ d.origin = o ∧ d.seq = v) ∨
              AppliedBy (fetch fs (remaining ranges seen') seen') k o v := by
          simp [AppliedBy]
        rw [happ,not_or]
        refine hnext.trans ?_
        rw [hasks,hmem]
        grind

end GapFill

theorem missing_ranges_exact (c : Cache) (o : Origin) (tip : Seq)
    (hgaps : BelowLast tip (c.gaps o).ranges) (fillers : List GapFill.Filler) (ranges : List Range)
    (hranges : ∀ r ∈ ranges,r.Closed)
    (hfillers : ∀ f ∈ fillers,∀ req,∀ d ∈ f req,d.applied = true → d.seq.toNat+1 < 2^64) :
    (SortedRanges (c.missingRangesUpTo o tip) ∧ ∀ v,
      SeqSet.MemRanges (c.missingRangesUpTo o tip) v ↔ c.lastSeq o < v ∧ v ≤ tip ∧ v ∉ c.gaps o) ∧
    ∀ k < fillers.length,∀ p v,
      Range.Asks (GapFill.handed (GapFill.fetch fillers ranges ∅) k) p v ↔
        Range.Asks ranges p v ∧ ¬GapFill.AppliedBy (GapFill.fetch fillers ranges ∅) k p v := by
  have hnone : ∀ p v,v ∉ FinMap.getD (∅ : GapFill.Seen) p := fun p v => by
    rw [FinMap.getD_empty]
    exact SeqSet.not_mem_empty
  refine ⟨?_,fun k hk p v => GapFill.handed_spec hfillers hranges
    (fun p v hv => absurd hv (hnone p v)) (fun _ => hnone p v) hk⟩
  unfold Cache.missingRangesUpTo
  by_cases htip : tip ≤ c.lastSeq o
  · rw [if_pos htip]
    refine ⟨⟨by simp,by simp⟩,fun v => ⟨fun h => absurd h SeqSet.not_memRanges_nil,fun h => ?_⟩⟩
    exact absurd (h.1.trans_le h.2.1) (not_lt.mpr htip)
  · rw [if_neg htip]
    have hsucc : (c.lastSeq o+1).toNat = (c.lastSeq o).toNat+1 := by
      have := tip.toNat_lt
      rw [not_le,lt_iff_toNat_lt] at htip
      exact toNat_succ (by omega)
    obtain ⟨hsort,hmem⟩ :=
      @missingFrom_spec (c.gaps o).ranges (c.lastSeq o+1) tip (c.gaps o).sorted hgaps
    refine ⟨hsort,fun v => (hmem v).trans ?_⟩
    rw [SeqSet.mem_def,le_iff_toNat_le,hsucc,lt_iff_toNat_lt,Nat.succ_le_iff]

namespace GapSample

def cache (seqs : List Seq) : Cache := (Cache.new 1).markAll 2 (seqs.map fun s => (s,⟨0,0⟩))

def serve (seqs : List Seq) : GapFill.Filler := fun _ => seqs.map fun s => ⟨2,s,true⟩

/-- The last seq wraps the planner's bound: everything is asked for again. -/
theorem last_seq_wraps :
    (cache [1,18446744073709551614,18446744073709551615]).missingRangesUpTo 2 18446744073709551614 =
      [⟨2,18446744073709551613⟩,⟨0,18446744073709551614⟩] := by
  decide

theorem second_filler_asked : (cache [1,4]).missingRangesUpTo 2 6 = [⟨2,3⟩,⟨5,6⟩] ∧
      ¬Range.Asks (GapFill.handed (GapFill.fetch [serve [2,5],serve []] [⟨2,2,3⟩,⟨2,5,6⟩] ∅) 1) 2 5 := by
  refine ⟨by decide,fun h => ?_⟩
  have hexact := (missing_ranges_exact (cache [1,4]) 2 6 ?_ [serve [2,5],serve []]
    [⟨2,2,3⟩,⟨2,5,6⟩] ?_ ?_).2 1 (by decide) 2 5
  · refine (hexact.mp h).2 ⟨_,mem_cons_self,⟨2,5,true⟩,?_⟩
    exact ⟨by simp [serve],rfl,rfl,rfl⟩
  · have hranges : ((cache [1,4]).gaps 2).ranges = [⟨4,4⟩] := by decide
    rw [hranges]
    intro r hr _
    rw [mem_singleton.mp hr]
    decide
  · simp [Range.Closed]
  · simp [serve]

end GapSample

end Syzy
