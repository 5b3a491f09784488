import Syzy.GapPlan

/-!
Gap fill from the object store. A request scans its origin's epochs in the order of their low seqs,
and in each the frames that meet it. The listing it scans comes from the walk over the whole bucket,
page by page, or from one listing of the origin's own prefix.
-/

namespace Syzy

open List

structure EpochRecord where
  seq : Seq
  bytes : Bytes

structure EpochFrame where
  loSeq : Seq
  hiSeq : Seq
  records : List EpochRecord

/-- An epoch in the bucket, under a key that names its origin and seqs. -/
structure EpochObject (κ : Type*) where
  key : κ
  origin : Origin
  loSeq : Seq
  hiSeq : Seq
  frames : List EpochFrame

/-- The items whose span meets `[a,b]`, where a scan in the order of the low ends finds them. -/
def overlapping {α : Type*} (lo hi : α → Seq) (a b : Seq) : List α → List α
  | [] => []
  | x::xs =>
    if hi x < a then overlapping lo hi a b xs
    else if b < lo x then [] else x::overlapping lo hi a b xs

def framesOverlapping (frames : List EpochFrame) (loSeq hiSeq : Seq) : List EpochFrame :=
  if hiSeq < loSeq then [] else overlapping EpochFrame.loSeq EpochFrame.hiSeq loSeq hiSeq frames

def Range.top (rg : Range) : Seq := if rg.openEnded then 18446744073709551615 else rg.hi

variable {κ : Type*}

/-- The records of one epoch that a request hands to apply. -/
def fetchEpoch (rg : Range) (e : EpochObject κ) : List EpochRecord :=
  ((framesOverlapping e.frames rg.lo rg.top).flatMap EpochFrame.records).filter fun r =>
    rg.contains r.seq

def fetchOne (entries : List (EpochObject κ)) (rg : Range) : List EpochRecord :=
  (overlapping EpochObject.loSeq EpochObject.hiSeq rg.lo rg.top entries).flatMap (fetchEpoch rg)

def fetch (listing : Origin → List (EpochObject κ)) (ranges : List Range) : List EpochRecord :=
  ranges.flatMap fun rg => fetchOne (listing rg.origin) rg

section Scan

variable {α β : Type*} {lo hi : α → Seq} {a b : Seq} {xs : List α} {g : α → List β}

theorem overlapping_flatMap (hsorted : xs.Pairwise fun x y => lo x ≤ lo y)
    (hbelow : ∀ x ∈ xs,hi x < a → g x = []) (habove : ∀ x ∈ xs,b < lo x → g x = []) :
    (overlapping lo hi a b xs).flatMap g = xs.flatMap g := by
  induction xs with
  | nil => rfl
  | cons x xs ih =>
    obtain ⟨hx,hsorted⟩ := pairwise_cons.mp hsorted
    have ih := ih hsorted (fun y hy => hbelow y (mem_cons_of_mem _ hy)) fun y hy =>
      habove y (mem_cons_of_mem _ hy)
    rw [overlapping,flatMap_cons]
    split_ifs with hlow hhigh
    · rw [ih,hbelow x mem_cons_self hlow,nil_append]
    · have hrest : xs.flatMap g = [] := flatMap_eq_nil_iff.mpr fun y hy =>
        habove y (mem_cons_of_mem _ hy) (hhigh.trans_le (hx y hy))
      rw [hrest,habove x mem_cons_self hhigh]
      rfl
    · rw [flatMap_cons,ih]

end Scan

theorem Range.contains_iff {rg : Range} {v : Seq} : rg.contains v = true ↔ rg.lo ≤ v ∧ v ≤ rg.top := by
  unfold Range.contains Range.top
  cases rg.openEnded with
  | false => simp
  | true =>
    have hv : v ≤ 18446744073709551615 := UInt64.le_iff_toNat_le.mpr (Nat.le_of_lt_succ v.toNat_lt)
    simp [hv]

namespace EpochObject

def records (e : EpochObject κ) : List EpochRecord := e.frames.flatMap EpochFrame.records

/-- Frames and records in the order of their seqs, each within what holds it. -/
structure WellFormed (e : EpochObject κ) : Prop where
  frames : e.frames.Pairwise fun f f' => f.hiSeq < f'.loSeq
  nonempty : ∀ f ∈ e.frames,f.loSeq ≤ f.hiSeq
  inside : ∀ f ∈ e.frames,e.loSeq ≤ f.loSeq ∧ f.hiSeq ≤ e.hiSeq
  held : ∀ f ∈ e.frames,∀ r ∈ f.records,f.loSeq ≤ r.seq ∧ r.seq ≤ f.hiSeq
  ascending : ∀ f ∈ e.frames,f.records.Pairwise fun r r' => r.seq < r'.seq

variable {e : EpochObject κ} {rg : Range}

theorem WellFormed.records_ascending (h : e.WellFormed) :
    e.records.Pairwise fun r r' => r.seq < r'.seq := by
  rw [records,pairwise_flatMap]
  refine ⟨h.ascending,h.frames.imp_of_mem fun {f f'} hf hf' hlt r hr r' hr' => ?_⟩
  exact ((h.held f hf r hr).2.trans_lt hlt).trans_le (h.held f' hf' r' hr').1

theorem WellFormed.within (h : e.WellFormed) {r : EpochRecord} (hr : r ∈ e.records) :
    e.loSeq ≤ r.seq ∧ r.seq ≤ e.hiSeq := by
  obtain ⟨f,hf,hr⟩ := mem_flatMap.mp hr
  exact ⟨(h.inside f hf).1.trans (h.held f hf r hr).1,(h.held f hf r hr).2.trans (h.inside f hf).2⟩

theorem filter_contains_nil {rs : List EpochRecord} {lo hi : Seq}
    (h : ∀ r ∈ rs,lo ≤ r.seq ∧ r.seq ≤ hi) (hout : hi < rg.lo ∨ rg.top < lo) :
    rs.filter (fun r => rg.contains r.seq) = [] := by
  refine filter_eq_nil_iff.mpr fun r hr hc => ?_
  obtain ⟨hlo,htop⟩ := Range.contains_iff.mp hc
  obtain hout | hout := hout
  · exact absurd (hlo.trans (h r hr).2) (not_le.mpr hout)
  · exact absurd ((h r hr).1.trans htop) (not_le.mpr hout)

theorem WellFormed.fetchEpoch_eq (h : e.WellFormed) :
    fetchEpoch rg e = e.records.filter fun r => rg.contains r.seq := by
  unfold fetchEpoch framesOverlapping records
  split_ifs with hempty
  · refine (filter_eq_nil_iff.mpr fun r _ hc => ?_).symm
    obtain ⟨hlo,htop⟩ := Range.contains_iff.mp hc
    exact absurd (hlo.trans htop) (not_le.mpr hempty)
  · rw [filter_flatMap,filter_flatMap]
    refine overlapping_flatMap (h.frames.imp_of_mem fun {f f'} hf _ hlt => ?_) ?_ ?_
    · exact (h.nonempty f hf).trans hlt.le
    · exact fun f hf hout => filter_contains_nil (h.held f hf) (.inl hout)
    · exact fun f hf hout => filter_contains_nil (h.held f hf) (.inr hout)

theorem fetchOne_eq {entries : List (EpochObject κ)} (hwf : ∀ e ∈ entries,e.WellFormed)
    (hsorted : entries.Pairwise fun e e' => e.loSeq ≤ e'.loSeq) :
    fetchOne entries rg = entries.flatMap fun e => e.records.filter fun r => rg.contains r.seq := by
  have hnil : ∀ e ∈ entries,e.hiSeq < rg.lo ∨ rg.top < e.loSeq → fetchEpoch rg e = [] := by
    intro e he hout
    rw [(hwf e he).fetchEpoch_eq]
    exact filter_contains_nil (fun r => (hwf e he).within) hout
  rw [fetchOne,overlapping_flatMap hsorted (fun e he h => hnil e he (.inl h)) fun e he h =>
    hnil e he (.inr h)]
  exact flatMap_congr fun e he => (hwf e he).fetchEpoch_eq

end EpochObject

namespace Bucket

variable [LinearOrder κ] {bucket : List (EpochObject κ)}

def after (bucket : List (EpochObject κ)) (startAfter : Option κ) : List (EpochObject κ) :=
  bucket.filter fun e => startAfter.all (· < e.key)

/-- One call of the store: a page of at most 1000 keys. -/
def page (bucket : List (EpochObject κ)) (startAfter : Option κ) : List (EpochObject κ) :=
  (after bucket startAfter).take 1000

/-- The page walk; it ends with a page that is not full. -/
def walk (bucket : List (EpochObject κ)) : ℕ → Option κ → List (EpochObject κ)
  | 0,_ => []
  | fuel+1,startAfter =>
    let objs := page bucket startAfter
    if objs.length < 1000 then objs
    else objs++walk bucket fuel (objs.getLast?.map EpochObject.key)

def discoverTips (bucket : List (EpochObject κ)) : List (EpochObject κ) :=
  walk bucket (bucket.length+1) none

/-- The entries of one origin from the walk, sorted by low seq. -/
def Discovered (bucket : List (EpochObject κ)) (o : Origin) (entries : List (EpochObject κ)) : Prop :=
  entries.Perm ((discoverTips bucket).filter fun e => e.origin = o) ∧
    entries.Pairwise fun e e' => e.loSeq ≤ e'.loSeq

/-- The entries from one listing of the origin's prefix, sorted by low seq. -/
def Listed (bucket : List (EpochObject κ)) (o : Origin) (entries : List (EpochObject κ)) : Prop :=
  entries.Perm (page (bucket.filter fun e => e.origin = o) none) ∧
    entries.Pairwise fun e e' => e.loSeq ≤ e'.loSeq

/-- Every stored record that the request asks for is passed. -/
def Complete (bucket : List (EpochObject κ)) (rg : Range) (passed : List EpochRecord) : Prop :=
  ∀ e ∈ bucket,e.origin = rg.origin → ∀ r ∈ e.records,rg.contains r.seq = true → r ∈ passed

/-- Every such record stands in an epoch of the first page of the origin's prefix. -/
def OnFirstPage (bucket : List (EpochObject κ)) (rg : Range) : Prop :=
  ∀ e ∈ bucket,e.origin = rg.origin → ∀ r ∈ e.records,rg.contains r.seq = true →
    ∃ e' ∈ page (bucket.filter fun e => e.origin = rg.origin) none,r ∈ e'.records

theorem after_none : after bucket none = bucket := filter_eq_self.mpr fun _ _ => rfl

theorem walk_eq (hkeys : bucket.Pairwise fun e e' => e.key < e'.key) {fuel : ℕ} {start : Option κ}
    (hfuel : (after bucket start).length < fuel) : walk bucket fuel start = after bucket start := by
  induction fuel generalizing start with
  | zero => exact absurd hfuel (Nat.not_lt_zero _)
  | succ fuel ih =>
    rw [walk,page]
    have hrest := hkeys.filter fun e => start.all (· < e.key)
    change (after bucket start).Pairwise _ at hrest
    split_ifs with hfull
    · rw [length_take] at hfull
      exact take_of_length_le (by omega)
    · obtain ⟨l,x,hlast⟩ := (eq_nil_or_concat' ((after bucket start).take 1000)).resolve_left
        fun hnil => hfull (by simp [hnil])
      have hlen : 1000 ≤ (after bucket start).length := by
        rw [length_take] at hfull
        omega
      have hsplit := take_append_drop 1000 (after bucket start)
      rw [hlast] at hsplit
      rw [← hsplit,pairwise_append,pairwise_append] at hrest
      have hx : start.all (· < x.key) = true := by
        have hmem : x ∈ after bucket start := hsplit ▸ by simp
        exact (mem_filter.mp hmem).2
      have htwice : after bucket (some x.key) = (after bucket start).filter fun e => x.key < e.key := by
        rw [after,after,filter_filter]
        refine filter_congr fun e _ => ?_
        cases start with
        | none => simp
        | some k =>
          have hk : k < x.key := by simpa using hx
          simpa using fun he => hk.trans he
      have hnext : after bucket (some x.key) = (after bucket start).drop 1000 := by
        rw [htwice]
        nth_rewrite 1 [← hsplit]
        rw [filter_append,filter_eq_nil_iff.mpr,nil_append,filter_eq_self.mpr]
        · exact fun e he => decide_eq_true (hrest.2.2 x (by simp) e he)
        · intro e he
          obtain he | he := mem_append.mp he
          · simpa using (hrest.1.2.2 e he x (by simp)).le
          · simp [mem_singleton.mp he]
      rw [hlast,getLast?_concat,Option.map_some,ih (by rw [hnext,length_drop]; omega),hnext,hsplit]

theorem discoverTips_eq (hkeys : bucket.Pairwise fun e e' => e.key < e'.key) :
    discoverTips bucket = bucket := by
  rw [discoverTips,walk_eq hkeys (by rw [after_none]; omega),after_none]

end Bucket

theorem Bucket.fetchOne_listed [LinearOrder κ] {bucket : List (EpochObject κ)}
    {rg : Range} {entries : List (EpochObject κ)} (hwf : ∀ e ∈ bucket,e.WellFormed)
    (hmem : ∀ e ∈ entries,e ∈ bucket) (hsorted : entries.Pairwise fun e e' => e.loSeq ≤ e'.loSeq)
    {r : EpochRecord} :
    r ∈ fetchOne entries rg ↔ ∃ e ∈ entries,r ∈ e.records ∧ rg.contains r.seq = true := by
  rw [EpochObject.fetchOne_eq (fun e he => hwf e (hmem e he)) hsorted,mem_flatMap]
  simp only [mem_filter]

theorem bucket_fetch_complete [LinearOrder κ] {bucket : List (EpochObject κ)}
    (hkeys : bucket.Pairwise fun e e' => e.key < e'.key) (hwf : ∀ e ∈ bucket,e.WellFormed)
    {listing : Origin → List (EpochObject κ)} {ranges : List Range}
    (hlisting : ∀ rg ∈ ranges,Bucket.Discovered bucket rg.origin (listing rg.origin) ∨
      Bucket.Listed bucket rg.origin (listing rg.origin)) :
    (∀ rg ∈ ranges,fetchOne (listing rg.origin) rg = (listing rg.origin).flatMap fun e =>
      e.records.filter fun r => rg.contains r.seq) ∧
    (∀ e ∈ bucket,e.records.Pairwise fun r r' => r.seq < r'.seq) ∧
    (∀ r ∈ fetch listing ranges,∃ rg ∈ ranges,∃ e ∈ bucket,e.origin = rg.origin ∧ r ∈ e.records ∧
      rg.contains r.seq = true) ∧
    ∀ rg ∈ ranges,Bucket.Complete bucket rg (fetchOne (listing rg.origin) rg) ↔
      Bucket.Discovered bucket rg.origin (listing rg.origin) ∨ Bucket.OnFirstPage bucket rg := by
  have hperm : ∀ rg ∈ ranges,(∀ e ∈ listing rg.origin,e ∈ bucket ∧ e.origin = rg.origin) ∧
      (listing rg.origin).Pairwise fun e e' => e.loSeq ≤ e'.loSeq := by
    intro rg hrg
    obtain ⟨hp,hs⟩ | ⟨hp,hs⟩ := hlisting rg hrg
    · rw [Bucket.discoverTips_eq hkeys] at hp
      exact ⟨fun e he => by simpa using hp.mem_iff.mp he,hs⟩
    · refine ⟨fun e he => ?_,hs⟩
      rw [Bucket.page,Bucket.after_none] at hp
      simpa using mem_of_mem_take (hp.mem_iff.mp he)
  have hone : ∀ rg ∈ ranges,∀ r,r ∈ fetchOne (listing rg.origin) rg ↔ _ := fun rg hrg r =>
    Bucket.fetchOne_listed hwf (fun e he => ((hperm rg hrg).1 e he).1) (hperm rg hrg).2
  refine ⟨fun rg hrg => EpochObject.fetchOne_eq (fun e he => hwf e ((hperm rg hrg).1 e he).1)
    (hperm rg hrg).2,fun e he => (hwf e he).records_ascending,fun r hr => ?_,fun rg hrg => ?_⟩
  · obtain ⟨rg,hrg,hr⟩ := mem_flatMap.mp hr
    obtain ⟨e,he,hr⟩ := (hone rg hrg r).mp hr
    exact ⟨rg,hrg,e,((hperm rg hrg).1 e he).1,((hperm rg hrg).1 e he).2,hr⟩
  · have hwalked : Bucket.Discovered bucket rg.origin (listing rg.origin) →
        Bucket.Complete bucket rg (fetchOne (listing rg.origin) rg) := by
      refine fun hdisc e he ho r hr hc => (hone rg hrg r).mpr ⟨e,?_,hr,hc⟩
      rw [hdisc.1.mem_iff,Bucket.discoverTips_eq hkeys]
      simpa using ⟨he,ho⟩
    have hpage : Bucket.Listed bucket rg.origin (listing rg.origin) →
        (Bucket.Complete bucket rg (fetchOne (listing rg.origin) rg) ↔ Bucket.OnFirstPage bucket rg) := by
      refine fun hlist => forall₂_congr fun e he => forall_congr' fun ho => forall₃_congr fun r hr hc => ?_
      simp only [hone rg hrg,hlist.1.mem_iff,hc,and_true]
    constructor
    · exact fun hall => (hlisting rg hrg).imp_right fun hlist => (hpage hlist).mp hall
    · rintro (hdisc | hfirst)
      · exact hwalked hdisc
      · exact (hlisting rg hrg).elim hwalked fun hlist => (hpage hlist).mpr hfirst

namespace FetchSample

def single (i : ℕ) : EpochObject ℕ :=
  ⟨i,1,.ofNat (i+1),.ofNat (i+1),[⟨.ofNat (i+1),.ofNat (i+1),[⟨.ofNat (i+1),[]⟩]⟩]⟩

def crowded : List (EpochObject ℕ) := (range 1001).map single

theorem single_wellFormed (i : ℕ) : (single i).WellFormed := by
  constructor <;> simp [single]

theorem single_lt {i j : ℕ} (h : i < j) (hj : j < 1001) : (single i).hiSeq < (single j).loSeq := by
  rw [UInt64.lt_iff_toNat_lt]
  simp only [single,UInt64.toNat_ofNat']
  omega

theorem crowded_listed : Bucket.Listed crowded 1 ((range 1000).map single) ∧
    Bucket.page (crowded.filter fun e => e.origin = 1) none = (range 1000).map single := by
  have hsorted : ((range 1000).map single).Pairwise fun e e' => e.loSeq ≤ e'.loSeq := by
    refine pairwise_map.mpr (pairwise_lt_range.imp_of_mem fun _ hj hlt => ?_)
    exact (single_lt hlt (Nat.lt_succ_of_lt (mem_range.mp hj))).le
  have hall : crowded.filter (fun e => e.origin = 1) = crowded :=
    filter_eq_self.mpr fun e he => by
      obtain ⟨i,-,rfl⟩ := mem_map.mp he
      rfl
  have hpage : Bucket.page (crowded.filter fun e => e.origin = 1) none = (range 1000).map single := by
    rw [hall,Bucket.page,Bucket.after_none,crowded,← map_take,take_range]
    rfl
  exact ⟨⟨hpage ▸ .refl _,hsorted⟩,hpage⟩

/-- The last of 1001 epochs is past the one page of the listing. -/
theorem second_page_missed :
    Bucket.Listed crowded 1 ((range 1000).map single) ∧
      (∃ e ∈ crowded,e.origin = 1 ∧ ∃ r ∈ e.records,r.seq = 1001) ∧
      fetchOne ((range 1000).map single) ⟨1,1001,1001⟩ = [] := by
  refine ⟨crowded_listed.1,⟨single 1000,mem_map_of_mem (by simp),rfl,_,mem_cons_self,rfl⟩,?_⟩
  rw [EpochObject.fetchOne_eq (fun e he => ?_) crowded_listed.1.2,flatMap_eq_nil_iff]
  · intro e he
    obtain ⟨i,hi,rfl⟩ := mem_map.mp he
    exact EpochObject.filter_contains_nil (fun r => (single_wellFormed i).within)
      (.inl (single_lt (mem_range.mp hi) (Nat.lt_succ_self 1000)))
  · obtain ⟨i,-,rfl⟩ := mem_map.mp he
    exact single_wellFormed i

/-- The records before it are on the page and are passed. -/
theorem first_page_fetched :
    Bucket.Complete crowded ⟨1,998,1000⟩ (fetchOne ((range 1000).map single) ⟨1,998,1000⟩) := by
  refine ((@bucket_fetch_complete ℕ _ crowded ?_ ?_ (fun _ => (range 1000).map single) [⟨1,998,1000⟩]
    ?_).2.2.2 _ mem_cons_self).mpr (.inr ?_)
  · exact pairwise_map.mpr pairwise_lt_range
  · intro e he
    obtain ⟨i,-,rfl⟩ := mem_map.mp he
    exact single_wellFormed i
  · intro rg hrg
    rw [mem_singleton.mp hrg]
    exact .inr crowded_listed.1
  · intro e he _ r hr hc
    obtain ⟨i,hi,rfl⟩ := mem_map.mp he
    rw [crowded_listed.2]
    refine ⟨single i,mem_map_of_mem (mem_range.mpr (not_le.mp fun hle => ?_)),hr⟩
    obtain rfl : i = 1000 := le_antisymm (Nat.le_of_lt_succ (mem_range.mp hi)) hle
    rw [mem_singleton.mp hr] at hc
    exact absurd hc (by decide)

end FetchSample

end Syzy
