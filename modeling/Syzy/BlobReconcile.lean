import Syzy.BlobPatch
import Syzy.IntervalLWW

/-!
A full write of a blob column over the ranges patched before it: the bytes under the entries that
dominate the write stay, and the write takes all others.
-/

namespace Syzy

open List ByteRange

namespace IntervalMap

variable {a b n : ℕ} {c s : Stamp} {l m : IntervalMap} {e : IntervalEntry} {off : ℕ}

def Before (e e' : IntervalEntry) : Prop :=
  e.range.stop < e'.range.start ∨ e.range.stop = e'.range.start ∧ e.stamp ≠ e'.stamp

/-- In order and apart, joined where they can be, within a blob of `n` bytes. -/
structure WellFormed (n : ℕ) (m : IntervalMap) : Prop where
  ascending : Ascending 0 n (ranges m)
  joined : Joined m

theorem pairwise_before (h : Ascending a b (ranges l)) (hj : Joined l) : l.Pairwise Before := by
  induction l generalizing a with
  | nil => exact .nil
  | cons e l ih =>
    obtain ⟨-,hlt,hrest⟩ := h
    cases l with
    | nil => exact pairwise_singleton _ _
    | cons e₁ l =>
      refine pairwise_cons.mpr ⟨fun e' he' => ?_,ih hrest hj.2⟩
      rcases mem_cons.mp he' with rfl | he'
      · exact hrest.1.lt_or_eq.imp_right fun heq => ⟨heq,fun hs => hj.1 ⟨heq,hs⟩⟩
      · have hafter := (hrest.2.2.bounds _ (mem_map_of_mem he')).1
        exact .inl (hrest.1.trans_lt (hrest.2.1.trans_le hafter))

theorem of_pairwise (hp : l.Pairwise Before) (hle : a ≤ b)
    (h : ∀ e ∈ l,a ≤ e.range.start ∧ e.range.start < e.range.stop ∧ e.range.stop ≤ b) :
    Ascending a b (ranges l) ∧ Joined l := by
  induction l generalizing a with
  | nil => exact ⟨hle,trivial⟩
  | cons e l ih =>
    obtain ⟨hfirst,hp⟩ := pairwise_cons.mp hp
    obtain ⟨ha,hlt,hb⟩ := h e mem_cons_self
    obtain ⟨hasc,hj⟩ := ih hp hb fun e' he' =>
      ⟨(hfirst e' he').elim le_of_lt fun h => h.1.le,(h e' (mem_cons_of_mem _ he')).2⟩
    refine ⟨⟨ha,hlt,hasc⟩,?_⟩
    cases l with
    | nil => trivial
    | cons e' l =>
      exact ⟨fun hc => (hfirst e' mem_cons_self).elim (fun h => h.ne hc.1) fun h => h.2 hc.2,hj⟩

theorem WellFormed.prune (h : WellFormed n m) (c : Stamp) : WellFormed n (m.prune c) := by
  obtain ⟨hasc,hj⟩ := of_pairwise ((pairwise_before h.ascending h.joined).filter _) (Nat.zero_le n)
    fun e he => ⟨Nat.zero_le _,h.ascending.nonempty _ (mem_map_of_mem (mem_filter.mp he).1),
      (h.ascending.bounds _ (mem_map_of_mem (mem_filter.mp he).1)).2⟩
  exact ⟨hasc,hj⟩

theorem WellFormed.clip (h : WellFormed n m) (k : ℕ) : WellFormed n (m.clip k) := by
  have hpair : (m.clip k).Pairwise Before := by
    refine pairwise_map.mpr (((pairwise_before h.ascending h.joined).filter _).imp_of_mem
      fun {e e'} _ he' hbefore => ?_)
    have hlt : e'.range.start < k := by simpa using (mem_filter.mp he').2
    have hle : e.range.stop ≤ k := (hbefore.elim le_of_lt fun h => h.1.le).trans hlt.le
    simpa only [Before,min_eq_left hle] using hbefore
  obtain ⟨hasc,hj⟩ := of_pairwise hpair (Nat.zero_le n) fun e' he' => by
    obtain ⟨e,he,rfl⟩ := mem_map.mp he'
    obtain ⟨he,hlt⟩ := mem_filter.mp he
    have hmem := mem_map_of_mem (f := IntervalEntry.range) he
    exact ⟨Nat.zero_le _,lt_min (h.ascending.nonempty _ hmem) (by simpa using hlt),
      (min_le_left _ _).trans (h.ascending.bounds _ hmem).2⟩
  exact ⟨hasc,hj⟩

theorem mem_prune : e ∈ m.prune c ↔ e ∈ m ∧ c < e.stamp := by
  simp [prune,Stamp.dominates_iff]

theorem stampIn_eq_iff (h : Ascending a b (ranges l)) :
    stampIn l off = s ↔ ∃ e ∈ l,e.range.Covers off ∧ e.stamp = s := by
  induction l generalizing a with
  | nil => simp [stampIn]
  | cons e l ih =>
    have hapart : e.range.Covers off → ∀ e' ∈ l,¬e'.range.Covers off := fun hc e' he' hc' =>
      absurd (h.2.2.bounds _ (mem_map_of_mem he')).1 (not_le.mpr (hc'.1.trans_lt hc.2))
    rw [stampIn]
    split_ifs with hc
    · simpa [hc,WithBot.coe_inj] using fun e' he' hc' => absurd hc' (hapart hc e' he')
    · simp [ih h.2.2,hc]

theorem stampIn_clip (m : IntervalMap) (n off : ℕ) :
    stampIn (m.clip n) off = if off < n then stampIn m off else ⊥ := by
  induction m with
  | nil => simp [clip,stampIn]
  | cons e m ih =>
    unfold clip at ih ⊢
    by_cases hlt : e.range.start < n
    · have hcov : (⟨e.range.start,min e.range.stop n⟩ : ByteRange).Covers off ↔
          e.range.Covers off ∧ off < n := by simp [Covers,and_assoc]
      by_cases hoff : off < n <;> by_cases hc : e.range.Covers off <;> simp_all [stampIn]
    · by_cases hoff : off < n
      · have hc : ¬e.range.Covers off := fun hc => hlt (hc.1.trans_lt hoff)
        simp_all [stampIn]
      · simp_all

theorem stampIn_prune (h : WellFormed n m) (c : Stamp) (off : ℕ) :
    stampIn (m.prune c) off = if (c : WithBot Stamp) < stampIn m off then stampIn m off else ⊥ := by
  have hiff : ∀ {s : Stamp},stampIn (m.prune c) off = s ↔ stampIn m off = s ∧ c < s := by
    intro s
    rw [stampIn_eq_iff (h.prune c).ascending,stampIn_eq_iff h.ascending]
    simp only [mem_prune]
    constructor
    · rintro ⟨e,⟨he,hlt⟩,hc,rfl⟩
      exact ⟨⟨e,he,hc,rfl⟩,hlt⟩
    · rintro ⟨⟨e,he,hc,rfl⟩,hlt⟩
      exact ⟨e,⟨he,hlt⟩,hc,rfl⟩
  split_ifs with hlt
  · obtain ⟨s,hs⟩ := WithBot.ne_bot_iff_exists.mp (bot_le.trans_lt hlt).ne'
    rw [← hs] at hlt ⊢
    exact hiff.mpr ⟨hs.symm,WithBot.coe_lt_coe.mp hlt⟩
  · by_contra hne
    obtain ⟨s,hs⟩ := WithBot.ne_bot_iff_exists.mp hne
    obtain ⟨hm,hc⟩ := hiff.mp hs.symm
    exact hlt (hm ▸ WithBot.coe_lt_coe.mpr hc)

end IntervalMap

section Bytes

variable {W W' : ℕ → Prop} {v b b' b'' data : Bytes} {lo hi cur s : ℕ}

/-- `b'` has the bytes of `v` at the offsets in `W`, and those of `b` elsewhere. -/
structure Patched (W : ℕ → Prop) (v b b' : Bytes) : Prop where
  length : b'.length = b.length
  inside : ∀ i,W i → b'[i]? = v[i]?
  outside : ∀ i,¬W i → b'[i]? = b[i]?

theorem Patched.congr (h : Patched W v b b') (hW : ∀ i,W i ↔ W' i) : Patched W' v b b' :=
  ⟨h.length,fun i hi => h.inside i ((hW i).mpr hi),fun i hi => h.outside i (mt (hW i).mp hi)⟩

theorem Patched.trans (h : Patched W v b b') (h' : Patched W' v b' b'') :
    Patched (fun i => W i ∨ W' i) v b b'' where
  length := h'.length.trans h.length
  inside i hi := by
    by_cases hi' : W' i
    · exact h'.inside i hi'
    · exact (h'.outside i hi').trans (h.inside i (hi.resolve_right hi'))
  outside i hi := (h'.outside i (hi ∘ .inr)).trans (h.outside i (hi ∘ .inl))

theorem writeBytes_patched (hle : lo ≤ hi) (hv : hi ≤ v.length) (hb : hi ≤ b.length) :
    ∃ b',writeBytes b lo ((v.take hi).drop lo) = some b' ∧
      Patched (fun i => lo ≤ i ∧ i < hi) v b b' := by
  have hlen : ((v.take hi).drop lo).length = hi-lo := by simp [hv]
  have hlo : (b.take lo).length = lo := by simp; omega
  refine ⟨_,if_pos (by omega),by simp; omega,fun i hin => ?_,fun i hout => ?_⟩
  · rw [getElem?_append_left (by simp; omega),getElem?_append_right (by omega),hlo,getElem?_drop,
      Nat.add_sub_cancel' hin.1,getElem?_take,if_pos hin.2]
  · rcases Nat.lt_or_ge i lo with hlt | hge
    · rw [append_assoc,getElem?_append_left (by omega),getElem?_take,if_pos hlt]
    · have hge : hi ≤ i := by omega
      rw [getElem?_append_right (by simp; omega),getElem?_drop,length_append,hlen,hlo]
      congr 1
      omega

theorem writeWon_patched {won : List ByteRange} (hb : data.length ≤ b.length)
    (hwon : ∀ w ∈ won,w.start ≤ w.stop ∧ w.stop ≤ data.length) :
    ∃ b',writeWon data 0 b won = some b' ∧ Patched (fun i => ∃ w ∈ won,w.Covers i) data b b' := by
  induction won generalizing b with
  | nil => exact ⟨b,rfl,rfl,fun i hi => by simp at hi,fun _ _ => rfl⟩
  | cons w won ih =>
    obtain ⟨⟨hle,hstop⟩,hrest⟩ := forall_mem_cons.mp hwon
    obtain ⟨b₁,h₁,hp₁⟩ := writeBytes_patched hle hstop (hstop.trans hb)
    obtain ⟨b₂,h₂,hp₂⟩ := ih (hp₁.length ▸ hb) hrest
    refine ⟨b₂,?_,(hp₁.trans hp₂).congr fun i => by simp [Covers]⟩
    rw [writeWon,foldlM_cons]
    exact (congrArg (· >>= _) h₁).trans h₂

theorem fill_patched (b : Bytes) (cur : ℕ) (hs : s ≤ hi) (hb : hi ≤ b.length) :
    ∃ b',(if cur < s then writeBytes b cur (replicate (s-cur) 0) else some b) = some b' ∧
      Patched (fun i => cur ≤ i ∧ i < s) (replicate hi 0) b b' := by
  split_ifs with hlt
  · obtain ⟨b',h,hp⟩ := writeBytes_patched (v := replicate hi 0) hlt.le (by simpa using hs)
      (hs.trans hb)
    rw [take_replicate,drop_replicate,min_eq_left hs] at h
    exact ⟨b',h,hp⟩
  · exact ⟨b,rfl,rfl,fun i hi => by omega,fun _ _ => rfl⟩

theorem zeroFillFrom_patched {a top : ℕ} {es : List IntervalEntry}
    (hes : Ascending a top (IntervalMap.ranges es)) (hlo : lo < hi) (hcur : lo ≤ cur) (hb : hi ≤ b.length) :
    ∃ b',zeroFillFrom lo hi cur es b = some b' ∧
      Patched (fun i => (cur ≤ i ∧ i < hi) ∧ ∀ e ∈ es,¬e.range.Covers i) (replicate hi 0) b b' := by
  induction es generalizing a cur b with
  | nil =>
    obtain ⟨b',h,hp⟩ := fill_patched b cur le_rfl hb
    exact ⟨b',h,hp.congr fun i => by simp⟩
  | cons e es ih =>
    obtain ⟨-,hlt,hrest⟩ := hes
    have hafter : ∀ i < e.range.stop,∀ e' ∈ es,¬e'.range.Covers i := fun i hi e' he' hc =>
      absurd (hrest.bounds _ (mem_map_of_mem he')).1 (not_le.mpr (hc.1.trans_lt hi))
    simp only [forall_mem_cons]
    rw [zeroFillFrom]
    by_cases hbelow : e.range.stop ≤ lo
    · obtain ⟨b',h,hp⟩ := ih hrest hcur hb
      rw [if_pos hbelow]
      refine ⟨b',h,hp.congr fun i => and_congr_right fun hi => (and_iff_right fun hc => ?_).symm⟩
      exact absurd hc.2 (by omega)
    rw [if_neg hbelow]
    by_cases habove : hi ≤ e.range.start
    · obtain ⟨b',h,hp⟩ := fill_patched b cur le_rfl hb
      rw [if_pos habove]
      refine ⟨b',h,hp.congr fun i => (and_iff_left_of_imp fun hi => ⟨fun hc => ?_,?_⟩).symm⟩
      · exact absurd hc.1 (by omega)
      · exact hafter i (by omega)
    · have hs : max e.range.start lo ≤ hi := by omega
      have hcur' : lo ≤ max cur (min e.range.stop hi) := by omega
      obtain ⟨b₁,h₁,hp₁⟩ := fill_patched b cur hs hb
      obtain ⟨b₂,h₂,hp₂⟩ := ih hrest hcur' (hp₁.length ▸ hb)
      rw [if_neg habove]
      refine ⟨b₂,(congrArg (Option.bind · _) h₁).trans h₂,(hp₁.trans hp₂).congr fun i => ?_⟩
      unfold Covers at hafter ⊢
      constructor
      · rintro (hi | ⟨hi,hes⟩)
        · exact ⟨by omega,by omega,hafter i (by omega)⟩
        · exact ⟨by omega,by omega,hes⟩
      · rintro ⟨hi,hc,hes⟩
        by_cases hbefore : i < max e.range.start lo
        · exact .inl ⟨hi.1,hbefore⟩
        · exact .inr ⟨by omega,hes⟩

end Bytes

/-- What a full write of `data` leaves of a blob: the entries above it with their bytes, its own bytes
below its length and zeros behind. -/
structure Reconciled (b data : Bytes) (m : IntervalMap) (c : Stamp) (b' : Bytes) (m' : IntervalMap) :
    Prop where
  length : b'.length = max data.length ((m.prune c).foldl (fun n e => max n e.range.stop) 0)
  kept : ∀ e ∈ m.prune c,∀ i,e.range.Covers i → b'[i]? = b[i]?
  written : ∀ i < data.length,(∀ e ∈ m.prune c,¬e.range.Covers i) → b'[i]? = data[i]?
  zeroed : ∀ i < b'.length,data.length ≤ i → (∀ e ∈ m.prune c,¬e.range.Covers i) → b'[i]? = some 0
  entries : m' = m.prune c

/-- Under the entries at the write's own stamp, which it does not win, the value agrees with the blob. -/
def TiesAgree (b data : Bytes) (m : IntervalMap) (c : Stamp) : Prop :=
  ∀ e ∈ m,e.stamp = c → ∀ i < data.length,e.range.Covers i → b[i]? = data[i]?

def resized (b : Bytes) (n : ℕ) : Bytes := b.take n++replicate (n-b.length) 0

section Reconcile

open IntervalMap

variable {b data : Bytes} {m : IntervalMap} {rc c : Stamp} {n : ℕ}

theorem length_resized (b : Bytes) (n : ℕ) : (resized b n).length = n := by
  simp [resized]
  omega

theorem reconciled (data : Bytes) (hm : WellFormed b.length m) (hdom : rc < c)
    (hn : n = max data.length ((m.prune c).foldl (fun n e => max n e.range.stop) 0)) :
    ∃ b',((zeroFillUncovered (resized b n) (m.prune c) data.length n).bind fun b =>
        writeWon data 0 b ((m.clip n).apply 0 data.length c rc).2) = some b' ∧
      (Reconciled b data m c b' (((m.clip n).apply 0 data.length c rc).1.prune c) ↔
        TiesAgree b data m c) := by
  have hlen : data.length ≤ n := hn ▸ le_max_left _ _
  have hend : ∀ e ∈ m.prune c,e.range.stop ≤ n := fun e he =>
    ((le_foldl_max (fun e : IntervalEntry => e.range.stop) _ 0).2 e he).trans (hn ▸ le_max_right _ _)
  have hclip := hm.clip n
  obtain ⟨⟨top,hasc⟩,hj,⟨top',hwon⟩,hpoint⟩ :=
    apply_spec (c := c) hclip.ascending hclip.joined (fun _ _ => .inr hdom) 0 data.length
  generalize IntervalMap.apply (m.clip n) 0 data.length c rc = r at *
  have hstamp : ∀ {e},e ∈ m → ∀ {i},e.range.Covers i → stampIn m i = e.stamp := fun he _ hc =>
    (stampIn_eq_iff hm.ascending).mpr ⟨_,he,hc,rfl⟩
  have hraised : ∀ i,(∃ w ∈ r.2,w.Covers i) ↔
      i < data.length ∧ ∀ e ∈ m,e.range.Covers i → e.stamp < c := by
    intro i
    rw [(hpoint i).2,IntervalMap.written]
    by_cases hi : i < data.length
    · rw [if_pos ⟨Nat.zero_le i,hi,hdom⟩,lt_max_iff,stampIn_clip,if_pos (hi.trans_le hlen)]
      simp only [lt_irrefl,false_or,hi,true_and]
      constructor
      · intro hlt e he hc
        rw [hstamp he hc] at hlt
        exact WithBot.coe_lt_coe.mp hlt
      · intro hbelow
        cases hs : stampIn m i with
        | bot => exact WithBot.bot_lt_coe c
        | coe s =>
          obtain ⟨e,he,hc,rfl⟩ := (stampIn_eq_iff hm.ascending).mp hs
          exact WithBot.coe_lt_coe.mpr (hbelow e he hc)
    · rw [if_neg fun h => hi h.2.1]
      simp [hi]
  have hzero : ∃ b₂,zeroFillUncovered (resized b n) (m.prune c) data.length n = some b₂ ∧
      Patched (fun i => (data.length ≤ i ∧ i < n) ∧ ∀ e ∈ m.prune c,¬e.range.Covers i)
        (replicate n 0) (resized b n) b₂ := by
    unfold zeroFillUncovered
    split_ifs with hle
    · exact ⟨_,rfl,rfl,fun i hi => by omega,fun _ _ => rfl⟩
    · exact zeroFillFrom_patched (hm.prune c).ascending (not_le.mp hle) le_rfl (length_resized b n).ge
  obtain ⟨b₂,h₂,hp₂⟩ := hzero
  have hin : ∀ w ∈ r.2,w.start ≤ w.stop ∧ w.stop ≤ data.length := by
    intro w hw
    have hlt := hwon.nonempty w hw
    have := ((hraised (w.stop-1)).mp ⟨w,hw,Nat.le_sub_one_of_lt hlt,by omega⟩).1
    exact ⟨hlt.le,by omega⟩
  have hfit : data.length ≤ b₂.length := by rwa [hp₂.length,length_resized]
  obtain ⟨b₃,h₃,hp₃⟩ := writeWon_patched hfit hin
  -- A byte under an entry that is not below the write is as it was, and no other entry is over it.
  have hstays : ∀ e ∈ m,c ≤ e.stamp → ∀ i < n,e.range.Covers i → (c < e.stamp ∨ i < data.length) →
      b₃[i]? = b[i]? := by
    intro e he hle i hi hc hcase
    rw [hp₃.outside i fun hw => absurd (((hraised i).mp hw).2 e he hc) hle.not_gt,
      hp₂.outside i fun h => ?_]
    · have hi' := (hm.ascending.bounds _ (mem_map_of_mem he)).2
      unfold Covers at hc
      rw [resized,getElem?_append_left (by simp; omega),getElem?_take,if_pos hi]
    · exact hcase.elim (fun hlt => h.2 e (mem_prune.mpr ⟨he,hlt⟩) hc) fun hlt => absurd h.1.1 hlt.not_ge
  have htied : ∀ e ∈ m,e.stamp = c → ∀ i < data.length,e.range.Covers i → b₃[i]? = b[i]? :=
    fun e he heq i hi hc => hstays e he heq.ge i (hi.trans_le hlen) hc (.inr hi)
  refine ⟨b₃,by rw [h₂]; exact h₃,fun h e he heq i hi hc => ?_,fun hties => ⟨?_,?_,?_,?_,?_⟩⟩
  · rw [← htied e he heq i hi hc]
    refine h.written i hi fun e' he' hc' => ?_
    have hsame := (hstamp he hc).symm.trans (hstamp (mem_prune.mp he').1 hc')
    exact (mem_prune.mp he').2.ne (heq.symm.trans (WithBot.coe_inj.mp hsame))
  · rw [hp₃.length,hp₂.length,length_resized,hn]
  · intro e he i hc
    exact hstays e (mem_prune.mp he).1 (mem_prune.mp he).2.le i (hc.2.trans_le (hend e he)) hc
      (.inl (mem_prune.mp he).2)
  · intro i hi hfree
    by_cases hbelow : ∀ e ∈ m,e.range.Covers i → e.stamp < c
    · exact hp₃.inside i ((hraised i).mpr ⟨hi,hbelow⟩)
    · push Not at hbelow
      obtain ⟨e,he,hc,hle⟩ := hbelow
      have heq : e.stamp = c := (hle.eq_of_not_lt fun hlt => hfree e (mem_prune.mpr ⟨he,hlt⟩) hc).symm
      rw [htied e he heq i hi hc]
      exact hties e he heq i hi hc
  · intro i hi hge hfree
    have hi : i < n := by rwa [hp₃.length,hp₂.length,length_resized] at hi
    rw [hp₃.outside i fun hw => absurd ((hraised i).mp hw).1 (not_lt.mpr hge),
      hp₂.inside i ⟨⟨hge,hi⟩,hfree⟩,getElem?_replicate,if_pos hi]
  · refine eq_of_stampIn (WellFormed.prune ⟨hasc,hj⟩ c).ascending (WellFormed.prune ⟨hasc,hj⟩ c).joined
      (hm.prune c).ascending (hm.prune c).joined fun i _ => ?_
    rw [stampIn_prune ⟨hasc,hj⟩,stampIn_prune hm,(hpoint i).1,IntervalMap.written,stampIn_clip]
    by_cases hx : (c : WithBot Stamp) < stampIn m i
    · have hi : i < n := by
        obtain ⟨s,hs⟩ := WithBot.ne_bot_iff_exists.mp (bot_le.trans_lt hx).ne'
        obtain ⟨e,he,hc,rfl⟩ := (stampIn_eq_iff hm.ascending).mp hs.symm
        exact hc.2.trans_le (hend e (mem_prune.mpr ⟨he,WithBot.coe_lt_coe.mp (hs ▸ hx)⟩))
      rw [if_pos hi,max_eq_left hx.le,ite_self,if_pos hx]
    · have hle : (if i < n then stampIn m i else ⊥) ≤ c := by
        split_ifs
        · exact not_lt.mp hx
        · exact bot_le
      generalize (if i < n then stampIn m i else ⊥) = y at hle ⊢
      rw [if_neg hx,max_eq_right hle,if_neg]
      split_ifs
      · exact lt_irrefl _
      · exact hle.not_gt

variable {tab : Table} {rows : Rows} {k : RowKey} {row : Row} {col : ColumnID}

theorem resize_eq (hrow : rows.lookup k = some row) (hb : blobBytes (row col) = some b) (n : ℕ) :
    (if n < b.length then shrinkBlobColumn tab rows k col n
      else if b.length < n then ensureBlobLen tab rows k col n else pure rows) =
      if n = b.length then .ok rows
      else storeRow tab rows k (Function.update row col (withBytes (row col) (resized b n))) := by
  have hmap : ∀ r : Result Rows,(r.map fun rows' => (rows',1)).map Prod.fst = r := by
    intro r
    cases r <;> rfl
  rcases lt_trichotomy n b.length with hlt | heq | hgt
  · rw [if_pos hlt,if_neg hlt.ne,shrinkBlobColumn,resized,Nat.sub_eq_zero_of_le hlt.le]
    simp only [hrow,hb,updateRow,replicate_zero,append_nil]
    exact hmap _
  · simp [heq]
    rfl
  · rw [if_neg hgt.not_gt,if_pos hgt,if_neg hgt.ne',ensureBlobLen,resized,take_of_length_le hgt.le]
    cases hv : row col with
    | text z | blob z =>
      rw [hv] at hb
      cases hb
      simp only [hrow,hv,blobLength,blobBytes,Option.getD_some,hgt,if_true,updateRow]
      exact hmap _
    | _ => simp [hv,blobBytes] at hb

theorem withBytes_self {v : SqlValue} (h : blobBytes v = some b) (b' : Bytes) :
    withBytes v b = v ∧ blobBytes (withBytes v b') = some b' ∧
      ∀ b'',withBytes (withBytes v b') b'' = withBytes v b'' := by
  cases v with
  | text z | blob z =>
    cases h
    exact ⟨rfl,rfl,fun _ => rfl⟩
  | _ => cases h

end Reconcile

namespace ReconcileSample

def table : Table := ⟨1,[⟨1,0,false,false,true,.null,.binary⟩],[],false,false⟩

def stampAt (n : ℤ) : Stamp := ⟨⟨n,0⟩,1⟩

def rows (b : Bytes) : Rows := Finmap.singleton ⟨1,[]⟩ fun _ => .blob b

/-- A full write at time 3 of a blob that has one patch. -/
def write (b data : Bytes) (m : IntervalMap) : Result (Rows × IntervalMap) :=
  reconcileBlobColumn table (rows b) ⟨1,[]⟩ 1 data m Stamp.zero (stampAt 3)

end ReconcileSample

end Syzy
