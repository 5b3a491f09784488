import Syzy.Interval
import Mathlib.Data.List.Induction
import Mathlib.Order.Bounds.Basic
import Mathlib.Order.WithBot

/-!
An interval map is last-writer-wins at every byte, and its entries are the only ones in order, apart and
joined where they can be that say so.
-/

namespace Syzy

open List IntervalMap

namespace ByteRange

def Covers (r : ByteRange) (off : ℕ) : Prop := r.start ≤ off ∧ off < r.stop

instance (r : ByteRange) (off : ℕ) : Decidable (r.Covers off) := inferInstanceAs (Decidable (_ ∧ _))

/-- Ranges from `lo` to `hi`, none empty, each behind the one before it. -/
def Ascending : ℕ → ℕ → List ByteRange → Prop
  | lo,hi,[] => lo ≤ hi
  | lo,hi,r::rs => lo ≤ r.start ∧ r.start < r.stop ∧ Ascending r.stop hi rs

variable {a b c : ℕ} {rs rs' : List ByteRange}

theorem Ascending.le (h : Ascending a b rs) : a ≤ b := by
  induction rs generalizing a with
  | nil => exact h
  | cons r rs ih => exact h.1.trans (h.2.1.le.trans (ih h.2.2))

theorem Ascending.mono (h : Ascending b c rs) (hle : a ≤ b) : Ascending a c rs := by
  cases rs with
  | nil => exact hle.trans h
  | cons r rs => exact ⟨hle.trans h.1,h.2⟩

section

variable (h : Ascending a b rs)
include h

theorem Ascending.append (h' : Ascending b c rs') : Ascending a c (rs++rs') := by
  induction rs generalizing a with
  | nil => exact h'.mono h
  | cons r rs ih => exact ⟨h.1,h.2.1,ih h.2.2⟩

theorem Ascending.widen (hle : b ≤ c) : Ascending a c rs := by
  simpa using h.append (show Ascending b c [] from hle)

theorem Ascending.bounds : ∀ r ∈ rs,a ≤ r.start ∧ r.stop ≤ b := by
  induction rs generalizing a with
  | nil => exact by simp
  | cons q rs ih =>
    intro r hr
    rcases mem_cons.mp hr with rfl | hr
    · exact ⟨h.1,h.2.2.le⟩
    · obtain ⟨hq,hlt,hrest⟩ := h
      have hbounds := ih hrest r hr
      exact ⟨by omega,hbounds.2⟩

theorem Ascending.nonempty : ∀ r ∈ rs,r.start < r.stop := by
  induction rs generalizing a with
  | nil => exact by simp
  | cons q rs ih => exact forall_mem_cons.mpr ⟨h.2.1,ih h.2.2⟩

end

theorem Ascending.split (h : Ascending a c (rs++rs')) (hle : a ≤ b) (hrs : ∀ r ∈ rs,r.stop ≤ b) :
    ∃ d ≤ b,Ascending a d rs ∧ Ascending d c rs' := by
  induction rs generalizing a with
  | nil => exact ⟨a,hle,le_refl a,h⟩
  | cons r rs ih =>
    obtain ⟨d,hd,hleft,hright⟩ := ih h.2.2 (hrs r (by simp)) fun q hq => hrs q (by simp [hq])
    exact ⟨d,hd,⟨h.1,h.2.1,hleft⟩,hright⟩

end ByteRange

open ByteRange

namespace IntervalMap

def stampIn : List IntervalEntry → ℕ → WithBot Stamp
  | [],_ => ⊥
  | e::es,off => if e.range.Covers off then e.stamp else stampIn es off

def ranges (l : List IntervalEntry) : List ByteRange := l.map IntervalEntry.range

variable {a b d stop cur : ℕ} {c baseline s : Stamp} {old new : ℕ → WithBot Stamp} {p q : Piece}
  {l l' m : List IntervalEntry} {e : IntervalEntry} {off : ℕ}

theorem stampIn_append (l l' : List IntervalEntry) (off : ℕ) :
    stampIn (l++l') off = if stampIn l off = ⊥ then stampIn l' off else stampIn l off := by
  induction l with
  | nil => simp [stampIn]
  | cons e l ih =>
    by_cases he : e.range.Covers off
    · simp [stampIn,he]
    · simp [stampIn,he,ih]

theorem stampIn_outside (h : Ascending a b (ranges l)) (hoff : off < a ∨ b ≤ off) :
    stampIn l off = ⊥ := by
  induction l generalizing a with
  | nil => rfl
  | cons e l ih =>
    obtain ⟨hle,hlt,hrest⟩ := h
    have hend := hrest.le
    have hnot : ¬e.range.Covers off := fun hc => by unfold Covers at hc; omega
    rw [stampIn,if_neg hnot]
    exact ih hrest (by omega)

theorem stampAt_eq (h : Ascending a b (ranges m)) :
    stampAt m off = (stampIn m off).unbotD Stamp.zero := by
  induction m generalizing a with
  | nil => rfl
  | cons e m ih =>
    obtain ⟨hle,hlt,hrest⟩ := h
    by_cases hstart : e.range.start ≤ off
    · have hlast : stampAt (e::m) off = if (m.takeWhile fun e => e.range.start ≤ off) = [] then
            if off < e.range.stop then e.stamp else Stamp.zero
          else stampAt m off := by
        unfold stampAt predecessor
        rw [takeWhile_cons_of_pos (by simpa using hstart)]
        cases m.takeWhile fun e => e.range.start ≤ off <;> simp [getLast?_cons_cons]
      rw [hlast,stampIn]
      cases m with
      | nil => by_cases hstop : off < e.range.stop <;> simp [Covers,hstart,hstop,stampIn]
      | cons e' m =>
        by_cases hnext : e'.range.start ≤ off
        · have hnot : ¬e.range.Covers off := fun hc => absurd hc.2 (by have := hrest.1; omega)
          rw [if_neg (by simp [hnext]),if_neg hnot]
          exact ih hrest
        · have hout : stampIn (e'::m) off = ⊥ :=
            stampIn_outside (a := e'.range.start) ⟨le_rfl,hrest.2⟩ (.inl (not_le.mp hnext))
          rw [if_pos (by simp [hnext]),hout]
          by_cases hstop : off < e.range.stop <;> simp [Covers,hstart,hstop]
    · have hout : stampIn (e::m) off = ⊥ :=
        stampIn_outside (a := e.range.start) ⟨le_rfl,hlt,hrest⟩ (.inl (not_le.mp hstart))
      unfold stampAt predecessor
      rw [hout,takeWhile_cons_of_neg (by simpa using hstart)]
      rfl

/-- One stretch of bytes of an `apply`: what it puts out and what it wins. -/
structure Stretch (a b : ℕ) (p : Piece) (old new : ℕ → WithBot Stamp) : Prop where
  entries : Ascending a b (ranges p.1)
  won : Ascending a b p.2
  stamps : ∀ off,a ≤ off → off < b → stampIn p.1 off = new off
  raised : ∀ off,a ≤ off → off < b → ((∃ r ∈ p.2,r.Covers off) ↔ old off < new off)

theorem Stretch.append (h : Stretch a b p old new) (h' : Stretch b d q old new) :
    Stretch a d (p.append q) old new where
  entries := by
    unfold ranges Piece.append
    rw [map_append]
    exact h.entries.append h'.entries
  won := h.won.append h'.won
  stamps off hle hlt := by
    rw [Piece.append,stampIn_append]
    by_cases hb : off < b
    · rw [stampIn_outside h'.entries (.inl hb),h.stamps off hle hb]
      split_ifs with hbot
      · exact hbot.symm
      · rfl
    · rw [stampIn_outside h.entries (.inr (not_lt.mp hb)),if_pos rfl]
      exact h'.stamps off (not_lt.mp hb) hlt
  raised off hle hlt := by
    have hp := h.won.bounds
    have hq := h'.won.bounds
    rw [Piece.append]
    simp only [mem_append]
    by_cases hb : off < b
    · rw [← h.raised off hle hb]
      exact ⟨fun ⟨r,hr,hc⟩ => ⟨r,hr.resolve_right fun hr => (by
        have hr := hq r hr; unfold Covers at hc; omega),hc⟩,fun ⟨r,hr,hc⟩ => ⟨r,.inl hr,hc⟩⟩
    · rw [← h'.raised off (not_lt.mp hb) hlt]
      exact ⟨fun ⟨r,hr,hc⟩ => ⟨r,hr.resolve_left fun hr => (by
        have hr := hp r hr; unfold Covers at hc; omega),hc⟩,fun ⟨r,hr,hc⟩ => ⟨r,.inr hr,hc⟩⟩

theorem Stretch.kept (hl : Ascending a b (ranges l))
    (h : ∀ off,a ≤ off → off < b → old off = stampIn l off ∧ new off = old off) :
    Stretch a b (l,[]) old new :=
  ⟨hl,hl.le,fun off ha hb => by rw [(h off ha hb).2,(h off ha hb).1],
    fun off ha hb => by simp [(h off ha hb).2]⟩

theorem Stretch.skip (hle : a ≤ b) (h : ∀ off,a ≤ off → off < b → old off = ⊥ ∧ new off = old off) :
    Stretch a b ([],[]) old new := .kept hle h

theorem Stretch.emit (hlt : a < b) (h : ∀ off,a ≤ off → off < b → old off = s ∧ new off = old off) :
    Stretch a b (emit a b s) old new :=
  .kept ⟨le_rfl,hlt,le_refl b⟩ fun off ha hb =>
    ⟨(h off ha hb).1.trans (if_pos ⟨ha,hb⟩).symm,(h off ha hb).2⟩

theorem Stretch.congr {old' new' : ℕ → WithBot Stamp} (h : Stretch a b p old' new')
    (heq : ∀ off,a ≤ off → off < b → old off = old' off ∧ new off = new' off) :
    Stretch a b p old new :=
  ⟨h.entries,h.won,fun off ha hb => by rw [(heq off ha hb).2,h.stamps off ha hb],
    fun off ha hb => by rw [(heq off ha hb).1,(heq off ha hb).2,h.raised off ha hb]⟩

theorem Stretch.claim (hlt : a < b) (h : ∀ off,a ≤ off → off < b → old off < c ∧ new off = c) :
    Stretch a b (claim a b c) old new :=
  ⟨⟨le_rfl,hlt,le_refl b⟩,⟨le_rfl,hlt,le_refl b⟩,fun off ha hb => by
    rw [(h off ha hb).2]; exact if_pos ⟨ha,hb⟩,fun off ha hb => by
    obtain ⟨hold,hnew⟩ := h off ha hb
    rw [hnew]
    exact ⟨fun _ => hold,fun _ => ⟨⟨a,b⟩,mem_singleton.mpr rfl,ha,hb⟩⟩⟩

def written (cur stop : ℕ) (c baseline : Stamp) (old : ℕ → WithBot Stamp) (off : ℕ) : WithBot Stamp :=
  if cur ≤ off ∧ off < stop ∧ baseline < c then max (old off) c else old off

theorem Stretch.gap
    (h : ∀ off,a ≤ off → off < b → old off = ⊥ ∧ new off = if baseline < c then ↑c else ⊥) :
    Stretch a (max a b) (gap a b c baseline) old new := by
  unfold IntervalMap.gap
  simp only [Stamp.dominates_iff]
  split_ifs with hcond
  · rw [max_eq_right hcond.1.le]
    refine .claim hcond.1 fun off ha hb => ?_
    obtain ⟨hold,hnew⟩ := h off ha hb
    rw [hold,hnew,if_pos hcond.2]
    exact ⟨WithBot.bot_lt_coe c,rfl⟩
  · refine .skip (le_max_left _ _) fun off ha hb => ?_
    obtain ⟨hold,hnew⟩ := h off ha (by omega)
    rw [if_neg fun hc => hcond ⟨by omega,hc⟩] at hnew
    exact ⟨hold,hnew.trans hold.symm⟩

theorem Stretch.overlap (he : baseline < e.stamp ∨ baseline < c)
    (h : ∀ off,a ≤ off → off < b → old off = e.stamp ∧
      new off = if baseline < c then max ↑e.stamp ↑c else ↑e.stamp) :
    Stretch a (max a b) (overlap a b c e) old new := by
  unfold IntervalMap.overlap
  simp only [Stamp.dominates_iff]
  split_ifs with hlt hdom
  · rw [max_eq_right hlt.le]
    refine .claim hlt fun off ha hb => ?_
    obtain ⟨hold,hnew⟩ := h off ha hb
    rw [hold,hnew,if_pos (he.elim (·.trans hdom) id),max_eq_right (WithBot.coe_le_coe.mpr hdom.le)]
    exact ⟨WithBot.coe_lt_coe.mpr hdom,rfl⟩
  · rw [max_eq_right hlt.le]
    refine .emit hlt fun off ha hb => ?_
    obtain ⟨hold,hnew⟩ := h off ha hb
    rw [max_eq_left (WithBot.coe_le_coe.mpr (not_lt.mp hdom)),ite_self] at hnew
    exact ⟨hold,hnew.trans hold.symm⟩
  · exact .skip (le_max_left _ _) fun off ha hb => by omega

theorem applyFrom_done (h : ∀ e ∈ l,stop ≤ e.range.start) :
    applyFrom stop c baseline stop l = (l,[]) := by
  have hgap : gap stop stop c baseline = ([],[]) := if_neg fun h => h.1.false.elim
  cases l with
  | nil => rw [applyFrom,hgap]
  | cons e l =>
    rw [applyFrom,if_neg (not_lt.mpr (h e mem_cons_self)),hgap]
    rfl

theorem applyFrom_stretch {top : ℕ} (hl : Ascending a top (ranges l)) (hcur : a ≤ cur)
    (hstop : cur ≤ stop) (htop : stop ≤ top) (hhead : ∀ e ∈ l.head?,cur < e.range.stop)
    (habove : ∀ e ∈ l,baseline < e.stamp ∨ baseline < c) :
    Stretch a top (applyFrom stop c baseline cur l) (stampIn l)
      (written cur stop c baseline (stampIn l)) := by
  induction l generalizing a cur with
  | nil =>
    generalize hnew : written cur stop c baseline (stampIn []) = new
    have hskip : Stretch a cur ([],[]) (stampIn []) new := .skip hcur fun off _ hb =>
      ⟨rfl,hnew ▸ if_neg fun h => absurd h.1 (by omega)⟩
    have hgap : Stretch cur (max cur stop) (gap cur stop c baseline) (stampIn []) new :=
      .gap fun off ha hb => ⟨rfl,by simp [← hnew,written,stampIn,ha,hb]⟩
    have hend : Stretch stop top ([],[]) (stampIn []) new := .skip htop fun off ha _ =>
      ⟨rfl,hnew ▸ if_neg fun h => absurd h.2.1 (by omega)⟩
    rw [max_eq_right hstop] at hgap
    have hall := (hskip.append hgap).append hend
    rw [applyFrom]
    simpa [Piece.append] using hall
  | cons e l ih =>
    obtain ⟨hle,hlt,hrest⟩ := hl
    have hcure : cur < e.range.stop := hhead e rfl
    have hold : ∀ off,off < e.range.stop →
        stampIn (e::l) off = if e.range.start ≤ off then ↑e.stamp else ⊥ := by
      intro off hoff
      rw [stampIn,stampIn_outside hrest (.inl hoff)]
      simp [Covers,hoff]
    have hbehind : ∀ off,e.range.stop ≤ off → stampIn (e::l) off = stampIn l off :=
      fun off hoff => if_neg fun hc => absurd hc.2 (by omega)
    generalize hnew : written cur stop c baseline (stampIn (e::l)) = new
    have hbefore : ∀ off,off < cur ∨ stop ≤ off → new off = stampIn (e::l) off := by
      intro off hoff
      rw [← hnew]
      exact if_neg (by omega)
    have hwithin : ∀ off,cur ≤ off → off < stop →
        new off = if baseline < c then max (stampIn (e::l) off) c else stampIn (e::l) off := by
      intro off ha hb
      rw [← hnew]
      simp [written,ha,hb]
    have hgap : ∀ gapEnd,gapEnd ≤ e.range.start → gapEnd ≤ stop →
        Stretch cur (max cur gapEnd) (gap cur gapEnd c baseline) (stampIn (e::l)) new := by
      intro gapEnd hstart hend
      refine .gap fun off ha hb => ?_
      have hbot : stampIn (e::l) off = ⊥ := by rw [hold off (by omega),if_neg (by omega)]
      rw [hwithin off ha (by omega),hbot]
      simp
    by_cases hes : e.range.start < stop
    · have hpre : Stretch a cur (if e.range.start < cur then emit e.range.start cur e.stamp
          else ([],[])) (stampIn (e::l)) new := by
        split_ifs with hlow
        · exact (Stretch.skip hle fun off _ hb => ⟨by
            rw [hold off (by omega),if_neg (by omega)],hbefore off (by omega)⟩).append
            (.emit hlow fun off ha hb => ⟨by rw [hold off (by omega),if_pos ha],hbefore off (.inl hb)⟩)
        · exact .skip hcur fun off _ hb =>
            ⟨by rw [hold off (by omega),if_neg (by omega)],hbefore off (.inl hb)⟩
      have hover : Stretch (max cur (min e.range.start stop)) (max (max cur (min e.range.start stop))
          (min e.range.stop stop)) (overlap (max cur (min e.range.start stop))
          (min e.range.stop stop) c e) (stampIn (e::l)) new := by
        refine .overlap (habove e mem_cons_self) fun off ha hb => ?_
        have hin : stampIn (e::l) off = e.stamp := by rw [hold off (by omega),if_pos (by omega)]
        rw [hwithin off (by omega) (by omega),hin]
        exact ⟨rfl,rfl⟩
      have hpost : Stretch (max (max cur (min e.range.start stop)) (min e.range.stop stop)) e.range.stop
          (if stop < e.range.stop then emit stop e.range.stop e.stamp else ([],[]))
          (stampIn (e::l)) new := by
        split_ifs with hhigh
        · rw [show max (max cur (min e.range.start stop)) (min e.range.stop stop) = stop by omega]
          exact .emit hhigh fun off ha hb =>
            ⟨by rw [hold off hb,if_pos (by omega)],hbefore off (.inr ha)⟩
        · exact .skip (by omega) fun off ha hb => by omega
      have hlater : Stretch e.range.stop top (applyFrom stop c baseline
          (max (max cur (min e.range.start stop)) (min e.range.stop stop)) l) (stampIn (e::l)) new := by
        by_cases hhigh : stop < e.range.stop
        · rw [show max (max cur (min e.range.start stop)) (min e.range.stop stop) = stop by omega,
            applyFrom_done fun e' he' => by
              have hb := (hrest.bounds e'.range (mem_map_of_mem he')).1
              omega]
          exact .kept hrest fun off ha _ => ⟨hbehind off ha,hbefore off (by omega)⟩
        · rw [show max (max cur (min e.range.start stop)) (min e.range.stop stop) = e.range.stop by omega]
          refine (ih hrest le_rfl (by omega) (fun e' he' => ?_)
            fun e' he' => habove e' (mem_cons_of_mem _ he')).congr fun off ha hb => ?_
          · obtain ⟨l',rfl⟩ := head?_eq_some_iff.mp he'
            exact hrest.1.trans_lt hrest.2.1
          · rw [← hnew]
            have hpast : cur ≤ off := by omega
            simp only [written,hbehind off ha,ha,hpast,true_and,and_self]
      rw [applyFrom,if_pos hes]
      exact hpre.append ((hgap _ (min_le_left _ _) (min_le_right _ _)).append
        (hover.append (hpost.append hlater)))
    · have hskip : Stretch a cur ([],[]) (stampIn (e::l)) new := .skip hcur fun off _ hb =>
        ⟨by rw [hold off (by omega),if_neg (by omega)],hbefore off (.inl hb)⟩
      have hkept : Stretch stop top (e::l,[]) (stampIn (e::l)) new :=
        .kept ⟨not_lt.mp hes,hlt,hrest⟩ fun off ha _ => ⟨rfl,hbefore off (.inr ha)⟩
      have hfill := hgap stop (not_lt.mp hes) le_rfl
      rw [max_eq_right hstop] at hfill
      rw [applyFrom,if_neg hes]
      exact hskip.append (hfill.append hkept)

def Joined : List IntervalEntry → Prop
  | e::e'::l => ¬(e.range.stop = e'.range.start ∧ e.stamp = e'.stamp) ∧ Joined (e'::l)
  | _ => True

theorem coalesceFrom_spec (h : Ascending a b (ranges (e::l))) :
    Ascending a b (ranges (coalesceFrom e l)) ∧ Joined (coalesceFrom e l) ∧
      (∀ off,stampIn (coalesceFrom e l) off = stampIn (e::l) off) ∧
      ∃ r l',coalesceFrom e l = ⟨r,e.stamp⟩::l' ∧ r.start = e.range.start := by
  induction l generalizing e a with
  | nil => exact ⟨h,trivial,fun _ => rfl,e.range,[],rfl,rfl⟩
  | cons e' l ih =>
    obtain ⟨hle,hlt,hle',hlt',hrest⟩ := h
    rw [coalesceFrom]
    split_ifs with hjoin
    · obtain ⟨hstop,hsame⟩ := hjoin
      obtain ⟨hasc,hjoined,hstamp,hhead⟩ := ih (a := a)
        (e := ⟨⟨e.range.start,e'.range.stop⟩,e.stamp⟩) ⟨hle,by dsimp only; omega,hrest⟩
      refine ⟨hasc,hjoined,fun off => ?_,hhead⟩
      have hcov : (⟨e.range.start,e'.range.stop⟩ : ByteRange).Covers off ↔
          e.range.Covers off ∨ e'.range.Covers off := by
        unfold Covers
        dsimp only
        omega
      rw [hstamp]
      by_cases he : e.range.Covers off <;> by_cases he' : e'.range.Covers off <;>
        simp [stampIn,hcov,he,he',hsame]
    · obtain ⟨hasc,hjoined,hstamp,r,l',hhead,hstart⟩ := ih (a := e.range.stop) ⟨hle',hlt',hrest⟩
      refine ⟨⟨hle,hlt,hasc⟩,?_,fun off => ?_,e.range,_,rfl,rfl⟩
      · rw [hhead] at hjoined ⊢
        exact ⟨by rw [hstart]; exact hjoin,hjoined⟩
      · rw [stampIn,hstamp]
        rfl

theorem coalesce_spec (h : Ascending a b (ranges l)) :
    Ascending a b (ranges (coalesce l)) ∧ Joined (coalesce l) ∧
      ∀ off,stampIn (coalesce l) off = stampIn l off := by
  cases l with
  | nil => exact ⟨h,trivial,fun _ => rfl⟩
  | cons e l =>
    obtain ⟨hasc,hjoined,hstamp,-⟩ := coalesceFrom_spec h
    exact ⟨hasc,hjoined,hstamp⟩

theorem stampIn_of_mem (h : Ascending a b (ranges l)) (he : e ∈ l) :
    stampIn l e.range.start = e.stamp := by
  induction l generalizing a with
  | nil => cases he
  | cons e' l ih =>
    obtain ⟨hle,hlt,hrest⟩ := h
    rcases mem_cons.mp he with rfl | he
    · exact if_pos ⟨le_rfl,hlt⟩
    · have hbound := (hrest.bounds e.range (mem_map_of_mem he)).1
      rw [stampIn,if_neg fun hc => absurd hc.2 (not_lt.mpr hbound)]
      exact ih hrest he

theorem exists_of_stampIn (h : stampIn l off = s) : ∃ e ∈ l,e.stamp = s := by
  induction l with
  | nil => exact absurd h WithBot.bot_ne_coe
  | cons e l ih =>
    rw [stampIn] at h
    split_ifs at h
    · exact ⟨e,by simp,WithBot.coe_inj.mp h⟩
    · obtain ⟨e',he',hs⟩ := ih h
      exact ⟨e',mem_cons_of_mem _ he',hs⟩

/-- In order and apart, joined where they can be, each above the baseline. -/
structure Canonical (baseline : Stamp) (m : IntervalMap) : Prop where
  ascending : ∃ top,Ascending 0 top (ranges m)
  joined : Joined m
  above : ∀ e ∈ m,baseline < e.stamp

theorem stampIn_head (h : Ascending a b (ranges (e::l))) (hj : Joined (e::l)) :
    stampIn (e::l) e.range.start = e.stamp ∧ stampIn (e::l) e.range.stop ≠ e.stamp := by
  obtain ⟨hle,hlt,hrest⟩ := h
  refine ⟨if_pos ⟨le_rfl,hlt⟩,?_⟩
  rw [stampIn,if_neg fun hc => hc.2.false.elim]
  cases l with
  | nil => exact WithBot.bot_ne_coe
  | cons e' l =>
    by_cases hnext : e.range.stop = e'.range.start
    · rw [stampIn,if_pos ⟨hnext.ge,by have := hrest.2.1; omega⟩]
      exact fun heq => hj.1 ⟨hnext,(WithBot.coe_inj.mp heq).symm⟩
    · have hout : stampIn (e'::l) e.range.stop = ⊥ := stampIn_outside (a := e'.range.start) (b := b)
        ⟨le_rfl,hrest.2⟩ (.inl (lt_of_le_of_ne hrest.1 hnext))
      rw [hout]
      exact WithBot.bot_ne_coe

theorem stampIn_covered {e' : IntervalEntry} (h : Ascending a b (ranges (e::l)))
    (hoff : stampIn (e::l) off = e'.stamp) : e.range.start ≤ off := by
  by_contra hlt
  have hout : stampIn (e::l) off = ⊥ :=
    stampIn_outside (a := e.range.start) (b := b) ⟨le_rfl,h.2⟩ (.inl (not_le.mp hlt))
  exact WithBot.bot_ne_coe (hout.symm.trans hoff)

theorem eq_of_stampIn {b' : ℕ} (hl : Ascending a b (ranges l)) (hj : Joined l)
    (hl' : Ascending a b' (ranges l')) (hj' : Joined l')
    (h : ∀ off,a ≤ off → stampIn l off = stampIn l' off) : l = l' := by
  induction l generalizing a l' with
  | nil =>
    cases l' with
    | nil => rfl
    | cons e' l' =>
      exact absurd ((h _ hl'.1).trans (stampIn_head hl' hj').1) WithBot.bot_ne_coe
  | cons e l ih =>
    cases l' with
    | nil => exact absurd ((h _ hl.1).symm.trans (stampIn_head hl hj).1) WithBot.bot_ne_coe
    | cons e' l' =>
      have hhead := stampIn_head hl hj
      have hhead' := stampIn_head hl' hj'
      have hstart : e.range.start = e'.range.start :=
        le_antisymm (stampIn_covered hl ((h _ hl'.1).trans hhead'.1))
          (stampIn_covered hl' ((h _ hl.1).symm.trans hhead.1))
      have hstamp : e.stamp = e'.stamp := WithBot.coe_inj.mp
        (hhead.1.symm.trans ((h _ hl.1).trans (by rw [hstart]; exact hhead'.1)))
      obtain ⟨hle,hlt,hrest⟩ := hl
      obtain ⟨hle',hlt',hrest'⟩ := hl'
      have hstop : e.range.stop = e'.range.stop := by
        rcases lt_trichotomy e.range.stop e'.range.stop with hlow | heq | hlow
        · refine absurd ((h _ (by omega)).trans (if_pos ⟨by omega,hlow⟩)) ?_
          rw [← hstamp]
          exact hhead.2
        · exact heq
        · refine absurd ((h _ (by omega)).symm.trans (if_pos ⟨by omega,hlow⟩)) ?_
          rw [hstamp]
          exact hhead'.2
      obtain ⟨⟨start,stop⟩,stamp⟩ := e
      obtain ⟨⟨start',stop'⟩,stamp'⟩ := e'
      subst hstart hstop hstamp
      have hnext : ∀ {l : List IntervalEntry},Joined (⟨⟨start,stop⟩,stamp⟩::l) → Joined l := by
        intro l hj
        cases l with
        | nil => trivial
        | cons _ _ => exact hj.2
      rw [ih hrest (hnext hj) hrest' (hnext hj') fun off hoff => ?_]
      have hnot : ¬(⟨start,stop⟩ : ByteRange).Covers off := fun hc => absurd hc.2 (not_lt.mpr hoff)
      have heq := h off (by dsimp only at hle hlt hoff; omega)
      rwa [stampIn,stampIn,if_neg hnot,if_neg hnot] at heq

/-- What one call leaves, and the bytes it wins. -/
structure Applied (start stop : ℕ) (c baseline : Stamp) (m : IntervalMap)
    (r : IntervalMap × List ByteRange) : Prop where
  ascending : ∃ top,Ascending 0 top (ranges r.1)
  joined : Joined r.1
  won : ∃ top,Ascending 0 top r.2
  point : ∀ off,stampIn r.1 off = written start stop c baseline (stampIn m) off ∧
    ((∃ w ∈ r.2,w.Covers off) ↔ stampIn m off < written start stop c baseline (stampIn m) off)

theorem apply_spec {top : ℕ} (htop : Ascending 0 top (ranges m)) (hj : Joined m)
    (habove : ∀ e ∈ m,baseline < e.stamp ∨ baseline < c) (start stop : ℕ) :
    Applied start stop c baseline m (apply m start stop c baseline) := by
  unfold apply
  split_ifs with hempty
  · have hwritten : ∀ off,written start stop c baseline (stampIn m) off = stampIn m off :=
      fun off => if_neg (by omega)
    exact ⟨⟨top,htop⟩,hj,⟨0,le_refl 0⟩,fun off => ⟨(hwritten off).symm,by simp [hwritten]⟩⟩
  · generalize hpre : (m.takeWhile fun e => e.range.stop ≤ start) = pre
    generalize hpost : (m.dropWhile fun e => e.range.stop ≤ start) = post
    have hm : m = pre++post := by rw [← hpre,← hpost,takeWhile_append_dropWhile]
    have hdone : ∀ r ∈ ranges pre,r.stop ≤ start := by
      intro r hr
      obtain ⟨e,he,rfl⟩ := mem_map.mp hr
      rw [← hpre] at he
      simpa using mem_takeWhile_imp he
    rw [hm,ranges,map_append] at htop
    obtain ⟨d,hd,hleft,hright⟩ := htop.split (Nat.zero_le start) hdone
    have hnew : Stretch d (max top stop) (applyFrom stop c baseline start post) (stampIn post)
        (written start stop c baseline (stampIn post)) := by
      refine applyFrom_stretch (hright.widen (le_max_left top stop)) hd (by omega)
        (le_max_right top stop) (fun e he => ?_) fun e he => habove e ?_
      · have hhead := head?_dropWhile_not (fun e : IntervalEntry => e.range.stop ≤ start) m
        rw [hpost,show post.head? = some e from he] at hhead
        simpa using hhead
      · rw [hm]
        exact mem_append_right _ he
    generalize applyFrom stop c baseline start post = r at hnew
    have hout : ∀ off,top ≤ off → stampIn m off = ⊥ := fun off hoff => by
      rw [hm]
      exact stampIn_outside (by rw [ranges,map_append]; exact htop) (.inr hoff)
    have hleft_eq : ∀ off,off < d → stampIn m off = stampIn pre off := by
      intro off hoff
      rw [hm,stampIn_append,stampIn_outside hright (.inl hoff)]
      split_ifs with hbot
      · exact hbot.symm
      · rfl
    have hright_eq : ∀ off,d ≤ off → stampIn m off = stampIn post off := by
      intro off hoff
      rw [hm,stampIn_append,stampIn_outside hleft (.inr hoff),if_pos rfl]
    have hkept : Stretch 0 d (pre,[]) (stampIn m) (written start stop c baseline (stampIn m)) :=
      .kept hleft fun off _ hb => ⟨hleft_eq off hb,if_neg (by omega)⟩
    have hall := hkept.append (hnew.congr fun off ha _ =>
      ⟨hright_eq off ha,by rw [written,written,hright_eq off ha]⟩)
    obtain ⟨hasc,hjoined,hsame⟩ := coalesce_spec hall.entries
    have hpoint : ∀ off,stampIn (coalesce (pre++r.1)) off = written start stop c baseline (stampIn m) off ∧
        ((∃ w ∈ r.2,w.Covers off) ↔ stampIn m off < written start stop c baseline (stampIn m) off) := by
      intro off
      rw [show stampIn (coalesce (pre++r.1)) off = _ from hsame off]
      by_cases hoff : off < max top stop
      · exact ⟨hall.stamps off (Nat.zero_le off) hoff,hall.raised off (Nat.zero_le off) hoff⟩
      · have hsame : written start stop c baseline (stampIn m) off = stampIn m off := if_neg (by omega)
        rw [hsame,stampIn_outside hall.entries (.inr (not_lt.mp hoff)),hout off (by omega)]
        refine ⟨rfl,fun ⟨w,hw,hc⟩ => ?_,fun h => h.false.elim⟩
        have hbound := (hnew.won.bounds w hw).2
        unfold Covers at hc
        omega
    exact ⟨⟨_,hasc⟩,hjoined,⟨_,hall.won⟩,hpoint⟩

theorem Canonical.apply {m : IntervalMap} (h : Canonical baseline m) (start stop : ℕ) (c : Stamp) :
    Canonical baseline (m.apply start stop c baseline).1 ∧
      Applied start stop c baseline m (m.apply start stop c baseline) := by
  obtain ⟨top,htop⟩ := h.ascending
  have hr := apply_spec htop h.joined (fun e he => .inl (h.above e he)) start stop (c := c)
  obtain ⟨top',hasc⟩ := hr.ascending
  refine ⟨⟨⟨top',hasc⟩,hr.joined,fun e he => ?_⟩,hr⟩
  have hstamp := (hr.point e.range.start).1.symm.trans (stampIn_of_mem hasc he)
  unfold written at hstamp
  split_ifs at hstamp with hcond
  · exact WithBot.coe_lt_coe.mp (lt_of_lt_of_le (WithBot.coe_lt_coe.mpr hcond.2.2)
      ((le_max_right _ _).trans_eq hstamp))
  · obtain ⟨e',he',heq⟩ := exists_of_stampIn hstamp
    rw [← heq]
    exact h.above e' he'

structure Write where
  start : ℕ
  stop : ℕ
  stamp : Stamp
deriving DecidableEq

def applyAll (baseline : Stamp) (ws : List Write) : IntervalMap :=
  ws.foldl (fun m w => (m.apply w.start w.stop w.stamp baseline).1) []

/-- The stamps above the baseline that calls wrote over a byte. -/
def writtenTo (baseline : Stamp) (ws : List Write) (off : ℕ) : Set (WithBot Stamp) :=
  { s | ∃ w ∈ ws,w.start ≤ off ∧ off < w.stop ∧ baseline < w.stamp ∧ s = w.stamp }

theorem applyAll_spec (baseline : Stamp) (ws : List Write) :
    Canonical baseline (applyAll baseline ws) ∧
      ∀ off,IsGreatest (insert ⊥ (writtenTo baseline ws off)) (stampIn (applyAll baseline ws) off) := by
  induction ws using reverseRecOn with
  | nil =>
    refine ⟨⟨⟨0,le_refl 0⟩,trivial,fun e he => absurd he not_mem_nil⟩,fun off => ?_⟩
    exact ⟨.inl rfl,fun s hs => hs.elim (·.le) fun ⟨w,hw,_⟩ => absurd hw not_mem_nil⟩
  | append_singleton ws w ih =>
    obtain ⟨hcanon,hgreatest⟩ := ih
    obtain ⟨hcanon',-,-,-,hpoint⟩ := hcanon.apply w.start w.stop w.stamp
    unfold applyAll at hcanon' hpoint ⊢
    rw [foldl_append]
    refine ⟨hcanon',fun off => ?_⟩
    rw [foldl_cons,foldl_nil,(hpoint off).1]
    obtain ⟨hmem,hupper⟩ := hgreatest off
    have hold : ∀ s ∈ insert ⊥ (writtenTo baseline ws off),
        s ∈ insert ⊥ (writtenTo baseline (ws++[w]) off) := fun s hs =>
      hs.imp_right fun ⟨w',hw',hin⟩ => ⟨w',mem_append_left _ hw',hin⟩
    have hnew : ∀ s ∈ insert ⊥ (writtenTo baseline (ws++[w]) off),
        s ∈ insert ⊥ (writtenTo baseline ws off) ∨
          (w.start ≤ off ∧ off < w.stop ∧ baseline < w.stamp) ∧ s = w.stamp := by
      rintro s (rfl | ⟨w',hw',hstart,hstop,habove,rfl⟩)
      · exact .inl (.inl rfl)
      · rcases mem_concat.mp hw' with hw' | rfl
        · exact .inl (.inr ⟨w',hw',hstart,hstop,habove,rfl⟩)
        · exact .inr ⟨⟨hstart,hstop,habove⟩,rfl⟩
    unfold written
    split_ifs with hcond
    · refine ⟨?_,fun s hs => ?_⟩
      · rcases le_total (w.stamp : WithBot Stamp) (stampIn (applyAll baseline ws) off) with hle | hle
        · exact (max_eq_left hle).symm ▸ hold _ hmem
        · exact (max_eq_right hle).symm ▸ .inr ⟨w,by simp,hcond.1,hcond.2.1,hcond.2.2,rfl⟩
      · rcases hnew s hs with hs | ⟨-,rfl⟩
        · exact (hupper hs).trans (le_max_left _ _)
        · exact le_max_right _ _
    · exact ⟨hold _ hmem,fun s hs => (hnew s hs).elim (hupper ·) fun h => absurd h.1 hcond⟩

/-- Any calls against one baseline: the entries are canonical, each byte has the greatest stamp written
over it, a call wins the bytes it raises, and the entries depend on the set of calls only. -/
theorem apply_lastWriterWins (baseline : Stamp) (ws : List Write) :
    Canonical baseline (applyAll baseline ws) ∧
      (∀ off,∃ best,IsGreatest (insert ⊥ (writtenTo baseline ws off)) best ∧
        stampAt (applyAll baseline ws) off = best.unbotD Stamp.zero) ∧
      (∀ w : Write,
        (∃ top,Ascending 0 top ((applyAll baseline ws).apply w.start w.stop w.stamp baseline).2) ∧
        ∀ off,(∃ r ∈ ((applyAll baseline ws).apply w.start w.stop w.stamp baseline).2,r.Covers off) ↔
          stampIn (applyAll baseline ws) off < stampIn (applyAll baseline (ws++[w])) off) ∧
      ∀ ws' : List Write,(∀ w,w ∈ ws' ↔ w ∈ ws) → applyAll baseline ws' = applyAll baseline ws := by
  obtain ⟨hcanon,hgreatest⟩ := applyAll_spec baseline ws
  obtain ⟨top,htop⟩ := hcanon.ascending
  refine ⟨hcanon,fun off => ⟨_,hgreatest off,stampAt_eq htop⟩,fun w => ?_,fun ws' hws' => ?_⟩
  · obtain ⟨-,-,-,hwon,hpoint⟩ := hcanon.apply w.start w.stop w.stamp
    refine ⟨hwon,fun off => (hpoint off).2.trans ?_⟩
    rw [← (hpoint off).1,applyAll,applyAll,foldl_append]
    rfl
  · obtain ⟨hcanon',hgreatest'⟩ := applyAll_spec baseline ws'
    obtain ⟨top',htop'⟩ := hcanon'.ascending
    refine eq_of_stampIn htop' hcanon'.joined htop hcanon.joined fun off _ => ?_
    have hset : writtenTo baseline ws' off = writtenTo baseline ws off := by
      simp only [writtenTo,hws']
    have hbest := hgreatest' off
    rw [hset] at hbest
    exact hbest.unique (hgreatest off)

end IntervalMap

end Syzy
