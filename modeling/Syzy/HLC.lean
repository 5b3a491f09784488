import Syzy.Cache
import Syzy.Machine

/-!
The node's hybrid logical clock along any sequence of stamps and observations: its stamps rise
above everything seen before, and they fit the wire form exactly while no stamp has to tick a
logical counter that is already at its greatest value.
-/

namespace Syzy

open Machine Clock

open UInt64 List

namespace Clock

variable (v : UInt64) (c : Clock)

def maxWall : ℤ := 2^47-1
def maxLogical : ℤ := 2^16-1

def pack : Option UInt64 :=
  if c.wallTime < 0 ∨ maxWall < c.wallTime then none
  else if c.logical < 0 ∨ maxLogical < c.logical then none
  else some (UInt64.ofNat c.wallTime.toNat <<< 16 ||| UInt64.ofNat c.logical.toNat)

def unpackClock : Clock :=
  ⟨(v >>> 16 &&& UInt64.ofNat (2^47-1)).toNat,(v &&& UInt64.ofNat (2^16-1)).toNat⟩

def Packable : Prop :=
  (0 ≤ c.wallTime ∧ c.wallTime ≤ maxWall) ∧ 0 ≤ c.logical ∧ c.logical ≤ maxLogical

theorem isSome_pack_iff {c : Clock} : c.pack.isSome = true ↔ c.Packable := by
  unfold pack Packable
  split_ifs with hw hl
  · simp only [Option.isSome_none,Bool.false_eq_true,false_iff]
    omega
  · simp only [Option.isSome_none,Bool.false_eq_true,false_iff]
    omega
  · simp only [Option.isSome_some,true_iff]
    omega

theorem unpackClock_eq :
    unpackClock v = ⟨(v.toNat / 2^16 % 2^47 : ℕ),(v.toNat % 2^16 : ℕ)⟩ := by
  have hwall : (v >>> 16 &&& UInt64.ofNat (2^47-1)).toNat = v.toNat / 2^16 % 2^47 := by
    rw [UInt64.toNat_and,UInt64.toNat_shiftRight,toNat_ofNat_of_lt' (by decide),
      Nat.and_two_pow_sub_one_eq_mod,Nat.shiftRight_eq_div_pow]
    rfl
  have hlogical : (v &&& UInt64.ofNat (2^16-1)).toNat = v.toNat % 2^16 := by
    rw [UInt64.toNat_and,toNat_ofNat_of_lt' (by decide),Nat.and_two_pow_sub_one_eq_mod]
  rw [unpackClock,hwall,hlogical]

theorem packable_unpackClock : (unpackClock v).Packable := by
  rw [unpackClock_eq]
  unfold Packable maxWall maxLogical
  simp only
  omega

end Clock

inductive ClockCall where
  | stamp (wall : ℤ)
  | observe (clk : Clock)
  | markApplied (origin : Origin) (seq : Seq) (clk : Clock)

/-- Walls fit the wire form, and observed clocks come from it. -/
def ClockCall.Valid : ClockCall → Prop
  | .stamp wall => 0 ≤ wall ∧ wall < 2^47
  | .observe clk | .markApplied _ _ clk => ∃ v,clk = unpackClock v

inductive ClockEvent where
  | stamped (clk : Clock)
  | observed (clk : Clock)

namespace ClockEvent

def clock : ClockEvent → Clock
  | .stamped clk | .observed clk => clk

def isStamp : ClockEvent → Bool
  | .stamped _ => true
  | .observed _ => false

end ClockEvent

/-- A cache and the clocks it has returned and observed, oldest first. -/
structure ClockRun where
  cache : Cache
  log : List ClockEvent

namespace ClockRun

def step (s : ClockRun) : ClockCall → ClockRun
  | .stamp wall => ⟨(s.cache.stampHLC wall).2,s.log++[.stamped (s.cache.stampHLC wall).1]⟩
  | .observe clk => ⟨s.cache.observeHLC clk,s.log++[.observed clk]⟩
  | .markApplied origin seq clk => ⟨s.cache.markApplied origin seq clk,s.log++[.observed clk]⟩

def run (s : ClockRun) (calls : List ClockCall) : ClockRun := calls.foldl step s

/-- Every stamp lies above all that came before it, and everything can be packed. -/
structure Sound (s : ClockRun) : Prop where
  rises : s.log.Pairwise fun a b => b.isStamp = true → a.clock < b.clock
  packs : ∀ e ∈ s.log,e.clock.pack.isSome = true
  last : s.cache.hlcLast.pack.isSome = true

/-- A stamp that has to tick finds a logical counter below its greatest value. -/
def Ticks (s : ClockRun) : ClockCall → Prop
  | .stamp wall => s.cache.hlcLast < ⟨wall,0⟩ ∨ s.cache.hlcLast.logical < maxLogical
  | _ => True

/-- What a sound run keeps besides: nothing seen is later than the cached clock. -/
structure Inv (s : ClockRun) : Prop extends Sound s where
  le_last : ∀ e ∈ s.log,e.clock ≤ s.cache.hlcLast

variable {a : ClockCall} {c : Cache} {e : ClockEvent} {s : ClockRun} {wall : ℤ}

theorem pairwise_concat {R : ClockEvent → ClockEvent → Prop} {log : List ClockEvent}
    (h : log.Pairwise R) (he : ∀ a ∈ log,R a e) : (log++[e]).Pairwise R :=
  pairwise_append.mpr ⟨h,pairwise_singleton _ _,fun a ha b hb => by
    rw [mem_singleton.mp hb]
    exact he a ha⟩

theorem Inv.concat (h : s.Inv) (he : e.clock.Packable)
    (hstamp : e.isStamp = true → s.cache.hlcLast < e.clock)
    (hlast : c.hlcLast = max s.cache.hlcLast e.clock) : Inv ⟨c,s.log++[e]⟩ where
  rises := pairwise_concat h.rises fun a ha hs => lt_of_le_of_lt (h.le_last a ha) (hstamp hs)
  packs a ha := by
    rcases mem_concat.mp ha with ha | rfl
    · exact h.packs a ha
    · exact isSome_pack_iff.mpr he
  last := by
    rw [hlast]
    rcases max_choice s.cache.hlcLast e.clock with hm | hm
    · rw [hm]
      exact h.last
    · rw [hm]
      exact isSome_pack_iff.mpr he
  le_last a ha := by
    rw [hlast]
    rcases mem_concat.mp ha with ha | rfl
    · exact le_trans (h.le_last a ha) (le_max_left _ _)
    · exact le_max_right _ _

theorem hlcLast_observeHLC (c : Cache) (clk : Clock) :
    (c.observeHLC clk).hlcLast = max c.hlcLast clk := by
  rw [← forward_eq_max,forward,Cache.observeHLC]
  split_ifs <;> rfl

theorem bmod_tick {l : ℤ} (h0 : 0 ≤ l) (h1 : l ≤ maxLogical) : (l+1).bmod (2^32) = l+1 := by
  unfold maxLogical at h1
  rw [Int.bmod_eq_of_le] <;> omega

theorem stampHLC_of_lt (h : c.hlcLast < ⟨wall,0⟩) : (c.stampHLC wall).1 = ⟨wall,0⟩ := by
  rw [Cache.stampHLC]
  exact if_pos (less_iff.mpr h)

theorem stampHLC_of_not_lt (h : ¬c.hlcLast < ⟨wall,0⟩) (hc : c.hlcLast.Packable) :
    (c.stampHLC wall).1 = ⟨c.hlcLast.wallTime,c.hlcLast.logical+1⟩ := by
  rw [Cache.stampHLC]
  simp only
  rw [if_neg (mt less_iff.mp h),bmod_tick hc.2.1 hc.2.2]

theorem lt_stampHLC (wall : ℤ) (hc : c.hlcLast.Packable) :
    c.hlcLast < (c.stampHLC wall).1 := by
  by_cases h : c.hlcLast < ⟨wall,0⟩
  · rw [stampHLC_of_lt h]
    exact h
  · rw [stampHLC_of_not_lt h hc,← less_iff]
    simp [less]

theorem packable_stampHLC (hwall : 0 ≤ wall ∧ wall < 2^47) (hc : c.hlcLast.Packable) :
    (c.stampHLC wall).1.Packable ↔ c.hlcLast < ⟨wall,0⟩ ∨ c.hlcLast.logical < maxLogical := by
  by_cases h : c.hlcLast < ⟨wall,0⟩
  · rw [stampHLC_of_lt h]
    refine iff_of_true ?_ (.inl h)
    unfold Packable maxWall maxLogical
    simp only
    omega
  · rw [stampHLC_of_not_lt h hc]
    unfold Packable at hc ⊢
    simp only [h,false_or]
    omega

theorem Inv.step (h : s.Inv) (ha : a.Valid) (ht : s.Ticks a) : (s.step a).Inv := by
  cases a with
  | stamp wall =>
    have hc := isSome_pack_iff.mp h.last
    have hlt := lt_stampHLC wall hc
    exact h.concat ((packable_stampHLC ha hc).mpr ht) (fun _ => hlt) (max_eq_right hlt.le).symm
  | observe clk =>
    obtain ⟨v,rfl⟩ := ha
    exact h.concat (packable_unpackClock v) (fun hs => Bool.noConfusion hs)
      (hlcLast_observeHLC _ _)
  | markApplied origin seq clk =>
    obtain ⟨v,rfl⟩ := ha
    exact h.concat (packable_unpackClock v) (fun hs => Bool.noConfusion hs)
      (forward_eq_max _ _)

theorem Ticks.of_step (h : s.Inv) (ha : a.Valid) (hstep : (s.step a).Sound) : s.Ticks a := by
  cases a with
  | stamp wall =>
    have hc := isSome_pack_iff.mp h.last
    exact (packable_stampHLC ha hc).mp (isSome_pack_iff.mp hstep.last)
  | observe | markApplied => trivial

theorem permitted_of_sound (h : s.Inv) {calls : List ClockCall} (hv : ∀ a ∈ calls,a.Valid)
    (hs : ∀ reached,reached <+: calls → (s.run reached).Sound) :
    Permitted step Ticks s calls := by
  induction calls generalizing s with
  | nil => trivial
  | cons a calls ih =>
    have ha := hv a (by simp)
    have ht : s.Ticks a := Ticks.of_step h ha (hs [a] ⟨calls,rfl⟩)
    refine ⟨ht,ih (h.step ha ht) (fun b hb => hv b (by simp [hb])) fun reached hr => ?_⟩
    exact hs (a::reached) (cons_prefix_cons.mpr ⟨rfl,hr⟩)

/-- From any cache whose clock came off the wire, every state is sound exactly when each stamp that
has to tick has room to. -/
theorem sound_iff_ticks {c : Cache} (hc : ∃ v,c.hlcLast = unpackClock v)
    {calls : List ClockCall} (hv : ∀ a ∈ calls,a.Valid) :
    (∀ reached,reached <+: calls → (run ⟨c,[]⟩ reached).Sound) ↔
      Permitted step Ticks ⟨c,[]⟩ calls := by
  obtain ⟨v,hc⟩ := hc
  have hinv : Inv ⟨c,[]⟩ := by
    refine ⟨⟨Pairwise.nil,by simp,?_⟩,by simp⟩
    rw [hc]
    exact isSome_pack_iff.mpr (packable_unpackClock v)
  refine ⟨permitted_of_sound hinv hv,fun hp reached hr => ?_⟩
  have hp' := (hp.of_initial hr).and_forall (Q := ClockCall.Valid) fun a ha => hv a (hr.subset ha)
  exact (hp'.invariant (I := Inv) (fun s a hs ha => hs.step ha.2 ha.1) hinv).toSound

def ticking : List ClockCall :=
  [.stamp 5,.observe ⟨9,3⟩,.stamp 7,.markApplied 8 1 ⟨4,0⟩,.stamp 12]

theorem sound_iff_ticks_of_tick :
    Permitted step Ticks ⟨.new 1,[]⟩ ticking ∧ (run ⟨.new 1,[]⟩ ticking).Sound := by
  have hvalid : ∀ a ∈ ticking,a.Valid := by
    simp only [ticking,mem_cons,not_mem_nil,or_false,forall_eq_or_imp,forall_eq,ClockCall.Valid]
    exact ⟨by decide,⟨9*2^16+3,by decide⟩,by decide,⟨4*2^16,by decide⟩,by decide⟩
  have hrun : Permitted step Ticks ⟨.new 1,[]⟩ ticking :=
    ⟨.inl (by decide),trivial,.inr (by decide),trivial,.inl (by decide),trivial⟩
  exact ⟨hrun,(sound_iff_ticks ⟨0,rfl⟩ hvalid).mpr hrun ticking prefix_rfl⟩

/-- A remote clock at the top of the logical counter makes the next stamp unpackable. -/
theorem stamp_after_full_counter : (∀ a ∈ [ClockCall.observe ⟨9,2^16-1⟩,.stamp 7],a.Valid) ∧
      (((Cache.new 1).observeHLC ⟨9,2^16-1⟩).stampHLC 7).1 = ⟨9,2^16⟩ ∧
      ¬(run ⟨.new 1,[]⟩ [.observe ⟨9,2^16-1⟩,.stamp 7]).Sound := by
  refine ⟨?_,by decide,fun h => ?_⟩
  · simp only [mem_cons,not_mem_nil,or_false,forall_eq_or_imp,forall_eq,ClockCall.Valid]
    exact ⟨⟨9*2^16+(2^16-1),by decide⟩,by decide⟩
  · exact absurd h.last (by decide)

end ClockRun

end Syzy
