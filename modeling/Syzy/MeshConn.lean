import Mathlib.Data.Finset.Max
import Mathlib.Data.Prod.Lex
import Syzy.Machine

/-!
Duplicate connections between two mesh nodes. Each end admits, rejects and retires on what it has
registered itself; the order that decides is the same at both.
-/

namespace Syzy

open Machine Function

/-- A connection between the nodes `false` and `true`: who dialed it, and the dialer's nonce. -/
structure MeshConn where
  dialer : Bool
  nonce : ℕ
deriving DecidableEq

namespace MeshConn

variable (ids : Bool → ℕ)

variable (e : Bool) (c : MeshConn)

/-- What an end computes: it dialed the connection itself, or the remote node did. -/
def dialerLow : Bool :=
  if c.dialer = e then ids e < ids !e else ids (!e) < ids e

def outranks (p q : MeshConn) : Bool :=
  if p.dialerLow ids e ≠ q.dialerLow ids e then p.dialerLow ids e else q.nonce < p.nonce

def rank : Bool ×ₗ ℕ := toLex (decide (ids c.dialer < ids !c.dialer),c.nonce)

theorem dialerLow_eq :
    c.dialerLow ids e = decide (ids c.dialer < ids !c.dialer) := by
  cases e <;> cases h : c.dialer <;> simp [dialerLow,h]

theorem outranks_iff (p q : MeshConn) :
    p.outranks ids e q = true ↔ q.rank ids < p.rank ids := by
  simp only [outranks,dialerLow_eq,rank,Prod.Lex.toLex_lt_toLex]
  cases decide (ids p.dialer < ids !p.dialer) <;> cases decide (ids q.dialer < ids !q.dialer) <;> simp

theorem rank_injective (hids : ids false ≠ ids true) : Function.Injective (rank ids) := by
  rintro ⟨d,n⟩ ⟨d',n'⟩ h
  obtain ⟨hlow,rfl⟩ := Prod.mk.inj (toLex.injective h)
  have hlow' := decide_eq_decide.mp hlow
  cases d <;> cases d'
  · rfl
  · exact absurd hlow' (by simp only [Bool.not_false,Bool.not_true]; omega)
  · exact absurd hlow' (by simp only [Bool.not_false,Bool.not_true]; omega)
  · rfl

end MeshConn

/-- A connection at one end: its hellos are being exchanged, its frames are being read, or neither. -/
inductive ConnPhase
  | setup
  | reading
  | ended
deriving DecidableEq

/-- One end. A replaced connection is closed only after the lock is released. -/
structure MeshEnd where
  peer : Option MeshConn
  phase : MeshConn → ConnPhase
  retiring : List MeshConn
  closed : MeshConn → Bool

inductive ConnAction
  | setup (e : Bool) (c : MeshConn)
  | helloFailed (e : Bool) (c : MeshConn)
  | closeRetired (e : Bool) (c : MeshConn)
  | readLoopExit (e : Bool) (c : MeshConn)

namespace MeshEnd

variable (ids : Bool → ℕ) (e : Bool) (s : MeshEnd) (c : MeshConn)

def close : MeshEnd := { s with closed := Function.update s.closed c true }

def giveUp : MeshEnd := { s.close c with phase := Function.update s.phase c .ended }

/-- The locked part of the setup. An incumbent that is closed already never vetoes. -/
def setupPeer : MeshEnd :=
  if s.peer.any fun q => !s.closed q && !c.outranks ids e q then s.giveUp c
  else { s with
    peer := some c
    phase := Function.update s.phase c .reading
    retiring := s.retiring++s.peer.toList }

def closeRetired : MeshEnd := { s.close c with retiring := s.retiring.filter (· ≠ c) }

def retirePeer : MeshEnd := { s.giveUp c with peer := if s.peer = some c then none else s.peer }

end MeshEnd

namespace MeshPair

variable (ids : Bool → ℕ) (S : Finset MeshConn)

def start : Bool → MeshEnd := fun _ => ⟨none,fun _ => .setup,[],fun _ => false⟩

def step (s : Bool → MeshEnd) : ConnAction → Bool → MeshEnd
  | .setup e c => Function.update s e ((s e).setupPeer ids e c)
  | .helloFailed e c => Function.update s e ((s e).giveUp c)
  | .closeRetired e c => Function.update s e ((s e).closeRetired c)
  | .readLoopExit e c => Function.update s e ((s e).retirePeer c)

/-- A closure shows at the other end: in its hello, or in its read loop, which also stops at a frame
on a connection that is not registered any more. -/
def Enabled (s : Bool → MeshEnd) : ConnAction → Prop
  | .setup e c => c ∈ S ∧ (s e).phase c = .setup
  | .helloFailed e c => c ∈ S ∧ (s e).phase c = .setup ∧ (s !e).closed c = true
  | .closeRetired e c => c ∈ S ∧ c ∈ (s e).retiring
  | .readLoopExit e c => c ∈ S ∧ (s e).phase c = .reading ∧
      ((s e).closed c = true ∨ (s !e).closed c = true ∨ (s e).peer ≠ some c)

instance (s : Bool → MeshEnd) (a : ConnAction) : Decidable (Enabled S s a) := by
  cases a <;> exact inferInstanceAs (Decidable (_ ∧ _))

def Quiescent (s : Bool → MeshEnd) : Prop :=
  ∀ e,∀ c ∈ S,¬Enabled S s (.setup e c) ∧ ¬Enabled S s (.closeRetired e c) ∧
    ¬Enabled S s (.readLoopExit e c)

instance (s : Bool → MeshEnd) : Decidable (Quiescent S s) := inferInstanceAs (Decidable (∀ _,_))

/-- No end ever gives up the connection of the highest rank; every other one it stops reading is
closed, or about to be. -/
structure Settling (best : MeshConn) (s : MeshEnd) : Prop where
  best_open : s.closed best = false
  best_kept : best ∉ s.retiring
  best_phase : s.phase best = .setup ∨ s.peer = some best
  peer_mem : ∀ c,s.peer = some c → c ∈ S ∧ s.phase c = .reading
  over_closed : ∀ c,s.phase c = .ended → s.closed c = true
  reading : ∀ c,s.phase c = .reading → s.peer = some c ∨ c ∈ s.retiring ∨ s.closed c = true

variable {ids S} {best : MeshConn} {s : MeshEnd} {c : MeshConn}

theorem Settling.retirePeer (h : Settling S best s) (hc : c ≠ best) : Settling S best (s.retirePeer c) := by
  obtain ⟨hopen,hkept,hphase,hmem,hover,hread⟩ := h
  refine ⟨?_,hkept,?_,?_,?_,?_⟩
  all_goals
    simp only [MeshEnd.retirePeer,MeshEnd.giveUp,MeshEnd.close,update_apply]
    grind

theorem Settling.giveUp (h : Settling S best s) (hc : c ≠ best) (hp : s.peer ≠ some c) :
    Settling S best (s.giveUp c) := by
  have hsame : s.retirePeer c = s.giveUp c := by
    rw [MeshEnd.retirePeer,if_neg hp]
    rfl
  exact hsame ▸ h.retirePeer hc

theorem Settling.setupPeer (hbest : ∀ c ∈ S,c ≠ best → c.rank ids < best.rank ids) (e : Bool)
    (h : Settling S best s) (hc : c ∈ S) (hphase : s.phase c = .setup) :
    Settling S best (s.setupPeer ids e c) := by
  have hp : s.peer ≠ some c := fun hp => absurd (hphase.symm.trans (h.peer_mem c hp).2) (by decide)
  unfold MeshEnd.setupPeer
  split_ifs with hveto
  · refine h.giveUp (fun heq => ?_) hp
    obtain ⟨q,hq,hq'⟩ := (Option.any_eq_true ..).mp hveto
    have hne : q ≠ best := fun hqb => hp (by rw [hq,hqb,heq])
    have hlt := (MeshConn.outranks_iff ids e c q).mpr (heq ▸ hbest q (h.peer_mem q hq).1 hne)
    rw [hlt] at hq'
    simp at hq'
  · have hkeep : s.peer = some best → False := by
      intro hpb
      have hcb : c ≠ best := fun heq => hp (heq ▸ hpb)
      have hnot : ¬best.rank ids < c.rank ids := (hbest c hc hcb).asymm
      rw [← MeshConn.outranks_iff ids e,Bool.not_eq_true] at hnot
      rw [hpb] at hveto
      simp [h.best_open,hnot] at hveto
    have hbphase := h.best_phase.resolve_right hkeep
    obtain ⟨hopen,hkept,-,hmem,hover,hread⟩ := h
    refine ⟨hopen,?_,?_,?_,?_,?_⟩
    all_goals
      simp only [update_apply,List.mem_append,Option.mem_toList]
      grind

theorem Settling.closeRetired (h : Settling S best s) (hc : c ∈ s.retiring) :
    Settling S best (s.closeRetired c) := by
  obtain ⟨hopen,hkept,hphase,hmem,hover,hread⟩ := h
  refine ⟨?_,?_,hphase,hmem,?_,?_⟩
  all_goals
    simp only [MeshEnd.closeRetired,MeshEnd.close,update_apply]
    grind

theorem Settling.step (hbest : ∀ c ∈ S,c ≠ best → c.rank ids < best.rank ids) {s : Bool → MeshEnd}
    {a : ConnAction} (h : ∀ e,Settling S best (s e)) (ha : Enabled S s a) :
    ∀ e,Settling S best (step ids s a e) := by
  have hput : ∀ {e t},Settling S best t → ∀ e',Settling S best (Function.update s e t e') := by
    intro e t ht e'
    by_cases he : e' = e
    · subst he
      rwa [update_self]
    · rw [update_of_ne he]
      exact h e'
  cases a with
  | setup e c => exact hput ((h e).setupPeer hbest e ha.1 ha.2)
  | helloFailed e c =>
    have hcb : c ≠ best := by
      rintro rfl
      exact absurd ((h !e).best_open.symm.trans ha.2.2) (by decide)
    refine hput ((h e).giveUp hcb fun hp => ?_)
    exact absurd (ha.2.1.symm.trans ((h e).peer_mem c hp).2) (by decide)
  | closeRetired e c => exact hput ((h e).closeRetired ha.2)
  | readLoopExit e c =>
    refine hput ((h e).retirePeer ?_)
    rintro rfl
    obtain ⟨-,hread,hwhy⟩ := ha
    have hpeer := (h e).best_phase.resolve_left fun hs => absurd (hs.symm.trans hread) (by decide)
    rw [(h e).best_open,(h !e).best_open] at hwhy
    simp [hpeer] at hwhy

/-- With nothing left to do, both ends have registered the connection of the highest rank and closed
every other one. -/
theorem duplicates_resolve (hids : ids false ≠ ids true) (hS : S.Nonempty) {acts : List ConnAction}
    (hrun : Permitted (step ids) (Enabled S) start acts)
    (hquiet : Quiescent S (acts.foldl (step ids) start)) :
    ∃ best ∈ S,(∀ c ∈ S,c ≠ best → ∀ e,best.outranks ids e c = true) ∧
      ∀ e,((acts.foldl (step ids) start) e).peer = some best ∧
        ((acts.foldl (step ids) start) e).closed best = false ∧
        ∀ c ∈ S,c ≠ best → ((acts.foldl (step ids) start) e).closed c = true := by
  obtain ⟨best,hmem,hmax⟩ := S.exists_max_image (MeshConn.rank ids) hS
  have hbest : ∀ c ∈ S,c ≠ best → c.rank ids < best.rank ids := fun c hc hne =>
    lt_of_le_of_ne (hmax c hc) fun heq => hne (MeshConn.rank_injective ids hids heq)
  have hinit : ∀ e,Settling S best (start e) := fun _ => ⟨rfl,List.not_mem_nil,.inl rfl,
    fun _ h => (by cases h),fun _ h => (by cases h),fun _ h => (by cases h)⟩
  have hend := hrun.invariant (I := fun s : Bool → MeshEnd => ∀ e,Settling S best (s e))
    (fun s a h ha => Settling.step hbest h ha) hinit
  refine ⟨best,hmem,fun c hc hne e => (MeshConn.outranks_iff ids e best c).mpr (hbest c hc hne),
    fun e => ?_⟩
  have hpeer : ((acts.foldl (step ids) start) e).peer = some best :=
    (hend e).best_phase.resolve_left fun hs => (hquiet e best hmem).1 ⟨hmem,hs⟩
  refine ⟨hpeer,(hend e).best_open,fun c hc hne => ?_⟩
  obtain ⟨hsetup,hretired,hread⟩ := hquiet e c hc
  cases hphase : ((acts.foldl (step ids) start) e).phase c with
  | setup => exact absurd ⟨hc,hphase⟩ hsetup
  | ended => exact (hend e).over_closed c hphase
  | reading =>
    exact absurd ⟨hc,hphase,.inr (.inr fun hp => hne (Option.mem_unique hp hpeer))⟩ hread

namespace ConnSample

def low : MeshConn := ⟨false,1⟩
def high : MeshConn := ⟨true,1⟩

def nodeIDs (e : Bool) : ℕ := if e then 2 else 1

/-- Each end has admitted another connection when the other one's setup gets to the lock. -/
def crossed : List ConnAction :=
  [.setup false high,.setup true low,.setup false low,.closeRetired false high,.readLoopExit false high,
    .setup true high]

theorem crossed_resolves :
    Permitted (step nodeIDs) (Enabled {low,high}) start crossed ∧
      Quiescent {low,high} (crossed.foldl (step nodeIDs) start) ∧
      ∀ e,((crossed.foldl (step nodeIDs) start) e).peer = some low := by
  have hrun : Permitted (step nodeIDs) (Enabled {low,high}) start crossed := by decide
  have hquiet : Quiescent {low,high} (crossed.foldl (step nodeIDs) start) := by decide
  obtain ⟨best,hmem,-,hend⟩ := duplicates_resolve (by decide) ⟨low,by decide⟩ hrun hquiet
  have hlow : ((crossed.foldl (step nodeIDs) start) false).peer = some low := by decide
  obtain rfl := Option.some.inj ((hend false).1.symm.trans hlow)
  exact ⟨hrun,hquiet,fun e => (hend e).1⟩

end ConnSample

end MeshPair

end Syzy
