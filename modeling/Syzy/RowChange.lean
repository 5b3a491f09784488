import Mathlib.Algebra.Ring.Int.Defs
import Mathlib.Algebra.BigOperators.Group.List.Basic
import Syzy.Machine

/-!
Changes of a state of rows: a row is taken from its place and a row is left at one. A change has a gain
for every row, and possible runs with the same gains end in the same state.
-/

namespace RowEvents

variable {ι ρ : Type*}

/-- A row taken away and a row left, under any view of rows. -/
structure Change (α : Type*) where
  source : Option α
  target : Option α

namespace Change

variable {α β : Type*}

def bind (g : α → Option β) (c : Change α) : Change β := ⟨c.source.bind g,c.target.bind g⟩

def gain [DecidableEq α] (c : Change α) (x : α) : ℤ :=
  (if c.target = some x then 1 else 0)-(if c.source = some x then 1 else 0)

def sourcePlace (c : Change (ι × ρ)) : Option ι := c.source.map Prod.fst
def targetPlace (c : Change (ι × ρ)) : Option ι := c.target.map Prod.fst

/-- The change takes a row that is there and leaves one where there is room. -/
def Fits (S : ι → Option ρ) (c : Change (ι × ρ)) : Prop :=
  (∀ x ∈ c.source,S x.1 = some x.2) ∧ ∀ x ∈ c.target,S x.1 = none ∨ c.sourcePlace = some x.1

instance [DecidableEq ι] [DecidableEq ρ] (S : ι → Option ρ) (c : Change (ι × ρ)) :
    Decidable (c.Fits S) := by
  unfold Fits
  infer_instance

variable {S : ι → Option ρ} {c : Change (ι × ρ)} {cs : List (Change (ι × ρ))} {q : ι}

theorem Fits.targetPlace_ne (h : c.Fits S) {n : ρ} (hq : S q = some n)
    (hs : c.sourcePlace ≠ some q) : c.targetPlace ≠ some q := by
  intro ht
  obtain ⟨x,hx,rfl⟩ := Option.map_eq_some_iff.mp ht
  rcases h.2 x hx with hnone | hsrc
  · rw [hq] at hnone
    exact Option.some_ne_none _ hnone
  · exact hs hsrc

variable [DecidableEq ι]

def exec (S : ι → Option ρ) (c : Change (ι × ρ)) : ι → Option ρ := fun q =>
  if c.targetPlace = some q then c.target.map Prod.snd
  else if c.sourcePlace = some q then none
  else S q

theorem exec_target (S : ι → Option ρ) {x : ι × ρ} (h : c.target = some x) :
    c.exec S x.1 = some x.2 := by
  simp [exec,targetPlace,h]

theorem exec_other (S : ι → Option ρ) (ht : c.targetPlace ≠ some q) (hs : c.sourcePlace ≠ some q) :
    c.exec S q = S q := by
  rw [exec,if_neg ht,if_neg hs]

theorem exec_eq_some {n : ρ} (h : c.exec S q = some n) :
    c.target = some (q,n) ∨ c.targetPlace ≠ some q ∧ c.sourcePlace ≠ some q ∧ S q = some n := by
  unfold exec at h
  split_ifs at h with ht hs
  · left
    obtain ⟨x,hx,rfl⟩ := Option.map_eq_some_iff.mp ht
    rw [hx] at h ⊢
    exact congrArg some (Prod.ext rfl (Option.some.inj h))
  · exact .inr ⟨ht,hs,h⟩

variable [DecidableEq ρ]

def held (S : ι → Option ρ) (x : ι × ρ) : ℤ := if S x.1 = some x.2 then 1 else 0

omit [DecidableEq ι] in
theorem eq_of_held {S' : ι → Option ρ} (h : ∀ x,held S x = held S' x) : S = S' := by
  funext q
  refine Option.ext fun o => ?_
  have hq := h (q,o)
  simp only [held] at hq
  by_cases h₁ : S q = some o <;> by_cases h₂ : S' q = some o <;> simp_all

theorem held_exec (h : c.Fits S) (x : ι × ρ) :
    held (c.exec S) x = held S x+c.gain x := by
  unfold held gain
  by_cases ht : c.targetPlace = some x.1
  · obtain ⟨y,hy,hyx⟩ := Option.map_eq_some_iff.mp ht
    have hexec := exec_target S hy
    rw [hyx] at hexec
    rw [hexec,hy]
    have htgt : (some y = some x) ↔ some y.2 = some x.2 := by
      simp [Prod.ext_iff,hyx]
    simp only [htgt]
    rcases h.2 y hy with hnone | hsrc
    · have hsrc : c.source ≠ some x := by
        intro hx
        have := h.1 x hx
        rw [← hyx,hnone] at this
        exact Option.some_ne_none _ this.symm
      rw [hyx] at hnone
      simp [hnone,hsrc]
    · obtain ⟨z,hz,hzy⟩ := Option.map_eq_some_iff.mp hsrc
      have hS := h.1 z hz
      rw [hzy,hyx] at hS
      have hsource : (some z = some x) ↔ some z.2 = some x.2 := by
        simp [Prod.ext_iff,hzy,hyx]
      rw [hz,hS]
      simp only [hsource]
      omega
  · have htgt : c.target ≠ some x := fun hx => ht (congrArg (Option.map Prod.fst) hx)
    rw [if_neg htgt]
    by_cases hs : c.sourcePlace = some x.1
    · obtain ⟨z,hz,hzx⟩ := Option.map_eq_some_iff.mp hs
      have hS := h.1 z hz
      rw [hzx] at hS
      have hsource : (some z = some x) ↔ some z.2 = some x.2 := by
        simp [Prod.ext_iff,hzx]
      have hexec : c.exec S x.1 = none := by
        rw [exec,if_neg ht,if_pos hs]
      rw [hexec,hz,hS]
      simp only [hsource]
      simp
    · have hsource : c.source ≠ some x := fun hx => hs (congrArg (Option.map Prod.fst) hx)
      rw [exec_other S ht hs,if_neg hsource]
      omega

theorem held_run (h : Machine.Permitted exec Fits S cs) (x : ι × ρ) :
    held (cs.foldl exec S) x = held S x+(cs.map fun c => c.gain x).sum := by
  induction cs generalizing S with
  | nil => simp
  | cons c cs ih =>
    rw [List.foldl_cons,ih h.2,held_exec h.1,List.map_cons,List.sum_cons]
    omega

theorem run_eq {cs' : List (Change (ι × ρ))} (h : Machine.Permitted exec Fits S cs)
    (h' : Machine.Permitted exec Fits S cs')
    (hgain : ∀ x,(cs.map fun c => c.gain x).sum = (cs'.map fun c => c.gain x).sum) :
    cs.foldl exec S = cs'.foldl exec S :=
  eq_of_held fun x => by rw [held_run h,held_run h',hgain x]

end Change

end RowEvents
