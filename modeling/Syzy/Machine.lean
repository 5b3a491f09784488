import Mathlib.Data.List.Infix
import Mathlib.Order.Lattice

/-!
Runs of a deterministic machine whose actions are permitted or not in the state they are taken in,
and the rule for invariants along them.
-/

theorem List.mem_concat {α : Type*} {l : List α} {a b : α} : b ∈ l++[a] ↔ b ∈ l ∨ b = a := by
  simp

theorem List.le_foldl_max {α β : Type*} [LinearOrder β] (f : α → β) (l : List α) (b : β) :
    b ≤ l.foldl (fun m x => max m (f x)) b ∧ ∀ x ∈ l,f x ≤ l.foldl (fun m x => max m (f x)) b := by
  induction l generalizing b with
  | nil => exact ⟨le_rfl,by simp⟩
  | cons y l ih =>
    obtain ⟨hb,hrest⟩ := ih (max b (f y))
    refine ⟨(le_max_left _ _).trans hb,fun x hx => ?_⟩
    rcases mem_cons.mp hx with rfl | hx
    · exact (le_max_right _ _).trans hb
    · exact hrest x hx

namespace Machine

variable {σ α : Type*} (step : σ → α → σ) (P : σ → α → Prop)

/-- Every action of the run is permitted in the state it meets. -/
def Permitted : σ → List α → Prop
  | _,[] => True
  | s,a::as => P s a ∧ Permitted (step s a) as

instance decidablePermitted [∀ s a,Decidable (P s a)] (s : σ) (as : List α) :
    Decidable (Permitted step P s as) := by
  induction as generalizing s with
  | nil => exact inferInstanceAs (Decidable True)
  | cons a as ih =>
    have := ih (step s a)
    exact inferInstanceAs (Decidable (P s a ∧ Permitted step P (step s a) as))

variable {step P}

@[simp] theorem permitted_nil (s : σ) : Permitted step P s [] := trivial
@[simp] theorem permitted_cons {s : σ} {a : α} {as : List α} :
    Permitted step P s (a::as) ↔ P s a ∧ Permitted step P (step s a) as := Iff.rfl

theorem permitted_append {s : σ} {as bs : List α} :
    Permitted step P s (as++bs) ↔ Permitted step P s as ∧ Permitted step P (as.foldl step s) bs := by
  induction as generalizing s with
  | nil => simp
  | cons a as ih => simp [ih,and_assoc]

theorem permitted_of_forall (h : ∀ s a,P s a) (s : σ) (as : List α) : Permitted step P s as := by
  induction as generalizing s with
  | nil => trivial
  | cons a as ih => exact ⟨h s a,ih _⟩

theorem Permitted.of_initial {s : σ} {as bs : List α} (h : Permitted step P s bs) (hp : as <+: bs) :
    Permitted step P s as := by
  obtain ⟨cs,rfl⟩ := hp
  exact (permitted_append.mp h).1

theorem Permitted.and_forall {Q : α → Prop} {s : σ} {as : List α} (h : Permitted step P s as)
    (hQ : ∀ a ∈ as,Q a) : Permitted step (fun s a => P s a ∧ Q a) s as := by
  induction as generalizing s with
  | nil => trivial
  | cons a as ih => exact ⟨⟨h.1,hQ a (by simp)⟩,ih h.2 fun b hb => hQ b (by simp [hb])⟩

theorem Permitted.invariant {I : σ → Prop} (hstep : ∀ s a,I s → P s a → I (step s a)) {s : σ}
    {as : List α} (h : Permitted step P s as) (hs : I s) : I (as.foldl step s) := by
  induction as generalizing s with
  | nil => exact hs
  | cons a as ih => exact ih h.2 (hstep s a hs h.1)

end Machine
