import Mathlib.Data.List.Nodup
import Mathlib.Logic.Function.Basic

/-! Names given to things and taken from them, step by step. -/

namespace Naming

open Function List

variable {ι ν : Type*} [DecidableEq ι]

inductive Step (ι ν : Type*)
  | give (i : ι) (n : ν)
  | drop (i : ι)
deriving DecidableEq

def run (S : ι → Option ν) : Step ι ν → ι → Option ν
  | .give i n => Function.update S i (some n)
  | .drop i => Function.update S i none

def gives : List (Step ι ν) → List (ι × ν)
  | [] => []
  | .give i n::l => (i,n)::gives l
  | .drop _::l => gives l

def drops : List (Step ι ν) → List ι
  | [] => []
  | .give _ _::l => drops l
  | .drop i::l => i::drops l

variable {S : ι → Option ν} {l l' : List (Step ι ν)} {i : ι} {n : ν}

@[simp] theorem run_give_self : run S (.give i n) i = some n := update_self _ _ _
@[simp] theorem run_drop_self : run S (.drop i) i = none := update_self _ _ _

theorem run_give_of_ne {j : ι} (h : i ≠ j) : run S (.give j n) i = S i := update_of_ne h _ _
theorem run_drop_of_ne {j : ι} (h : i ≠ j) : run S (.drop j) i = S i := update_of_ne h _ _

omit [DecidableEq ι] in
@[simp] theorem mem_gives : (i,n) ∈ gives l ↔ .give i n ∈ l := by
  induction l with
  | nil => simp [gives]
  | cons s l ih => cases s <;> simp [gives,ih]

omit [DecidableEq ι] in
@[simp] theorem mem_drops : i ∈ drops l ↔ .drop i ∈ l := by
  induction l with
  | nil => simp [drops]
  | cons s l ih => cases s <;> simp [drops,ih]

omit [DecidableEq ι] in
theorem gives_append : gives (l++l') = gives l++gives l' := by
  induction l with
  | nil => rfl
  | cons s l ih => cases s <;> simp [gives,ih]

theorem foldl_run_untouched (hg : ∀ n,.give i n ∉ l) (hd : .drop i ∉ l) : l.foldl run S i = S i := by
  induction l generalizing S with
  | nil => rfl
  | cons s l ih =>
    rw [foldl_cons,ih (fun n hn => hg n (mem_cons_of_mem _ hn)) (mt (mem_cons_of_mem _) hd)]
    cases s with
    | give j n => exact run_give_of_ne fun h => hg n (h ▸ mem_cons_self)
    | drop j => exact run_drop_of_ne fun h => hd (h ▸ mem_cons_self)

theorem give_mem_or (h : l.foldl run S i = some n) : .give i n ∈ l ∨ S i = some n := by
  induction l generalizing S with
  | nil => exact .inr h
  | cons s l ih =>
    obtain hmem | hS := ih h
    · exact .inl (mem_cons_of_mem _ hmem)
    · cases s with
      | give j m =>
        by_cases hij : i = j
        · subst hij
          obtain rfl := Option.mem_unique run_give_self hS
          exact .inl mem_cons_self
        · exact .inr ((run_give_of_ne hij).symm.trans hS)
      | drop j =>
        by_cases hij : i = j
        · subst hij
          exact absurd (run_drop_self.symm.trans hS) (by simp)
        · exact .inr ((run_drop_of_ne hij).symm.trans hS)

theorem foldl_run_given (h : .give i n ∈ l) (hone : ((gives l).map Prod.fst).Nodup) (hd : .drop i ∉ l) :
    l.foldl run S i = some n := by
  obtain ⟨l₁,l₂,rfl⟩ := append_of_mem h
  have hnot : ∀ m,.give i m ∉ l₂ := by
    intro m hm
    rw [gives_append,map_append] at hone
    have hcons := (nodup_append.mp hone).2.1
    rw [gives,map_cons,nodup_cons] at hcons
    exact hcons.1 (mem_map.mpr ⟨(i,m),mem_gives.mpr hm,rfl⟩)
  rw [foldl_append,foldl_cons,foldl_run_untouched hnot fun hm => hd (by simp [hm])]
  exact run_give_self

theorem foldl_run_dropped (h : .drop i ∈ l) (hg : ∀ n,.give i n ∉ l) : l.foldl run S i = none := by
  cases hfold : l.foldl run S i with
  | none => rfl
  | some n =>
    obtain ⟨l₁,l₂,rfl⟩ := append_of_mem h
    rw [foldl_append,foldl_cons] at hfold
    obtain hm | hm := give_mem_or hfold
    · exact absurd (mem_append_right l₁ (mem_cons_of_mem (.drop i) hm)) (hg n)
    · exact absurd (run_drop_self.symm.trans hm) (by simp)

theorem foldl_run_isSome (h : ∃ n,S i = some n) (hd : .drop i ∉ l) : ∃ n,l.foldl run S i = some n := by
  induction l generalizing S with
  | nil => exact h
  | cons s l ih =>
    refine ih ?_ (mt (mem_cons_of_mem _) hd)
    cases s with
    | give j n =>
      by_cases hij : i = j
      · subst hij
        exact ⟨n,run_give_self⟩
      · rwa [run_give_of_ne hij]
    | drop j =>
      have hij : i ≠ j := fun h => hd (h ▸ mem_cons_self)
      rwa [run_drop_of_ne hij]

end Naming
