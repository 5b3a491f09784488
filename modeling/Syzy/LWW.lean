import Mathlib.Order.Lattice
import Mathlib.Data.List.Basic

/-!
# Last-writer-wins registers

A register holds the write with the greatest key. What it holds depends only on which writes were
made, not on their order or number.
-/

namespace LWW

open List

variable {K V : Type*} [LinearOrder K]

/-- The register's content after the writes `ws`: nothing, or a write no other one exceeds. -/
def IsLatest (ws : List (K × V)) : Option (K × V) → Prop
  | none => ws = []
  | some w => w ∈ ws ∧ ∀ w' ∈ ws,w'.1 ≤ w.1

theorem isLatest_nil : IsLatest ([] : List (K × V)) none := rfl

theorem IsLatest.take {ws : List (K × V)} {s : Option (K × V)} {w : K × V} (h : IsLatest ws s)
    (hlt : ∀ v,s = some v → v.1 ≤ w.1) : IsLatest (ws++[w]) (some w) := by
  refine ⟨by simp,fun w' hw' => ?_⟩
  rcases mem_append.mp hw' with hw' | hw'
  · cases s with
    | none =>
      rw [h] at hw'
      simp at hw'
    | some v => exact (h.2 w' hw').trans (hlt v rfl)
  · rw [mem_singleton.mp hw']

theorem IsLatest.keep {ws : List (K × V)} {v w : K × V} (h : IsLatest ws (some v))
    (hle : w.1 ≤ v.1) : IsLatest (ws++[w]) (some v) := by
  refine ⟨mem_append_left _ h.1,fun w' hw' => ?_⟩
  rcases mem_append.mp hw' with hw' | hw'
  · exact h.2 w' hw'
  · rw [mem_singleton.mp hw']
    exact hle

/-- Registers that saw the same writes agree, provided a key names one write. -/
theorem IsLatest.unique {ws ws' : List (K × V)} {s s' : Option (K × V)}
    (hinj : ∀ a ∈ ws,∀ b ∈ ws,a.1 = b.1 → a = b) (hmem : ∀ w,w ∈ ws ↔ w ∈ ws')
    (h : IsLatest ws s) (h' : IsLatest ws' s') : s = s' := by
  cases s with
  | none =>
    cases s' with
    | none => rfl
    | some w' =>
      have := (hmem w').mpr h'.1
      rw [h] at this
      simp at this
  | some w =>
    cases s' with
    | none =>
      have := (hmem w).mp h.1
      rw [h'] at this
      simp at this
    | some w' =>
      have hle := h'.2 w ((hmem w).mp h.1)
      have hge := h.2 w' ((hmem w').mpr h'.1)
      rw [hinj w h.1 w' ((hmem w').mpr h'.1) (le_antisymm hle hge)]

end LWW
