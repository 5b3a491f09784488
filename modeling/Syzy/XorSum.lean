import Mathlib.Data.List.Basic
import Mathlib.Logic.Function.Basic

/-!
Checksums that are the exclusive or of one word for each place, with the top bit always set. A word
may be exchanged by adding the old and the new one.
-/

namespace XorSum

open Function List

def flag : UInt64 := 0x8000000000000000

def upTo (f : ℕ → UInt64) : ℕ → UInt64
  | 0 => 0
  | n+1 => upTo f n ^^^ f (n+1)

theorem flag_xor (x y : UInt64) : flag ||| ((flag ||| x) ^^^ y) = flag ||| (x ^^^ y) := by
  refine UInt64.eq_of_toBitVec_eq ?_
  ext i hi
  simp only [UInt64.toBitVec_or,UInt64.toBitVec_xor,BitVec.getElem_or,BitVec.getElem_xor]
  cases flag.toBitVec[i] <;> simp

variable {f g : ℕ → UInt64} {n : ℕ}

theorem upTo_congr (h : ∀ p,0 < p → p ≤ n → f p = g p) : upTo f n = upTo g n := by
  induction n with
  | zero => rfl
  | succ n ih =>
    rw [upTo,upTo,ih fun p h1 h2 => h p h1 (Nat.le_succ_of_le h2),h (n+1) (Nat.succ_pos n) (Nat.le_refl _)]

theorem upTo_update {p : ℕ} (hpos : 0 < p) (hle : p ≤ n) (v : UInt64) :
    upTo (Function.update f p v) n = upTo f n ^^^ f p ^^^ v := by
  induction n with
  | zero => omega
  | succ n ih =>
    rw [upTo,upTo]
    by_cases hp : p = n+1
    · subst hp
      rw [update_self,upTo_congr (g := f) fun q h1 h2 => update_of_ne (by omega) _ _,
        UInt64.xor_assoc _ (f (n+1)) (f (n+1)),UInt64.xor_self,UInt64.xor_zero]
    · rw [update_of_ne (fun h => hp h.symm),ih (by omega)]
      calc upTo f n ^^^ f p ^^^ v ^^^ f (n+1) = upTo f n ^^^ f p ^^^ (v ^^^ f (n+1)) := by
            rw [UInt64.xor_assoc]
        _ = upTo f n ^^^ f p ^^^ f (n+1) ^^^ v := by rw [UInt64.xor_comm v,← UInt64.xor_assoc]
        _ = upTo f n ^^^ f (n+1) ^^^ f p ^^^ v := by
            rw [UInt64.xor_assoc (upTo f n),UInt64.xor_comm (f p),← UInt64.xor_assoc]

theorem upTo_of_zero {c : ℕ} (hle : c ≤ n) (h : ∀ p,c < p → p ≤ n → f p = 0) : upTo f n = upTo f c := by
  induction n with
  | zero => rw [Nat.le_zero.mp hle]
  | succ n ih =>
    rcases Nat.lt_or_eq_of_le hle with hlt | rfl
    · rw [upTo,ih (by omega) fun p h1 h2 => h p h1 (Nat.le_succ_of_le h2),h (n+1) hlt (Nat.le_refl _),
        UInt64.xor_zero]
    · rfl

def overwrite (f : ℕ → UInt64) (us : List (ℕ × UInt64)) : ℕ → UInt64 :=
  us.foldl (fun g u => Function.update g u.1 u.2) f

theorem overwrite_of_notMem {us : List (ℕ × UInt64)} {p : ℕ} (h : ∀ u ∈ us,u.1 ≠ p) :
    overwrite f us p = f p := by
  induction us generalizing f with
  | nil => rfl
  | cons u us ih =>
    rw [overwrite,foldl_cons]
    refine (ih fun v hv => h v (mem_cons_of_mem _ hv)).trans ?_
    exact update_of_ne (Ne.symm (h u mem_cons_self)) _ _

theorem overwrite_of_mem {us : List (ℕ × UInt64)} (hnd : (us.map Prod.fst).Nodup) {u : ℕ × UInt64}
    (hu : u ∈ us) : overwrite f us u.1 = u.2 := by
  induction us generalizing f with
  | nil => exact absurd hu not_mem_nil
  | cons v us ih =>
    rw [map_cons,nodup_cons] at hnd
    rw [overwrite,foldl_cons]
    rcases mem_cons.mp hu with rfl | hu
    · refine (overwrite_of_notMem fun w hw heq => hnd.1 ?_).trans (update_self ..)
      exact heq ▸ mem_map_of_mem hw
    · exact ih hnd.2 hu

theorem overwrite_congr {us : List (ℕ × UInt64)} {p : ℕ} (h : f p = g p) :
    overwrite f us p = overwrite g us p := by
  induction us generalizing f g with
  | nil => exact h
  | cons u us ih =>
    rw [overwrite,overwrite,foldl_cons,foldl_cons]
    refine ih ?_
    by_cases hp : p = u.1
    · rw [hp,update_self,update_self]
    · rw [update_of_ne hp,update_of_ne hp,h]

theorem foldl_flagged {α : Type*} {g : UInt64 → α → UInt64} (x : UInt64) (us : List α) :
    ∃ y,us.foldl (fun x u => flag ||| g x u) (flag ||| x) = flag ||| y := by
  induction us generalizing x with
  | nil => exact ⟨x,rfl⟩
  | cons u us ih => exact ih _

theorem foldl_exchange {us : List (ℕ × UInt64)} (hnd : (us.map Prod.fst).Nodup)
    (hin : ∀ u ∈ us,0 < u.1 ∧ u.1 ≤ n) :
    us.foldl (fun x u => flag ||| (x ^^^ f u.1 ^^^ u.2)) (flag ||| upTo f n) =
      flag ||| upTo (overwrite f us) n := by
  induction us generalizing f with
  | nil => rfl
  | cons u us ih =>
    rw [map_cons,nodup_cons] at hnd
    obtain ⟨hpos,hle⟩ := hin u mem_cons_self
    rw [foldl_cons,UInt64.xor_assoc,flag_xor,← UInt64.xor_assoc,← upTo_update hpos hle,overwrite,
      foldl_cons]
    refine Eq.trans ?_ (ih hnd.2 fun v hv => hin v (mem_cons_of_mem _ hv))
    refine foldl_ext _ _ _ fun x v hv => ?_
    rw [update_of_ne]
    intro heq
    exact hnd.1 (heq ▸ mem_map_of_mem hv)

end XorSum
