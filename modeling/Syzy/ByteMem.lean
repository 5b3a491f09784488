import Mathlib.Data.List.Range
import Mathlib.Tactic.Ring

/-!
# Byte memories

A memory is a function from addresses to cells. Runs of cells are stored and read as lists, and
numbers as their little-endian bytes.
-/

namespace ByteMem

open List

variable {β : Type*}

def read (m : ℕ → β) (off n : ℕ) : List β := (range n).map fun i => m (off+i)

def store (m : ℕ → β) (off : ℕ) (bs : List β) : ℕ → β :=
  fun a => if off ≤ a then (bs[a-off]?).getD (m a) else m a

@[simp] theorem length_read (m : ℕ → β) (off n : ℕ) : (read m off n).length = n := by simp [read]

@[simp] theorem getElem?_read (m : ℕ → β) (off n i : ℕ) :
    (read m off n)[i]? = if i < n then some (m (off+i)) else none := by
  unfold read
  split_ifs with h
  · simp [h]
  · simpa using h

theorem read_congr {m m' : ℕ → β} {off n : ℕ} (h : ∀ a,off ≤ a → a < off+n → m a = m' a) :
    read m off n = read m' off n := by
  refine map_congr_left fun i hi => h _ (Nat.le_add_right _ _) ?_
  rw [mem_range] at hi
  omega

section

variable (m : ℕ → β)

variable (off : ℕ) (bs : List β)

theorem read_add (off n k : ℕ) : read m off (n+k) = read m off n++read m (off+n) k := by
  simp [read,range_add,Nat.add_assoc]

theorem store_of_lt {off a : ℕ} (bs : List β) (h : a < off) : store m off bs a = m a := by
  rw [store,if_neg (by omega)]

theorem store_of_ge {off a : ℕ} (bs : List β) (h : off+bs.length ≤ a) :
    store m off bs a = m a := by
  have hnone : bs[a-off]? = none := by
    rw [getElem?_eq_none_iff]
    omega
  rw [store,if_pos (by omega),hnone,Option.getD_none]

theorem store_add (i : ℕ) :
    store m off bs (off+i) = (bs[i]?).getD (m (off+i)) := by
  rw [store,if_pos (by omega),Nat.add_sub_cancel_left]

theorem read_store {i n : ℕ} (h : i+n ≤ bs.length) :
    read (store m off bs) (off+i) n = (bs.drop i).take n := by
  refine ext_getElem? fun j => ?_
  rw [getElem?_read]
  split_ifs with hj
  · have hlt : i+j < bs.length := by omega
    rw [Nat.add_assoc,store_add,getElem?_take_of_lt hj,getElem?_drop,
      getElem?_eq_getElem hlt,Option.getD_some]
  · rw [getElem?_eq_none_iff.mpr]
    simp only [length_take]
    omega

theorem read_store_self : read (store m off bs) off bs.length = bs := by
  simpa using read_store m off bs (i := 0) (n := bs.length) (by omega)

theorem store_overwrite {xs xs' : List β} (ys : List β) (h : xs'.length = xs.length) :
    store (store m off (xs++ys)) off xs' = store m off (xs'++ys) := by
  funext a
  rcases Nat.lt_or_ge a off with ha | ha
  · rw [store_of_lt _ _ ha,store_of_lt _ _ ha,store_of_lt _ _ ha]
  · obtain ⟨i,rfl⟩ := Nat.exists_eq_add_of_le ha
    rw [store_add,store_add,store_add]
    rcases Nat.lt_or_ge i xs.length with hi | hi
    · have hi' : i < xs'.length := by omega
      rw [getElem?_append_left hi',getElem?_eq_getElem hi',Option.getD_some,Option.getD_some]
    · rw [getElem?_append_right hi,getElem?_append_right (by omega),h,
        getElem?_eq_none_iff.mpr (by omega),Option.getD_none]

end

section Transfer

variable {m : ℕ → β} {off k n a : ℕ} (bs : List β)

/-- A transfer of the next `n` cells of `bs` keeps the first ones and adds its own. -/
theorem store_chunk (h : ∀ i,i < k → i < bs.length → bs[i]? = some (m (off+i))) (ha : off ≤ a)
    (hk : a < off+(k+n)) (hlt : a < off+bs.length) :
    bs[a-off]? = some (store m (off+k) ((bs.drop k).take n) a) := by
  obtain ⟨i,rfl⟩ := Nat.exists_eq_add_of_le ha
  rw [Nat.add_sub_cancel_left]
  rcases Nat.lt_or_ge i k with hi | hi
  · rw [store_of_lt _ _ (by omega)]
    exact h i hi (by omega)
  · obtain ⟨j,rfl⟩ := Nat.exists_eq_add_of_le hi
    rw [← Nat.add_assoc,store_add,getElem?_take_of_lt (by omega),getElem?_drop,
      getElem?_eq_getElem (by omega),Option.getD_some]

theorem store_outside (h : ¬(off ≤ a ∧ a < off+bs.length)) :
    store m (off+k) ((bs.drop k).take n) a = m a := by
  rcases Nat.lt_or_ge a (off+k) with hk | hk
  · exact store_of_lt _ _ hk
  · refine store_of_ge _ _ ?_
    rw [length_take,length_drop]
    omega

theorem store_either : store m (off+k) ((bs.drop k).take n) a = m a ∨
    off ≤ a ∧ bs[a-off]? = some (store m (off+k) ((bs.drop k).take n) a) := by
  rcases Nat.lt_or_ge a (off+k) with hk | hk
  · exact .inl (store_of_lt _ _ hk)
  · obtain ⟨j,rfl⟩ := Nat.exists_eq_add_of_le hk
    rw [store_add,getElem?_take]
    split_ifs with hj
    · rw [getElem?_drop,show off+k+j-off = k+j by omega]
      cases bs[k+j]? with
      | none => exact .inl rfl
      | some v => exact .inr ⟨by omega,rfl⟩
    · exact .inl rfl

end Transfer

/-- The low `w` bytes of a number, least significant first. -/
def leBytes : ℕ → ℕ → List (Fin 256)
  | 0,_ => []
  | w+1,n => ⟨n % 256,Nat.mod_lt _ (by decide)⟩::leBytes w (n/256)

def leNat : List (Fin 256) → ℕ
  | [] => 0
  | b::bs => b.val+256*leNat bs

@[simp] theorem length_leBytes (w n : ℕ) : (leBytes w n).length = w := by
  induction w generalizing n with
  | zero => rfl
  | succ w ih => rw [leBytes,length_cons,ih]

@[simp] theorem drop_leBytes {w k : ℕ} (n : ℕ) (h : w ≤ k) : (leBytes w n).drop k = [] :=
  drop_eq_nil_of_le (by rwa [length_leBytes])

@[simp] theorem take_leBytes {w k : ℕ} (n : ℕ) (h : w ≤ k) : (leBytes w n).take k = leBytes w n :=
  take_of_length_le (by rwa [length_leBytes])

theorem leNat_leBytes (w n : ℕ) : leNat (leBytes w n) = n % 256^w := by
  induction w generalizing n with
  | zero => simp [leBytes,leNat,Nat.mod_one]
  | succ w ih =>
    rw [leBytes,leNat,ih,pow_succ,Nat.mul_comm (256^w),Nat.mod_mul]

theorem leNat_leBytes_of_lt {w n : ℕ} (h : n < 256^w) : leNat (leBytes w n) = n := by
  rw [leNat_leBytes,Nat.mod_eq_of_lt h]

theorem leNat_congr {xs ys : List (Fin 256)} (h : ∀ i : ℕ,(xs[i]?).getD 0 = (ys[i]?).getD 0) :
    leNat xs = leNat ys := by
  induction xs generalizing ys with
  | nil =>
    induction ys with
    | nil => rfl
    | cons y ys ih =>
      have hy : (0 : Fin 256) = y := h 0
      have hys : leNat [] = leNat ys := ih fun i => h (i+1)
      change leNat [] = y.val+256*leNat ys
      rw [← hys,← hy]
      rfl
  | cons x xs ih =>
    cases ys with
    | nil =>
      have hx : x = 0 := h 0
      have hxs : leNat xs = leNat [] := ih fun i => h (i+1)
      change x.val+256*leNat xs = leNat []
      rw [hxs,hx]
      rfl
    | cons y ys =>
      have hx : x = y := h 0
      rw [leNat,leNat,hx,ih fun i => h (i+1)]

end ByteMem
