import Mathlib.Data.List.Nodup

/-! Lists of rows with a key: writing the row of a key, and changing it in place. -/

namespace Keyed

open List

variable {α κ : Type*} [DecidableEq κ] (key : α → κ) {x y e : α} {l : List α} {k : κ} {f : α → α}

/-- Append the row, or put it in the place of the row with its key. -/
def upsert (e : α) (l : List α) : List α :=
  if l.any fun x => key x = key e then l.map fun x => if key x = key e then e else x else l++[e]

def modify (k : κ) (f : α → α) (l : List α) : List α :=
  l.map fun x => if key x = k then f x else x

theorem upsert_of_absent (h : ∀ x ∈ l,key x ≠ key e) : upsert key e l = l++[e] :=
  if_neg (by simpa using h)

theorem mem_upsert : x ∈ upsert key e l ↔ x = e ∨ x ∈ l ∧ key x ≠ key e := by
  unfold upsert
  by_cases h : ∃ y ∈ l,key y = key e
  · obtain ⟨y,hy,hkey⟩ := h
    rw [if_pos (by simpa using ⟨y,hy,hkey⟩),mem_map]
    constructor
    · rintro ⟨z,hz,rfl⟩
      by_cases hze : key z = key e
      · exact .inl (if_pos hze)
      · rw [if_neg hze]
        exact .inr ⟨hz,hze⟩
    · rintro (rfl | ⟨hx,hne⟩)
      · exact ⟨y,hy,if_pos hkey⟩
      · exact ⟨x,hx,if_neg hne⟩
  · rw [if_neg (by simpa using h),mem_append,mem_singleton]
    constructor
    · rintro (hx | rfl)
      · exact .inr ⟨hx,fun hne => h ⟨x,hx,hne⟩⟩
      · exact .inl rfl
    · rintro (rfl | ⟨hx,-⟩)
      · exact .inr rfl
      · exact .inl hx

theorem mem_modify : y ∈ modify key k f l ↔ ∃ x ∈ l,y = if key x = k then f x else x := by
  simp [modify,eq_comm]

theorem exists_mem_modify_of_ne (hf : ∀ x,key (f x) = key x) {k' : κ} (hk : k' ≠ k) {P : α → Prop} :
    (∃ y ∈ modify key k f l,key y = k' ∧ P y) ↔ ∃ y ∈ l,key y = k' ∧ P y := by
  constructor
  · rintro ⟨y,hy,rfl,hP⟩
    obtain ⟨x,hx,rfl⟩ := (mem_modify key).mp hy
    by_cases hxk : key x = k
    · rw [if_pos hxk,hf] at hk
      exact absurd hxk hk
    · rw [if_neg hxk] at hP ⊢
      exact ⟨x,hx,rfl,hP⟩
  · rintro ⟨x,hx,rfl,hP⟩
    exact ⟨x,(mem_modify key).mpr ⟨x,hx,(if_neg hk).symm⟩,rfl,hP⟩

theorem nodup_modify (hf : ∀ x,key (f x) = key x) (h : (l.map key).Nodup) :
    ((modify key k f l).map key).Nodup := by
  have hmap : (modify key k f l).map key = l.map key := by
    rw [modify,map_map]
    refine map_congr_left fun x _ => ?_
    by_cases hk : key x = k
    · exact (congrArg key (if_pos hk)).trans (hf x)
    · exact congrArg key (if_neg hk)
  rwa [hmap]

theorem nodup_upsert (h : (l.map key).Nodup) : ((upsert key e l).map key).Nodup := by
  unfold upsert
  by_cases hany : ∃ y ∈ l,key y = key e
  · have hmap : ((l.map fun x => if key x = key e then e else x).map key) = l.map key := by
      rw [map_map]
      refine map_congr_left fun x _ => ?_
      by_cases hx : key x = key e
      · exact (congrArg key (if_pos hx)).trans hx.symm
      · exact congrArg key (if_neg hx)
    rwa [if_pos (by simpa using hany),hmap]
  · rw [if_neg (by simpa using hany),map_append]
    refine h.append (nodup_singleton _) fun k hk he => ?_
    obtain ⟨x,hx,rfl⟩ := mem_map.mp hk
    exact hany ⟨x,hx,by simpa using he⟩

/-- With distinct keys, the row of a key is found whatever the order of the rows. -/
theorem find?_eq_some (h : (l.map key).Nodup) {p : α → Bool} :
    l.find? (fun x => key x = k && p x) = some x ↔ x ∈ l ∧ key x = k ∧ p x = true := by
  constructor
  · intro hfind
    have hp := find?_some hfind
    simp only [Bool.and_eq_true,decide_eq_true_eq] at hp
    exact ⟨mem_of_find?_eq_some hfind,hp⟩
  · rintro ⟨hx,rfl,hpx⟩
    obtain ⟨y,hy⟩ := Option.isSome_iff_exists.mp (find?_isSome.mpr ⟨x,hx,by simp [hpx]⟩ :
      (l.find? fun y => key y = key x && p y).isSome = true)
    have hp := find?_some hy
    simp only [Bool.and_eq_true,decide_eq_true_eq] at hp
    rw [hy,inj_on_of_nodup_map h (mem_of_find?_eq_some hy) hx hp.1]

end Keyed
