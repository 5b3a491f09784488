import Mathlib.Data.Finmap
import Mathlib.Data.Finset.Image

/-!
# Finite maps

Maps with finitely many keys, equal when they agree at every key. Every operation is described by
the lookups it answers.
-/

abbrev FinMap (K V : Type*) := Finmap (fun _ : K => V)

namespace FinMap

variable {K V W : Type*} [DecidableEq K]

def getD [Inhabited V] (m : FinMap K V) (k : K) : V := (m.lookup k).getD default

theorem lookup_insert_eq (m : FinMap K V) (k k' : K) (v : V) :
    (m.insert k v).lookup k' = if k' = k then some v else m.lookup k' := by
  by_cases h : k' = k
  · subst h
    simp
  · simp [Finmap.lookup_insert_of_ne m h,h]

theorem lookup_erase_eq (m : FinMap K V) (k k' : K) :
    (m.erase k).lookup k' = if k' = k then none else m.lookup k' := by
  by_cases h : k' = k
  · subst h
    simp
  · simp [Finmap.lookup_erase_ne h,h]

theorem lookup_union_eq (m n : FinMap K V) (k : K) :
    (m ∪ n).lookup k = (m.lookup k).or (n.lookup k) := by
  by_cases h : k ∈ m
  · rw [Finmap.lookup_union_left h]
    obtain ⟨v,hv⟩ := Finmap.mem_iff.mp h
    simp [hv]
  · rw [Finmap.lookup_union_right h,Finmap.lookup_eq_none.mpr h,Option.none_or]

@[simp] theorem getD_empty [Inhabited V] (k : K) : getD (∅ : FinMap K V) k = default := by
  simp [getD]

theorem getD_insert [Inhabited V] (m : FinMap K V) (k k' : K) (v : V) :
    getD (m.insert k v) k' = if k' = k then v else getD m k' := by
  by_cases h : k' = k <;> simp [getD,lookup_insert_eq,h]

theorem getD_of_lookup [Inhabited V] {m : FinMap K V} {k : K} {v : V}
    (h : m.lookup k = some v) : getD m k = v := by
  simp [getD,h]

/-- The map with the given keys, each holding its value under `f`. -/
def ofFinset (s : Finset K) (f : K → V) : FinMap K V where
  entries := s.val.map fun k => ⟨k,f k⟩
  nodupKeys := by
    rw [← Multiset.nodup_keys]
    simpa [Multiset.keys,Multiset.map_map] using s.nodup

theorem lookup_ofFinset (s : Finset K) (f : K → V) (k : K) :
    (ofFinset s f).lookup k = if k ∈ s then some (f k) else none := by
  by_cases h : k ∈ s
  · rw [if_pos h]
    refine Finmap.lookup_eq_some_iff.mpr ?_
    exact Multiset.mem_map.mpr ⟨k,h,rfl⟩
  · rw [if_neg h,Finmap.lookup_eq_none]
    simpa [Finmap.mem_def,ofFinset,Multiset.keys,Multiset.map_map] using h

theorem getD_ofFinset_union [Inhabited V] (s : Finset K) (f : K → V) (m : FinMap K V) (k : K) :
    getD (ofFinset s f ∪ m) k = if k ∈ s then f k else getD m k := by
  rw [getD,lookup_union_eq,lookup_ofFinset]
  split_ifs <;> rfl

def filter (p : K → Prop) [DecidablePred p] (m : FinMap K V) : FinMap K V where
  entries := m.entries.filter fun e => p e.1
  nodupKeys := by
    rw [← Multiset.nodup_keys]
    exact Multiset.nodup_of_le (Multiset.map_le_map (Multiset.filter_le _ _))
      (Multiset.nodup_keys.mpr m.nodupKeys)

theorem lookup_filter (p : K → Prop) [DecidablePred p] (m : FinMap K V) (k : K) :
    (filter p m).lookup k = if p k then m.lookup k else none := by
  ext v
  have hf : v ∈ (filter p m).lookup k ↔ v ∈ m.lookup k ∧ p k := by
    rw [Finmap.mem_lookup_iff,Finmap.mem_lookup_iff]
    exact Multiset.mem_filter
  by_cases h : p k
  · simpa [h] using hf
  · simpa [h] using hf

/-- The map of a partial function on finitely many keys. -/
def ofLookup [Inhabited V] (s : Finset K) (f : K → Option V) : FinMap K V :=
  ofFinset (s.filter fun k => (f k).isSome) fun k => (f k).getD default

theorem lookup_ofLookup [Inhabited V] (s : Finset K) (f : K → Option V) (k : K) :
    (ofLookup s f).lookup k = if k ∈ s then f k else none := by
  rw [ofLookup,lookup_ofFinset]
  cases h : f k <;> by_cases hs : k ∈ s <;> simp [h,hs]

/-- A map under a list of pending writes, where no value stands for a deletion. -/
def overwrite [Inhabited V] (d : FinMap K (Option V)) (m : FinMap K V) : FinMap K V :=
  ofLookup (d.keys ∪ m.keys) fun k => (d.lookup k).getD (m.lookup k)

/-- The part of a map of pairs under one first component. -/
def collect [Inhabited V] {L : Type*} [DecidableEq L] (m : FinMap (K × L) V) (k : K) : FinMap L V :=
  ofLookup (m.keys.image Prod.snd) fun c => m.lookup (k,c)

end FinMap
