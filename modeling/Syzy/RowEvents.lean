import Mathlib.Algebra.Ring.Int.Defs
import Mathlib.Data.List.Nodup
import Syzy.RowChange

/-!
Insertions, updates and deletions of rows at places, gathered in slots by a key of the place. A slot
keeps its first and its last event. The slots are the net effect of the run when every event lands
in the slot that holds its row.
-/

namespace RowEvents

open List Machine

variable {ι κ ρ : Type*}

inductive Event (ι ρ : Type*) where
  | insert (place : ι) (new : ρ)
  | update (place place' : ι) (old new : ρ)
  | delete (place : ι) (old : ρ)
deriving DecidableEq

namespace Event

variable (e : Event ι ρ)

def place : Event ι ρ → ι
  | insert q _ | update q _ _ _ | delete q _ => q

def source : Event ι ρ → Option (ι × ρ)
  | insert _ _ => none
  | update q _ o _ | delete q o => some (q,o)

def target : Event ι ρ → Option (ι × ρ)
  | insert q n | update _ q _ n => some (q,n)
  | delete _ _ => none

abbrev change : Change (ι × ρ) := ⟨e.source,e.target⟩
abbrev sourcePlace : Option ι := e.change.sourcePlace
abbrev targetPlace : Option ι := e.change.targetPlace
abbrev Fits (S : ι → Option ρ) (e : Event ι ρ) : Prop := e.change.Fits S
abbrev exec [DecidableEq ι] (S : ι → Option ρ) (e : Event ι ρ) : ι → Option ρ := e.change.exec S

end Event

/-- The first and the last event recorded under one key. -/
structure Slot (ι κ ρ : Type*) where
  key : κ
  first : Event ι ρ
  last : Event ι ρ
deriving DecidableEq

namespace Slot

variable (s : Slot ι κ ρ)

def old : Option (ι × ρ) := s.first.source
def new : Option (ι × ρ) := s.last.target
abbrev change : Change (ι × ρ) := ⟨s.old,s.new⟩

def Meets (q : ι) : Prop := s.first.sourcePlace = some q ∨ s.last.targetPlace = some q

end Slot

section Touch

variable [DecidableEq κ] (slotOf : ι → κ)

variable (L : List (Slot ι κ ρ)) (e : Event ι ρ)

def setLast (k : κ) (e : Event ι ρ) (s : Slot ι κ ρ) : Slot ι κ ρ :=
  if s.key = k then { s with last := e } else s

def touch : List (Slot ι κ ρ) :=
  if ∃ s ∈ L,s.key = slotOf e.place then L.map (setLast (slotOf e.place) e)
  else L++[⟨slotOf e.place,e,e⟩]

/-- The event's slot, and no other, holds the row it takes away. -/
def Follows : Prop :=
  ∀ s ∈ L,(s.key = slotOf e.place → s.last.targetPlace = e.sourcePlace) ∧
    (s.key ≠ slotOf e.place → e.sourcePlace ≠ none → s.last.targetPlace ≠ e.sourcePlace)

instance [DecidableEq ι] (L : List (Slot ι κ ρ)) (e : Event ι ρ) : Decidable (Follows slotOf L e) := by
  unfold Follows
  infer_instance

@[simp] theorem key_setLast (k : κ) (e : Event ι ρ) (s : Slot ι κ ρ) : (setLast k e s).key = s.key := by
  unfold setLast
  split_ifs <;> rfl

@[simp] theorem first_setLast (k : κ) (e : Event ι ρ) (s : Slot ι κ ρ) :
    (setLast k e s).first = s.first := by
  unfold setLast
  split_ifs <;> rfl

variable {k : κ} {s : Slot ι κ ρ}

theorem setLast_self (h : s.key = k) :
    setLast k e s = { s with last := e } := if_pos h

theorem setLast_other (h : s.key ≠ k) : setLast k e s = s :=
  if_neg h

theorem nodup_touch {slotOf : ι → κ} {L : List (Slot ι κ ρ)} (h : (L.map Slot.key).Nodup)
    (e : Event ι ρ) : ((touch slotOf L e).map Slot.key).Nodup := by
  by_cases hmem : ∃ s ∈ L,s.key = slotOf e.place
  · rw [touch,if_pos hmem]
    simpa [Function.comp_def] using h
  · rw [touch,if_neg hmem,map_append,nodup_append]
    refine ⟨h,nodup_singleton _,fun k hk k' hk' heq => ?_⟩
    obtain ⟨t,ht,rfl⟩ := mem_map.mp hk
    exact hmem ⟨t,ht,heq.trans (mem_singleton.mp hk')⟩

/-- The event's slot, if it is there, holds the row the event takes away. -/
def Continues : Prop :=
  ∀ s ∈ L,s.key = slotOf e.place → s.new = e.source

instance [DecidableEq ι] [DecidableEq ρ] (L : List (Slot ι κ ρ)) (e : Event ι ρ) :
    Decidable (Continues slotOf L e) := by
  unfold Continues
  infer_instance

variable {slotOf} {α : Type*} [DecidableEq α] {g : ι × ρ → Option α}

theorem gain_setLast {e : Event ι ρ} (hk : s.key = k) (h : s.new = e.source) (x : α) :
    ((setLast k e s).change.bind g).gain x = (s.change.bind g).gain x+(e.change.bind g).gain x := by
  rw [setLast_self e hk]
  simp only [Change.gain,Change.bind,h]
  exact (sub_add_sub_cancel' _ _ _).symm

theorem gain_touch {L : List (Slot ι κ ρ)} {e : Event ι ρ} (hnodup : (L.map Slot.key).Nodup)
    (h : Continues slotOf L e) (x : α) :
    ((touch slotOf L e).map fun s => (s.change.bind g).gain x).sum =
      (L.map fun s => (s.change.bind g).gain x).sum+(e.change.bind g).gain x := by
  by_cases hmem : ∃ s ∈ L,s.key = slotOf e.place
  · rw [touch,if_pos hmem]
    induction L with
    | nil => exact absurd hmem (by simp)
    | cons t L ih =>
      obtain ⟨hne,hnodup⟩ := nodup_cons.mp hnodup
      have hrest : Continues slotOf L e := fun s hs => h s (mem_cons_of_mem _ hs)
      rw [map_cons,map_cons,map_cons,sum_cons,sum_cons]
      by_cases hk : t.key = slotOf e.place
      · have hsame : L.map (setLast (slotOf e.place) e) = L := by
          refine (map_congr_left fun s hs => setLast_other e fun hsk => ?_).trans (map_id L)
          exact hne (mem_map.mpr ⟨s,hs,hsk.trans hk.symm⟩)
        rw [hsame,gain_setLast hk (h t mem_cons_self hk)]
        omega
      · have hmem' : ∃ s ∈ L,s.key = slotOf e.place := by
          obtain ⟨s,hs,hsk⟩ := hmem
          rcases mem_cons.mp hs with rfl | hs
          · exact absurd hsk hk
          · exact ⟨s,hs,hsk⟩
        rw [setLast_other e hk,ih hnodup hrest hmem']
        omega
  · rw [touch,if_neg hmem,map_append,sum_append]
    simp [Slot.change,Slot.old,Slot.new]

end Touch

/-- The slots are the net effect: each row of either state stands in one slot, or in both states
untouched. -/
structure Net (S₀ S : ι → Option ρ) (L : List (Slot ι κ ρ)) : Prop where
  nodup : (L.map Slot.key).Nodup
  old_mem : ∀ s ∈ L,∀ x ∈ s.old,S₀ x.1 = some x.2
  new_mem : ∀ s ∈ L,∀ x ∈ s.new,S x.1 = some x.2
  old_inj : ∀ s ∈ L,∀ t ∈ L,∀ q,s.first.sourcePlace = some q → t.first.sourcePlace = some q →
    s.key = t.key
  new_inj : ∀ s ∈ L,∀ t ∈ L,∀ q,s.last.targetPlace = some q → t.last.targetPlace = some q →
    s.key = t.key
  old_cover : ∀ q o,S₀ q = some o → (∃ s ∈ L,s.old = some (q,o)) ∨ S q = some o ∧ ∀ s ∈ L,¬s.Meets q
  new_cover : ∀ q n,S q = some n → (∃ s ∈ L,s.new = some (q,n)) ∨ S₀ q = some n ∧ ∀ s ∈ L,¬s.Meets q

namespace Net

theorem refl (S : ι → Option ρ) : Net S S ([] : List (Slot ι κ ρ)) where
  nodup := nodup_nil
  old_mem := by simp
  new_mem := by simp
  old_inj := by simp
  new_inj := by simp
  old_cover := fun _ _ h => .inr ⟨h,by simp⟩
  new_cover := fun _ _ h => .inr ⟨h,by simp⟩

theorem eq_of_key {S₀ S : ι → Option ρ} {L : List (Slot ι κ ρ)} (h : Net S₀ S L) {s t : Slot ι κ ρ}
    (hs : s ∈ L) (ht : t ∈ L) (hkey : s.key = t.key) : s = t :=
  inj_on_of_nodup_map h.nodup hs ht hkey

variable [DecidableEq ι] {S₀ S : ι → Option ρ} {L : List (Slot ι κ ρ)} {e : Event ι ρ}

theorem exec_other_slot (h : Net S₀ S L) (hfits : e.Fits S) {t : Slot ι κ ρ} (ht : t ∈ L) {x : ι × ρ}
    (hx : t.new = some x) (hne : e.sourcePlace ≠ none → t.last.targetPlace ≠ e.sourcePlace) :
    e.targetPlace ≠ some x.1 ∧ e.exec S x.1 = some x.2 := by
  have hS := h.new_mem t ht x hx
  have hplace : t.last.targetPlace = some x.1 := congrArg (Option.map Prod.fst) hx
  have hsrc : e.sourcePlace ≠ some x.1 := by
    intro hsrc
    refine hne ?_ (hplace.trans hsrc.symm)
    rw [hsrc]
    exact Option.some_ne_none _
  have htgt := hfits.targetPlace_ne hS hsrc
  exact ⟨htgt,(Change.exec_other S htgt hsrc).trans hS⟩

variable {slotOf : ι → κ} (h : Net S₀ S L) (hfits : e.Fits S) (hfollows : Follows slotOf L e)
include h hfits hfollows

/-- The event's row cannot stand where another slot's does. -/
theorem targetPlace_ne {t : Slot ι κ ρ} (ht : t ∈ L) (hk : t.key ≠ slotOf e.place) {q : ι}
    (hq : t.last.targetPlace = some q) : e.targetPlace ≠ some q := by
  obtain ⟨x,hx,rfl⟩ := Option.map_eq_some_iff.mp hq
  exact (h.exec_other_slot hfits ht hx ((hfollows t ht).2 hk)).1

variable [DecidableEq κ]

theorem touch_old (hmem : ∃ s ∈ L,s.key = slotOf e.place) :
    Net S₀ (e.exec S) (touch slotOf L e) := by
  obtain ⟨s,hs,hkey⟩ := hmem
  have hplace : s.last.targetPlace = e.sourcePlace := (hfollows s hs).1 hkey
  have hother : ∀ t ∈ L,t.key ≠ slotOf e.place → e.sourcePlace ≠ none →
      t.last.targetPlace ≠ e.sourcePlace := fun t ht => (hfollows t ht).2
  have hthis : ∀ t ∈ L,t.key = slotOf e.place → t = s := fun t ht hk =>
    h.eq_of_key ht hs (hk.trans hkey.symm)
  -- A row that no slot meets is out of the event's reach.
  have huntouched : ∀ q n,S q = some n → (∀ t ∈ L,¬t.Meets q) →
      e.targetPlace ≠ some q ∧ e.exec S q = some n := by
    intro q n hq hmeets
    have hsrc : e.sourcePlace ≠ some q := fun hsrc => hmeets s hs (.inr (hplace.trans hsrc))
    have htgt := hfits.targetPlace_ne hq hsrc
    exact ⟨htgt,(Change.exec_other S htgt hsrc).trans hq⟩
  have hmeets : ∀ q,(∀ t ∈ L,¬t.Meets q) → e.targetPlace ≠ some q →
      ∀ t ∈ L.map (setLast (slotOf e.place) e),¬t.Meets q := by
    intro q hq htgt t ht
    obtain ⟨t,ht',rfl⟩ := mem_map.mp ht
    by_cases hk : t.key = slotOf e.place
    · rw [setLast_self e hk]
      exact fun hm => hm.elim (fun hm => hq t ht' (.inl hm)) htgt
    · rw [setLast_other e hk]
      exact hq t ht'
  rw [touch,if_pos ⟨s,hs,hkey⟩]
  refine ⟨?_,?_,?_,?_,?_,?_,?_⟩
  · simpa [Function.comp_def] using h.nodup
  · intro t ht x hx
    obtain ⟨t,ht',rfl⟩ := mem_map.mp ht
    rw [Slot.old,first_setLast] at hx
    exact h.old_mem t ht' x hx
  · intro t ht x hx
    obtain ⟨t,ht',rfl⟩ := mem_map.mp ht
    by_cases hk : t.key = slotOf e.place
    · rw [setLast_self e hk] at hx
      exact Change.exec_target S hx
    · rw [setLast_other e hk] at hx
      exact (h.exec_other_slot hfits ht' hx (hother t ht' hk)).2
  · intro t ht u hu q hq hq'
    obtain ⟨t,ht',rfl⟩ := mem_map.mp ht
    obtain ⟨u,hu',rfl⟩ := mem_map.mp hu
    rw [first_setLast] at hq hq'
    rw [key_setLast,key_setLast]
    exact h.old_inj t ht' u hu' q hq hq'
  · intro t ht u hu q hq hq'
    obtain ⟨t,ht',rfl⟩ := mem_map.mp ht
    obtain ⟨u,hu',rfl⟩ := mem_map.mp hu
    rw [key_setLast,key_setLast]
    by_cases hk : t.key = slotOf e.place
    · by_cases hk' : u.key = slotOf e.place
      · exact hk.trans hk'.symm
      · rw [setLast_self e hk] at hq
        rw [setLast_other e hk'] at hq'
        exact absurd hq (h.targetPlace_ne hfits hfollows hu' hk' hq')
    · rw [setLast_other e hk] at hq
      by_cases hk' : u.key = slotOf e.place
      · rw [setLast_self e hk'] at hq'
        exact absurd hq' (h.targetPlace_ne hfits hfollows ht' hk hq)
      · rw [setLast_other e hk'] at hq'
        exact h.new_inj t ht' u hu' q hq hq'
  · intro q o hq
    rcases h.old_cover q o hq with ⟨t,ht,hold⟩ | ⟨hS,hun⟩
    · refine .inl ⟨setLast (slotOf e.place) e t,mem_map_of_mem ht,?_⟩
      rw [Slot.old,first_setLast]
      exact hold
    · obtain ⟨htgt,hexec⟩ := huntouched q o hS hun
      exact .inr ⟨hexec,hmeets q hun htgt⟩
  · intro q n hq
    rcases Change.exec_eq_some hq with htgt | ⟨htgt,hsrc,hS⟩
    · refine .inl ⟨setLast (slotOf e.place) e s,mem_map_of_mem hs,?_⟩
      rw [setLast_self e hkey]
      exact htgt
    · rcases h.new_cover q n hS with ⟨t,ht,hnew⟩ | ⟨hS₀,hun⟩
      · have hk : t.key ≠ slotOf e.place := by
          intro hk
          rw [hthis t ht hk] at hnew
          exact hsrc (hplace.symm.trans (congrArg (Option.map Prod.fst) hnew))
        refine .inl ⟨setLast (slotOf e.place) e t,mem_map_of_mem ht,?_⟩
        rw [setLast_other e hk]
        exact hnew
      · exact .inr ⟨hS₀,hmeets q hun htgt⟩

theorem touch_new (hmem : ¬∃ s ∈ L,s.key = slotOf e.place) :
    Net S₀ (e.exec S) (touch slotOf L e) := by
  have hkey : ∀ t ∈ L,t.key ≠ slotOf e.place := fun t ht hk => hmem ⟨t,ht,hk⟩
  have hother : ∀ t ∈ L,e.sourcePlace ≠ none → t.last.targetPlace ≠ e.sourcePlace := fun t ht =>
    (hfollows t ht).2 (hkey t ht)
  -- The row the event takes away is one of the first state's, and untouched.
  have hfresh : ∀ x,e.source = some x → S₀ x.1 = some x.2 ∧ ∀ t ∈ L,¬t.Meets x.1 := by
    intro x hx
    have hplace : e.sourcePlace = some x.1 := congrArg (Option.map Prod.fst) hx
    rcases h.new_cover x.1 x.2 (hfits.1 x hx) with ⟨t,ht,hnew⟩ | hun
    · refine absurd ?_ (hother t ht (by rw [hplace]; exact Option.some_ne_none _))
      rw [hplace]
      exact congrArg (Option.map Prod.fst) hnew
    · exact hun
  have hfreshPlace : ∀ q,e.sourcePlace = some q → ∀ t ∈ L,¬t.Meets q := by
    intro q hq
    obtain ⟨x,hx,rfl⟩ := Option.map_eq_some_iff.mp hq
    exact (hfresh x hx).2
  have hmeets : ∀ q,(∀ t ∈ L,¬t.Meets q) → e.targetPlace ≠ some q → e.sourcePlace ≠ some q →
      ∀ t ∈ L++[⟨slotOf e.place,e,e⟩],¬t.Meets q := by
    intro q hq htgt hsrc t ht
    rcases mem_concat.mp ht with ht | rfl
    · exact hq t ht
    · exact fun hm => hm.elim hsrc htgt
  rw [touch,if_neg hmem]
  refine ⟨?_,?_,?_,?_,?_,?_,?_⟩
  · rw [map_append,nodup_append]
    refine ⟨h.nodup,nodup_singleton _,fun k hk k' hk' => ?_⟩
    obtain ⟨t,ht,rfl⟩ := mem_map.mp hk
    rw [mem_singleton.mp hk']
    exact hkey t ht
  · intro t ht x hx
    rcases mem_concat.mp ht with ht | rfl
    · exact h.old_mem t ht x hx
    · exact (hfresh x hx).1
  · intro t ht x hx
    rcases mem_concat.mp ht with ht | rfl
    · exact (h.exec_other_slot hfits ht hx (hother t ht)).2
    · exact Change.exec_target S hx
  · intro t ht u hu q hq hq'
    rcases mem_concat.mp ht with ht | rfl
    · rcases mem_concat.mp hu with hu | rfl
      · exact h.old_inj t ht u hu q hq hq'
      · exact absurd (.inl hq) (hfreshPlace q hq' t ht)
    · rcases mem_concat.mp hu with hu | rfl
      · exact absurd (.inl hq') (hfreshPlace q hq u hu)
      · rfl
  · intro t ht u hu q hq hq'
    rcases mem_concat.mp ht with ht | rfl
    · rcases mem_concat.mp hu with hu | rfl
      · exact h.new_inj t ht u hu q hq hq'
      · exact absurd hq' (h.targetPlace_ne hfits hfollows ht (hkey t ht) hq)
    · rcases mem_concat.mp hu with hu | rfl
      · exact absurd hq (h.targetPlace_ne hfits hfollows hu (hkey u hu) hq')
      · rfl
  · intro q o hq
    rcases h.old_cover q o hq with ⟨t,ht,hold⟩ | ⟨hS,hun⟩
    · exact .inl ⟨t,mem_append_left _ ht,hold⟩
    · by_cases hsrc : e.sourcePlace = some q
      · obtain ⟨x,hx,rfl⟩ := Option.map_eq_some_iff.mp hsrc
        have ho : x.2 = o := Option.some.inj ((hfits.1 x hx).symm.trans hS)
        refine .inl ⟨⟨slotOf e.place,e,e⟩,mem_append_right _ (mem_singleton.mpr rfl),?_⟩
        rw [← ho]
        exact hx
      · have htgt := hfits.targetPlace_ne hS hsrc
        exact .inr ⟨(Change.exec_other S htgt hsrc).trans hS,hmeets q hun htgt hsrc⟩
  · intro q n hq
    rcases Change.exec_eq_some hq with htgt | ⟨htgt,hsrc,hS⟩
    · exact .inl ⟨⟨slotOf e.place,e,e⟩,mem_append_right _ (mem_singleton.mpr rfl),htgt⟩
    · rcases h.new_cover q n hS with ⟨t,ht,hnew⟩ | ⟨hS₀,hun⟩
      · exact .inl ⟨t,mem_append_left _ ht,hnew⟩
      · exact .inr ⟨hS₀,hmeets q hun htgt hsrc⟩

theorem touch : Net S₀ (e.exec S) (touch slotOf L e) := by
  by_cases hmem : ∃ s ∈ L,s.key = slotOf e.place
  · exact h.touch_old hfits hfollows hmem
  · exact h.touch_new hfits hfollows hmem

end Net

section Runs

variable [DecidableEq κ] (slotOf : ι → κ)

variable (S : ι → Option ρ)

def slots (es : List (Event ι ρ)) : List (Slot ι κ ρ) := es.foldl (touch slotOf) []

def Followed (es : List (Event ι ρ)) : Prop := Permitted (touch slotOf) (Follows slotOf) [] es

instance [DecidableEq ι] (es : List (Event ι ρ)) : Decidable (Followed slotOf es) := by
  unfold Followed
  infer_instance

/-- No slot takes up another row than the one it holds. -/
def OneRow (es : List (Event ι ρ)) : Prop := Permitted (touch slotOf) (Continues slotOf) [] es

instance [DecidableEq ι] [DecidableEq ρ] (es : List (Event ι ρ)) : Decidable (OneRow slotOf es) := by
  unfold OneRow
  infer_instance

variable {es : List (Event ι ρ)} {x : ι × ρ}

theorem gain_run {slotOf : ι → κ} {α : Type*} [DecidableEq α] {g : ι × ρ → Option α}
    {L : List (Slot ι κ ρ)} (hnodup : (L.map Slot.key).Nodup)
    (h : Permitted (touch slotOf) (Continues slotOf) L es) (x : α) :
    ((es.foldl (touch slotOf) L).map fun s => (s.change.bind g).gain x).sum =
      (L.map fun s => (s.change.bind g).gain x).sum+(es.map fun e => (e.change.bind g).gain x).sum := by
  induction es generalizing L with
  | nil => simp
  | cons e es ih =>
    rw [foldl_cons,ih (nodup_touch hnodup e) h.2,gain_touch hnodup h.1,map_cons,sum_cons,add_assoc]

theorem gain_slots {slotOf : ι → κ} {α : Type*} [DecidableEq α] {g : ι × ρ → Option α}
    (h : OneRow slotOf es) (x : α) :
    ((slots slotOf es).map fun s => (s.change.bind g).gain x).sum =
      (es.map fun e => (e.change.bind g).gain x).sum := by
  have hnil : (([] : List (Slot ι κ ρ)).map Slot.key).Nodup := nodup_nil
  rw [slots,gain_run hnil h]
  simp

theorem mem_slots {slotOf : ι → κ} {s : Slot ι κ ρ} (h : s ∈ slots slotOf es) :
    s.first ∈ es ∧ s.last ∈ es ∧ s.key = slotOf s.first.place ∧ s.key = slotOf s.last.place := by
  induction es using reverseRecOn generalizing s with
  | nil => exact absurd h not_mem_nil
  | append_singleton es e ih =>
    rw [slots,foldl_concat] at h
    unfold touch at h
    split_ifs at h
    · obtain ⟨t,ht,rfl⟩ := mem_map.mp h
      obtain ⟨hfirst,hlast,hkey,hkey'⟩ := ih ht
      rw [key_setLast,first_setLast]
      by_cases hk : t.key = slotOf e.place
      · rw [setLast_self e hk]
        exact ⟨mem_append_left _ hfirst,mem_append_right _ (mem_singleton.mpr rfl),hkey,hk⟩
      · rw [setLast_other e hk]
        exact ⟨mem_append_left _ hfirst,mem_append_left _ hlast,hkey,hkey'⟩
    · rcases mem_append.mp h with h | h
      · obtain ⟨hfirst,hlast,hkey,hkey'⟩ := ih h
        exact ⟨mem_append_left _ hfirst,mem_append_left _ hlast,hkey,hkey'⟩
      · have he : e ∈ es++[e] := mem_append_right _ (mem_singleton.mpr rfl)
        rw [mem_singleton.mp h]
        exact ⟨he,he,rfl,rfl⟩

variable [DecidableEq ι]

def Consistent (es : List (Event ι ρ)) : Prop := Permitted Event.exec Event.Fits S es

instance [DecidableEq ρ] (S : ι → Option ρ) (es : List (Event ι ρ)) : Decidable (Consistent S es) := by
  unfold Consistent
  infer_instance

def after (es : List (Event ι ρ)) : ι → Option ρ := es.foldl Event.exec S

theorem Consistent.source_held {S : ι → Option ρ} (h : Consistent S es) {e : Event ι ρ}
    (he : e ∈ es) (hx : e.source = some x) :
    ∃ t,t <+: es ∧ after S t x.1 = some x.2 := by
  obtain ⟨A,B,rfl⟩ := append_of_mem he
  exact ⟨A,⟨e::B,rfl⟩,(permitted_append.mp h).2.1.1 x hx⟩

theorem target_held {S : ι → Option ρ} {e : Event ι ρ} (he : e ∈ es) (hx : e.target = some x) :
    ∃ t,t <+: es ∧ after S t x.1 = some x.2 := by
  obtain ⟨A,B,rfl⟩ := append_of_mem he
  refine ⟨A++[e],⟨B,by simp⟩,?_⟩
  rw [after,foldl_concat]
  exact Change.exec_target _ hx

theorem Net.run {slotOf : ι → κ} {S₀ S : ι → Option ρ} {L : List (Slot ι κ ρ)} (h : Net S₀ S L)
    (hcons : Permitted Event.exec Event.Fits S es)
    (hfol : Permitted (RowEvents.touch slotOf) (Follows slotOf) L es) :
    Net S₀ (es.foldl Event.exec S) (es.foldl (RowEvents.touch slotOf) L) := by
  induction es generalizing S L with
  | nil => exact h
  | cons e es ih => exact ih (h.touch hcons.1 hfol.1) hcons.2 hfol.2

theorem net_slots {slotOf : ι → κ} {S : ι → Option ρ} (hcons : Consistent S es)
    (hfol : Followed slotOf es) : Net S (after S es) (slots slotOf es) :=
  (Net.refl S).run hcons hfol

end Runs

section Lists

variable [DecidableEq ι]

def ofList (l : List (ι × ρ)) : ι → Option ρ := fun q => l.lookup q

theorem mem_of_lookup {α β : Type*} [DecidableEq α] {l : List (α × β)} {a : α} {b : β}
    (h : l.lookup a = some b) : (a,b) ∈ l := by
  induction l with
  | nil => exact absurd h (by simp)
  | cons x l ih =>
    rw [lookup_cons] at h
    split at h
    · rename_i hx
      rw [← Option.some.inj h,eq_of_beq hx]
      exact mem_cons_self
    · exact mem_cons_of_mem _ (ih h)

variable {es : List (Event ι ρ)} {l : List (ι × ρ)} {x : ι × ρ}

theorem mem_after (h : after (ofList l) es x.1 = some x.2) : x ∈ l++es.filterMap Event.target := by
  induction es using reverseRecOn with
  | nil => simpa using mem_of_lookup h
  | append_singleton es e ih =>
    rw [after,foldl_concat] at h
    rw [filterMap_append]
    rcases Change.exec_eq_some h with htgt | ⟨-,-,hS⟩
    · exact mem_append_right _ (mem_append_right _ (by simpa using htgt))
    · rcases mem_append.mp (ih hS) with hx | hx
      · exact mem_append_left _ hx
      · exact mem_append_right _ (mem_append_left _ hx)

theorem mem_of_initial {t : List (Event ι ρ)} (ht : t <+: es)
    (h : after (ofList l) t x.1 = some x.2) : x ∈ l++es.filterMap Event.target := by
  rcases mem_append.mp (mem_after h) with hx | hx
  · exact mem_append_left _ hx
  · exact mem_append_right _ ((ht.filterMap _).subset hx)

end Lists

section Filter

variable [DecidableEq ι] (p : ι → Bool)

/-- An event stays on its side of a partition of the places. -/
def Event.Stays (e : Event ι ρ) : Prop :=
  (∀ q,e.sourcePlace = some q → p q = p e.place) ∧ ∀ q,e.targetPlace = some q → p q = p e.place

variable {p}

theorem Event.exec_agree {e : Event ι ρ} {S S' : ι → Option ρ} (h : ∀ q,p q = true → S q = S' q) :
    ∀ q,p q = true → e.exec S q = e.exec S' q := by
  intro q hq
  unfold Event.exec Change.exec
  rw [h q hq]

theorem Event.exec_outside {e : Event ι ρ} (hstay : e.Stays p) (he : p e.place = false)
    (S : ι → Option ρ) {q : ι} (hq : p q = true) : e.exec S q = S q := by
  refine Change.exec_other S (fun ht => ?_) fun hs => ?_
  · have := hstay.2 q ht
    simp [hq,he] at this
  · have := hstay.1 q hs
    simp [hq,he] at this

theorem consistent_filter {es : List (Event ι ρ)} (hstay : ∀ e ∈ es,e.Stays p) {S S' : ι → Option ρ}
    (hagree : ∀ q,p q = true → S q = S' q) (hcons : Consistent S es) :
    Consistent S' (es.filter fun e => p e.place) ∧
      ∀ q,p q = true → after S es q = after S' (es.filter fun e => p e.place) q := by
  induction es generalizing S S' with
  | nil => exact ⟨trivial,hagree⟩
  | cons e es ih =>
    have hrest : ∀ e ∈ es,e.Stays p := fun e' he' => hstay e' (mem_cons_of_mem _ he')
    have he := hstay e mem_cons_self
    cases hp : p e.place with
    | false =>
      rw [filter_cons_of_neg (by simp [hp])]
      exact ih hrest (fun q hq => (Event.exec_outside he hp S hq).trans (hagree q hq)) hcons.2
    | true =>
      rw [filter_cons_of_pos (by simpa using hp)]
      obtain ⟨hc,ha⟩ := ih hrest (Event.exec_agree hagree) hcons.2
      refine ⟨⟨⟨fun x hx => ?_,fun x hx => ?_⟩,hc⟩,ha⟩
      · have hpx : p x.1 = true := (he.1 x.1 (congrArg (Option.map Prod.fst) hx)).trans hp
        rw [← hagree x.1 hpx]
        exact hcons.1.1 x hx
      · have hpx : p x.1 = true := (he.2 x.1 (congrArg (Option.map Prod.fst) hx)).trans hp
        rw [← hagree x.1 hpx]
        exact hcons.1.2 x hx

end Filter

end RowEvents
