import Mathlib.Data.Option.Basic
import Mathlib.Order.Basic
import Syzy.Machine

/-!
Images of a paged file and the patches between them. Pages count from one; one page, the lock page,
has no content. A patch lists page writes, the last of which counts, and the new number of pages.
Patches that write every page they add can be merged, and a merged patch may be applied again to any
image it leads through.
-/

namespace Paged

open List

variable {β : Type*} {lock : ℕ}

def Present (lock commit p : ℕ) : Prop := 0 < p ∧ p ≤ commit ∧ p ≠ lock

instance (lock commit p : ℕ) : Decidable (Present lock commit p) := inferInstanceAs (Decidable (_ ∧ _))

@[ext] structure Image (lock : ℕ) (β : Type*) where
  commit : ℕ
  page : ℕ → Option β
  outside : ∀ p,¬Present lock commit p → page p = none

def Image.Full (img : Image lock β) : Prop := ∀ p,Present lock img.commit p → img.page p ≠ none

theorem Image.Full.exists_page {img : Image lock β} (h : img.Full) {p : ℕ}
    (hp : Present lock img.commit p) : ∃ d,img.page p = some d := Option.ne_none_iff_exists'.mp (h p hp)

def Image.empty : Image lock β := ⟨0,fun _ => none,fun _ _ => rfl⟩

structure Patch (β : Type*) where
  pages : List (ℕ × β)
  commit : ℕ

def lastWrite : List (ℕ × β) → ℕ → Option β
  | [],_ => none
  | w::ws,p => (lastWrite ws p).or (if w.1 = p then some w.2 else none)

def Image.apply (img : Image lock β) (w : Patch β) : Image lock β where
  commit := w.commit
  page p := if Present lock w.commit p then (lastWrite w.pages p).or (img.page p) else none
  outside _ h := if_neg h

@[simp] theorem lastWrite_nil (p : ℕ) : lastWrite ([] : List (ℕ × β)) p = none := rfl

@[simp] theorem lastWrite_append (xs ys : List (ℕ × β)) (p : ℕ) :
    lastWrite (xs++ys) p = (lastWrite ys p).or (lastWrite xs p) := by
  induction xs with
  | nil => simp
  | cons w xs ih => rw [cons_append,lastWrite,ih,lastWrite,Option.or_assoc]

theorem lastWrite_ne_none_iff {ws : List (ℕ × β)} {p : ℕ} :
    lastWrite ws p ≠ none ↔ ∃ w ∈ ws,w.1 = p := by
  induction ws with
  | nil => simp
  | cons w ws ih =>
    rw [lastWrite,Ne,Option.or_eq_none_iff,not_and_or,← Ne,ih]
    simp only [mem_cons,exists_eq_or_imp]
    split_ifs with hp <;> simp [hp]

theorem lastWrite_mem {ws : List (ℕ × β)} {p : ℕ} {d : β} (h : lastWrite ws p = some d) :
    (p,d) ∈ ws := by
  induction ws with
  | nil => exact absurd h (by simp)
  | cons w ws ih =>
    rw [lastWrite,Option.or_eq_some_iff] at h
    rcases h with h | ⟨-,h⟩
    · exact mem_cons_of_mem _ (ih h)
    · split_ifs at h with hp
      rw [← hp,← Option.some.inj h]
      exact mem_cons_self

theorem lastWrite_filter {ws : List (ℕ × β)} {q : ℕ → Bool} (p : ℕ) :
    lastWrite (ws.filter fun w => q w.1) p = if q p then lastWrite ws p else none := by
  induction ws with
  | nil => simp
  | cons w ws ih =>
    by_cases hq : q w.1 = true
    · rw [filter_cons_of_pos (p := fun w : ℕ × β => q w.1) hq,lastWrite,ih,lastWrite]
      by_cases hp : w.1 = p
      · rw [if_pos hp,if_pos (hp ▸ hq),if_pos (hp ▸ hq)]
      · simp [hp]
    · rw [filter_cons_of_neg (p := fun w : ℕ × β => q w.1) hq,ih,lastWrite]
      by_cases hp : w.1 = p
      · rw [if_neg (hp ▸ hq),if_neg (hp ▸ hq)]
      · simp [hp]

section Latest

def insertPage (p : ℕ) (d : β) : List (ℕ × β) → List (ℕ × β)
  | [] => [(p,d)]
  | w::ws =>
    if p < w.1 then (p,d)::w::ws
    else if p = w.1 then (p,d)::ws
    else w::insertPage p d ws

def latest (ws : List (ℕ × β)) : List (ℕ × β) := ws.foldl (fun m w => insertPage w.1 w.2 m) []

abbrev Ascending (ws : List (ℕ × β)) : Prop := ws.Pairwise fun v w => v.1 < w.1

variable {p : ℕ} {d : β} {ws : List (ℕ × β)}

theorem fst_mem_insertPage {w : ℕ × β} (h : w ∈ insertPage p d ws) : w.1 = p ∨ w ∈ ws := by
  induction ws with
  | nil => exact .inl (congrArg Prod.fst (mem_singleton.mp h))
  | cons v ws ih =>
    unfold insertPage at h
    split_ifs at h
    · rcases mem_cons.mp h with rfl | h
      · exact .inl rfl
      · exact .inr h
    · rcases mem_cons.mp h with rfl | h
      · exact .inl rfl
      · exact .inr (mem_cons_of_mem _ h)
    · rcases mem_cons.mp h with rfl | h
      · exact .inr mem_cons_self
      · exact (ih h).imp_right (mem_cons_of_mem _)

theorem Ascending.insertPage (h : Ascending ws) : Ascending (insertPage p d ws) := by
  induction ws with
  | nil => exact pairwise_singleton _ _
  | cons v ws ih =>
    obtain ⟨hv,hws⟩ := pairwise_cons.mp h
    unfold Paged.insertPage
    split_ifs with hlt heq
    · refine pairwise_cons.mpr ⟨fun w hw => ?_,h⟩
      rcases mem_cons.mp hw with rfl | hw
      · exact hlt
      · exact Nat.lt_trans hlt (hv w hw)
    · exact pairwise_cons.mpr ⟨fun w hw => heq ▸ hv w hw,hws⟩
    · refine pairwise_cons.mpr ⟨fun w hw => ?_,ih hws⟩
      rcases fst_mem_insertPage hw with hp | hw
      · omega
      · exact hv w hw

theorem Ascending.lastWrite_eq_none {q : ℕ} (h : ∀ w ∈ ws,q < w.1) : lastWrite ws q = none := by
  by_contra hne
  obtain ⟨w,hw,rfl⟩ := lastWrite_ne_none_iff.mp hne
  exact Nat.lt_irrefl _ (h w hw)

theorem Ascending.lastWrite_eq_some (h : Ascending ws) {w : ℕ × β} (hw : w ∈ ws) :
    lastWrite ws w.1 = some w.2 := by
  induction ws with
  | nil => exact absurd hw not_mem_nil
  | cons v ws ih =>
    obtain ⟨hv,hws⟩ := pairwise_cons.mp h
    rw [lastWrite]
    rcases mem_cons.mp hw with rfl | hw
    · rw [Ascending.lastWrite_eq_none hv,if_pos rfl]
      rfl
    · rw [ih hws hw]
      rfl

theorem lastWrite_insertPage (h : Ascending ws) (q : ℕ) :
    lastWrite (insertPage p d ws) q = (if p = q then some d else none).or (lastWrite ws q) := by
  induction ws with
  | nil => simp [insertPage,lastWrite]
  | cons v ws ih =>
    obtain ⟨hv,hws⟩ := pairwise_cons.mp h
    have hnone : ∀ q,q ≤ v.1 → lastWrite ws q = none := fun q hq =>
      Ascending.lastWrite_eq_none fun w hw => Nat.lt_of_le_of_lt hq (hv w hw)
    unfold insertPage
    by_cases hlt : p < v.1
    · rw [if_pos hlt,lastWrite]
      by_cases hpq : p = q
      · subst hpq
        have hne : v.1 ≠ p := by omega
        simp [lastWrite,hnone p (by omega),hne]
      · simp [hpq]
    · rw [if_neg hlt]
      by_cases heq : p = v.1
      · rw [if_pos heq,lastWrite,lastWrite]
        by_cases hpq : p = q
        · subst hpq
          simp [hnone p (by omega)]
        · have hne : v.1 ≠ q := fun h => hpq (heq.trans h)
          simp [hpq,hne]
      · rw [if_neg heq,lastWrite,ih hws,lastWrite,Option.or_assoc]

theorem latest_spec (ws : List (ℕ × β)) :
    Ascending (latest ws) ∧ ∀ p,lastWrite (latest ws) p = lastWrite ws p := by
  induction ws using reverseRecOn with
  | nil => exact ⟨Pairwise.nil,fun _ => rfl⟩
  | append_singleton ws w ih =>
    rw [latest,foldl_append,foldl_cons,foldl_nil]
    refine ⟨Ascending.insertPage ih.1,fun p => ?_⟩
    exact (lastWrite_insertPage ih.1 p).trans (by rw [ih.2,lastWrite_append]; rfl)

end Latest

@[simp] theorem Image.commit_apply (img : Image lock β) (w : Patch β) :
    (img.apply w).commit = w.commit := rfl

theorem Image.page_apply {img : Image lock β} {w : Patch β} {p : ℕ} (hp : Present lock w.commit p) :
    (img.apply w).page p = (lastWrite w.pages p).or (img.page p) := if_pos hp

def Patch.andThen (v w : Patch β) : Patch β := ⟨v.pages++w.pages,w.commit⟩

/-- The patch writes what its change of size asks for: the first page if the size changes, and each
page that it adds. Where the lock page is skipped, no image ends with it. -/
structure Patch.Complete (skips : Bool) (img : Image lock β) (w : Patch β) : Prop where
  pos : 0 < w.commit
  first : w.commit ≠ img.commit → lastWrite w.pages 1 ≠ none
  grown : ∀ p,img.commit < p → p ≤ w.commit → lastWrite w.pages p ≠ none ∨ skips = true ∧ p = lock
  last : skips = true → w.commit ≠ lock

namespace Patch.Complete

variable {skips : Bool} {img : Image lock β} {v w : Patch β}

theorem written (h : w.Complete skips img) {p : ℕ} (hp : Present lock w.commit p)
    (hlt : img.commit < p) : lastWrite w.pages p ≠ none :=
  (h.grown p hlt hp.2.1).resolve_right fun hl => hp.2.2 hl.2

theorem last_written (h : w.Complete skips img) (hlt : img.commit < w.commit) :
    lastWrite w.pages w.commit ≠ none :=
  (h.grown _ hlt (Nat.le_refl _)).resolve_right fun hl => h.last hl.1 hl.2

theorem full (h : w.Complete skips img) (himg : img.Full) : (img.apply w).Full := by
  intro p hp
  rw [Image.page_apply hp,Ne,Option.or_eq_none_iff]
  rintro ⟨hw,hi⟩
  refine himg p ⟨hp.1,?_,hp.2.2⟩ hi
  by_contra hlt
  exact h.written hp (not_le.mp hlt) hw

theorem andThen (hv : v.Complete skips img) (hw : w.Complete skips (img.apply v)) :
    (v.andThen w).Complete skips img where
  pos := hw.pos
  first := by
    intro hne
    rw [Patch.andThen,lastWrite_append,Ne,Option.or_eq_none_iff]
    rintro ⟨h2,h1⟩
    by_cases hc : w.commit = v.commit
    · exact hv.first (fun h => hne (hc.trans h)) h1
    · exact hw.first hc h2
  grown := by
    intro p hlt hle
    rw [Patch.andThen,lastWrite_append,Ne,Option.or_eq_none_iff,not_and_or]
    rcases Nat.lt_or_ge v.commit p with hp | hp
    · exact (hw.grown p hp hle).imp_left .inl
    · exact (hv.grown p hlt hp).imp_left .inr
  last := hw.last

theorem apply_andThen (hw : w.Complete skips (img.apply v)) :
    (img.apply v).apply w = img.apply (v.andThen w) := by
  refine Image.ext rfl (funext fun p => ?_)
  by_cases hp : Present lock w.commit p
  · rw [Image.page_apply hp,Image.page_apply (w := v.andThen w) hp,Patch.andThen,lastWrite_append,
      Option.or_assoc]
    cases hl : lastWrite w.pages p with
    | some d => rfl
    | none =>
      rw [Option.none_or,Option.none_or,Image.page_apply]
      refine ⟨hp.1,?_,hp.2.2⟩
      by_contra hlt
      exact hw.written hp (not_le.mp hlt) hl
  · exact ((img.apply v).apply w |>.outside p hp).trans ((img.apply (v.andThen w)).outside p hp).symm

theorem absorb (hw : w.Complete skips (img.apply v)) :
    (img.apply v).apply (v.andThen w) = (img.apply v).apply w ∧
      (v.andThen w).Complete skips (img.apply v) := by
  have hc : (v.andThen w).Complete skips (img.apply v) := by
    have hmono : ∀ p,lastWrite w.pages p ≠ none → lastWrite (v.andThen w).pages p ≠ none := by
      intro p hne
      rw [Patch.andThen,lastWrite_append,Ne,Option.or_eq_none_iff]
      exact fun h => hne h.1
    exact ⟨hw.pos,fun hne => hmono 1 (hw.first hne),
      fun p hlt hle => (hw.grown p hlt hle).imp_left (hmono p),hw.last⟩
  refine ⟨?_,hc⟩
  rw [apply_andThen hc,apply_andThen hw]
  refine Image.ext rfl (funext fun p => ?_)
  simp [Image.apply,Patch.andThen,Option.or_assoc]

theorem again (hv : v.Complete skips img) :
    (img.apply v).apply v = img.apply v ∧ v.Complete skips (img.apply v) := by
  have hc : v.Complete skips (img.apply v) :=
    ⟨hv.pos,fun hne => absurd rfl hne,fun p hlt hle => absurd hle (Nat.not_le_of_lt hlt),hv.last⟩
  refine ⟨?_,hc⟩
  rw [apply_andThen hc]
  refine Image.ext rfl (funext fun p => ?_)
  simp [Image.apply,Patch.andThen]

end Patch.Complete

/-- The patch with each page once, in order, and nothing behind its end. -/
def Patch.trim (w : Patch β) : Patch β := ⟨(latest w.pages).filter fun e => e.1 ≤ w.commit,w.commit⟩

section Trim

variable {skips : Bool} {img : Image lock β} {w : Patch β}

theorem Patch.lastWrite_trim {p : ℕ} (hp : p ≤ w.commit) :
    lastWrite w.trim.pages p = lastWrite w.pages p := by
  refine (lastWrite_filter (q := fun p => decide (p ≤ w.commit)) p).trans ?_
  rw [if_pos (decide_eq_true hp),(latest_spec w.pages).2]

theorem Patch.trim_ascending : Ascending w.trim.pages := (latest_spec w.pages).1.filter _

theorem Image.apply_trim : img.apply w.trim = img.apply w := by
  refine Image.ext rfl (funext fun p => ?_)
  by_cases hp : Present lock w.commit p
  · rw [Image.page_apply (w := w.trim) hp,Image.page_apply hp,Patch.lastWrite_trim hp.2.1]
  · exact ((img.apply w.trim).outside p hp).trans ((img.apply w).outside p hp).symm

theorem Patch.Complete.trim (h : w.Complete skips img) : w.trim.Complete skips img where
  pos := h.pos
  first := by
    rw [lastWrite_trim h.pos]
    exact h.first
  grown := by
    intro p hlt hle
    rw [lastWrite_trim (w := w) hle]
    exact h.grown p hlt hle
  last := h.last

theorem Patch.Complete.apply_of_trim_nil (h : w.Complete skips img) (hnil : w.trim.pages = []) :
    img.apply w = img := by
  have hnone : ∀ p,p ≤ w.commit → lastWrite w.pages p = none := by
    intro p hp
    rw [← lastWrite_trim hp,hnil]
    rfl
  have hcommit : w.commit = img.commit := by
    by_contra hne
    exact h.first hne (hnone 1 h.pos)
  refine Image.ext hcommit (funext fun p => ?_)
  by_cases hp : Present lock w.commit p
  · rw [Image.page_apply hp,hnone p hp.2.1,Option.none_or]
  · rw [img.outside p (hcommit ▸ hp)]
    exact (img.apply w).outside p hp

end Trim

def merge (ws : List (Patch β)) : Patch β :=
  ⟨ws.flatMap Patch.pages,((ws.getLast?).map Patch.commit).getD 0⟩

@[simp] theorem merge_pages (ws : List (Patch β)) : (merge ws).pages = ws.flatMap Patch.pages := rfl

theorem merge_append {xs ys : List (Patch β)} (hne : ys ≠ []) :
    merge (xs++ys) = (merge xs).andThen (merge ys) := by
  simp [merge,Patch.andThen,getLast?_append_of_ne_nil xs hne]

@[simp] theorem merge_singleton (w : Patch β) : merge [w] = w := by simp [merge]

variable {skips : Bool} {img : Image lock β} {ws : List (Patch β)}

abbrev Run (skips : Bool) (img : Image lock β) (ws : List (Patch β)) : Prop :=
  Machine.Permitted Image.apply (fun img w => Patch.Complete skips img w) img ws

theorem Run.merge (h : Run skips img ws) (hne : ws ≠ []) :
    ws.foldl Image.apply img = img.apply (merge ws) ∧ (merge ws).Complete skips img := by
  induction ws using reverseRecOn with
  | nil => exact absurd rfl hne
  | append_singleton ws w ih =>
    obtain ⟨hws,hw,-⟩ := Machine.permitted_append.mp h
    rw [foldl_append,foldl_cons,foldl_nil,merge_append (cons_ne_nil w []),merge_singleton]
    by_cases hnil : ws = []
    · subst hnil
      exact ⟨rfl,hw⟩
    · obtain ⟨heq,hc⟩ := ih hws hnil
      rw [heq] at hw ⊢
      exact ⟨hw.apply_andThen,hc.andThen hw⟩

theorem Run.absorb {xs ys : List (Patch β)} (h : Run skips img (xs++ys)) (hne : xs++ys ≠ []) :
    (xs.foldl Image.apply img).apply (Paged.merge (xs++ys)) = (xs++ys).foldl Image.apply img ∧
      (Paged.merge (xs++ys)).Complete skips (xs.foldl Image.apply img) := by
  obtain ⟨hxs,hys⟩ := Machine.permitted_append.mp h
  rw [foldl_append]
  by_cases hx : xs = []
  · subst hx
    obtain ⟨heq,hc⟩ := Run.merge h hne
    exact ⟨heq.symm,hc⟩
  · obtain ⟨heq,hc⟩ := Run.merge hxs hx
    rw [heq] at hys ⊢
    by_cases hy : ys = []
    · subst hy
      rw [append_nil]
      exact hc.again
    · obtain ⟨heq',hc'⟩ := Run.merge hys hy
      rw [heq',merge_append hy]
      exact hc'.absorb

end Paged
