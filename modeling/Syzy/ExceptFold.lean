import Mathlib.Data.List.Basic

/-!
# Folds that may fail

Traversals and left folds in `Except`: what a successful one returns, and the exact step at which
a failing one stopped.
-/

namespace ExceptFold

open List

variable {ε α β σ : Type*}

theorem bind_eq_ok {x : Except ε α} {f : α → Except ε β} {b : β} :
    x.bind f = .ok b ↔ ∃ a,x = .ok a ∧ f a = .ok b := by
  cases x <;> simp [Except.bind]

theorem map_eq_ok {x : Except ε α} {f : α → β} {b : β} :
    x.map f = .ok b ↔ ∃ a,x = .ok a ∧ f a = b := by
  cases x <;> simp [Except.map]

theorem mapM_ok {ε α β : Type} {f : α → Except ε β} {g : α → β} {l : List α}
    (h : ∀ x ∈ l,f x = .ok (g x)) : l.mapM f = .ok (l.map g) := by
  induction l with
  | nil => rfl
  | cons x l ih =>
    rw [mapM_cons,h x (by simp),ih fun y hy => h y (by simp [hy])]
    rfl

theorem mapM_total {ε α β : Type} {f : α → Except ε β} {l : List α} (h : ∀ a ∈ l,∃ b,f a = .ok b) :
    ∃ bs,l.mapM f = .ok bs := by
  induction l with
  | nil => exact ⟨[],rfl⟩
  | cons a l ih =>
    obtain ⟨b,hb⟩ := h a mem_cons_self
    obtain ⟨bs,hbs⟩ := ih fun a' ha' => h a' (mem_cons_of_mem _ ha')
    refine ⟨b::bs,?_⟩
    rw [mapM_cons,hb,hbs]
    rfl

theorem mapM_spec {ε α β : Type} {f : α → Except ε β} {l : List α} {bs : List β} (h : l.mapM f = .ok bs) :
    (∀ a ∈ l,∃ b ∈ bs,f a = .ok b) ∧ ∀ b ∈ bs,∃ a ∈ l,f a = .ok b := by
  induction l generalizing bs with
  | nil =>
    cases h
    simp
  | cons a l ih =>
    rw [mapM_cons] at h
    obtain ⟨b,hb,h⟩ := bind_eq_ok.mp h
    obtain ⟨bs',hbs',h⟩ := bind_eq_ok.mp h
    cases h
    obtain ⟨hsteps,hreturned⟩ := ih hbs'
    refine ⟨fun a' ha' => ?_,fun b' hb' => ?_⟩
    · rcases mem_cons.mp ha' with rfl | ha'
      · exact ⟨b,by simp,hb⟩
      · obtain ⟨b',hb',hfa'⟩ := hsteps a' ha'
        exact ⟨b',by simp [hb'],hfa'⟩
    · rcases mem_cons.mp hb' with rfl | hb'
      · exact ⟨a,by simp,hb⟩
      · obtain ⟨a',ha',hfa'⟩ := hreturned b' hb'
        exact ⟨a',by simp [ha'],hfa'⟩

theorem foldlM_range_ok {f : σ → ℕ → Except ε σ} {g : ℕ → σ} (n : ℕ)
    (h : ∀ k < n,f (g k) (k+1) = .ok (g (k+1))) : (range' 1 n).foldlM f (g 0) = .ok (g n) := by
  induction n with
  | zero => rfl
  | succ n ih =>
    rw [range'_1_concat,foldlM_append,ih fun k hk => h k (Nat.lt_succ_of_lt hk),Nat.add_comm 1 n]
    change (f (g n) (n+1) >>= pure) = _
    rw [h n (Nat.lt_succ_self n)]
    rfl

theorem forM_ok {ε α : Type} {f : α → Except ε PUnit} {l : List α}
    (h : ∀ x ∈ l,f x = .ok ⟨⟩) : l.forM f = .ok ⟨⟩ := by
  induction l with
  | nil => rfl
  | cons x l ih =>
    change (f x).bind (fun _ => l.forM f) = .ok ⟨⟩
    rw [h x (by simp)]
    exact ih fun y hy => h y (by simp [hy])

theorem of_forM_ok {ε α : Type} {f : α → Except ε PUnit} {l : List α} (h : l.forM f = .ok ⟨⟩) :
    ∀ x ∈ l,f x = .ok ⟨⟩ := by
  induction l with
  | nil => exact by simp
  | cons y l ih =>
    obtain ⟨_,hy,hl⟩ := bind_eq_ok.mp h
    intro x hx
    rcases mem_cons.mp hx with rfl | hx
    · exact hy
    · exact ih hl x hx

/-- A fold keeps an invariant of the elements consumed so far, or stops at the first step that
fails, with the invariant of the elements before it. -/
theorem foldlM_invariant {f : σ → α → Except ε σ} {l : List α} {s : σ}
    {I : List α → σ → Prop} (hinit : I [] s)
    (hstep : ∀ pre x post s s',l = pre++x::post → I pre s → f s x = .ok s' → I (pre++[x]) s') :
    (∃ s',l.foldlM f s = .ok s' ∧ I l s') ∨
      ∃ e pre x post s',l.foldlM f s = .error e ∧ l = pre++x::post ∧ I pre s' ∧ f s' x = .error e := by
  have hgen : ∀ (rest pre : List α) (s : σ),l = pre++rest → I pre s →
      (∃ s',rest.foldlM f s = .ok s' ∧ I l s') ∨
        ∃ e pre' x post s',rest.foldlM f s = .error e ∧ l = pre'++x::post ∧ I pre' s' ∧
          f s' x = .error e := by
    intro rest
    induction rest with
    | nil =>
      intro pre s hl hI
      rw [append_nil] at hl
      exact .inl ⟨s,rfl,hl ▸ hI⟩
    | cons x rest ih =>
      intro pre s hl hI
      cases hx : f s x with
      | error e =>
        refine .inr ⟨e,pre,x,rest,s,?_,hl,hI,hx⟩
        simp [foldlM_cons,hx,bind,Except.bind]
      | ok s' =>
        have hnext := hstep pre x rest s s' hl hI hx
        have := ih (pre++[x]) s' (by simp [hl]) hnext
        simpa [foldlM_cons,hx,bind,Except.bind] using this
  exact hgen l [] s rfl hinit

/-- A fold that succeeds keeps an invariant of the elements consumed so far. -/
theorem foldlM_invariant_ok {f : σ → α → Except ε σ} {l : List α} {s s' : σ}
    {I : List α → σ → Prop} (hinit : I [] s)
    (hstep : ∀ pre x post s s',l = pre++x::post → I pre s → f s x = .ok s' → I (pre++[x]) s')
    (h : l.foldlM f s = .ok s') : I l s' := by
  rcases foldlM_invariant hinit hstep with ⟨t,ht,hI⟩ | ⟨e,_,_,_,_,he,-⟩
  · exact Except.ok.inj (ht.symm.trans h) ▸ hI
  · exact absurd (he.symm.trans h) (by simp)

theorem foldlM_keeps {f : σ → α → Except ε σ} {P : σ → Prop} {l : List α} {s s' : σ}
    (hstep : ∀ s a s',P s → f s a = .ok s' → P s') (hs : P s) (h : l.foldlM f s = .ok s') : P s' :=
  foldlM_invariant_ok (I := fun _ => P) hs (fun _ a _ s s' _ hP hok => hstep s a s' hP hok) h

end ExceptFold
