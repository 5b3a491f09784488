import Syzy.Machine
import Mathlib.Data.List.Nodup

/-!
One object of a store with conditional writes. Operations load some version, decide what to write,
and write only if the current version still has the etag they expect. Etags may be hashes: two
versions with one etag have the same content.
-/

namespace Cas

open List

/-- A stored version and the operation that wrote it. -/
structure Version (α ε ω : Type) where
  content : α
  etag : ε
  writer : ω
deriving DecidableEq

/-- What a conditional write expects of the object. -/
inductive Expect (ε : Type) where
  | absent
  | etag (e : ε)
deriving DecidableEq

variable {α ε ω : Type}

def Expect.Met (vs : List (Version α ε ω)) : Expect ε → Prop
  | .absent => vs = []
  | .etag e => vs.getLast?.map Version.etag = some e

instance [DecidableEq ε] (vs : List (Version α ε ω)) (x : Expect ε) : Decidable (x.Met vs) :=
  match x with
  | .absent => decidable_of_iff (vs.isEmpty = true) isEmpty_iff
  | .etag e => inferInstanceAs (Decidable (vs.getLast?.map Version.etag = some e))

/-- The versions of the object, oldest first, and the operations that have loaded one of them and not
written yet. -/
structure Object (α ε ω : Type) where
  versions : List (Version α ε ω)
  pending : List (ω × Option (Version α ε ω))

/-- A load may be served from a replica that lags behind. The store picks the etag of a write. -/
inductive Action (ε ω : Type) where
  | load (op : ω) (seen : ℕ)
  | put (i : ℕ) (etag : ε)

/-- What an operation tries to write after it has loaded a version. -/
abbrev Writer (α ε ω : Type) := ω → Option (Version α ε ω) → Option (Expect ε × α)

namespace Object

def empty : Object α ε ω := ⟨[],[]⟩

def attempt (write : Writer α ε ω) (o : Object α ε ω) (i : ℕ) : Option (ω × Expect ε × α) :=
  o.pending[i]?.bind fun p => (write p.1 p.2).map fun w => (p.1,w)

def step [DecidableEq ε] (write : Writer α ε ω) (o : Object α ε ω) : Action ε ω → Object α ε ω
  | .load op seen => { o with pending := o.pending++[(op,(o.versions.take seen).getLast?)] }
  | .put i etag =>
    match o.attempt write i with
    | none => { o with pending := o.pending.eraseIdx i }
    | some (op,x,c) =>
      if x.Met o.versions then ⟨o.versions++[⟨c,etag,op⟩],o.pending.eraseIdx i⟩
      else { o with pending := o.pending.eraseIdx i }

end Object

def Faithful (vs : List (Version α ε ω)) : Prop :=
  ∀ v ∈ vs,∀ w ∈ vs,v.etag = w.etag → v.content = w.content

/-- The store gives a write an etag that no other content has. -/
def Honest (write : Writer α ε ω) (o : Object α ε ω) : Action ε ω → Prop
  | .load _ _ => True
  | .put i etag => ∀ w ∈ o.attempt write i,∀ v ∈ o.versions,v.etag = etag → v.content = w.2.2

instance [DecidableEq α] [DecidableEq ε] (write : Writer α ε ω) (o : Object α ε ω) (a : Action ε ω) :
    Decidable (Honest write o a) :=
  match a with
  | .load _ _ => inferInstanceAs (Decidable True)
  | .put i etag => inferInstanceAs
      (Decidable (∀ w ∈ o.attempt write i,∀ v ∈ o.versions,v.etag = etag → v.content = w.2.2))

/-- An expected etag that some version has is met only under that version's content. -/
theorem Faithful.content_of_met {vs : List (Version α ε ω)} (h : Faithful vs) {v : Version α ε ω}
    (hv : v ∈ vs) (hmet : (Expect.etag v.etag).Met vs) :
    ∃ w,vs.getLast? = some w ∧ w.content = v.content := by
  obtain ⟨w,hw,hetag⟩ := Option.map_eq_some_iff.mp hmet
  exact ⟨w,hw,h w (mem_of_getLast? hw) v hv hetag⟩

/-- The etags tell contents apart, and what was loaded is stored. -/
structure Object.Sound (o : Object α ε ω) : Prop where
  faithful : Faithful o.versions
  loaded : ∀ p ∈ o.pending,∀ v,p.2 = some v → v ∈ o.versions

theorem Object.sound_empty : (empty : Object α ε ω).Sound :=
  ⟨fun _ hv => absurd hv not_mem_nil,fun _ hp => absurd hp not_mem_nil⟩

section Step

variable {write : Writer α ε ω} {o : Object α ε ω} {a : Action ε ω}

theorem Object.pending_of_attempt {i : ℕ} {w : ω × Expect ε × α} (h : o.attempt write i = some w) :
    ∃ seen,o.pending[i]? = some (w.1,seen) ∧ write w.1 seen = some w.2 := by
  obtain ⟨p,hp,hw⟩ := Option.bind_eq_some_iff.mp h
  obtain ⟨x,hx,rfl⟩ := Option.map_eq_some_iff.mp hw
  exact ⟨p.2,hp,hx⟩

variable [DecidableEq ε]

/-- An action stores nothing, or it stores what a pending operation tries to write and its
expectation is met. -/
theorem Object.step_versions (write : Writer α ε ω) (o : Object α ε ω) (a : Action ε ω) :
    (o.step write a).versions = o.versions ∨
      ∃ i e op x c,a = .put i e ∧ o.attempt write i = some (op,x,c) ∧ x.Met o.versions ∧
        (o.step write a).versions = o.versions++[⟨c,e,op⟩] := by
  cases a with
  | load op seen => exact .inl rfl
  | put i e =>
    cases hw : o.attempt write i with
    | none => exact .inl (by simp [step,hw])
    | some w =>
      obtain ⟨op,x,c⟩ := w
      by_cases hmet : x.Met o.versions
      · exact .inr ⟨i,e,op,x,c,rfl,hw,hmet,by simp [step,hw,hmet]⟩
      · exact .inl (by simp [step,hw,hmet])

theorem Object.versions_prefix_step (write : Writer α ε ω) (o : Object α ε ω) (a : Action ε ω) :
    o.versions <+: (o.step write a).versions := by
  rcases o.step_versions write a with h | ⟨i,e,op,x,c,-,-,-,h⟩
  · rw [h]
  · rw [h]
    exact prefix_append _ _

theorem Object.mem_pending_step {p : ω × Option (Version α ε ω)}
    (h : p ∈ (o.step write a).pending) :
    p ∈ o.pending ∨ ∃ seen,a = .load p.1 seen ∧ p.2 = (o.versions.take seen).getLast? := by
  cases a with
  | load op seen =>
    rcases mem_concat.mp h with h | rfl
    · exact .inl h
    · exact .inr ⟨seen,rfl,rfl⟩
  | put i e =>
    refine .inl (mem_of_mem_eraseIdx (i := i) ?_)
    simp only [step] at h
    split at h
    · exact h
    · split_ifs at h <;> exact h

theorem Object.Sound.step (h : o.Sound) (ha : Honest write o a) : (o.step write a).Sound := by
  constructor
  · rcases o.step_versions write a with hv | ⟨i,e,op,x,c,rfl,hw,-,hv⟩
    · rw [hv]
      exact h.faithful
    · rw [hv]
      have hnew := ha (op,x,c) hw
      intro v hv w hw hetag
      rcases mem_append.mp hv with hv | hv <;> rcases mem_append.mp hw with hw | hw
      · exact h.faithful v hv w hw hetag
      · rw [mem_singleton.mp hw] at hetag ⊢
        exact hnew v hv hetag
      · rw [mem_singleton.mp hv] at hetag ⊢
        exact (hnew w hw hetag.symm).symm
      · rw [mem_singleton.mp hv,mem_singleton.mp hw]
  · intro p hp v hv
    refine (o.versions_prefix_step write a).subset ?_
    rcases mem_pending_step hp with hp | ⟨seen,-,hseen⟩
    · exact h.loaded p hp v hv
    · exact mem_of_mem_take (mem_of_getLast? (hseen.symm.trans hv))

end Step

section Linked

variable {L : Option α → ω → α → Prop}

def Linked (L : Option α → ω → α → Prop) (vs : List (Version α ε ω)) : Prop :=
  ∀ pre v post,vs = pre++v::post → L (pre.getLast?.map Version.content) v.writer v.content

theorem linked_nil : Linked L ([] : List (Version α ε ω)) := fun pre v post h => by simp at h

theorem linked_concat {vs : List (Version α ε ω)} {v : Version α ε ω} :
    Linked L (vs++[v]) ↔ Linked L vs ∧ L (vs.getLast?.map Version.content) v.writer v.content := by
  constructor
  · intro h
    exact ⟨fun pre w post hvs => h pre w (post++[v]) (by simp [hvs]),h vs v [] rfl⟩
  · rintro ⟨h,hv⟩ pre w post hsplit
    rcases eq_nil_or_concat post with rfl | ⟨post',u,rfl⟩
    · obtain ⟨rfl,hw⟩ := append_inj' hsplit rfl
      rw [← head_eq_of_cons_eq hw]
      exact hv
    · refine h pre w post' ?_
      rw [concat_eq_append,← cons_append,← append_assoc] at hsplit
      exact (append_inj' hsplit rfl).1

theorem Linked.pairwise {vs : List (Version α ε ω)} (h : Linked L vs) {R : α → α → Prop}
    (htrans : ∀ a b c,R a b → R b c → R a c) (hL : ∀ p op c,L (some p) op c → R p c) :
    (vs.map Version.content).Pairwise R := by
  induction vs using reverseRecOn with
  | nil => exact Pairwise.nil
  | append_singleton vs v ih =>
    obtain ⟨hvs,hv⟩ := linked_concat.mp h
    have hpair := ih hvs
    rw [map_append,pairwise_append]
    refine ⟨hpair,by simp,fun a ha b hb => ?_⟩
    rw [map_singleton,mem_singleton] at hb
    subst hb
    rcases eq_nil_or_concat vs with rfl | ⟨vs',u,rfl⟩
    · exact absurd ha not_mem_nil
    · rw [concat_eq_append] at *
      rw [getLast?_concat,Option.map_some] at hv
      rw [map_append,mem_append,map_singleton,mem_singleton] at ha
      rcases ha with ha | rfl
      · rw [map_append,pairwise_append] at hpair
        exact htrans _ _ _ (hpair.2.2 a ha _ (by simp)) (hL _ _ _ hv)
      · exact hL _ _ _ hv

end Linked

/-- Generations over an object: an operation opens the next generation under an owner of its own, or
keeps the generation and its owner. -/
structure Tenure (α ω β : Type) where
  gen : α → ℕ
  owner : α → β
  unowned : β
  opens : ω → Bool

namespace Tenure

variable {β : Type} (t : Tenure α ω β)

variable (prev : Option α)

def genOf : ℕ := (prev.map t.gen).getD 0
def ownerOf : β := (prev.map t.owner).getD t.unowned

def Link (op : ω) (c : α) : Prop :=
  if t.opens op then t.gen c = t.genOf prev+1
  else t.gen c = t.genOf prev ∧ t.owner c = t.ownerOf prev

def opened (vs : List (Version α ε ω)) : List ℕ :=
  (vs.filter fun v => t.opens v.writer).map fun v => t.gen v.content

variable {t} {vs : List (Version α ε ω)}

variable (h : Linked t.Link vs)
include h

theorem gen_le : (vs.map Version.content).Pairwise fun a b => t.gen a ≤ t.gen b := by
  refine h.pairwise (fun a b c => le_trans) fun p op c hl => ?_
  unfold Link at hl
  split_ifs at hl
  · rw [hl]
    exact Nat.le_succ _
  · exact hl.1.ge

theorem gen_le_last {v w : Version α ε ω} (hv : v ∈ vs) (hw : vs.getLast? = some w) :
    t.gen v.content ≤ t.gen w.content := by
  obtain ⟨pre,rfl⟩ := getLast?_eq_some_iff.mp hw
  have hpair := gen_le h
  rw [map_append,pairwise_append] at hpair
  rcases mem_concat.mp hv with hv | rfl
  · exact hpair.2.2 _ (mem_map_of_mem hv) _ (by simp)
  · rfl

theorem opened_eq : t.opened vs = range' 1 (t.genOf (vs.getLast?.map Version.content)) := by
  induction vs using reverseRecOn with
  | nil => rfl
  | append_singleton vs v ih =>
    obtain ⟨hvs,hv⟩ := linked_concat.mp h
    have hopened : t.opened (vs++[v]) = t.opened vs++t.opened [v] := by simp [opened]
    have hlast : t.genOf ((vs++[v]).getLast?.map Version.content) = t.gen v.content := by
      simp [genOf]
    rw [hopened,hlast,ih hvs]
    unfold Link at hv
    split_ifs at hv with hop
    · rw [hv,range'_concat]
      simp [opened,hop,hv,Nat.add_comm]
    · rw [hv.1]
      simp [opened,hop]

theorem count_opened {v : Version α ε ω} (hv : v ∈ vs) (hpos : 0 < t.gen v.content) :
    (t.opened vs).count (t.gen v.content) = 1 := by
  rw [opened_eq h]
  refine count_eq_one_of_mem nodup_range' (mem_range'_1.mpr ⟨hpos,?_⟩)
  obtain ⟨w,hw⟩ := Option.isSome_iff_exists.mp (getLast?_isSome.mpr (ne_nil_of_mem hv))
  have := gen_le_last h hv hw
  rw [hw]
  simp only [genOf,Option.map_some,Option.getD_some]
  omega

theorem owner_eq {v w : Version α ε ω} (hv : v ∈ vs) (hw : w ∈ vs)
    (hgen : t.gen v.content = t.gen w.content) : t.owner v.content = t.owner w.content := by
  induction vs using reverseRecOn generalizing v w with
  | nil => exact absurd hv not_mem_nil
  | append_singleton vs u ih =>
    obtain ⟨hvs,hu⟩ := linked_concat.mp h
    have hold : ∀ x ∈ vs,t.gen x.content = t.gen u.content → t.owner x.content = t.owner u.content := by
      intro x hx hxu
      obtain ⟨l,hl⟩ := Option.isSome_iff_exists.mp (getLast?_isSome.mpr (ne_nil_of_mem hx))
      have hle := gen_le_last hvs hx hl
      rw [hl] at hu
      simp only [Link,genOf,ownerOf,Option.map_some,Option.getD_some] at hu
      split_ifs at hu
      · omega
      · rw [hu.2]
        exact ih hvs hx (mem_of_getLast? hl) (hxu.trans hu.1)
    rcases mem_append.mp hv with hv | hv <;> rcases mem_append.mp hw with hw | hw
    · exact ih hvs hv hw hgen
    · rw [mem_singleton.mp hw] at hgen ⊢
      exact hold v hv hgen
    · rw [mem_singleton.mp hv] at hgen ⊢
      exact (hold w hw hgen.symm).symm
    · rw [mem_singleton.mp hv,mem_singleton.mp hw]

end Tenure

end Cas
