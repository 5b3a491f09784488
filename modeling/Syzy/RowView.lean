import Syzy.RowEvents

/-!
Slots of row events under other names of the rows: whether their changes, in the order of their
first events, are possible, and where they end.
-/

namespace RowEvents

open List Machine Change

variable {ι κ ρ : Type*}

section View

variable {ι' ρ' : Type*} {g : ι × ρ → Option (ι' × ρ')} {S : ι → Option ρ} {K : ι' → Option ρ'}

def Viewed (g : ι × ρ → Option (ι' × ρ')) (S : ι → Option ρ) (K : ι' → Option ρ') : Prop :=
  ∀ k v,K k = some v ↔ ∃ x : ι × ρ,S x.1 = some x.2 ∧ g x = some (k,v)

def Distinct (g : ι × ρ → Option (ι' × ρ')) (S : ι → Option ρ) : Prop :=
  ∀ x y : ι × ρ,S x.1 = some x.2 → S y.1 = some y.2 → ∀ k v w,g x = some (k,v) → g y = some (k,w) → x = y

variable {S' : ι → Option ρ} {c : Change (ι × ρ)} {es : List (Event ι ρ)} {p : ι → Bool}
  {x : ι × ρ}

section

variable (hg : ∀ x y,g x = some y → p x.1 = true) (hp : ∀ q,p q = true → S q = S' q)
include hg hp

theorem Viewed.congr (h : Viewed g S K) : Viewed g S' K := by
  intro k v
  refine (h k v).trans (exists_congr fun x => and_congr_left fun hx => ?_)
  rw [hp x.1 (hg x _ hx)]

theorem Distinct.congr (h : Distinct g S) : Distinct g S' := by
  intro x y hx hy k v w hgx hgy
  rw [← hp x.1 (hg x _ hgx)] at hx
  rw [← hp y.1 (hg y _ hgy)] at hy
  exact h x y hx hy k v w hgx hgy

end

theorem Change.mem_bind {c : Option (ι × ρ)} {y : ι' × ρ'} (h : c.bind g = some y) :
    ∃ x,c = some x ∧ g x = some y := Option.bind_eq_some_iff.mp h

theorem Change.Fits.source_eq (h : c.Fits S) (hx : S x.1 = some x.2)
    (hs : c.sourcePlace = some x.1) : c.source = some x := by
  obtain ⟨z,hz,hzx⟩ := Option.map_eq_some_iff.mp hs
  have hS := h.1 z hz
  rw [hzx,hx] at hS
  rw [hz,Prod.ext hzx (Option.some.inj hS).symm]

variable [DecidableEq ι]

theorem Change.Fits.keeps (h : c.Fits S) (hx : S x.1 = some x.2) (hs : c.sourcePlace ≠ some x.1) :
    c.exec S x.1 = some x.2 :=
  (exec_other S (h.targetPlace_ne hx hs) hs).trans hx

theorem Viewed.fits (h : Viewed g S K) (hd : Distinct g (c.exec S)) (hfits : c.Fits S) :
    (c.bind g).Fits K := by
  refine ⟨fun y hy => ?_,fun y hy => ?_⟩
  · obtain ⟨x,hx,hgx⟩ := mem_bind hy
    exact (h y.1 y.2).mpr ⟨x,hfits.1 x hx,hgx⟩
  · obtain ⟨x,hx,hgx⟩ := mem_bind hy
    by_contra hroom
    obtain ⟨hsome,hsrc⟩ := not_or.mp hroom
    obtain ⟨w,hw⟩ := Option.ne_none_iff_exists'.mp hsome
    obtain ⟨z,hz,hgz⟩ := (h y.1 w).mp hw
    have hzs : c.sourcePlace ≠ some z.1 := by
      intro hzs
      refine hsrc ?_
      change (c.source.bind g).map Prod.fst = some y.1
      rw [hfits.source_eq hz hzs,Option.bind_some,hgz]
      rfl
    have hxz := hd x z (exec_target S hx) (hfits.keeps hz hzs) y.1 y.2 w hgx hgz
    refine hfits.targetPlace_ne hz hzs ?_
    rw [← hxz]
    exact congrArg (Option.map Prod.fst) hx

variable [DecidableEq ι']

theorem Viewed.exec (h : Viewed g S K) (hd : Distinct g S) (hd' : Distinct g (c.exec S))
    (hfits : c.Fits S) :
    Viewed g (c.exec S) ((c.bind g).exec K) := by
  intro k v
  constructor
  · intro hk
    rcases exec_eq_some hk with htgt | ⟨htgt,hsrc,hK⟩
    · obtain ⟨x,hx,hgx⟩ := mem_bind htgt
      exact ⟨x,exec_target S hx,hgx⟩
    · obtain ⟨x,hx,hgx⟩ := (h k v).mp hK
      refine ⟨x,hfits.keeps hx fun hs => hsrc ?_,hgx⟩
      change (c.source.bind g).map Prod.fst = some k
      rw [hfits.source_eq hx hs,Option.bind_some,hgx]
      rfl
  · rintro ⟨x,hx,hgx⟩
    rcases exec_eq_some hx with htgt | ⟨htgt,hsrc,hS⟩
    · refine exec_target K (x := (k,v)) ?_
      change c.target.bind g = some (k,v)
      rw [htgt]
      exact hgx
    · have hK := (h k v).mpr ⟨x,hS,hgx⟩
      rw [← hK]
      refine exec_other K (fun ht => ?_) fun hs => ?_
      · obtain ⟨y,hy,hyk⟩ := Option.map_eq_some_iff.mp ht
        obtain ⟨z,hz,hgz⟩ := mem_bind hy
        have hzx := hd' z x (exec_target S hz) hx k y.2 v (by rw [hgz,← hyk]) hgx
        refine htgt ?_
        rw [← hzx]
        exact congrArg (Option.map Prod.fst) hz
      · obtain ⟨y,hy,hyk⟩ := Option.map_eq_some_iff.mp hs
        obtain ⟨z,hz,hgz⟩ := mem_bind hy
        have hzx := hd z x (hfits.1 z hz) hS k y.2 v (by rw [hgz,← hyk]) hgx
        refine hsrc ?_
        rw [← hzx]
        exact congrArg (Option.map Prod.fst) hz

variable (h : Viewed g S K) (hcons : Consistent S es) (hd : ∀ t,t <+: es → Distinct g (after S t))
include h hcons hd

/-- A possible run whose states all tell their rows apart is possible under the other names. -/
theorem Viewed.run :
    Permitted Change.exec Fits K (es.map fun e => e.change.bind g) ∧
      Viewed g (after S es) ((es.map fun e => e.change.bind g).foldl Change.exec K) := by
  induction es generalizing S K with
  | nil => exact ⟨trivial,h⟩
  | cons e es ih =>
    have hd₀ : Distinct g S := hd [] nil_prefix
    have hd₁ : Distinct g (e.exec S) := hd [e] ⟨es,rfl⟩
    obtain ⟨hrun,hview⟩ := ih (h.exec hd₀ hd₁ hcons.1) hcons.2 fun t ht =>
      hd (e::t) (cons_prefix_cons.mpr ⟨rfl,ht⟩)
    exact ⟨⟨h.fits hd₁ hcons.1,hrun⟩,hview⟩

/-- The slots' changes in the order of their first events, if they are possible, end where the run
ends. -/
theorem Viewed.slots [DecidableEq κ] [DecidableEq ρ'] {slotOf : ι → κ} (hone : OneRow slotOf es)
    (hnet : Permitted Change.exec Fits K ((RowEvents.slots slotOf es).map fun s => s.change.bind g)) :
    Viewed g (after S es) (((RowEvents.slots slotOf es).map fun s => s.change.bind g).foldl Change.exec K) := by
  obtain ⟨hrun,hview⟩ := h.run hcons hd
  have heq := run_eq hnet hrun fun x => by
    simpa [Function.comp_def] using gain_slots hone x
  rw [heq]
  exact hview

end View

section Exact

variable {ι' ρ' : Type*} {g : ι × ρ → Option (ι' × ρ')} {S₀ S : ι → Option ρ} {K : ι' → Option ρ'}
variable {L : List (Slot ι κ ρ)}

/-- No row ends under a name that a row of a later slot had before. -/
def Ordered (g : ι × ρ → Option (ι' × ρ')) (L : List (Slot ι κ ρ)) : Prop :=
  L.Pairwise fun s t => ∀ k,(s.change.bind g).targetPlace = some k → (t.change.bind g).sourcePlace ≠ some k

variable {c : Change (ι × ρ)} {cs : List (Change (ι' × ρ'))} {k : ι'}

theorem Change.bind_sourcePlace (h : (c.bind g).sourcePlace = some k) :
    ∃ x v,c.source = some x ∧ g x = some (k,v) := by
  obtain ⟨y,hy,rfl⟩ := Option.map_eq_some_iff.mp h
  obtain ⟨x,hx,hgx⟩ := mem_bind hy
  exact ⟨x,y.2,hx,hgx⟩

theorem Change.bind_targetPlace (h : (c.bind g).targetPlace = some k) :
    ∃ x v,c.target = some x ∧ g x = some (k,v) := by
  obtain ⟨y,hy,rfl⟩ := Option.map_eq_some_iff.mp h
  obtain ⟨x,hx,hgx⟩ := mem_bind hy
  exact ⟨x,y.2,hx,hgx⟩

namespace Net

theorem eq_of_source (h : Net S₀ S L) (hd : Distinct g S₀) {s t : Slot ι κ ρ} (hs : s ∈ L) (ht : t ∈ L)
    {k : ι'} (hsk : (s.change.bind g).sourcePlace = some k)
    (htk : (t.change.bind g).sourcePlace = some k) : s = t := by
  obtain ⟨x,v,hx,hgx⟩ := bind_sourcePlace hsk
  obtain ⟨y,w,hy,hgy⟩ := bind_sourcePlace htk
  obtain rfl := hd x y (h.old_mem s hs x hx) (h.old_mem t ht y hy) k v w hgx hgy
  exact h.eq_of_key hs ht (h.old_inj s hs t ht x.1 (congrArg (Option.map Prod.fst) hx)
    (congrArg (Option.map Prod.fst) hy))

theorem eq_of_target (h : Net S₀ S L) (hd : Distinct g S) {s t : Slot ι κ ρ} (hs : s ∈ L) (ht : t ∈ L)
    {k : ι'} (hsk : (s.change.bind g).targetPlace = some k)
    (htk : (t.change.bind g).targetPlace = some k) : s = t := by
  obtain ⟨x,v,hx,hgx⟩ := bind_targetPlace hsk
  obtain ⟨y,w,hy,hgy⟩ := bind_targetPlace htk
  obtain rfl := hd x y (h.new_mem s hs x hx) (h.new_mem t ht y hy) k v w hgx hgy
  exact h.eq_of_key hs ht (h.new_inj s hs t ht x.1 (congrArg (Option.map Prod.fst) hx)
    (congrArg (Option.map Prod.fst) hy))

theorem slots_nodup (h : Net S₀ S L) : L.Nodup := h.nodup.of_map

theorem continues [DecidableEq κ] {slotOf : ι → κ} {e : Event ι ρ} (h : Net S₀ S L) (hfits : e.Fits S)
    (hfollows : Follows slotOf L e) : Continues slotOf L e := by
  intro s hs hkey
  have hplace := (hfollows s hs).1 hkey
  cases hnew : s.new with
  | none =>
    have hsrc : e.sourcePlace = none := hplace.symm.trans (congrArg (Option.map Prod.fst) hnew)
    exact (Option.map_eq_none_iff.mp hsrc).symm
  | some x =>
    have hsrc : e.sourcePlace = some x.1 := hplace.symm.trans (congrArg (Option.map Prod.fst) hnew)
    exact (hfits.source_eq (h.new_mem s hs x hnew) hsrc).symm

end Net

theorem oneRow_of_followed [DecidableEq ι] [DecidableEq κ] {slotOf : ι → κ} {es : List (Event ι ρ)}
    (hcons : Consistent S₀ es) (hfol : Followed slotOf es) : OneRow slotOf es := by
  have hrun : ∀ (es : List (Event ι ρ)) (S : ι → Option ρ) (L : List (Slot ι κ ρ)),Net S₀ S L →
      Permitted Event.exec Event.Fits S es →
      Permitted (touch slotOf) (Follows slotOf) L es →
      Permitted (touch slotOf) (Continues slotOf) L es := by
    intro es
    induction es with
    | nil => exact fun _ _ _ _ _ => trivial
    | cons e es ih =>
      exact fun S L h hc hf => ⟨h.continues hc.1 hf.1,ih _ _ (h.touch hc.1 hf.1) hc.2 hf.2⟩
  exact hrun es S₀ [] (Net.refl S₀) hcons hfol

variable [DecidableEq ι']

theorem Change.run_eq_some {v : ρ'} (h : cs.foldl exec K k = some v) :
    (∃ c ∈ cs,c.target = some (k,v)) ∨ K k = some v ∧ ∀ c ∈ cs,c.sourcePlace ≠ some k := by
  induction cs generalizing K with
  | nil => exact .inr ⟨h,by simp⟩
  | cons c cs ih =>
    rcases ih h with ⟨d,hd,hdk⟩ | ⟨hK,hrest⟩
    · exact .inl ⟨d,mem_cons_of_mem _ hd,hdk⟩
    · rcases exec_eq_some hK with htgt | ⟨-,hsrc,hK⟩
      · exact .inl ⟨c,mem_cons_self,htgt⟩
      · exact .inr ⟨hK,forall_mem_cons.mpr ⟨hsrc,hrest⟩⟩

theorem Change.run_other (h : ∀ c ∈ cs,c.targetPlace ≠ some k ∧ c.sourcePlace ≠ some k) :
    cs.foldl exec K k = K k := by
  induction cs generalizing K with
  | nil => rfl
  | cons c cs ih =>
    obtain ⟨ht,hs⟩ := h c mem_cons_self
    exact (ih fun d hd => h d (mem_cons_of_mem _ hd)).trans (exec_other K ht hs)

theorem Net.permitted (h : Net S₀ S L) (hK : Viewed g S₀ K) (hd₀ : Distinct g S₀) (hd : Distinct g S)
    (hord : Ordered g L) :
    Permitted exec Fits K (L.map fun s => s.change.bind g) := by
  have hrun : ∀ P R,L = P++R → Permitted exec Fits
      ((P.map fun s => s.change.bind g).foldl exec K) (R.map fun s => s.change.bind g) := by
    intro P R
    induction R generalizing P with
    | nil => exact fun _ => trivial
    | cons s R ih =>
      intro hL
      have hrest := ih (P++[s]) (by simpa using hL)
      rw [map_append,foldl_append] at hrest
      have hs : s ∈ L := hL ▸ mem_append_right P mem_cons_self
      have hmem : ∀ t ∈ P,t ∈ L := fun t ht => hL ▸ mem_append_left _ ht
      have hne : ∀ t ∈ P,t ≠ s := by
        have hnodup := h.slots_nodup
        rw [hL,nodup_append] at hnodup
        exact fun t ht => hnodup.2.2 t ht s mem_cons_self
      rw [hL,Ordered,pairwise_append,pairwise_cons] at hord
      refine ⟨⟨fun y hy => ?_,fun y hy => ?_⟩,hrest⟩
      · -- No slot before has taken the row or put another in its place.
        have hy' : (s.change.bind g).sourcePlace = some y.1 := congrArg (Option.map Prod.fst) hy
        obtain ⟨x,hx,hgx⟩ := mem_bind hy
        rw [run_other]
        · exact (hK y.1 y.2).mpr ⟨x,h.old_mem s hs x hx,hgx⟩
        · intro c hc
          obtain ⟨t,ht,rfl⟩ := mem_map.mp hc
          exact ⟨fun htgt => hord.2.2 t ht s mem_cons_self y.1 htgt hy',fun hsrc =>
            hne t ht (h.eq_of_source hd₀ (hmem t ht) hs hsrc hy')⟩
      · -- A row in the way was there at first; its slot is this one.
        have hy' : (s.change.bind g).targetPlace = some y.1 := congrArg (Option.map Prod.fst) hy
        obtain ⟨x,hx,hgx⟩ := mem_bind hy
        by_contra hroom
        obtain ⟨hsome,hsrc⟩ := not_or.mp hroom
        obtain ⟨w,hw⟩ := Option.ne_none_iff_exists'.mp hsome
        rcases run_eq_some hw with ⟨c,hc,htgt⟩ | ⟨hw,huntaken⟩
        · obtain ⟨t,ht,rfl⟩ := mem_map.mp hc
          exact hne t ht (h.eq_of_target hd (hmem t ht) hs (congrArg (Option.map Prod.fst) htgt) hy')
        · obtain ⟨z,hz,hgz⟩ := (hK y.1 w).mp hw
          rcases h.old_cover z.1 z.2 hz with ⟨t,ht,hold⟩ | ⟨hS,hmeets⟩
          · have htk : (t.change.bind g).sourcePlace = some y.1 := by
              change (t.old.bind g).map Prod.fst = some y.1
              rw [hold]
              exact congrArg (Option.map Prod.fst) hgz
            rw [hL] at ht
            rcases mem_append.mp ht with ht | ht
            · exact huntaken _ (mem_map_of_mem ht) htk
            · rcases mem_cons.mp ht with rfl | ht
              · exact hsrc htk
              · exact hord.2.1.1 t ht y.1 hy' htk
          · have hxz := hd x z (h.new_mem s hs x hx) hS y.1 y.2 w hgx hgz
            refine hmeets s hs (.inr ?_)
            rw [← hxz]
            exact congrArg (Option.map Prod.fst) hx
  exact hrun [] L rfl

omit [DecidableEq ι'] in
/-- A function that carries out a change when it is possible, and meets no other name in any case. -/
structure Effect [DecidableEq ι'] (f : (ι' → Option ρ') → ι' → Option ρ') (c : Change (ι' × ρ')) :
    Prop where
  other : ∀ K k,c.targetPlace ≠ some k → f K k = if c.sourcePlace = some k then none else K k
  own : ∀ K,(∀ x ∈ c.source,K x.1 = some x.2) → ∀ x ∈ c.target,f K x.1 = some x.2

theorem Effect.eq_exec {f : (ι' → Option ρ') → ι' → Option ρ'} {c : Change (ι' × ρ')} (h : Effect f c)
    (hfits : c.Fits K) : f K = c.exec K := by
  funext k
  by_cases hk : c.targetPlace = some k
  · obtain ⟨x,hx,rfl⟩ := Option.map_eq_some_iff.mp hk
    rw [h.own K hfits.1 x hx,exec_target K hx]
  · rw [h.other K k hk,exec,if_neg hk]

variable {f : Slot ι κ ρ → (ι' → Option ρ') → ι' → Option ρ'}

theorem Effect.run_eq (hf : ∀ s ∈ L,Effect (f s) (s.change.bind g))
    (h : Permitted exec Fits K (L.map fun s => s.change.bind g)) :
    L.foldl (fun K s => f s K) K = (L.map fun s => s.change.bind g).foldl exec K := by
  induction L generalizing K with
  | nil => rfl
  | cons s L ih =>
    rw [map_cons,foldl_cons,foldl_cons,(hf s mem_cons_self).eq_exec h.1]
    exact ih (fun t ht => hf t (mem_cons_of_mem _ ht)) h.2

theorem Effect.run_none (hf : ∀ s ∈ L,Effect (f s) (s.change.bind g))
    (h : ∀ s ∈ L,(s.change.bind g).targetPlace ≠ some k) (hK : K k = none) :
    L.foldl (fun K s => f s K) K k = none := by
  induction L generalizing K with
  | nil => exact hK
  | cons s L ih =>
    refine ih (fun t ht => hf t (mem_cons_of_mem _ ht)) (fun t ht => h t (mem_cons_of_mem _ ht)) ?_
    change f s K k = none
    rw [(hf s mem_cons_self).other K k (h s mem_cons_self),hK,ite_self]

/-- A replay that ends where a followed run ends took the slots in a possible order. -/
theorem Net.ordered (h : Net S₀ S L) (hd : Distinct g S) (hf : ∀ s ∈ L,Effect (f s) (s.change.bind g))
    (hS : Viewed g S (L.foldl (fun K s => f s K) K)) : Ordered g L := by
  have hrun : ∀ P R,L = P++R → Ordered g R := by
    intro P R
    induction R generalizing P with
    | nil => exact fun _ => Pairwise.nil
    | cons s R ih =>
      intro hL
      refine Pairwise.cons (fun t ht k hsk htk => ?_) (ih (P++[s]) (by simpa using hL))
      obtain ⟨A,B,rfl⟩ := append_of_mem ht
      have hL' : L = (P++s::A)++t::B := by simpa using hL
      have hs : s ∈ L := hL ▸ mem_append_right P mem_cons_self
      have hnodup := h.slots_nodup
      rw [hL',nodup_append] at hnodup
      -- The name is taken away after the last slot that puts a row there.
      have hne : ∀ u ∈ t::B,(u.change.bind g).targetPlace ≠ some k := by
        intro u hu huk
        have hsu := h.eq_of_target hd hs (hL' ▸ mem_append_right _ hu) hsk huk
        exact hnodup.2.2 s (by simp) u hu hsu
      obtain ⟨x,v,hx,hgx⟩ := bind_targetPlace hsk
      have hsome := (hS k v).mpr ⟨x,h.new_mem s hs x hx,hgx⟩
      rw [hL'] at hf
      rw [hL',foldl_append,foldl_cons,Effect.run_none
        (fun u hu => hf u (mem_append_right _ (mem_cons_of_mem _ hu)))
        (fun u hu => hne u (mem_cons_of_mem _ hu))] at hsome
      · exact Option.some_ne_none _ hsome.symm
      · rw [(hf t (mem_append_right _ mem_cons_self)).other _ k (hne t mem_cons_self),if_pos htk]
  exact hrun [] L rfl

end Exact

end RowEvents
