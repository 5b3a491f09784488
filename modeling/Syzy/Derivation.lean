import Syzy.Reservation

/-!
What one reservation table makes of any history of requests, ingests and sweeps: which values are
taken after an ingest, and how long a value has been free when it goes to somebody new.
-/

namespace Syzy

open List

inductive TableOp where
  | reserve (now : ℤ) (claims : List Claim)
  | ingest (now : ℤ) (snap : RowSnapshot) (dup : List Claim)
  | sweep (now : ℤ)

def TableOp.now : TableOp → ℤ
  | .reserve now _ | .ingest now _ _ | .sweep now => now

namespace ReservationTable

def step (graceUS : ℤ) (rt : ReservationTable) : TableOp → ReservationTable
  | .reserve now claims => (rt.reserve now claims).1
  | .ingest now snap dup => rt.ingest now snap graceUS dup
  | .sweep now => rt.sweep now

def run (graceUS quarantineUS : ℤ) (ops : List TableOp) : ReservationTable :=
  ops.foldl (step graceUS) (.new quarantineUS)

@[simp] theorem run_concat (graceUS quarantineUS : ℤ) (ops : List TableOp) (op : TableOp) :
    run graceUS quarantineUS (ops++[op]) = (run graceUS quarantineUS ops).step graceUS op := by
  simp [run]

def Holds (rt : ReservationTable) (v : ClaimKey) (owner : Owner) : Prop :=
  (rt.taken.lookup v).map TakenEntry.owner = some owner

/-- The request is granted and claims the value for the owner. -/
def Grants (rt : ReservationTable) (now : ℤ) (claims : List Claim) (v : ClaimKey) (owner : Owner) :
    Prop :=
  (rt.reserve now claims).2 = .granted ∧ ∃ c ∈ claims,claimKey c = v ∧ c.owner = owner

section History

variable (graceUS quarantineUS : ℤ)

/-- The value was granted to an owner that did not hold it, and since then it was granted to no
other owner and no ingest has shown it as this owner's. -/
inductive Unconfirmed (v : ClaimKey) (owner : Owner) (since : ℤ) : List TableOp → Prop
  | granted {ops : List TableOp} {claims : List Claim} :
    (run graceUS quarantineUS ops).Grants since claims v owner →
    ¬(run graceUS quarantineUS ops).Holds v owner →
    Unconfirmed v owner since (ops++[.reserve since claims])
  | reserve {ops : List TableOp} {now : ℤ} {claims : List Claim} : Unconfirmed v owner since ops →
    (∀ other,(run graceUS quarantineUS ops).Grants now claims v other → other = owner) →
    Unconfirmed v owner since (ops++[.reserve now claims])
  | ingest {ops : List TableOp} {now : ℤ} {snap : RowSnapshot} {dup : List Claim} :
    Unconfirmed v owner since ops → snap.ownerOf v ≠ some owner →
    Unconfirmed v owner since (ops++[.ingest now snap dup])
  | sweep {ops : List TableOp} {now : ℤ} : Unconfirmed v owner since ops →
    Unconfirmed v owner since (ops++[.sweep now])

/-- The owner that held the value when it was last taken. -/
inductive LastOwner (v : ClaimKey) (owner : Owner) : List TableOp → Prop
  | holds {ops : List TableOp} : (run graceUS quarantineUS ops).Holds v owner → LastOwner v owner ops
  | left {ops : List TableOp} {op : TableOp} : LastOwner v owner ops →
    v ∉ (run graceUS quarantineUS (ops++[op])).taken → LastOwner v owner (ops++[op])

/-- The ingest of the history, at the given time, after which the value was not taken again: it met the
value in its owner's hands and found it neither in its snapshot nor granted within the grace period and
unconfirmed. -/
def FreedAt (v : ClaimKey) (owner : Owner) (time : ℤ) (ops : List TableOp) : Prop :=
  ∃ before snap dup after,ops = before++.ingest time snap dup::after ∧
    (run graceUS quarantineUS before).Holds v owner ∧ (∀ c ∈ snap.claims,claimKey c ≠ v) ∧
    (∀ owner since,Unconfirmed graceUS quarantineUS v owner since before → graceUS ≤ time-since) ∧
    ∀ later,later <+: after →
      v ∉ (run graceUS quarantineUS (before++.ingest time snap dup::later)).taken

variable {graceUS quarantineUS} {ops : List TableOp} {v : ClaimKey} {owner other : Owner} {since : ℤ}

theorem not_unconfirmed_nil : ¬Unconfirmed graceUS quarantineUS v owner since [] := by
  intro h
  generalize hl : ([] : List TableOp) = l at h
  cases h <;> simp at hl

variable {claims : List Claim} {now : ℤ} {op : TableOp} {rt : ReservationTable}

theorem unconfirmed_reserve :
    Unconfirmed graceUS quarantineUS v owner since (ops++[.reserve now claims]) ↔
      since = now ∧ (run graceUS quarantineUS ops).Grants now claims v owner ∧
          ¬(run graceUS quarantineUS ops).Holds v owner ∨
        Unconfirmed graceUS quarantineUS v owner since ops ∧
          ∀ other,(run graceUS quarantineUS ops).Grants now claims v other → other = owner := by
  constructor
  · intro h
    generalize hl : ops++[TableOp.reserve now claims] = l at h
    cases h with
    | granted hg hh =>
      obtain ⟨rfl,heq⟩ := append_inj' hl rfl
      cases heq
      exact .inl ⟨rfl,hg,hh⟩
    | reserve hu ho =>
      obtain ⟨rfl,heq⟩ := append_inj' hl rfl
      cases heq
      exact .inr ⟨hu,ho⟩
    | ingest | sweep => simpa using (append_inj' hl rfl).2
  · rintro (⟨rfl,hg,hh⟩ | ⟨hu,ho⟩)
    · exact .granted hg hh
    · exact .reserve hu ho

theorem unconfirmed_ingest {snap : RowSnapshot} {dup : List Claim} :
    Unconfirmed graceUS quarantineUS v owner since (ops++[.ingest now snap dup]) ↔
      Unconfirmed graceUS quarantineUS v owner since ops ∧ snap.ownerOf v ≠ some owner := by
  refine ⟨fun h => ?_,fun h => .ingest h.1 h.2⟩
  generalize hl : ops++[TableOp.ingest now snap dup] = l at h
  cases h with
  | granted | reserve => simpa using (append_inj' hl rfl).2
  | ingest hu ho =>
    obtain ⟨rfl,heq⟩ := append_inj' hl rfl
    cases heq
    exact ⟨hu,ho⟩
  | sweep => simpa using (append_inj' hl rfl).2

theorem unconfirmed_sweep :
    Unconfirmed graceUS quarantineUS v owner since (ops++[.sweep now]) ↔
      Unconfirmed graceUS quarantineUS v owner since ops := by
  refine ⟨fun h => ?_,.sweep⟩
  generalize hl : ops++[TableOp.sweep now] = l at h
  cases h with
  | granted | reserve | ingest => simpa using (append_inj' hl rfl).2
  | sweep hu =>
    obtain ⟨rfl,-⟩ := append_inj' hl rfl
    exact hu

theorem Holds.mem (h : rt.Holds v owner) : v ∈ rt.taken := by
  obtain ⟨e,he,-⟩ := Option.map_eq_some_iff.mp h
  exact Finmap.mem_of_lookup_eq_some he

theorem LastOwner.of_concat (h : LastOwner graceUS quarantineUS v owner (ops++[op]))
    (hv : v ∉ (run graceUS quarantineUS (ops++[op])).taken) :
    LastOwner graceUS quarantineUS v owner ops := by
  generalize hl : ops++[op] = l at h hv
  cases h with
  | holds hh => exact absurd hh.mem hv
  | left hlast _ =>
    obtain ⟨rfl,-⟩ := append_inj' hl rfl
    exact hlast

theorem LastOwner.holds_of_mem (h : LastOwner graceUS quarantineUS v owner ops)
    (hv : v ∈ (run graceUS quarantineUS ops).taken) : (run graceUS quarantineUS ops).Holds v owner := by
  cases h with
  | holds hh => exact hh
  | left _ hn => exact absurd hv hn

theorem FreedAt.concat {time : ℤ} (h : FreedAt graceUS quarantineUS v owner time ops)
    (hv : v ∉ (run graceUS quarantineUS (ops++[op])).taken) :
    FreedAt graceUS quarantineUS v owner time (ops++[op]) := by
  obtain ⟨before,snap,dup,after,rfl,hheld,hsnap,hu,hfree⟩ := h
  refine ⟨before,snap,dup,after++[op],by simp,hheld,hsnap,hu,fun later hlater => ?_⟩
  obtain rfl | hlater := prefix_concat_iff.mp hlater
  · simpa using hv
  · exact hfree later hlater

theorem Grants.lookup (h : rt.Grants now claims v owner) :
    (rt.reserve now claims).1.taken.lookup v = rt.grantEntry now v owner ∧
      (∀ other,rt.Grants now claims v other → other = owner) := by
  obtain ⟨hok,c,hc,rfl,rfl⟩ := h
  rcases rt.reserve_cases now claims with ⟨hno,-⟩ | ⟨-,-,hrun,-,hsame⟩
  · exact absurd hok hno
  · constructor
    · rw [hrun]
      exact (lookup_grants (fun c' hc' hk => hsame c hc c' hc' hk) rt ⟨c,hc,rfl⟩).1
    · rintro other ⟨-,c',hc',hk,rfl⟩
      exact hsame c hc c' hc' hk

theorem reserve_lookup_of_not_grants (h : ∀ owner,¬rt.Grants now claims v owner) :
    (rt.reserve now claims).1.taken.lookup v = rt.taken.lookup v ∧
      (rt.reserve now claims).1.quarantined.lookup v = rt.quarantined.lookup v := by
  rcases rt.reserve_cases now claims with ⟨-,hrun⟩ | ⟨hok,-,hrun,-,-⟩
  · rw [hrun]
    exact ⟨rfl,rfl⟩
  · rw [hrun]
    exact lookup_grants_of_not_mem rt now fun c hc hk => h c.owner ⟨hok,c,hc,hk,rfl⟩

theorem grantEntry_of_holds (h : rt.Holds v owner) :
    rt.grantEntry now v owner = rt.taken.lookup v := by
  obtain ⟨e,he,rfl⟩ := Option.map_eq_some_iff.mp h
  simp [grantEntry,he]

theorem grantEntry_of_not_holds (h : ¬rt.Holds v owner) :
    rt.grantEntry now v owner = some ⟨owner,now,false⟩ := by
  rw [grantEntry,if_neg]
  intro hany
  refine h ?_
  cases ht : rt.taken.lookup v with
  | none => simp [ht] at hany
  | some e => simpa [ht,Holds] using hany

theorem holds_of_lookup {e : TakenEntry} (h : rt.taken.lookup v = some e) :
    rt.Holds v e.owner := by
  rw [Holds,h]
  rfl

theorem run_quarantineUS (graceUS quarantineUS : ℤ) (ops : List TableOp) :
    (run graceUS quarantineUS ops).quarantineUS = quarantineUS := by
  induction ops using reverseRecOn with
  | nil => rfl
  | append_singleton ops op ih =>
    rw [run_concat]
    cases op with
    | reserve now claims =>
      have hgrants : ∀ (cs : List Claim) (rt : ReservationTable),
          (cs.foldl (grant now) rt).quarantineUS = rt.quarantineUS := by
        intro cs
        induction cs with
        | nil => exact fun _ => rfl
        | cons c cs ihc => exact fun rt => ihc (grant now rt c)
      change ((run graceUS quarantineUS ops).reserve now claims).1.quarantineUS = _
      rcases (run graceUS quarantineUS ops).reserve_cases now claims with ⟨-,hr⟩ | ⟨-,-,hr,-⟩
      · rw [hr,ih]
      · rw [hr,hgrants,ih]
    | ingest | sweep => exact ih

variable (graceUS quarantineUS) in
/-- What the table records of its history: every unbacked entry is an unconfirmed grant, an
unconfirmed grant is entered until it ages out, and a value that left was freed by an ingest that
the table remembers until its window is over. -/
structure Tracks (ops : List TableOp) : Prop where
  unconfirmed : ∀ v owner since,
    (run graceUS quarantineUS ops).taken.lookup v = some ⟨owner,since,false⟩ →
    Unconfirmed graceUS quarantineUS v owner since ops
  entry : ∀ v owner since,Unconfirmed graceUS quarantineUS v owner since ops →
    (run graceUS quarantineUS ops).taken.lookup v = some ⟨owner,since,false⟩ ∨
      ∃ op ∈ ops,graceUS ≤ op.now-since
  freed : ∀ v owner,LastOwner graceUS quarantineUS v owner ops →
    v ∉ (run graceUS quarantineUS ops).taken → ∃ time,FreedAt graceUS quarantineUS v owner time ops ∧
      ((run graceUS quarantineUS ops).quarantined.lookup v = some ⟨owner,time⟩ ∨
        ∃ op ∈ ops,time+quarantineUS ≤ op.now)

theorem Tracks.nil : Tracks graceUS quarantineUS [] where
  unconfirmed v owner since h := by simp [run,ReservationTable.new] at h
  entry v owner since h := absurd h not_unconfirmed_nil
  freed v owner h _ := by
    generalize hl : ([] : List TableOp) = l at h
    cases h with
    | holds hh =>
      subst hl
      simp [Holds,run,ReservationTable.new] at hh
    | left => simp at hl

section

variable (h : Tracks graceUS quarantineUS ops)
include h

theorem Tracks.reserve (now : ℤ) (claims : List Claim) :
    Tracks graceUS quarantineUS (ops++[.reserve now claims]) := by
  constructor
  · intro v owner since he
    rw [run_concat] at he
    change ((run graceUS quarantineUS ops).reserve now claims).1.taken.lookup v = _ at he
    rw [unconfirmed_reserve]
    by_cases hg : ∃ other,(run graceUS quarantineUS ops).Grants now claims v other
    · obtain ⟨other,hg⟩ := hg
      rw [hg.lookup.1] at he
      have ho := owner_grantEntry (run graceUS quarantineUS ops) now v other
      rw [he] at ho
      obtain rfl : owner = other := by simpa using ho
      by_cases hh : (run graceUS quarantineUS ops).Holds v owner
      · rw [grantEntry_of_holds hh] at he
        exact .inr ⟨h.unconfirmed v owner since he,hg.lookup.2⟩
      · rw [grantEntry_of_not_holds hh] at he
        cases he
        exact .inl ⟨rfl,hg,hh⟩
    · have hno : ∀ other,¬(run graceUS quarantineUS ops).Grants now claims v other := by
        simpa using hg
      rw [(reserve_lookup_of_not_grants hno).1] at he
      exact .inr ⟨h.unconfirmed v owner since he,fun other ho => absurd ho (hno other)⟩
  · intro v owner since hu
    rw [run_concat]
    change ((run graceUS quarantineUS ops).reserve now claims).1.taken.lookup v = _ ∨ _
    rcases unconfirmed_reserve.mp hu with ⟨rfl,hg,hh⟩ | ⟨hu,hsame⟩
    · rw [hg.lookup.1,grantEntry_of_not_holds hh]
      exact .inl rfl
    · rcases h.entry v owner since hu with he | ⟨op,hop,hage⟩
      · refine .inl ?_
        by_cases hg : ∃ other,(run graceUS quarantineUS ops).Grants now claims v other
        · obtain ⟨other,hg⟩ := hg
          obtain rfl := hsame other hg
          rw [hg.lookup.1,grantEntry_of_holds (holds_of_lookup he),he]
        · rw [(reserve_lookup_of_not_grants (by simpa using hg)).1,he]
      · exact .inr ⟨op,mem_append_left _ hop,hage⟩
  · intro v owner hl hv
    have hlast := hl.of_concat hv
    have hgone := hv
    rw [run_concat] at hv ⊢
    change v ∉ ((run graceUS quarantineUS ops).reserve now claims).1.taken at hv
    have hno : ∀ other,¬(run graceUS quarantineUS ops).Grants now claims v other := by
      intro other hg
      have hh : ((run graceUS quarantineUS ops).reserve now claims).1.Holds v other := by
        rw [Holds,hg.lookup.1]
        exact owner_grantEntry _ _ _ _
      exact hv hh.mem
    obtain ⟨htaken,hquar⟩ := reserve_lookup_of_not_grants hno
    rw [← Finmap.lookup_eq_none,htaken,Finmap.lookup_eq_none] at hv
    obtain ⟨time,hfree,hcase⟩ := h.freed v owner hlast hv
    refine ⟨time,hfree.concat hgone,?_⟩
    rcases hcase with hq | ⟨op,hop,hle⟩
    · exact .inl (hquar.trans hq)
    · exact .inr ⟨op,mem_append_left _ hop,hle⟩

theorem Tracks.ingest (hnow : ∀ op ∈ ops,op.now ≤ now) (snap : RowSnapshot) (dup : List Claim) :
    Tracks graceUS quarantineUS (ops++[.ingest now snap dup]) := by
  constructor
  · intro v owner since he
    rw [run_concat] at he
    change ((run graceUS quarantineUS ops).ingest now snap graceUS dup).taken.lookup v = _ at he
    rw [lookup_taken_ingest,ingestEntry] at he
    rw [unconfirmed_ingest]
    cases ht : (run graceUS quarantineUS ops).taken.lookup v with
    | none =>
      rw [ht] at he
      exact absurd (backing_backed he) Bool.noConfusion
    | some e =>
      rw [ht] at he
      simp only at he
      split_ifs at he with hy
      · cases he
        exact ⟨h.unconfirmed v owner since ht,hy.2⟩
      · exact absurd (backing_backed he) Bool.noConfusion
  · intro v owner since hu
    obtain ⟨hu,hsnap⟩ := unconfirmed_ingest.mp hu
    rw [run_concat]
    change ((run graceUS quarantineUS ops).ingest now snap graceUS dup).taken.lookup v = _ ∨ _
    rcases h.entry v owner since hu with he | ⟨op,hop,hage⟩
    · by_cases hage : graceUS ≤ now-since
      · exact .inr ⟨.ingest now snap dup,by simp,hage⟩
      · have hy : TakenEntry.young ⟨owner,since,false⟩ now graceUS = true := by
          simpa [TakenEntry.young] using hage
        rw [lookup_taken_ingest,ingestEntry,he]
        exact .inl (if_pos ⟨hy,hsnap⟩)
    · exact .inr ⟨op,mem_append_left _ hop,hage⟩
  · intro v owner hl hv
    have hlast := hl.of_concat hv
    have hgone := hv
    rw [run_concat] at hv ⊢
    change v ∉ ((run graceUS quarantineUS ops).ingest now snap graceUS dup).taken at hv
    change ∃ time,_ ∧ (((run graceUS quarantineUS ops).ingest now snap graceUS dup).quarantined.lookup
      v = _ ∨ _)
    rw [← Finmap.lookup_eq_none,lookup_taken_ingest,ingestEntry] at hv
    rw [lookup_quarantined_ingest,ingestRelease]
    cases ht : (run graceUS quarantineUS ops).taken.lookup v with
    | none =>
      obtain ⟨time,hfree,hcase⟩ := h.freed v owner hlast (Finmap.lookup_eq_none.mp ht)
      refine ⟨time,hfree.concat hgone,hcase.imp_right ?_⟩
      rintro ⟨op,hop,hle⟩
      exact ⟨op,mem_append_left _ hop,hle⟩
    | some e =>
      have hh := hlast.holds_of_mem (Finmap.mem_of_lookup_eq_some ht)
      rw [Holds,ht] at hh
      obtain rfl : e.owner = owner := by simpa using hh
      rw [ht] at hv
      simp only at hv ⊢
      split_ifs at hv with hy
      have hshown : v ∉ snap.backing := Finmap.lookup_eq_none.mp hv
      have hold : e.young now graceUS = false := by
        have hnone : snap.ownerOf v = none := by rw [RowSnapshot.ownerOf,hv,Option.map_none]
        simpa [hnone] using hy
      refine ⟨now,⟨ops,snap,dup,[],rfl,holds_of_lookup ht,?_,?_,fun later hlater => ?_⟩,.inl ?_⟩
      · exact fun c hc hk => hshown (mem_backing.mpr ⟨c,hc,hk⟩)
      · intro o since hu
        rcases h.entry v o since hu with he | ⟨op,hop,hage⟩
        · rw [ht] at he
          cases he
          simpa [TakenEntry.young] using hold
        · have := hnow op hop
          omega
      · rwa [prefix_nil.mp hlater]
      · rw [if_pos ⟨by simp [hold],hshown⟩]

theorem Tracks.sweep (now : ℤ) : Tracks graceUS quarantineUS (ops++[.sweep now]) := by
  have hrun : run graceUS quarantineUS (ops++[.sweep now]) =
    (run graceUS quarantineUS ops).sweep now := run_concat _ _ _ _
  constructor
  · intro v owner since he
    rw [hrun] at he
    exact .sweep (h.unconfirmed v owner since he)
  · intro v owner since hu
    rw [hrun]
    refine (h.entry v owner since (unconfirmed_sweep.mp hu)).imp_right ?_
    rintro ⟨op,hop,hage⟩
    exact ⟨op,mem_append_left _ hop,hage⟩
  · intro v owner hl hv
    have hlast := hl.of_concat hv
    have hgone := hv
    rw [hrun] at hv ⊢
    obtain ⟨time,hfree,hcase⟩ := h.freed v owner hlast hv
    refine ⟨time,hfree.concat hgone,?_⟩
    rcases hcase with hq | ⟨op,hop,hle⟩
    · rw [lookup_quarantined_sweep,hq,run_quarantineUS]
      by_cases hle : time+quarantineUS ≤ now
      · exact .inr ⟨.sweep now,by simp,hle⟩
      · exact .inl (if_neg (by simpa using hle))
    · exact .inr ⟨op,mem_append_left _ hop,hle⟩

end

def Ordered (ops : List TableOp) : Prop := (ops.map TableOp.now).Pairwise (· ≤ ·)

theorem Ordered.concat (h : Ordered (ops++[op])) :
    Ordered ops ∧ ∀ op' ∈ ops,op'.now ≤ op.now := by
  rw [Ordered,map_append,pairwise_append] at h
  exact ⟨h.1,fun op' hop' => h.2.2 _ (mem_map_of_mem hop') _ (by simp)⟩

theorem Tracks.run (h : Ordered ops) : Tracks graceUS quarantineUS ops := by
  induction ops using reverseRecOn with
  | nil => exact .nil
  | append_singleton ops op ih =>
    obtain ⟨hops,hnow⟩ := h.concat
    cases op with
    | reserve now claims => exact (ih hops).reserve now claims
    | ingest now snap dup => exact (ih hops).ingest hnow snap dup
    | sweep now => exact (ih hops).sweep now

variable (h : Tracks graceUS quarantineUS ops) (hnow : ∀ op ∈ ops,op.now ≤ now)
include h hnow

theorem mem_taken_ingest (snap : RowSnapshot) (dup : List Claim) :
    v ∈ (run graceUS quarantineUS (ops++[.ingest now snap dup])).taken ↔
      (∃ c ∈ snap.claims,claimKey c = v) ∨
        ∃ owner since,Unconfirmed graceUS quarantineUS v owner since ops ∧ now-since < graceUS := by
  rw [run_concat,← mem_backing]
  change v ∈ ((run graceUS quarantineUS ops).ingest now snap graceUS dup).taken ↔ _
  rw [Finmap.mem_iff,lookup_taken_ingest,ingestEntry]
  constructor
  · rintro ⟨e',he'⟩
    cases ht : (run graceUS quarantineUS ops).taken.lookup v with
    | none =>
      rw [ht] at he'
      exact .inl (Finmap.mem_of_lookup_eq_some he')
    | some e =>
      rw [ht] at he'
      simp only at he'
      split_ifs at he' with hy
      · obtain ⟨o,t,b⟩ := e
        obtain ⟨hb,hlt⟩ : b = false ∧ now-t < graceUS := by simpa [TakenEntry.young] using hy.1
        subst hb
        exact .inr ⟨o,t,h.unconfirmed v o t ht,hlt⟩
      · exact .inl (Finmap.mem_of_lookup_eq_some he')
  · rintro (hshown | ⟨owner,since,hu,hlt⟩)
    · obtain ⟨b,hb⟩ := Finmap.mem_iff.mp hshown
      cases (run graceUS quarantineUS ops).taken.lookup v with
      | none => exact ⟨b,hb⟩
      | some e =>
        simp only
        split_ifs
        · exact ⟨e,rfl⟩
        · exact ⟨b,hb⟩
    · rcases h.entry v owner since hu with he | ⟨op,hop,hage⟩
      · rw [he]
        simp only
        split_ifs with hy
        · exact ⟨_,rfl⟩
        · have hyoung : TakenEntry.young ⟨owner,since,false⟩ now graceUS = true := by
            simpa [TakenEntry.young] using hlt
          have howner : snap.ownerOf v = some owner := by
            by_contra hne
            exact hy ⟨hyoung,hne⟩
          obtain ⟨b,hb,-⟩ := Option.map_eq_some_iff.mp howner
          exact ⟨b,hb⟩
      · have := hnow op hop
        omega

theorem free_of_grants (hok : ((run graceUS quarantineUS ops).reserve now claims).2 = .granted)
    {c : Claim} (hc : c ∈ claims) (hlast : LastOwner graceUS quarantineUS (claimKey c) owner ops)
    (howner : owner ≠ c.owner) (hprev : owner ≠ c.prev) :
    ∃ time,FreedAt graceUS quarantineUS (claimKey c) owner time ops ∧ time+quarantineUS ≤ now := by
  obtain hgrant : (run graceUS quarantineUS ops).grantable (claimKey c) c.owner c.prev now = true := by
    rcases (run graceUS quarantineUS ops).reserve_cases now claims with ⟨hno,-⟩ | ⟨-,-,-,hg,-⟩
    · exact absurd hok hno
    · exact hg c hc
  unfold grantable at hgrant
  split_ifs at hgrant with hf
  by_cases hv : claimKey c ∈ (run graceUS quarantineUS ops).taken
  · obtain ⟨e,he,ho⟩ := Option.map_eq_some_iff.mp (hlast.holds_of_mem hv)
    rw [he] at hgrant
    rcases of_decide_eq_true hgrant with h' | ⟨-,h'⟩
    · exact absurd (ho.symm.trans h') howner
    · exact absurd (ho.symm.trans h') hprev
  · obtain ⟨time,hfree,hcase⟩ := h.freed _ owner hlast hv
    refine ⟨time,hfree,?_⟩
    rcases hcase with hq | ⟨op,hop,hle⟩
    · rw [Finmap.lookup_eq_none.mpr hv,hq] at hgrant
      rcases of_decide_eq_true hgrant with h' | h'
      · exact absurd h' howner
      · rwa [run_quarantineUS] at h'
    · exact le_trans hle (hnow op hop)

end History

/-- After each ingest the taken values are the snapshot's and the unconfirmed grants of the grace
period; a value changes hands unnamed only a quarantine window after an ingest that found it free.
-/
theorem derivation_invariant (graceUS quarantineUS : ℤ) {history : List TableOp}
    (hordered : Ordered history) :
    (∀ ops now snap dup,ops++[.ingest now snap dup] <+: history → ∀ v,
      v ∈ (run graceUS quarantineUS (ops++[.ingest now snap dup])).taken ↔
        (∃ c ∈ snap.claims,claimKey c = v) ∨
          ∃ owner since,Unconfirmed graceUS quarantineUS v owner since ops ∧ now-since < graceUS) ∧
    ∀ ops now claims,ops++[.reserve now claims] <+: history →
      ((run graceUS quarantineUS ops).reserve now claims).2 = .granted → ∀ c ∈ claims,∀ owner,
        LastOwner graceUS quarantineUS (claimKey c) owner ops → owner ≠ c.owner → owner ≠ c.prev →
        ∃ time,FreedAt graceUS quarantineUS (claimKey c) owner time ops ∧ time+quarantineUS ≤ now := by
  have hprefix : ∀ ops op,ops++[op] <+: history →
      Tracks graceUS quarantineUS ops ∧ ∀ op' ∈ ops,op'.now ≤ op.now := by
    intro ops op hpre
    have hord : Ordered (ops++[op]) := hordered.sublist (hpre.sublist.map _)
    exact ⟨.run hord.concat.1,hord.concat.2⟩
  constructor
  · intro ops now snap dup hpre v
    obtain ⟨ht,hnow⟩ := hprefix _ _ hpre
    exact mem_taken_ingest ht hnow snap dup
  · intro ops now claims hpre hok c hc owner hlast howner hprev
    obtain ⟨ht,hnow⟩ := hprefix _ _ hpre
    exact free_of_grants ht hnow hok hc hlast howner hprev

namespace DerivationSample

def value : ClaimKey := ⟨1,1,[5]⟩
def claim (owner : Byte) : Claim := ⟨1,1,[5],[owner],[]⟩
def rows (owners : List Byte) : RowSnapshot := ⟨[(1,1)],owners.map claim⟩

/-- A value that its row gave up goes to a new owner once the window after the ingest is over. -/
def vacated : List TableOp :=
  [.ingest 0 (rows []) [],.reserve 1 [claim 7],.ingest 2 (rows [7]) [],.ingest 5 (rows []) []]

theorem derivation_invariant_of_vacated :
    value ∈ (run 30 30 [.ingest 0 (rows []) [],.reserve 1 [claim 7],.ingest 2 (rows [7]) []]).taken ∧
      ∃ time,FreedAt 30 30 value [7] time vacated ∧ time+30 ≤ 40 := by
  have hordered : Ordered (vacated++[.reserve 40 [claim 8]]) := by
    unfold Ordered
    decide
  obtain ⟨htaken,hfree⟩ := derivation_invariant 30 30 hordered
  constructor
  · exact (htaken [.ingest 0 (rows []) [],.reserve 1 [claim 7]] 2 (rows [7]) [] ⟨_,rfl⟩ value).mpr
      (.inl ⟨claim 7,by decide,rfl⟩)
  · have hheld : LastOwner 30 30 value [7]
        [.ingest 0 (rows []) [],.reserve 1 [claim 7],.ingest 2 (rows [7]) []] :=
      .holds (by unfold Holds; decide)
    have hleft : LastOwner 30 30 value [7] vacated := hheld.left (by decide)
    exact hfree vacated 40 [claim 8] (prefix_refl _) (by decide) (claim 8) (by simp) [7] hleft
      (by decide) (by decide)

/-- A confirmed grant and a re-asserted one leave the taken values within the grace period of the
last reserve; and an owner that the rows show is granted a value that another reserved last. -/
theorem derivation_forgets_reserves :
    ((run 30 100 [.ingest 0 (rows []) []]).reserve 1 [claim 7]).2 = .granted ∧
      value ∉ (run 30 100 vacated).taken ∧
      ((run 30 100 [.ingest 0 (rows []) [],.reserve 1 [claim 7]]).reserve 25 [claim 7]).2 = .granted ∧
      value ∉ (run 30 100 [.ingest 0 (rows []) [],.reserve 1 [claim 7],.reserve 25 [claim 7],
        .ingest 31 (rows []) []]).taken ∧
      ((run 30 100 [.ingest 0 (rows []) [],.reserve 1 [claim 7],.ingest 40 (rows [8]) []]).reserve 41
        [claim 8]).2 = .granted := by
  decide

end DerivationSample

end ReservationTable

end Syzy
