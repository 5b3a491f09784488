import Syzy.Registry

/-!
The leaseholder's reservation table: the taken values derived from the replicated rows and recent
grants, the values released a while ago, and the keys it may serve. Times are microseconds.
-/

namespace Syzy

open List

structure TakenEntry where
  owner : Owner
  grantedUS : ℤ
  /-- The owner's row was seen holding the value in the last snapshot. -/
  backed : Bool

structure ReleaseEntry where
  owner : Owner
  releaseUS : ℤ
deriving DecidableEq

instance : Inhabited TakenEntry := ⟨⟨[],0,false⟩⟩
instance : Inhabited ReleaseEntry := ⟨⟨[],0⟩⟩

structure ReservationTable where
  quarantineUS : ℤ
  taken : FinMap ClaimKey TakenEntry
  quarantined : FinMap ClaimKey ReleaseEntry
  servable : Finset KeyRef
  fenced : Finset ClaimKey
  stopped : Bool

inductive ReserveResult where
  | granted
  | notServing
  | conflict (c : Claim)
deriving DecidableEq

namespace ReservationTable

variable (rt : ReservationTable) (now : ℤ)

def new (quarantineUS : ℤ) : ReservationTable where
  quarantineUS := quarantineUS
  taken := ∅
  quarantined := ∅
  servable := ∅
  fenced := ∅
  stopped := false

def grantable (ck : ClaimKey) (owner prev : Owner) (now : ℤ) : Bool :=
  if ck ∈ rt.fenced then false
  else match rt.taken.lookup ck with
    | some cur => cur.owner = owner ∨ (prev ≠ [] ∧ cur.owner = prev)
    | none => match rt.quarantined.lookup ck with
      | some q => q.owner = owner ∨ q.releaseUS+rt.quarantineUS ≤ now
      | none => true

/-- Check every claim before granting any; `batch` holds the owners met earlier in the request. -/
def checkClaims (rt : ReservationTable) (now : ℤ) : FinMap ClaimKey Owner → List Claim → ReserveResult
  | _,[] => .granted
  | batch,c::cs =>
    if (c.table,c.key) ∉ rt.servable then .notServing
    else if (batch.lookup (claimKey c)).any (· ≠ c.owner) then .conflict c
    else if ¬rt.grantable (claimKey c) c.owner c.prev now then .conflict c
    else checkClaims rt now (batch.insert (claimKey c) c.owner) cs

/-- Grant one claim: an entry of the same owner stays, any other gives way to a new grant. -/
def grant (rt : ReservationTable) (c : Claim) : ReservationTable :=
  { rt with
    taken :=
      if (rt.taken.lookup (claimKey c)).any (·.owner = c.owner) then rt.taken
      else rt.taken.insert (claimKey c) ⟨c.owner,now,false⟩
    quarantined := rt.quarantined.erase (claimKey c) }

def reserve (claims : List Claim) :
    ReservationTable × ReserveResult :=
  if rt.stopped then (rt,.notServing)
  else match rt.checkClaims now ∅ claims with
    | .granted => (claims.foldl (grant now) rt,.granted)
    | r => (rt,r)

end ReservationTable

/-- The row-backed entries of a snapshot; of two rows with one value the later one counts. -/
def RowSnapshot.backing (snap : RowSnapshot) : FinMap ClaimKey TakenEntry :=
  snap.claims.foldl (fun m c => m.insert (claimKey c) ⟨c.owner,0,true⟩) ∅

def RowSnapshot.ownerOf (snap : RowSnapshot) (v : ClaimKey) : Option Owner :=
  (snap.backing.lookup v).map TakenEntry.owner

def TakenEntry.young (e : TakenEntry) (now graceUS : ℤ) : Bool := !e.backed ∧ now-e.grantedUS < graceUS

namespace ReservationTable

variable (rt : ReservationTable)

/-- The entry of one value after a snapshot: a young grant stays, also over the row of another
owner. -/
def ingestEntry (now : ℤ) (snap : RowSnapshot) (graceUS : ℤ) (ck : ClaimKey) : Option TakenEntry :=
  match rt.taken.lookup ck with
  | some e =>
    if e.young now graceUS ∧ snap.ownerOf ck ≠ some e.owner then some e else snap.backing.lookup ck
  | none => snap.backing.lookup ck

/-- The release of one value after a snapshot: an entry that is neither shown nor young is released
now. -/
def ingestRelease (now : ℤ) (snap : RowSnapshot) (graceUS : ℤ)
    (ck : ClaimKey) : Option ReleaseEntry :=
  match rt.taken.lookup ck with
  | some e =>
    if ¬e.young now graceUS ∧ ck ∉ snap.backing then some ⟨e.owner,now⟩
    else rt.quarantined.lookup ck
  | none => rt.quarantined.lookup ck

def ingest (now : ℤ) (snap : RowSnapshot) (graceUS : ℤ) (dup : List Claim) :
    ReservationTable :=
  { rt with
    taken := FinMap.ofLookup (rt.taken.keys ∪ snap.backing.keys) (rt.ingestEntry now snap graceUS)
    quarantined := FinMap.ofLookup (rt.taken.keys ∪ rt.quarantined.keys)
      (rt.ingestRelease now snap graceUS)
    servable := snap.keys.toFinset
    fenced := (dup.map claimKey).toFinset }

def sweep (now : ℤ) : ReservationTable :=
  { rt with
    quarantined := FinMap.filter (fun ck => ¬(rt.quarantined.lookup ck).any fun q =>
      q.releaseUS+rt.quarantineUS ≤ now) rt.quarantined }

variable {claims : List Claim} {now : ℤ} {snap : RowSnapshot} {v : ClaimKey}

theorem backing_backed {e : TakenEntry} (h : snap.backing.lookup v = some e) : e.backed = true := by
  have hfold : ∀ (cs : List Claim) (m : FinMap ClaimKey TakenEntry),
      (∀ e,m.lookup v = some e → e.backed = true) → ∀ e,
      (cs.foldl (fun m c => m.insert (claimKey c) ⟨c.owner,0,true⟩) m).lookup v = some e →
        e.backed = true := by
    intro cs
    induction cs with
    | nil => exact fun m hm => hm
    | cons c cs ih =>
      intro m hm
      refine ih _ fun e he => ?_
      rw [FinMap.lookup_insert_eq] at he
      split_ifs at he
      · cases he
        rfl
      · exact hm e he
  exact hfold snap.claims ∅ (by simp) e h

theorem mem_backing :
    v ∈ snap.backing ↔ ∃ c ∈ snap.claims,claimKey c = v := by
  have hfold : ∀ (cs : List Claim) (m : FinMap ClaimKey TakenEntry),
      v ∈ cs.foldl (fun m c => m.insert (claimKey c) (⟨c.owner,0,true⟩ : TakenEntry)) m ↔
        v ∈ m ∨ ∃ c ∈ cs,claimKey c = v := by
    intro cs
    induction cs with
    | nil => simp
    | cons c cs ih =>
      intro m
      rw [foldl_cons,ih,Finmap.mem_insert]
      simp only [mem_cons,exists_eq_or_imp]
      grind
  rw [RowSnapshot.backing,hfold]
  exact or_iff_right Finmap.notMem_empty

theorem lookup_taken_ingest (now : ℤ) (snap : RowSnapshot) (graceUS : ℤ)
    (dup : List Claim) (v : ClaimKey) : (rt.ingest now snap graceUS dup).taken.lookup v =
      rt.ingestEntry now snap graceUS v := by
  simp only [ingest,FinMap.lookup_ofLookup]
  split_ifs with h
  · rfl
  · rw [Finset.mem_union,not_or,Finmap.mem_keys,Finmap.mem_keys] at h
    rw [ingestEntry,Finmap.lookup_eq_none.mpr h.1,Finmap.lookup_eq_none.mpr h.2]

theorem lookup_quarantined_ingest (now : ℤ) (snap : RowSnapshot)
    (graceUS : ℤ) (dup : List Claim) (v : ClaimKey) :
    (rt.ingest now snap graceUS dup).quarantined.lookup v = rt.ingestRelease now snap graceUS v := by
  simp only [ingest,FinMap.lookup_ofLookup]
  split_ifs with h
  · rfl
  · rw [Finset.mem_union,not_or,Finmap.mem_keys,Finmap.mem_keys] at h
    rw [ingestRelease,Finmap.lookup_eq_none.mpr h.1,Finmap.lookup_eq_none.mpr h.2]

theorem lookup_quarantined_sweep (now : ℤ) (v : ClaimKey) : (rt.sweep now).quarantined.lookup v =
      if (rt.quarantined.lookup v).any (fun q => q.releaseUS+rt.quarantineUS ≤ now) = true then none
      else rt.quarantined.lookup v := by
  simp only [sweep,FinMap.lookup_filter]
  split_ifs
  · rfl
  · rfl

theorem checkClaims_granted {rt : ReservationTable} {batch : FinMap ClaimKey Owner}
    (h : rt.checkClaims now batch claims = .granted) :
    ∀ c ∈ claims,rt.grantable (claimKey c) c.owner c.prev now = true ∧
      (∀ o,batch.lookup (claimKey c) = some o → c.owner = o) ∧
      ∀ c' ∈ claims,claimKey c' = claimKey c → c'.owner = c.owner := by
  induction claims generalizing batch with
  | nil => simp
  | cons c cs ih =>
    rw [checkClaims] at h
    split_ifs at h with hs hb hg
    have ih := ih h
    have hown : ∀ o,batch.lookup (claimKey c) = some o → c.owner = o := by
      intro o ho
      by_contra hne
      exact hb (by simpa [ho] using fun h' => hne h'.symm)
    have hcs : ∀ c' ∈ cs,claimKey c' = claimKey c → c'.owner = c.owner := fun c' hc' hk =>
      (ih c' hc').2.1 c.owner (by rw [hk,FinMap.lookup_insert_eq,if_pos rfl])
    intro c₁ hmem
    rcases mem_cons.mp hmem with rfl | hc₁
    · refine ⟨by simpa using hg,hown,fun c' hc' hk => ?_⟩
      rcases mem_cons.mp hc' with rfl | hc'
      · rfl
      · exact hcs c' hc' hk
    · obtain ⟨hgr,hbat,hsame⟩ := ih c₁ hc₁
      refine ⟨hgr,fun o ho => ?_,fun c' hc' hk => ?_⟩
      · by_cases hk : claimKey c₁ = claimKey c
        · rw [hcs c₁ hc₁ hk]
          exact hown o (hk ▸ ho)
        · exact hbat o (by rw [FinMap.lookup_insert_eq,if_neg hk,ho])
      · rcases mem_cons.mp hc' with rfl | hc'
        · exact (hcs c₁ hc₁ hk.symm).symm
        · exact hsame c' hc' hk

def grantEntry (now : ℤ) (v : ClaimKey) (owner : Owner) : Option TakenEntry :=
  if (rt.taken.lookup v).any (·.owner = owner) then rt.taken.lookup v
  else some ⟨owner,now,false⟩

theorem lookup_grant_of_ne (now : ℤ) {c : Claim} (h : claimKey c ≠ v) :
    (grant now rt c).taken.lookup v = rt.taken.lookup v ∧
      (grant now rt c).quarantined.lookup v = rt.quarantined.lookup v := by
  have hv : v ≠ claimKey c := fun h' => h h'.symm
  constructor
  · simp only [grant]
    split_ifs
    · rfl
    · rw [FinMap.lookup_insert_eq,if_neg hv]
  · simp only [grant]
    rw [FinMap.lookup_erase_eq,if_neg hv]

theorem lookup_grant_self (now : ℤ) (c : Claim) :
    (grant now rt c).taken.lookup (claimKey c) = rt.grantEntry now (claimKey c) c.owner ∧
      (grant now rt c).quarantined.lookup (claimKey c) = none := by
  constructor
  · simp only [grant,grantEntry]
    split_ifs
    · rfl
    · rw [FinMap.lookup_insert_eq,if_pos rfl]
  · simp only [grant]
    rw [FinMap.lookup_erase_eq,if_pos rfl]

theorem owner_grantEntry (now : ℤ) (v : ClaimKey) (owner : Owner) :
    (rt.grantEntry now v owner).map TakenEntry.owner = some owner := by
  unfold grantEntry
  split_ifs with h
  · cases ht : rt.taken.lookup v with
    | none => simp [ht] at h
    | some e => simpa [ht] using h
  · rfl

theorem lookup_grants_of_not_mem (now : ℤ) (h : ∀ c ∈ claims,claimKey c ≠ v) :
    (claims.foldl (grant now) rt).taken.lookup v = rt.taken.lookup v ∧
      (claims.foldl (grant now) rt).quarantined.lookup v = rt.quarantined.lookup v := by
  induction claims generalizing rt with
  | nil => exact ⟨rfl,rfl⟩
  | cons c cs ih =>
    have hc := lookup_grant_of_ne rt now (h c (by simp))
    have hcs := ih (grant now rt c) fun c' hc' => h c' (by simp [hc'])
    exact ⟨hcs.1.trans hc.1,hcs.2.trans hc.2⟩

theorem lookup_grants {owner : Owner} (hown : ∀ c ∈ claims,claimKey c = v → c.owner = owner)
    (rt : ReservationTable) (hmem : ∃ c ∈ claims,claimKey c = v) :
    (claims.foldl (grant now) rt).taken.lookup v = rt.grantEntry now v owner ∧
      (claims.foldl (grant now) rt).quarantined.lookup v = none := by
  induction claims generalizing rt with
  | nil => simp at hmem
  | cons c cs ih =>
    have hown' : ∀ c ∈ cs,claimKey c = v → c.owner = owner := fun c' hc' => hown c' (by simp [hc'])
    rw [foldl_cons]
    by_cases hc : claimKey c = v
    · have hself := lookup_grant_self rt now c
      rw [hc,hown c (by simp) hc] at hself
      by_cases hcs : ∃ c ∈ cs,claimKey c = v
      · -- a second claim of the same owner finds the entry it would make
        have hagain := ih hown' (grant now rt c) hcs
        refine ⟨?_,hagain.2⟩
        rw [hagain.1,grantEntry,hself.1,if_pos]
        have ho := owner_grantEntry rt now v owner
        cases he : rt.grantEntry now v owner with
        | none => simp [he] at ho
        | some e => simpa [he] using ho
      · have hrest := lookup_grants_of_not_mem (grant now rt c) now (v := v) fun c' hc' h' =>
          hcs ⟨c',hc',h'⟩
        exact ⟨hrest.1.trans hself.1,hrest.2.trans hself.2⟩
    · obtain ⟨c',hc',hk⟩ := hmem
      have hcs : ∃ c ∈ cs,claimKey c = v := by
        rcases mem_cons.mp hc' with rfl | hc'
        · exact absurd hk hc
        · exact ⟨c',hc',hk⟩
      have hne := lookup_grant_of_ne rt now hc
      rw [grantEntry,← hne.1]
      exact ih hown' (grant now rt c) hcs

theorem reserve_cases (now : ℤ) (claims : List Claim) :
    ((rt.reserve now claims).2 ≠ .granted ∧ (rt.reserve now claims).1 = rt) ∨
    ((rt.reserve now claims).2 = .granted ∧ rt.stopped = false ∧
      (rt.reserve now claims).1 = claims.foldl (grant now) rt ∧
      (∀ c ∈ claims,rt.grantable (claimKey c) c.owner c.prev now = true) ∧
      ∀ c ∈ claims,∀ c' ∈ claims,claimKey c' = claimKey c → c'.owner = c.owner) := by
  unfold reserve
  cases hs : rt.stopped with
  | true => exact .inl ⟨by simp,by simp⟩
  | false =>
    simp only [Bool.false_eq_true,if_false]
    cases hc : rt.checkClaims now ∅ claims with
    | granted =>
      have hg := checkClaims_granted hc
      exact .inr ⟨rfl,trivial,rfl,fun c h => (hg c h).1,fun c h => (hg c h).2.2⟩
    | notServing | conflict => exact .inl ⟨by simp,rfl⟩

end ReservationTable

end Syzy
