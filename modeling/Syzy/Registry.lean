import Syzy.FinMap
import Syzy.Identity

/-!
Claims on the values of coordinated unique keys, and the in-process registry that grants them.
Table and key identities have a fixed width, so a claim's map key is the triple itself.
-/

namespace Syzy

open List

abbrev Owner := Bytes

structure ClaimKey where
  table : TableID
  key : KeyID
  value : Bytes
deriving DecidableEq

/-- One reservation of a value for a row; an empty `prev` names nobody. -/
structure Claim where
  table : TableID
  key : KeyID
  value : Bytes
  owner : Owner
  prev : Owner
deriving DecidableEq

def claimKey (c : Claim) : ClaimKey := ⟨c.table,c.key,c.value⟩

abbrev KeyRef := TableID × KeyID

/-- One enumeration of the replica: the keys it knows and the claims its rows make. -/
structure RowSnapshot where
  keys : List KeyRef
  claims : List Claim

/-- The in-process registry: the owner of each taken value, and the keys whose taken values have been
derived from the rows. -/
structure Local where
  taken : FinMap ClaimKey Owner
  enumerate : Option RowSnapshot
  seeded : Finset KeyRef

namespace Local

def seedClaim (taken : FinMap ClaimKey Owner) (c : Claim) : FinMap ClaimKey Owner :=
  if claimKey c ∈ taken then taken else taken.insert (claimKey c) c.owner

/-- Derive the taken values of keys not seen yet; entries that are there win. -/
def seedLocked (l : Local) (claims : List Claim) : Local :=
  match l.enumerate with
  | none => l
  | some snap =>
    if claims.all fun c => (c.table,c.key) ∈ l.seeded then l
    else { l with
      taken := snap.claims.foldl seedClaim l.taken
      seeded := l.seeded ∪ snap.keys.toFinset }

/-- Check every claim before granting any: the first that conflicts. `batch` holds the owners met
earlier in the request. -/
def checkClaims (taken : FinMap ClaimKey Owner) : FinMap ClaimKey Owner → List Claim → Option Claim
  | _,[] => none
  | batch,c::cs =>
    if (batch.lookup (claimKey c)).any (· ≠ c.owner) then some c
    else if (taken.lookup (claimKey c)).any fun cur => cur ≠ c.owner ∧ cur ≠ c.prev then some c
    else checkClaims taken (batch.insert (claimKey c) c.owner) cs

def grant (taken : FinMap ClaimKey Owner) (c : Claim) : FinMap ClaimKey Owner :=
  taken.insert (claimKey c) c.owner

/-- Take all values of a request or none; the answer is the claim in conflict. -/
def reserve (l : Local) (claims : List Claim) : Local × Option Claim :=
  let l := l.seedLocked claims
  match checkClaims l.taken ∅ claims with
  | some c => (l,some c)
  | none => ({ l with taken := claims.foldl grant l.taken },none)

def free (taken : FinMap ClaimKey Owner) (c : Claim) : FinMap ClaimKey Owner :=
  if taken.lookup (claimKey c) = some c.owner then taken.erase (claimKey c) else taken

def release (l : Local) (claims : List Claim) : Local := { l with taken := claims.foldl free l.taken }

theorem lookup_grant (taken : FinMap ClaimKey Owner) (c : Claim) (v : ClaimKey) :
    (grant taken c).lookup v = if v = claimKey c then some c.owner else taken.lookup v :=
  FinMap.lookup_insert_eq taken (claimKey c) v c.owner

theorem lookup_free (taken : FinMap ClaimKey Owner) (c : Claim) (v : ClaimKey) :
    (free taken c).lookup v =
      if v = claimKey c ∧ taken.lookup v = some c.owner then none else taken.lookup v := by
  unfold free
  by_cases hv : v = claimKey c
  · subst hv
    by_cases ho : taken.lookup (claimKey c) = some c.owner
    · simp [ho]
    · simp [ho]
  · split_ifs with ho h
    · exact absurd h.1 hv
    · simp [hv]
    · exact absurd (by assumption : v = claimKey c ∧ _).1 hv
    · rfl

theorem foldl_seedClaim {taken : FinMap ClaimKey Owner} {claims : List Claim}
    (h : ∀ c ∈ claims,claimKey c ∈ taken) : claims.foldl seedClaim taken = taken := by
  induction claims with
  | nil => rfl
  | cons c cs ih =>
    rw [foldl_cons,seedClaim,if_pos (h c mem_cons_self)]
    exact ih fun d hd => h d (mem_cons_of_mem _ hd)

theorem taken_seedLocked {l : Local} (h : ∀ snap ∈ l.enumerate,∀ c ∈ snap.claims,claimKey c ∈ l.taken)
    (claims : List Claim) : (l.seedLocked claims).taken = l.taken := by
  unfold seedLocked
  cases hsnap : l.enumerate with
  | none => rfl
  | some snap =>
    split_ifs
    · rfl
    · exact foldl_seedClaim (h snap hsnap)

section Batch

variable {taken : FinMap ClaimKey Owner} {claims : List Claim}

theorem checkClaims_eq_none {batch : FinMap ClaimKey Owner} (hnodup : (claims.map claimKey).Nodup)
    (hbatch : ∀ c ∈ claims,batch.lookup (claimKey c) = none)
    (h : ∀ c ∈ claims,∀ cur,taken.lookup (claimKey c) = some cur → cur = c.owner ∨ cur = c.prev) :
    checkClaims taken batch claims = none := by
  induction claims generalizing batch with
  | nil => rfl
  | cons c cs ih =>
    obtain ⟨hne,hnodup⟩ := nodup_cons.mp hnodup
    have hfree : ¬(taken.lookup (claimKey c)).any (fun cur => cur ≠ c.owner ∧ cur ≠ c.prev) = true := by
      rw [Option.any_eq_true]
      rintro ⟨cur,hcur,hbad⟩
      have := h c mem_cons_self cur hcur
      simp only [decide_eq_true_eq] at hbad
      exact this.elim hbad.1 hbad.2
    have hown : ¬(batch.lookup (claimKey c)).any (· ≠ c.owner) = true := by
      rw [hbatch c mem_cons_self]
      simp
    rw [checkClaims,if_neg hown,if_neg hfree]
    refine ih hnodup (fun d hd => ?_) fun d hd => h d (mem_cons_of_mem _ hd)
    have hd' : claimKey d ≠ claimKey c := fun heq => hne (heq ▸ mem_map_of_mem hd)
    rw [FinMap.lookup_insert_eq,if_neg hd']
    exact hbatch d (mem_cons_of_mem _ hd)

theorem lookup_grants_of_mem (hnodup : (claims.map claimKey).Nodup) {c : Claim} (hc : c ∈ claims) :
    (claims.foldl grant taken).lookup (claimKey c) = some c.owner := by
  induction claims using reverseRecOn with
  | nil => exact absurd hc not_mem_nil
  | append_singleton cs d ih =>
    rw [map_append,nodup_append] at hnodup
    rw [foldl_concat,lookup_grant]
    rcases mem_concat.mp hc with hc | rfl
    · rw [if_neg (hnodup.2.2 _ (mem_map_of_mem hc) _ (mem_singleton.mpr rfl)),ih hnodup.1 hc]
    · rw [if_pos rfl]

theorem lookup_grants_of_not_mem {v : ClaimKey} (h : ∀ c ∈ claims,claimKey c ≠ v) :
    (claims.foldl grant taken).lookup v = taken.lookup v := by
  induction claims generalizing taken with
  | nil => rfl
  | cons c cs ih =>
    rw [foldl_cons,ih fun d hd => h d (mem_cons_of_mem _ hd),lookup_grant,
      if_neg (h c mem_cons_self).symm]

theorem lookup_frees (v : ClaimKey) : (claims.foldl free taken).lookup v =
      if ∃ c ∈ claims,claimKey c = v ∧ taken.lookup v = some c.owner then none else taken.lookup v := by
  induction claims generalizing taken with
  | nil => simp
  | cons c cs ih =>
    rw [foldl_cons,ih,lookup_free]
    by_cases hc : v = claimKey c ∧ taken.lookup v = some c.owner
    · rw [if_pos hc,ite_self,if_pos ⟨c,mem_cons_self,hc.1.symm,hc.2⟩]
    · rw [if_neg hc]
      refine if_congr ⟨?_,?_⟩ rfl rfl
      · rintro ⟨d,hd,hdv⟩
        exact ⟨d,mem_cons_of_mem _ hd,hdv⟩
      · rintro ⟨d,hd,hdv⟩
        rcases mem_cons.mp hd with rfl | hd
        · exact absurd ⟨hdv.1.symm,hdv.2⟩ hc
        · exact ⟨d,hd,hdv⟩

/-- A request on different values, each free, its owner's or the named previous owner's. -/
theorem reserve_granted {l : Local}
    (hseed : ∀ snap ∈ l.enumerate,∀ c ∈ snap.claims,claimKey c ∈ l.taken)
    (hnodup : (claims.map claimKey).Nodup)
    (h : ∀ c ∈ claims,∀ cur,l.taken.lookup (claimKey c) = some cur → cur = c.owner ∨ cur = c.prev) :
    (l.reserve claims).2 = none ∧ (l.reserve claims).1.taken = claims.foldl grant l.taken := by
  have hcheck := checkClaims_eq_none hnodup (fun c _ => Finmap.lookup_empty (claimKey c)) h
  unfold reserve
  dsimp only
  rw [taken_seedLocked hseed,hcheck]
  exact ⟨rfl,rfl⟩

end Batch

end Local

end Syzy
