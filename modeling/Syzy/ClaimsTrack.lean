import Syzy.Coordinated
import Syzy.ExceptFold
import Syzy.RowView

/-!
The in-process registry against the rows. When every event lands in the slot that holds its row, the
claims of a transaction are always granted; the values taken in the end are those of the rows exactly
if no row ends with the value and the primary key that another row had before.
-/

namespace Syzy

open List

open RowEvents

/-- The value and the owner with which a row participates in a coordinated key. -/
def holding (pred : KeyPredicates) (cat : Catalog) (t : TableID) (k : KeyID) (x : RowPlace × Image) :
    Option (Bytes × Owner) :=
  if x.1.db = "main" ∧ x.1.table = t then
    (cat.tableByID t).bind fun tab => (tab.coordinatedKeys.find? fun uk => uk.keyID = k).bind fun uk =>
      (heldValue pred tab uk (some x.2)).toOption.join.bind fun v =>
        (tab.encodePKFromSlice x.2).map fun pk => (v,pk)
  else none

/-- Tables go by their ids, and the coordinated keys of a table by theirs. -/
structure Catalog.KeysOK (cat : Catalog) : Prop where
  id_eq : ∀ t tab,cat.tableByID t = some tab → tab.id = t
  keys_nodup : ∀ t tab,cat.tableByID t = some tab → (tab.coordinatedKeys.map UniqueKey.keyID).Nodup

def Claimable (cat : Catalog) (x : RowPlace × Image) : Prop :=
  ∀ tab,cat.tableByID x.1.table = some tab → (tab.encodePKFromSlice x.2).isSome = true ∧
    ∀ uk ∈ tab.coordinatedKeys,(tab.encodeKeyFromSlice uk x.2).isSome = true

def reserveOf (t : TableID) (k : KeyID) (c : Change (Bytes × Owner)) : Option Claim :=
  c.target.map fun y => ⟨t,k,y.1,y.2,c.source.elim [] fun x => if x.1 = y.1 ∧ x.2 ≠ y.2 then x.2 else []⟩

def releaseOf (t : TableID) (k : KeyID) (c : Change (Bytes × Owner)) : Option Claim :=
  c.source.bind fun x => if c.targetPlace = some x.1 then none else some ⟨t,k,x.1,x.2,[]⟩

section Slots

variable (pred : KeyPredicates) {cat : Catalog}

theorem holding_eq (hcat : cat.KeysOK) {x : RowPlace × Image} {tab : Table} {uk : UniqueKey}
    (hdb : x.1.db = "main") (htab : cat.tableByID x.1.table = some tab) (huk : uk ∈ tab.coordinatedKeys)
    (hx : Claimable cat x) :
    ∃ v pk,heldValue pred tab uk (some x.2) = .ok v ∧ encodeOwner tab (some x.2) = .ok pk ∧
      holding pred cat x.1.table uk.keyID x = v.map fun b => (b,pk) := by
  obtain ⟨hpk,hkeys⟩ := hx tab htab
  obtain ⟨pk,hpk⟩ := Option.isSome_iff_exists.mp hpk
  obtain ⟨r,hr⟩ := Option.isSome_iff_exists.mp (hkeys uk huk)
  have hfind : tab.coordinatedKeys.find? (fun u => u.keyID = uk.keyID) = some uk := by
    cases hf : tab.coordinatedKeys.find? (fun u => u.keyID = uk.keyID) with
    | none => exact absurd (find?_eq_none.mp hf uk huk) (by simp)
    | some u =>
      have hu : u.keyID = uk.keyID := by simpa using find?_some hf
      rw [inj_on_of_nodup_map (hcat.keys_nodup _ _ htab) (mem_of_find?_eq_some hf) huk hu]
  have hheld : ∃ v,heldValue pred tab uk (some x.2) = .ok v := by
    simp only [heldValue,hr]
    cases r with
    | none | some => exact ⟨_,rfl⟩
  obtain ⟨v,hv⟩ := hheld
  refine ⟨v,pk,hv,by simp [encodeOwner,hpk],?_⟩
  rw [holding,if_pos ⟨hdb,rfl⟩,htab,Option.bind_some,hfind,Option.bind_some,hv,hpk]
  cases v <;> rfl

structure CoordSlotOK (cat : Catalog) (s : RowSlot) : Prop where
  old : ∀ x ∈ s.old,x.1.db = "main" ∧ x.1.table = s.key.1 ∧ Claimable cat x
  new : ∀ x ∈ s.new,x.1.db = "main" ∧ x.1.table = s.key.1 ∧ Claimable cat x

def slotKeys (cat : Catalog) (s : RowSlot) : List UniqueKey :=
  ((cat.tableByID s.key.1).map Table.coordinatedKeys).getD []

def changeOf (pred : KeyPredicates) (cat : Catalog) (t : TableID) (k : KeyID) (s : RowSlot) :
    Change (Bytes × Owner) := s.change.bind (holding pred cat t k)

theorem keyClaims_eq (t : TableID) (k : KeyID) (oldVal newVal : Option Bytes) (oldPK newPK : Owner) :
    keyClaims t k oldVal newVal oldPK newPK =
      (reserveOf t k ⟨oldVal.map fun b => (b,oldPK),newVal.map fun b => (b,newPK)⟩,
        releaseOf t k ⟨oldVal.map fun b => (b,oldPK),newVal.map fun b => (b,newPK)⟩) := by
  cases oldVal <;> cases newVal <;> simp [keyClaims,reserveOf,releaseOf,Change.targetPlace,eq_comm]

theorem coordSlotClaims_eq (hcat : cat.KeysOK) {s : RowSlot} {tab : Table}
    (htab : cat.tableByID s.key.1 = some tab) (hs : CoordSlotOK cat s) :
    coordSlotClaims pred cat (toCoord s) = .ok ((slotKeys cat s).map fun uk =>
      (reserveOf s.key.1 uk.keyID (changeOf pred cat s.key.1 uk.keyID s),
        releaseOf s.key.1 uk.keyID (changeOf pred cat s.key.1 uk.keyID s))) := by
  have hrow : ∀ {o : Option (RowPlace × Image)},
      (∀ x ∈ o,x.1.db = "main" ∧ x.1.table = s.key.1 ∧ Claimable cat x) →
      ∃ pk,encodeOwner tab (o.map Prod.snd) = .ok pk ∧ ∀ uk ∈ tab.coordinatedKeys,
        ∃ v,heldValue pred tab uk (o.map Prod.snd) = .ok v ∧
          o.bind (holding pred cat s.key.1 uk.keyID) = v.map fun b => (b,pk) := by
    intro o ho
    cases o with
    | none => exact ⟨[],rfl,fun uk _ => ⟨none,rfl,rfl⟩⟩
    | some x =>
      obtain ⟨hdb,htable,hx⟩ := ho x rfl
      have htab' : cat.tableByID x.1.table = some tab := htable ▸ htab
      obtain ⟨hpk,-⟩ := hx tab htab'
      obtain ⟨pk,hpk⟩ := Option.isSome_iff_exists.mp hpk
      have howner : encodeOwner tab (some x.2) = .ok pk := by simp [encodeOwner,hpk]
      refine ⟨pk,howner,fun uk huk => ?_⟩
      obtain ⟨v,pk',hv,hpk',hhold⟩ := holding_eq pred hcat hdb htab' huk hx
      obtain rfl : pk' = pk := Except.ok.inj (hpk'.symm.trans howner)
      exact ⟨v,hv,htable ▸ hhold⟩
  obtain ⟨oldPK,holdPK,hold⟩ := hrow hs.old
  obtain ⟨newPK,hnewPK,hnew⟩ := hrow hs.new
  have hid := hcat.id_eq _ _ htab
  have hkeys : slotKeys cat s = tab.coordinatedKeys := by simp [slotKeys,htab]
  rw [hkeys]
  simp only [coordSlotClaims,toCoord,htab,Option.elim_some,appendClaims,holdPK,hnewPK]
  refine ExceptFold.mapM_ok fun uk huk => ?_
  obtain ⟨v,hv,hvh⟩ := hold uk huk
  obtain ⟨w,hw,hwh⟩ := hnew uk huk
  rw [hv,hw]
  change Except.ok (keyClaims tab.id uk.keyID v w oldPK newPK) = _
  rw [keyClaims_eq,hid,changeOf,Change.bind,← hvh,← hwh]

end Slots

section Claims

variable {pred : KeyPredicates} {cat : Catalog} {L : List RowSlot}

/-- The claims of the slots, each key's reserve or release. -/
def claimsOf (cat : Catalog) (L : List RowSlot) (f : RowSlot → UniqueKey → Option Claim) : List Claim :=
  L.flatMap fun s => (slotKeys cat s).filterMap (f s)

def reserveAt (pred : KeyPredicates) (cat : Catalog) (s : RowSlot) (uk : UniqueKey) : Option Claim :=
  reserveOf s.key.1 uk.keyID (changeOf pred cat s.key.1 uk.keyID s)
def releaseAt (pred : KeyPredicates) (cat : Catalog) (s : RowSlot) (uk : UniqueKey) : Option Claim :=
  releaseOf s.key.1 uk.keyID (changeOf pred cat s.key.1 uk.keyID s)

abbrev reservesOf (pred : KeyPredicates) (cat : Catalog) (L : List RowSlot) : List Claim :=
  claimsOf cat L (reserveAt pred cat)
abbrev releasesOf (pred : KeyPredicates) (cat : Catalog) (L : List RowSlot) : List Claim :=
  claimsOf cat L (releaseAt pred cat)

variable {c : Change (Bytes × Owner)} {f : RowSlot → UniqueKey → Option Claim} {k : KeyID}
  {r : Claim} {t : TableID}

theorem reserveOf_eq_some (h : reserveOf t k c = some r) :
    r.table = t ∧ r.key = k ∧ c.target = some (r.value,r.owner) := by
  obtain ⟨y,hy,rfl⟩ := Option.map_eq_some_iff.mp h
  exact ⟨rfl,rfl,hy⟩

theorem releaseOf_eq_some (h : releaseOf t k c = some r) :
    r.table = t ∧ r.key = k ∧ c.source = some (r.value,r.owner) ∧ c.targetPlace ≠ some r.value := by
  obtain ⟨y,hy,h⟩ := Option.bind_eq_some_iff.mp h
  split_ifs at h with hne
  cases h
  exact ⟨rfl,rfl,hy,hne⟩

theorem releaseOf_of_source {v : Bytes} {p : Owner} (hsrc : c.source = some (v,p))
    (hne : c.targetPlace ≠ some v) :
    releaseOf t k c = some ⟨t,k,v,p,[]⟩ := by
  rw [releaseOf,hsrc,Option.bind_some,if_neg hne]

theorem prev_reserveOf (h : reserveOf t k c = some r) :
    r.prev = c.source.elim [] fun x => if x.1 = r.value ∧ x.2 ≠ r.owner then x.2 else [] := by
  obtain ⟨y,hy,rfl⟩ := Option.map_eq_some_iff.mp h
  rfl

/-- Slots that hold different values of a key make claims on different values. -/
theorem nodup_claimsOf (hcat : cat.KeysOK) (hL : L.Nodup)
    (hf : ∀ s uk r,f s uk = some r → r.table = s.key.1 ∧ r.key = uk.keyID)
    (hinj : ∀ s ∈ L,∀ t ∈ L,∀ uk uk' r r',f s uk = some r → f t uk' = some r' →
      claimKey r = claimKey r' → s = t) : ((claimsOf cat L f).map claimKey).Nodup := by
  have hkeys : ∀ s,((slotKeys cat s).map UniqueKey.keyID).Nodup := by
    intro s
    unfold slotKeys
    cases htab : cat.tableByID s.key.1 with
    | none => exact nodup_nil
    | some tab => exact hcat.keys_nodup _ _ htab
  rw [claimsOf,map_flatMap,nodup_flatMap]
  refine ⟨fun s _ => ?_,?_⟩
  · rw [Nodup,pairwise_map,pairwise_filterMap]
    have hpw := hkeys s
    rw [Nodup,pairwise_map] at hpw
    refine hpw.imp fun {u u'} hne r hr r' hr' heq => hne ?_
    rw [← (hf s u r hr).2,← (hf s u' r' hr').2]
    exact congrArg ClaimKey.key heq
  · refine hL.imp_of_mem fun {s t} hs ht hne => ?_
    rw [Function.onFun,disjoint_left]
    intro v hv hv'
    obtain ⟨r,hr,rfl⟩ := mem_map.mp hv
    obtain ⟨r',hr',heq⟩ := mem_map.mp hv'
    obtain ⟨u,-,hu⟩ := mem_filterMap.mp hr
    obtain ⟨u',-,hu'⟩ := mem_filterMap.mp hr'
    exact hne (hinj s hs t ht u u' r r' hu hu' heq.symm)

theorem mem_claimsOf :
    r ∈ claimsOf cat L f ↔ ∃ s ∈ L,∃ uk ∈ slotKeys cat s,f s uk = some r := by
  simp [claimsOf]

theorem key_of_holding {x : RowPlace × Image} {y : Bytes × Owner} (h : holding pred cat t k x = some y) :
    (x.1.db = "main" ∧ x.1.table = t) ∧ ∃ tab uk,cat.tableByID t = some tab ∧
      uk ∈ tab.coordinatedKeys ∧ uk.keyID = k := by
  unfold holding at h
  split_ifs at h with hplace
  obtain ⟨tab,htab,h⟩ := Option.bind_eq_some_iff.mp h
  obtain ⟨uk,huk,-⟩ := Option.bind_eq_some_iff.mp h
  exact ⟨hplace,tab,uk,htab,mem_of_find?_eq_some huk,by simpa using find?_some huk⟩

theorem slotKeys_of_holding {s : RowSlot} (hs : CoordSlotOK cat s) {x : RowPlace × Image}
    (hx : s.old = some x ∨ s.new = some x) {y : Bytes × Owner}
    (h : holding pred cat t k x = some y) : t = s.key.1 ∧ ∃ uk ∈ slotKeys cat s,uk.keyID = k := by
  have htable : x.1.table = s.key.1 := hx.elim (fun hx => (hs.old x hx).2.1) fun hx => (hs.new x hx).2.1
  obtain ⟨hplace,tab,uk,htab,huk,hk⟩ := key_of_holding h
  have ht : t = s.key.1 := hplace.2.symm.trans htable
  refine ⟨ht,uk,?_,hk⟩
  rw [slotKeys,← ht,htab]
  exact huk

end Claims

/-- Slots that are the net effect of a transaction on rows with values of their own. -/
structure NetClaims (pred : KeyPredicates) (cat : Catalog) (pre post : RowPlace → Option Image)
    (L : List RowSlot) : Prop where
  keys : cat.KeysOK
  net : Net pre post L
  ok : ∀ s ∈ L,CoordSlotOK cat s
  distinct_pre : ∀ t k,Distinct (holding pred cat t k) pre
  distinct_post : ∀ t k,Distinct (holding pred cat t k) post

/-- No row ends with a value and a primary key that the row of another slot had before. -/
def NoHandBack (pred : KeyPredicates) (cat : Catalog) (L : List RowSlot) : Prop :=
  ∀ s ∈ L,∀ u ∈ L,s ≠ u → ∀ t k y,(changeOf pred cat t k s).source = some y →
    (changeOf pred cat t k u).target ≠ some y

def TakenBy (pred : KeyPredicates) (cat : Catalog) (S : RowPlace → Option Image)
    (taken : FinMap ClaimKey Owner) : Prop :=
  ∀ t k,Viewed (holding pred cat t k) S fun v => taken.lookup ⟨t,k,v⟩

namespace NetClaims

variable {pred : KeyPredicates} {cat : Catalog} {pre post : RowPlace → Option Image} {L : List RowSlot}
variable (h : NetClaims pred cat pre post L)
include h

variable {k : KeyID} {p : Owner} {q r : Claim} {s u : RowSlot} {t : TableID} {v : Bytes}
  {x : RowPlace × Image}

theorem source_unique (hs : s ∈ L) (hu : u ∈ L) {p' : Owner}
    (hsv : (changeOf pred cat t k s).source = some (v,p))
    (huv : (changeOf pred cat t k u).source = some (v,p')) : s = u :=
  h.net.eq_of_source (h.distinct_pre t k) hs hu (congrArg (Option.map Prod.fst) hsv)
    (congrArg (Option.map Prod.fst) huv)

theorem target_unique (hs : s ∈ L) (hu : u ∈ L)
    (hsv : (changeOf pred cat t k s).targetPlace = some v)
    (huv : (changeOf pred cat t k u).targetPlace = some v) : s = u :=
  h.net.eq_of_target (h.distinct_post t k) hs hu hsv huv

theorem nodup_reserves : ((reservesOf pred cat L).map claimKey).Nodup := by
  refine nodup_claimsOf h.keys h.net.slots_nodup (fun s uk r hr => ?_) ?_
  · exact ⟨(reserveOf_eq_some hr).1,(reserveOf_eq_some hr).2.1⟩
  · intro s hs u hu uk uk' r r' hr hr' heq
    obtain ⟨ht,hk,htgt⟩ := reserveOf_eq_some hr
    obtain ⟨ht',hk',htgt'⟩ := reserveOf_eq_some hr'
    obtain ⟨htt,hkk,hvv⟩ : r.table = r'.table ∧ r.key = r'.key ∧ r.value = r'.value :=
      ClaimKey.mk.inj heq
    rw [← ht,← hk] at htgt
    rw [← ht',← hk',← htt,← hkk,← hvv] at htgt'
    exact h.target_unique hs hu (congrArg (Option.map Prod.fst) htgt)
      (congrArg (Option.map Prod.fst) htgt')

theorem nodup_releases : ((releasesOf pred cat L).map claimKey).Nodup := by
  refine nodup_claimsOf h.keys h.net.slots_nodup (fun s uk r hr => ?_) ?_
  · exact ⟨(releaseOf_eq_some hr).1,(releaseOf_eq_some hr).2.1⟩
  · intro s hs u hu uk uk' r r' hr hr' heq
    obtain ⟨ht,hk,hsrc,-⟩ := releaseOf_eq_some hr
    obtain ⟨ht',hk',hsrc',-⟩ := releaseOf_eq_some hr'
    obtain ⟨htt,hkk,hvv⟩ : r.table = r'.table ∧ r.key = r'.key ∧ r.value = r'.value :=
      ClaimKey.mk.inj heq
    rw [← ht,← hk] at hsrc
    rw [← ht',← hk',← htt,← hkk,← hvv] at hsrc'
    exact h.source_unique hs hu hsrc hsrc'

theorem mem_reserves (hs : s ∈ L) (hr : reserveOf t k (changeOf pred cat t k s) = some r) :
    r ∈ reservesOf pred cat L := by
  obtain ⟨-,-,htgt⟩ := reserveOf_eq_some hr
  obtain ⟨x,hx,hgx⟩ := Change.mem_bind htgt
  obtain ⟨rfl,uk,huk,rfl⟩ := slotKeys_of_holding (h.ok s hs) (.inr hx) hgx
  exact mem_claimsOf.mpr ⟨s,hs,uk,huk,hr⟩

theorem mem_releases (hs : s ∈ L) (hr : releaseOf t k (changeOf pred cat t k s) = some r) :
    r ∈ releasesOf pred cat L := by
  obtain ⟨-,-,hsrc,-⟩ := releaseOf_eq_some hr
  obtain ⟨x,hx,hgx⟩ := Change.mem_bind hsrc
  obtain ⟨rfl,uk,huk,rfl⟩ := slotKeys_of_holding (h.ok s hs) (.inl hx) hgx
  exact mem_claimsOf.mpr ⟨s,hs,uk,huk,hr⟩

omit h in
theorem of_mem_reserves (hr : r ∈ reservesOf pred cat L) :
    ∃ s ∈ L,reserveOf r.table r.key (changeOf pred cat r.table r.key s) = some r := by
  obtain ⟨s,hs,uk,-,hr⟩ := mem_claimsOf.mp hr
  obtain ⟨ht,hk,-⟩ := reserveOf_eq_some hr
  refine ⟨s,hs,?_⟩
  rw [ht,hk]
  exact hr

omit h in
theorem of_mem_releases (hq : q ∈ releasesOf pred cat L) :
    ∃ s ∈ L,releaseOf q.table q.key (changeOf pred cat q.table q.key s) = some q := by
  obtain ⟨s,hs,uk,-,hq⟩ := mem_claimsOf.mp hq
  obtain ⟨ht,hk,-⟩ := releaseOf_eq_some hq
  refine ⟨s,hs,?_⟩
  rw [ht,hk]
  exact hq

theorem source_of_pre (hx : pre x.1 = some x.2) (hgx : holding pred cat t k x = some (v,p)) :
    (∃ s ∈ L,(changeOf pred cat t k s).source = some (v,p)) ∨
      post x.1 = some x.2 ∧ ∀ s ∈ L,¬s.Meets x.1 := by
  rcases h.net.old_cover x.1 x.2 hx with ⟨s,hs,hold⟩ | hun
  · left
    refine ⟨s,hs,?_⟩
    change s.old.bind _ = _
    rw [hold]
    exact hgx
  · exact .inr hun

theorem target_of_post (hx : post x.1 = some x.2) (hgx : holding pred cat t k x = some (v,p)) :
    (∃ s ∈ L,(changeOf pred cat t k s).target = some (v,p)) ∨
      pre x.1 = some x.2 ∧ ∀ s ∈ L,¬s.Meets x.1 := by
  rcases h.net.new_cover x.1 x.2 hx with ⟨s,hs,hnew⟩ | hun
  · left
    refine ⟨s,hs,?_⟩
    change s.new.bind _ = _
    rw [hnew]
    exact hgx
  · exact .inr hun

/-- A value that a slot's row ends with is held in the end by no row out of the slots. -/
theorem not_untouched {p' : Owner} (hs : s ∈ L)
    (hsv : (changeOf pred cat t k s).target = some (v,p')) (hx : post x.1 = some x.2)
    (hgx : holding pred cat t k x = some (v,p)) : s.Meets x.1 := by
  obtain ⟨y,hy,hgy⟩ := Change.mem_bind hsv
  have hxy := h.distinct_post t k x y hx (h.net.new_mem s hs y hy) v p p' hgx hgy
  rw [hxy]
  exact .inr (congrArg (Option.map Prod.fst) hy)

/-- A reserve of a value the row held before: nobody releases it, and the reserve names the row. -/
theorem transferred_kept (hs : s ∈ L)
    (hres : reserveOf r.table r.key (changeOf pred cat r.table r.key s) = some r)
    (hsrc : (changeOf pred cat r.table r.key s).source = some (r.value,p)) (hne : p ≠ r.owner) :
    (transferred (releasesOf pred cat L) r).prev = p := by
  have htgt := (reserveOf_eq_some hres).2.2
  have hnone : ∀ q ∈ releasesOf pred cat L,¬TakesOver r q := by
    intro q hq ht
    obtain ⟨u,hu,hrel⟩ := of_mem_releases hq
    obtain ⟨-,-,hsrc',hgone⟩ := releaseOf_eq_some hrel
    obtain ⟨htt,hkk,hvv⟩ : q.table = r.table ∧ q.key = r.key ∧ q.value = r.value :=
      ClaimKey.mk.inj ht.2.1
    rw [htt,hkk,hvv] at hsrc' hgone
    rw [h.source_unique hu hs hsrc' hsrc] at hgone
    exact hgone (congrArg (Option.map Prod.fst) htgt)
  rw [transferred_of_none hnone,prev_reserveOf hres,hsrc]
  exact if_pos ⟨rfl,hne⟩

theorem transferred_moved (hs : s ∈ L) (hu : u ∈ L) (hus : u ≠ s)
    (hres : reserveOf r.table r.key (changeOf pred cat r.table r.key s) = some r)
    (hsrc : (changeOf pred cat r.table r.key u).source = some (r.value,p)) (hne : p ≠ r.owner) :
    (transferred (releasesOf pred cat L) r).prev = p := by
  have htgt := (reserveOf_eq_some hres).2.2
  have hgone : (changeOf pred cat r.table r.key u).targetPlace ≠ some r.value := fun heq =>
    hus (h.target_unique hu hs heq (congrArg (Option.map Prod.fst) htgt))
  have hprev : r.prev = [] := by
    rw [prev_reserveOf hres]
    cases hsrc' : (changeOf pred cat r.table r.key s).source with
    | none => rfl
    | some y =>
      refine if_neg fun hy => ?_
      have hsv : (changeOf pred cat r.table r.key s).source = some (r.value,y.2) := by
        rw [hsrc',← hy.1]
      exact hus (h.source_unique hu hs hsrc hsv)
  have ht : TakesOver r ⟨r.table,r.key,r.value,p,[]⟩ := ⟨hprev,rfl,hne⟩
  rw [transferred_of_takesOver h.nodup_releases
    (h.mem_releases hu (releaseOf_of_source hsrc hgone)) ht]

variable {taken : FinMap ClaimKey Owner} (hK : TakenBy pred cat pre taken)

include hK

/-- Whoever holds a reserved value before is its new owner or named by the reserve. -/
theorem granted (hr : r ∈ reservesOf pred cat L) {cur : Owner}
    (hcur : taken.lookup (claimKey r) = some cur) :
    cur = r.owner ∨ cur = (transferred (releasesOf pred cat L) r).prev := by
  obtain ⟨s,hs,hres⟩ := of_mem_reserves hr
  obtain ⟨-,-,htgt⟩ := reserveOf_eq_some hres
  obtain ⟨x,hx,hgx⟩ := (hK r.table r.key r.value cur).mp hcur
  by_cases hown : cur = r.owner
  · exact .inl hown
  · right
    rcases h.source_of_pre hx hgx with ⟨u,hu,hsrc⟩ | ⟨hpost,hmeets⟩
    · by_cases hus : u = s
      · subst hus
        exact (h.transferred_kept hu hres hsrc hown).symm
      · exact (h.transferred_moved hs hu hus hres hsrc hown).symm
    · exact absurd (h.not_untouched hs htgt hpost hgx) (hmeets s hs)

omit hK

theorem nodup_transferred :
    (((reservesOf pred cat L).map (transferred (releasesOf pred cat L))).map claimKey).Nodup := by
  rw [map_map]
  simpa [Function.comp_def] using h.nodup_reserves

theorem lookup_granted (hu : u ∈ L) (huv : (changeOf pred cat t k u).target = some (v,p))
    (taken : FinMap ClaimKey Owner) :
    (((reservesOf pred cat L).map (transferred (releasesOf pred cat L))).foldl Local.grant taken).lookup
      ⟨t,k,v⟩ = some p := by
  obtain ⟨r,hr⟩ : ∃ r,reserveOf t k (changeOf pred cat t k u) = some r := by
    rw [reserveOf,huv]
    exact ⟨_,rfl⟩
  obtain ⟨rfl,rfl,htgt⟩ := reserveOf_eq_some hr
  obtain ⟨rfl,rfl⟩ := Prod.ext_iff.mp (Option.mem_unique huv htgt)
  have hmem : transferred (releasesOf pred cat L) r ∈ _ := mem_map_of_mem (h.mem_reserves hu hr)
  rw [← owner_transferred (releasesOf pred cat L) r,← Local.lookup_grants_of_mem h.nodup_transferred hmem,
    claimKey_transferred]
  rfl

omit h in
theorem lookup_ungranted (hnone : ∀ u ∈ L,(changeOf pred cat t k u).targetPlace ≠ some v)
    (taken : FinMap ClaimKey Owner) :
    (((reservesOf pred cat L).map (transferred (releasesOf pred cat L))).foldl Local.grant taken).lookup
      ⟨t,k,v⟩ = taken.lookup ⟨t,k,v⟩ := by
  refine Local.lookup_grants_of_not_mem fun c hc heq => ?_
  obtain ⟨r,hr,rfl⟩ := mem_map.mp hc
  rw [claimKey_transferred] at heq
  obtain ⟨rfl,rfl,rfl⟩ := ClaimKey.mk.inj heq
  obtain ⟨s,hs,hres⟩ := of_mem_reserves hr
  exact hnone s hs (congrArg (Option.map Prod.fst) (reserveOf_eq_some hres).2.2)

/-- The releases that are left: of values no row ends with, or ends with under the same key. -/
theorem mem_kept (hs : s ∈ L) (hsrc : (changeOf pred cat t k s).source = some (v,p))
    (hgone : (changeOf pred cat t k s).targetPlace ≠ some v)
    (hown : ∀ u ∈ L,∀ p',(changeOf pred cat t k u).target = some (v,p') → p' = p) :
    (⟨t,k,v,p,[]⟩ : Claim) ∈ (netSameTxnTransfers (reservesOf pred cat L) (releasesOf pred cat L)).2 := by
  rw [(netSameTxnTransfers_eq h.nodup_releases h.nodup_reserves).2]
  refine ⟨h.mem_releases hs (releaseOf_of_source hsrc hgone),fun r hr ht => ht.2.2 ?_⟩
  obtain ⟨u,hu,hres⟩ := of_mem_reserves hr
  obtain ⟨htt,hkk,hvv⟩ : t = r.table ∧ k = r.key ∧ v = r.value := ClaimKey.mk.inj ht.2.1
  subst htt hkk hvv
  exact (hown u hu r.owner (reserveOf_eq_some hres).2.2).symm

theorem of_mem_kept
    (hq : q ∈ (netSameTxnTransfers (reservesOf pred cat L) (releasesOf pred cat L)).2) :
    ∃ s ∈ L,(changeOf pred cat q.table q.key s).source = some (q.value,q.owner) ∧
      (changeOf pred cat q.table q.key s).targetPlace ≠ some q.value := by
  rw [(netSameTxnTransfers_eq h.nodup_releases h.nodup_reserves).2] at hq
  obtain ⟨s,hs,hrel⟩ := of_mem_releases hq.1
  exact ⟨s,hs,(releaseOf_eq_some hrel).2.2⟩

def settled (pred : KeyPredicates) (cat : Catalog) (L : List RowSlot) (taken : FinMap ClaimKey Owner) :
    FinMap ClaimKey Owner :=
  (netSameTxnTransfers (reservesOf pred cat L) (releasesOf pred cat L)).2.foldl Local.free
    (((reservesOf pred cat L).map (transferred (releasesOf pred cat L))).foldl Local.grant taken)

theorem noHandBack_of_takenBy (hpost : TakenBy pred cat post (settled pred cat L taken)) :
    NoHandBack pred cat L := by
  rintro s hs u hu hsu t k ⟨v,p⟩ hsrc htgt
  obtain ⟨x,hx,hgx⟩ := Change.mem_bind htgt
  have hsome := (hpost t k v p).mpr ⟨x,h.net.new_mem u hu x hx,hgx⟩
  have hgone : (changeOf pred cat t k s).targetPlace ≠ some v := fun heq =>
    hsu (h.target_unique hs hu heq (congrArg (Option.map Prod.fst) htgt))
  have hkept := h.mem_kept hs hsrc hgone fun u' hu' p' htgt' => by
    rw [h.target_unique hu' hu (congrArg (Option.map Prod.fst) htgt')
      (congrArg (Option.map Prod.fst) htgt),htgt] at htgt'
    exact (congrArg Prod.snd (Option.some.inj htgt')).symm
  change (settled pred cat L taken).lookup ⟨t,k,v⟩ = some p at hsome
  rw [settled,Local.lookup_frees,if_pos ⟨_,hkept,rfl,h.lookup_granted hu htgt taken⟩] at hsome
  exact Option.some_ne_none _ hsome.symm

theorem lookup_settled_target (hback : NoHandBack pred cat L) (hu : u ∈ L)
    (huv : (changeOf pred cat t k u).target = some (v,p)) :
    (settled pred cat L taken).lookup ⟨t,k,v⟩ = some p := by
  rw [settled,Local.lookup_frees,h.lookup_granted hu huv taken,if_neg]
  rintro ⟨q,hq,hqv,hqp⟩
  obtain ⟨s,hs,hsrc,hgone⟩ := h.of_mem_kept hq
  obtain ⟨htt,hkk,hvv⟩ : q.table = t ∧ q.key = k ∧ q.value = v := ClaimKey.mk.inj hqv
  rw [htt,hkk,hvv,← Option.some.inj hqp] at hsrc
  rw [htt,hkk,hvv] at hgone
  have hsu : s ≠ u := by
    rintro rfl
    exact hgone (congrArg (Option.map Prod.fst) huv)
  exact hback s hs u hu hsu t k (v,p) hsrc huv

theorem takenBy_settled (hK : TakenBy pred cat pre taken) (hback : NoHandBack pred cat L) :
    TakenBy pred cat post (settled pred cat L taken) := by
  intro t k v o
  change (settled pred cat L taken).lookup ⟨t,k,v⟩ = some o ↔ _
  by_cases hmem : ∃ u ∈ L,∃ p,(changeOf pred cat t k u).target = some (v,p)
  · obtain ⟨u,hu,p,huv⟩ := hmem
    rw [h.lookup_settled_target hback hu huv]
    obtain ⟨x,hx,hgx⟩ := Change.mem_bind huv
    have hpx := h.net.new_mem u hu x hx
    constructor
    · rintro hpo
      exact ⟨x,hpx,by rw [hgx,Option.some.inj hpo]⟩
    · rintro ⟨y,hy,hgy⟩
      obtain rfl := h.distinct_post t k x y hpx hy v p o hgx hgy
      rw [hgx] at hgy
      exact congrArg (Option.map Prod.snd) hgy
  · have hnone : ∀ u ∈ L,(changeOf pred cat t k u).targetPlace ≠ some v := by
      intro u hu huv
      obtain ⟨y,hy,hyv⟩ := Option.map_eq_some_iff.mp huv
      exact hmem ⟨u,hu,y.2,by rw [hy,← hyv]⟩
    rw [settled,Local.lookup_frees,lookup_ungranted hnone taken]
    constructor
    · intro hfinal
      split_ifs at hfinal with hfreed
      obtain ⟨x,hx,hgx⟩ := (hK t k v o).mp hfinal
      rcases h.source_of_pre hx hgx with ⟨s,hs,hsrc⟩ | ⟨hpost,-⟩
      · refine absurd ⟨_,h.mem_kept hs hsrc (hnone s hs) fun u hu p' htgt => ?_,rfl,hfinal⟩ hfreed
        exact absurd (congrArg (Option.map Prod.fst) htgt) (hnone u hu)
      · exact ⟨x,hpost,hgx⟩
    · rintro ⟨x,hx,hgx⟩
      rcases h.target_of_post hx hgx with ⟨s,hs,htgt⟩ | ⟨hpre,hmeets⟩
      · exact absurd (congrArg (Option.map Prod.fst) htgt) (hnone s hs)
      · rw [if_neg]
        · exact (hK t k v o).mpr ⟨x,hpre,hgx⟩
        · rintro ⟨q,hq,hqv,-⟩
          obtain ⟨s,hs,hsrc,-⟩ := h.of_mem_kept hq
          obtain ⟨htt,hkk,hvv⟩ : q.table = t ∧ q.key = k ∧ q.value = v := ClaimKey.mk.inj hqv
          rw [htt,hkk,hvv] at hsrc
          obtain ⟨y,hy,hgy⟩ := Change.mem_bind hsrc
          have hxy := h.distinct_pre t k x y hpre (h.net.old_mem s hs y hy) v o q.owner hgx hgy
          refine hmeets s hs (.inl ?_)
          rw [hxy]
          exact congrArg (Option.map Prod.fst) hy

end NetClaims

/-- The row events of one transaction on coordinated tables: no two rows share a value before it, and
none do after it. -/
structure ClaimTransaction (pred : KeyPredicates) (cat : Catalog) (pre : RowPlace → Option Image)
    (es : List RowEvent) : Prop where
  consistent : Consistent pre es
  stays : ∀ e ∈ es,∀ q,e.targetPlace = some q → q.db = e.place.db ∧ q.table = e.place.table
  claimable : ∀ t,t <+: es → ∀ x : RowPlace × Image,after pre t x.1 = some x.2 → Claimable cat x
  distinct_pre : ∀ t k,Distinct (holding pred cat t k) pre
  distinct_post : ∀ t k,Distinct (holding pred cat t k) (after pre es)

def coordinatedEvents (cat : Catalog) (es : List RowEvent) : List RowEvent :=
  es.filter fun e => coordinated cat e.place

def claimSlots (cat : Catalog) (es : List RowEvent) : List RowSlot :=
  slots slotOf (coordinatedEvents cat es)

/-- The reserves of a transaction are granted, and with its releases the taken values become those of
the rows after it. -/
def Tracks (pred : KeyPredicates) (cat : Catalog) (l : Local) (post : RowPlace → Option Image)
    (es : List RowEvent) : Prop :=
  ∃ reserves releases,
    coordinatedClaims pred cat (es.map journalAppendPreupdate) = .ok (reserves,releases) ∧
      (l.reserve reserves).2 = none ∧
      TakenBy pred cat post ((l.reserve reserves).1.release releases).taken

section Transactions

variable {pred : KeyPredicates} {cat : Catalog} {pre : RowPlace → Option Image} {es : List RowEvent}

theorem coordinated_of_holding {t : TableID} {k : KeyID} (x : RowPlace × Image) (y : Bytes × Owner)
    (h : holding pred cat t k x = some y) : coordinated cat x.1 = true := by
  obtain ⟨hplace,tab,uk,htab,huk,-⟩ := key_of_holding h
  simp [coordinated,hplace,htab,ne_nil_of_mem huk]

namespace ClaimTransaction

variable (h : ClaimTransaction pred cat pre es)
include h

theorem filter : Consistent pre (coordinatedEvents cat es) ∧
    ∀ q,coordinated cat q = true → after pre es q = after pre (coordinatedEvents cat es) q := by
  refine consistent_filter (fun e he => ⟨fun q hq => ?_,fun q hq => ?_⟩) (fun _ _ => rfl) h.consistent
  · obtain ⟨x,hx,rfl⟩ := Option.map_eq_some_iff.mp hq
    rw [sourcePlace_eq hx]
  · obtain ⟨hdb,htable⟩ := h.stays e he q hq
    simp [coordinated,hdb,htable]

theorem slotOK {s : RowSlot} (hs : s ∈ claimSlots cat es) :
    CoordSlotOK cat s ∧ ∃ tab,cat.tableByID s.key.1 = some tab := by
  obtain ⟨hfirst,hlast,hkey,hkey'⟩ := mem_slots hs
  obtain ⟨hf,hfcap⟩ := mem_filter.mp hfirst
  obtain ⟨hl,hlcap⟩ := mem_filter.mp hlast
  have hmain : ∀ {q},coordinated cat q = true → q.db = "main" := fun hq => by
    simpa using (Bool.and_eq_true_iff.mp hq).1
  refine ⟨⟨fun x hx => ?_,fun x hx => ?_⟩,?_⟩
  · obtain ⟨t,ht,hS⟩ := h.consistent.source_held hf hx
    refine ⟨?_,?_,h.claimable t ht x hS⟩
    · rw [sourcePlace_eq hx]
      exact hmain hfcap
    · rw [hkey,sourcePlace_eq hx]
      rfl
  · obtain ⟨t,ht,hS⟩ := target_held (S := pre) hl hx
    obtain ⟨hdb,htable⟩ := h.stays _ hl x.1 (congrArg (Option.map Prod.fst) hx)
    refine ⟨?_,?_,h.claimable t ht x hS⟩
    · rw [hdb]
      exact hmain hlcap
    · rw [hkey',htable]
      rfl
  · rw [hkey]
    obtain ⟨tab,htab,-⟩ := (Option.any_eq_true _ _).mp (Bool.and_eq_true_iff.mp hfcap).2
    exact ⟨tab,htab⟩

theorem netClaims (hcat : cat.KeysOK) (hfol : Followed slotOf (coordinatedEvents cat es)) :
    NetClaims pred cat pre (after pre (coordinatedEvents cat es)) (claimSlots cat es) where
  keys := hcat
  net := net_slots h.filter.1 hfol
  ok := fun _ hs => (h.slotOK hs).1
  distinct_pre := h.distinct_pre
  distinct_post := fun t k => (h.distinct_post t k).congr coordinated_of_holding h.filter.2

theorem claims (hcat : cat.KeysOK) :
    coordinatedClaims pred cat (es.map journalAppendPreupdate) =
      .ok (netSameTxnTransfers (reservesOf pred cat (claimSlots cat es))
        (releasesOf pred cat (claimSlots cat es))) := by
  have hmap : ((claimSlots cat es).map toCoord).mapM (coordSlotClaims pred cat) =
      .ok ((claimSlots cat es).map fun s => (slotKeys cat s).map fun uk =>
        (reserveAt pred cat s uk,releaseAt pred cat s uk)) := by
    rw [mapM_map]
    refine ExceptFold.mapM_ok fun s hs => ?_
    obtain ⟨hok,tab,htab⟩ := h.slotOK hs
    exact coordSlotClaims_eq pred hcat htab hok
  unfold coordinatedClaims
  rw [coordFold_eq]
  change ((claimSlots cat es).map toCoord).mapM (coordSlotClaims pred cat) >>= _ = _
  rw [hmap]
  change Except.ok (netSameTxnTransfers _ _) = _
  simp only [reservesOf,releasesOf,claimsOf,← flatMap_def,filterMap_flatMap,filterMap_map]
  rfl

end ClaimTransaction

end Transactions

/-- With every event in the slot that holds its row, the registry tracks the rows exactly if no row
ends with a value and a primary key that another row had before. -/
theorem claims_track_iff {pred : KeyPredicates} {cat : Catalog} (hcat : cat.KeysOK)
    {pre : RowPlace → Option Image} {es : List RowEvent} (htx : ClaimTransaction pred cat pre es)
    {l : Local} (hK : TakenBy pred cat pre l.taken)
    (hseed : ∀ snap ∈ l.enumerate,∀ c ∈ snap.claims,claimKey c ∈ l.taken)
    (hfol : Followed slotOf (coordinatedEvents cat es)) :
    Tracks pred cat l (after pre es) es ↔ NoHandBack pred cat (claimSlots cat es) := by
  have h := htx.netClaims hcat hfol
  have hagree := htx.filter.2
  obtain ⟨hres,-⟩ := netSameTxnTransfers_eq h.nodup_releases h.nodup_reserves
  obtain ⟨hnone,htaken⟩ := Local.reserve_granted hseed h.nodup_transferred fun c hc cur hcur => by
    obtain ⟨r,hr,rfl⟩ := mem_map.mp hc
    rw [claimKey_transferred] at hcur
    rw [owner_transferred]
    exact h.granted hK hr hcur
  have hsettled : ((l.reserve ((reservesOf pred cat (claimSlots cat es)).map
      (transferred (releasesOf pred cat (claimSlots cat es))))).1.release (netSameTxnTransfers
        (reservesOf pred cat (claimSlots cat es)) (releasesOf pred cat (claimSlots cat es))).2).taken =
      NetClaims.settled pred cat (claimSlots cat es) l.taken := by
    rw [Local.release,htaken]
    rfl
  have hclaims := htx.claims hcat
  rw [← Prod.mk.eta (p := netSameTxnTransfers _ _),hres] at hclaims
  constructor
  · rintro ⟨reserves,releases,hclaims',-,hpost⟩
    obtain ⟨rfl,rfl⟩ := Prod.ext_iff.mp (Except.ok.inj (hclaims.symm.trans hclaims'))
    rw [hsettled] at hpost
    exact h.noHandBack_of_takenBy fun t k => (hpost t k).congr coordinated_of_holding hagree
  · intro hback
    refine ⟨_,_,hclaims,hnone,?_⟩
    rw [hsettled]
    exact fun t k => (h.takenBy_settled hK hback t k).congr coordinated_of_holding fun q hq =>
      (hagree q hq).symm

/-! One table with a text key and a coordinated value. -/
namespace ClaimsSample

def table : Table where
  id := 1
  columns := [⟨1,1,false,true,false,.null,.binary⟩,⟨2,0,false,false,false,.null,.binary⟩]
  uniqueKeys := [⟨1,[2],true⟩]
  cellGroup := false
  dropped := false

def catalog : Catalog := ⟨fun id => if id = 1 then some table else none⟩

def total : KeyPredicates := fun _ _ _ => true

def image (id v : Byte) : Image := [⟨1,colText,.text,[id]⟩,⟨2,colText,.text,[v]⟩]
def place (r : ℤ) : RowPlace := ⟨"main",1,.rowid r⟩
def owner (id : Byte) : Owner := (table.encodePKFromSlice (image id 0)).getD []
def value (v : Byte) : ClaimKey :=
  ⟨1,1,((table.encodeKeyFromSlice ⟨1,[2],true⟩ (image 0 v)).getD none).getD []⟩

def registry (l : List (Byte × Byte)) : Local where
  taken := l.foldl (fun m r => m.insert (value r.2) (owner r.1)) ∅
  enumerate := none
  seeded := ∅

theorem catalog_ok : catalog.KeysOK where
  id_eq t tab h := by
    simp only [catalog] at h
    split_ifs at h with ht
    rw [← Option.some.inj h,ht]
    rfl
  keys_nodup t tab h := by
    simp only [catalog] at h
    split_ifs at h with ht
    rw [← Option.some.inj h]
    decide

variable {l : List (RowPlace × Image)} {x : RowPlace × Image}

theorem ids_of_holding {t : TableID} {k : KeyID} {y : Bytes × Owner}
    (h : holding total catalog t k x = some y) : t = 1 ∧ k = 1 := by
  obtain ⟨-,tab,uk,htab,huk,hk⟩ := key_of_holding h
  simp only [catalog] at htab
  split_ifs at htab with ht
  cases htab
  have huk' : uk = ⟨1,[2],true⟩ := mem_singleton.mp huk
  exact ⟨ht,by rw [← hk,huk']⟩

/-- The rows a state can hold have values of their own in it. -/
def Separate (S : RowPlace → Option Image) (cand : List (RowPlace × Image)) : Prop :=
  ∀ x ∈ cand,∀ y ∈ cand,S x.1 = some x.2 → S y.1 = some y.2 →
    (holding total catalog 1 1 x).map Prod.fst = (holding total catalog 1 1 y).map Prod.fst → x = y

instance (S : RowPlace → Option Image) (cand : List (RowPlace × Image)) : Decidable (Separate S cand) := by
  unfold Separate
  infer_instance

theorem Separate.distinct {S : RowPlace → Option Image} {cand : List (RowPlace × Image)}
    (h : Separate S cand) (hmem : ∀ x : RowPlace × Image,S x.1 = some x.2 → x ∈ cand) (t : TableID)
    (k : KeyID) : Distinct (holding total catalog t k) S := by
  intro x y hx hy v p p' hgx hgy
  obtain ⟨rfl,rfl⟩ := ids_of_holding hgx
  exact h x (hmem x hx) y (hmem y hy) hx hy (by rw [hgx,hgy]; rfl)

def Holdable (x : RowPlace × Image) : Prop :=
  x.1.table = 1 ∧ (table.encodePKFromSlice x.2).isSome = true ∧
    (table.encodeKeyFromSlice ⟨1,[2],true⟩ x.2).isSome = true

instance (x : RowPlace × Image) : Decidable (Holdable x) := by
  unfold Holdable
  infer_instance

theorem Holdable.claimable (h : Holdable x) : Claimable catalog x := by
  intro tab htab
  rw [h.1] at htab
  obtain rfl : table = tab := Option.some.inj htab
  refine ⟨h.2.1,fun uk huk => ?_⟩
  rw [mem_singleton.mp huk]
  exact h.2.2

theorem transaction {es : List RowEvent} (hcons : Consistent (ofList l) es)
    (hstay : ∀ e ∈ es,∀ q ∈ e.targetPlace,q.db = e.place.db ∧ q.table = e.place.table)
    (hok : ∀ x ∈ l++es.filterMap Event.target,Holdable x)
    (hpre : Separate (ofList l) (l++es.filterMap Event.target))
    (hpost : Separate (after (ofList l) es) (l++es.filterMap Event.target)) :
    ClaimTransaction total catalog (ofList l) es where
  consistent := hcons
  stays := hstay
  claimable _ ht x hx := (hok x (mem_of_initial ht hx)).claimable
  distinct_pre := hpre.distinct fun _ hx => mem_of_initial nil_prefix hx
  distinct_post := hpost.distinct fun _ hx => mem_of_initial (prefix_refl es) hx

theorem takenBy {m : FinMap ClaimKey Owner}
    (h : ∀ x ∈ l,ofList l x.1 = some x.2 → ∀ y ∈ holding total catalog 1 1 x,
      m.lookup ⟨1,1,y.1⟩ = some y.2)
    (h' : ∀ c o,m.lookup c = some o → c.table = 1 ∧ c.key = 1 ∧
      ∃ x ∈ l,ofList l x.1 = some x.2 ∧ holding total catalog 1 1 x = some (c.value,o)) :
    TakenBy total catalog (ofList l) m := by
  intro t k v o
  constructor
  · intro hv
    obtain ⟨rfl,rfl,x,-,hx,hgx⟩ := h' _ _ hv
    exact ⟨x,hx,hgx⟩
  · rintro ⟨x,hx,hgx⟩
    obtain ⟨rfl,rfl⟩ := ids_of_holding hgx
    exact h x (mem_of_lookup hx) hx (v,o) hgx

def before : List (RowPlace × Image) := [(place 1,image 97 120),(place 2,image 98 121)]
def swap : List RowEvent :=
  [.update (place 1) (place 1) (image 97 120) (image 97 121),
    .update (place 2) (place 2) (image 98 121) (image 98 120)]

theorem before_taken : TakenBy total catalog (ofList before) (registry [(97,120),(98,121)]).taken := by
  refine takenBy (by decide +kernel) fun c o hc => ?_
  simp only [registry,foldl_cons,foldl_nil,FinMap.lookup_insert_eq] at hc
  split_ifs at hc with h₁ h₂
  · subst h₁
    cases hc
    exact ⟨rfl,rfl,(place 2,image 98 121),by decide,by decide,by decide +kernel⟩
  · subst h₂
    cases hc
    exact ⟨rfl,rfl,(place 1,image 97 120),by decide,by decide,by decide +kernel⟩
  · exact absurd hc (by simp)

theorem swap_tracked :
    Tracks total catalog (registry [(97,120),(98,121)]) (after (ofList before) swap) swap := by
  refine (claims_track_iff catalog_ok (transaction (by decide) (by decide)
    (by decide) (by decide +kernel) (by decide +kernel)) before_taken
    (fun _ h => absurd h (Option.not_mem_none _)) (by decide)).mpr ?_
  intro s hs u hu hsu t k y hsrc htgt
  obtain ⟨x,-,hgx⟩ := Change.mem_bind hsrc
  obtain ⟨rfl,rfl⟩ := ids_of_holding hgx
  have hfree : ∀ s ∈ claimSlots catalog swap,∀ u ∈ claimSlots catalog swap,s ≠ u →
      ∀ y ∈ (changeOf total catalog 1 1 s).source,(changeOf total catalog 1 1 u).target ≠ some y := by
    decide +kernel
  exact hfree s hs u hu hsu y hsrc htgt

/-- A row replaced by one with the same key and value at another rowid. -/
def single : List (RowPlace × Image) := [(place 1,image 97 120)]
def replace : List RowEvent :=
  [.delete (place 1) (image 97 120),.insert (place 2) (image 97 120)]

theorem single_taken : TakenBy total catalog (ofList single) (registry [(97,120)]).taken := by
  refine takenBy (by decide +kernel) fun c o hc => ?_
  simp only [registry,foldl_cons,foldl_nil,FinMap.lookup_insert_eq] at hc
  split_ifs at hc with h₁
  · subst h₁
    cases hc
    exact ⟨rfl,rfl,(place 1,image 97 120),by decide,by decide,by decide +kernel⟩
  · exact absurd hc (by simp)

/-- The release frees the value that the new row holds. -/
theorem replace_frees_value : ClaimTransaction total catalog (ofList single) replace ∧
    TakenBy total catalog (ofList single) (registry [(97,120)]).taken ∧
    ¬Tracks total catalog (registry [(97,120)]) (after (ofList single) replace) replace := by
  refine ⟨transaction (by decide +kernel) (by decide +kernel) (by decide +kernel) (by decide +kernel)
    (by decide +kernel),single_taken,?_⟩
  rintro ⟨reserves,releases,hclaims,-,hpost⟩
  have heval : coordinatedClaims total catalog (replace.map journalAppendPreupdate) =
      .ok ([⟨1,1,(value 120).value,owner 97,[]⟩],[⟨1,1,(value 120).value,owner 97,[]⟩]) := by
    decide +kernel
  obtain ⟨rfl,rfl⟩ := Prod.ext_iff.mp (Except.ok.inj (heval.symm.trans hclaims))
  have hrow := (hpost 1 1 (value 120).value (owner 97)).mpr
    ⟨(place 2,image 97 120),by decide +kernel,by decide +kernel⟩
  revert hrow
  decide +kernel

end ClaimsSample

end Syzy
