import Syzy.Registry
import Syzy.TouchFold

/-!
The claims a transaction makes on coordinated keys: a reserve for each value its rows hold at the end,
a release for each value they gave up, and a release that another row's reserve takes over turned into
a transfer.
-/

namespace Syzy

open List

open RowEvents

variable (pred : KeyPredicates) (tab : Table)

/-- The predicates of the coordinated keys; a total key's is true of every row. -/
abbrev KeyPredicates := TableID → KeyID → (ColumnID → ColValue) → Bool

namespace Table

def coordinatedKeys (t : Table) : List UniqueKey := t.uniqueKeys.filter UniqueKey.coordinated

/-- The canonical tuple of a key's members; `none` inside when one of them is `NULL`. -/
def encodeMembers (t : Table) (cols : Image) : List ColumnID → Option (Option Bytes)
  | [] => some (some [])
  | id::ids => (t.memberOf cols id).bind fun v =>
    if v.typeTag = colNull then some none
    else (appendValue { v with column := id }).bind fun b =>
      (t.encodeMembers cols ids).map (Option.map (b++·))

def encodeKeyFromSlice (t : Table) (uk : UniqueKey) (cols : Image) : Option (Option Bytes) :=
  t.encodeMembers cols uk.columns

def columnOf (t : Table) (cols : Image) (id : ColumnID) : ColValue :=
  (t.memberOf cols id).getD ⟨0,colNull,.text,[]⟩

end Table

/-- The net effect of a transaction on one row, as far as its claims go. -/
structure CoordSlot where
  table : TableID
  rowid : ℤ
  firstOld : Option Image
  lastNew : Option Image

def CoordSlot.again (r : TouchRec) (s : CoordSlot) : CoordSlot :=
  if s.rowid = r.rowid ∧ s.table = r.table then { s with lastNew := r.newVals } else s

def coordTouch (cat : Catalog) (slots : List CoordSlot) (r : TouchRec) : List CoordSlot :=
  if r.dbName ≠ "main" then slots
  else match cat.tableByID r.table with
    | none => slots
    | some tab =>
      if tab.coordinatedKeys = [] then slots
      else if ∃ s ∈ slots,s.rowid = r.rowid ∧ s.table = r.table then slots.map (CoordSlot.again r)
      else slots++[⟨r.table,r.rowid,r.oldVals,r.newVals⟩]

/-- The value with which a row image participates in a key. -/
def heldValue (uk : UniqueKey) :
    Option Image → Except CaptureError (Option Bytes)
  | none => .ok none
  | some image =>
    match tab.encodeKeyFromSlice uk image with
    | none => .error .badKey
    | some none => .ok none
    | some (some v) => .ok (if pred tab.id uk.keyID (tab.columnOf image) then some v else none)

def encodeOwner : Option Image → Except CaptureError Owner
  | none => .ok []
  | some image => (tab.encodePKFromSlice image).elim (.error .badKey) .ok

/-- The reserve and the release of one key: a row that keeps its value under a new primary key hands
it over to itself. -/
def keyClaims (t : TableID) (k : KeyID) (oldVal newVal : Option Bytes) (oldPK newPK : Owner) :
    Option Claim × Option Claim :=
  (newVal.map fun v => ⟨t,k,v,newPK,if oldVal = some v ∧ oldPK ≠ newPK then oldPK else []⟩,
    oldVal.bind fun v => if newVal = some v then none else some ⟨t,k,v,oldPK,[]⟩)

def appendClaims (firstOld lastNew : Option Image) :
    Except CaptureError (List (Option Claim × Option Claim)) := do
  let newPK ← encodeOwner tab lastNew
  let oldPK ← encodeOwner tab firstOld
  tab.coordinatedKeys.mapM fun uk => do
    let newVal ← heldValue pred tab uk lastNew
    let oldVal ← heldValue pred tab uk firstOld
    return keyClaims tab.id uk.keyID oldVal newVal oldPK newPK

def coordSlotClaims (cat : Catalog) (s : CoordSlot) :
    Except CaptureError (List (Option Claim × Option Claim)) :=
  (cat.tableByID s.table).elim (.ok []) fun tab => appendClaims pred tab s.firstOld s.lastNew

def relByValue (rel : List Claim) : FinMap ClaimKey ℕ :=
  rel.zipIdx.foldl (fun m p => m.insert (claimKey p.1) p.2) ∅

/-- Whether a reserve without a previous owner takes over the value another row releases. -/
def takeOver (rel : List Claim) (consumed : List ℕ) (r : Claim) : Option (ℕ × Claim) :=
  if r.prev ≠ [] then none
  else ((relByValue rel).lookup (claimKey r)).bind fun i => rel[i]?.bind fun q =>
    if i ∈ consumed ∨ q.owner = r.owner then none else some (i,q)

def transferAll (rel : List Claim) : List ℕ → List Claim → List Claim × List ℕ
  | consumed,[] => ([],consumed)
  | consumed,r::rs =>
    match takeOver rel consumed r with
    | none => (r::(transferAll rel consumed rs).1,(transferAll rel consumed rs).2)
    | some (i,q) => ({ r with prev := q.owner }::(transferAll rel (i::consumed) rs).1,
        (transferAll rel (i::consumed) rs).2)

def netSameTxnTransfers (reserves rel : List Claim) : List Claim × List Claim :=
  let out := transferAll rel [] reserves
  (out.1,(rel.zipIdx.filter fun p => p.2 ∉ out.2).map Prod.fst)

def coordinatedClaims (cat : Catalog) (recs : List TouchRec) :
    Except CaptureError (List Claim × List Claim) := do
  let per ← (recs.foldl (coordTouch cat) []).mapM (coordSlotClaims pred cat)
  let claims := per.flatten
  return netSameTxnTransfers (claims.filterMap Prod.fst) (claims.filterMap Prod.snd)

section Fold

variable (cat : Catalog) (s : RowSlot) (e : RowEvent)

def coordinated (q : RowPlace) : Bool :=
  q.db = "main" && (cat.tableByID q.table).any fun tab => tab.coordinatedKeys ≠ []

def toCoord : CoordSlot := ⟨s.key.1,s.key.2,s.old.map Prod.snd,s.new.map Prod.snd⟩

theorem toCoord_matches : ((toCoord s).rowid = (journalAppendPreupdate e).rowid ∧
      (toCoord s).table = (journalAppendPreupdate e).table) ↔ s.key = slotOf e.place := by
  rw [rowid_journalAppend,table_journalAppend,slotOf,Prod.ext_iff]
  exact And.comm

theorem again_toCoord (s : RowSlot) :
    (toCoord s).again (journalAppendPreupdate e) = toCoord (setLast (slotOf e.place) e s) := by
  unfold CoordSlot.again
  by_cases hk : s.key = slotOf e.place
  · rw [if_pos ((toCoord_matches s e).mpr hk),setLast_self e hk]
    simp only [toCoord,Slot.new,newVals_journalAppend]
    rfl
  · rw [if_neg (mt (toCoord_matches s e).mp hk),setLast_other e hk]

theorem coordTouch_toCoord (L : List RowSlot) (e : RowEvent) :
    coordTouch cat (L.map toCoord) (journalAppendPreupdate e) =
      (if coordinated cat e.place then touch slotOf L e else L).map toCoord := by
  unfold coordTouch
  rw [dbName_journalAppend,table_journalAppend]
  by_cases hdb : e.place.db = "main"
  · rw [if_neg (not_not.mpr hdb)]
    cases htab : cat.tableByID e.place.table with
    | none => simp [coordinated,htab]
    | some tab =>
      dsimp only
      by_cases hkeys : tab.coordinatedKeys = []
      · simp [coordinated,htab,hkeys]
      · have hcap : coordinated cat e.place = true := by simp [coordinated,hdb,htab,hkeys]
        have hany : (∃ s ∈ L.map toCoord,s.rowid = (journalAppendPreupdate e).rowid ∧
            s.table = e.place.table) ↔ ∃ s ∈ L,s.key = slotOf e.place := by
          rw [← table_journalAppend e]
          simp only [mem_map,exists_exists_and_eq_and,toCoord_matches]
        rw [if_neg hkeys,if_pos hcap,touch]
        by_cases hmem : ∃ s ∈ L,s.key = slotOf e.place
        · rw [if_pos (hany.mpr hmem),if_pos hmem,map_map,map_map]
          exact map_congr_left fun s _ => again_toCoord e s
        · rw [if_neg (mt hany.mp hmem),if_neg hmem,map_append]
          simp [toCoord,slotOf,Slot.old,Slot.new]
  · simp [coordinated,hdb]

theorem coordFold_eq (es : List RowEvent) :
    (es.map journalAppendPreupdate).foldl (coordTouch cat) [] =
      (slots slotOf (es.filter fun e => coordinated cat e.place)).map toCoord := by
  induction es using reverseRecOn with
  | nil => rfl
  | append_singleton es e ih =>
    rw [map_append,foldl_append,ih,filter_append]
    change coordTouch cat ((slots slotOf _).map toCoord) (journalAppendPreupdate e) = _
    rw [coordTouch_toCoord]
    cases hcap : coordinated cat e.place with
    | false => simp [hcap]
    | true => simp [hcap,slots,foldl_append]

end Fold

section Transfers

variable {rel : List Claim}

theorem lookup_relByValue (hnodup : (rel.map claimKey).Nodup) (v : ClaimKey) (i : ℕ) :
    (relByValue rel).lookup v = some i ↔ ∃ q,rel[i]? = some q ∧ claimKey q = v := by
  unfold relByValue
  induction rel using reverseRecOn with
  | nil => simp
  | append_singleton rel q ih =>
    rw [map_append,nodup_append] at hnodup
    have hne : ∀ (j : ℕ) (c : Claim),rel[j]? = some c → claimKey c ≠ claimKey q := fun j c hc =>
      hnodup.2.2 _ (mem_map_of_mem (mem_of_getElem? hc)) _ (mem_singleton.mpr rfl)
    rw [zipIdx_append,foldl_append]
    simp only [zipIdx_singleton,foldl_cons,foldl_nil,FinMap.lookup_insert_eq]
    by_cases hv : v = claimKey q
    · subst hv
      rw [if_pos rfl]
      constructor
      · intro hi
        refine ⟨q,?_,rfl⟩
        rw [← Option.some.inj hi]
        simp
      · rintro ⟨c,hc,hck⟩
        rw [getElem?_append] at hc
        split_ifs at hc with hlt
        · exact absurd hck (hne i c hc)
        · have hlen := (List.getElem?_eq_some_iff.mp hc).1
          rw [length_singleton] at hlen
          rw [Nat.zero_add]
          congr 1
          omega
    · rw [if_neg hv,ih hnodup.1]
      refine exists_congr fun c => and_congr_left fun hck => ⟨fun hc => ?_,fun hc => ?_⟩
      · rw [getElem?_append,if_pos (List.getElem?_eq_some_iff.mp hc).1]
        exact hc
      · rw [getElem?_append] at hc
        split_ifs at hc
        · exact hc
        · have hcq : c = q := by simpa using mem_of_getElem? hc
          exact absurd (hck.symm.trans (congrArg claimKey hcq)) hv

/-- A reserve that names nobody and a release of the same value by another row. -/
def TakesOver (r q : Claim) : Prop := r.prev = [] ∧ claimKey q = claimKey r ∧ q.owner ≠ r.owner

instance (r q : Claim) : Decidable (TakesOver r q) := by
  unfold TakesOver
  infer_instance

def transferred (rel : List Claim) (r : Claim) : Claim :=
  (rel.find? fun q => TakesOver r q).elim r fun q => { r with prev := q.owner }

@[simp] theorem claimKey_transferred (rel : List Claim) (r : Claim) :
    claimKey (transferred rel r) = claimKey r := by
  unfold transferred
  cases rel.find? fun q => TakesOver r q <;> rfl

@[simp] theorem owner_transferred (rel : List Claim) (r : Claim) :
    (transferred rel r).owner = r.owner := by
  unfold transferred
  cases rel.find? fun q => TakesOver r q <;> rfl

theorem eq_of_claimKey (hnodup : (rel.map claimKey).Nodup) {q q' : Claim} (hq : q ∈ rel) (hq' : q' ∈ rel)
    (h : claimKey q = claimKey q') : q = q' := inj_on_of_nodup_map hnodup hq hq' h

theorem transferred_of_takesOver (hnodup : (rel.map claimKey).Nodup) {r q : Claim} (hq : q ∈ rel)
    (h : TakesOver r q) : transferred rel r = { r with prev := q.owner } := by
  unfold transferred
  cases hfind : rel.find? fun q => TakesOver r q with
  | none => exact absurd (by simpa using h) (find?_eq_none.mp hfind q hq)
  | some q' =>
    have hq' : TakesOver r q' := by simpa using find?_some hfind
    have heq := eq_of_claimKey hnodup hq (mem_of_find?_eq_some hfind) (h.2.1.trans hq'.2.1.symm)
    rw [heq]
    rfl

theorem transferred_of_none {r : Claim} (h : ∀ q ∈ rel,¬TakesOver r q) : transferred rel r = r := by
  have hfind : (rel.find? fun q => TakesOver r q) = none := by
    rw [find?_eq_none]
    simpa using h
  rw [transferred,hfind]
  rfl

variable (hnodup : (rel.map claimKey).Nodup)
include hnodup

/-- With every value released once, a reserve takes over exactly the release it matches. -/
theorem takeOver_eq_some {consumed : List ℕ} {r : Claim}
    (hfresh : ∀ i ∈ consumed,∀ q,rel[i]? = some q → claimKey q ≠ claimKey r) (i : ℕ) (q : Claim) :
    takeOver rel consumed r = some (i,q) ↔ rel[i]? = some q ∧ TakesOver r q := by
  unfold takeOver TakesOver
  by_cases hprev : r.prev = []
  · rw [if_neg (not_not.mpr hprev)]
    constructor
    · intro h
      obtain ⟨j,hj,h⟩ := Option.bind_eq_some_iff.mp h
      obtain ⟨c,hc,h⟩ := Option.bind_eq_some_iff.mp h
      split_ifs at h with hskip
      obtain ⟨rfl,rfl⟩ := Prod.ext_iff.mp (Option.some.inj h)
      obtain ⟨d,hd,hdk⟩ := (lookup_relByValue hnodup _ _).mp hj
      obtain rfl := Option.mem_unique hc hd
      exact ⟨hc,hprev,hdk,(not_or.mp hskip).2⟩
    · rintro ⟨hi,-,hkey,hne⟩
      rw [(lookup_relByValue hnodup _ _).mpr ⟨q,hi,hkey⟩,Option.bind_some,hi,Option.bind_some,if_neg]
      exact not_or.mpr ⟨fun hmem => hfresh i hmem q hi hkey,hne⟩
  · rw [if_pos hprev]
    simp [hprev]

theorem transferAll_eq {rs : List Claim} (hrs : (rs.map claimKey).Nodup) {consumed : List ℕ}
    (hfresh : ∀ i ∈ consumed,∀ q,rel[i]? = some q → ∀ r ∈ rs,claimKey q ≠ claimKey r) :
    (transferAll rel consumed rs).1 = rs.map (transferred rel) ∧
      ∀ i,i ∈ (transferAll rel consumed rs).2 ↔
        i ∈ consumed ∨ ∃ q,rel[i]? = some q ∧ ∃ r ∈ rs,TakesOver r q := by
  induction rs generalizing consumed with
  | nil => exact ⟨rfl,fun i => by simp [transferAll]⟩
  | cons r rs ih =>
    obtain ⟨hne,hrs⟩ := nodup_cons.mp hrs
    have hr : ∀ i ∈ consumed,∀ q,rel[i]? = some q → claimKey q ≠ claimKey r := fun i hi q hq =>
      hfresh i hi q hq r mem_cons_self
    rw [transferAll,map_cons]
    cases htake : takeOver rel consumed r with
    | none =>
      have hnone : ∀ (i : ℕ) (q : Claim),rel[i]? = some q → ¬TakesOver r q := by
        intro i q hq ht
        rw [(takeOver_eq_some hnodup hr i q).mpr ⟨hq,ht⟩] at htake
        exact Option.some_ne_none _ htake
      obtain ⟨hmap,hcons⟩ := ih hrs fun i hi q hq r' hr' => hfresh i hi q hq r' (mem_cons_of_mem _ hr')
      refine ⟨?_,fun i => ?_⟩
      · dsimp only
        rw [hmap,transferred_of_none]
        intro q hq
        obtain ⟨i,hi⟩ := mem_iff_getElem?.mp hq
        exact hnone i q hi
      · dsimp only
        rw [hcons i]
        refine or_congr_right (exists_congr fun q => and_congr_right fun hq => ?_)
        simp [hnone i q hq]
    | some p =>
      obtain ⟨j,q⟩ := p
      obtain ⟨hj,ht⟩ := (takeOver_eq_some hnodup hr j q).mp htake
      have hfresh' : ∀ i ∈ j::consumed,∀ c,rel[i]? = some c → ∀ r' ∈ rs,claimKey c ≠ claimKey r' := by
        intro i hi c hc r' hr' heq
        rcases mem_cons.mp hi with rfl | hi
        · obtain rfl := Option.mem_unique hj hc
          rw [ht.2.1] at heq
          exact hne (heq ▸ mem_map_of_mem hr')
        · exact hfresh i hi c hc r' (mem_cons_of_mem _ hr') heq
      obtain ⟨hmap,hcons⟩ := ih hrs hfresh'
      refine ⟨?_,fun i => ?_⟩
      · dsimp only
        rw [hmap,transferred_of_takesOver hnodup (mem_of_getElem? hj) ht]
      · dsimp only
        rw [hcons i,mem_cons]
        constructor
        · rintro ((rfl | hi) | ⟨c,hc,r',hr',ht'⟩)
          · exact .inr ⟨q,hj,r,mem_cons_self,ht⟩
          · exact .inl hi
          · exact .inr ⟨c,hc,r',mem_cons_of_mem _ hr',ht'⟩
        · rintro (hi | ⟨c,hc,r',hr',ht'⟩)
          · exact .inl (.inr hi)
          · rcases mem_cons.mp hr' with rfl | hr'
            · have heq := (takeOver_eq_some hnodup hr i c).mpr ⟨hc,ht'⟩
              rw [htake] at heq
              exact .inl (.inl (congrArg Prod.fst (Option.some.inj heq)).symm)
            · exact .inr ⟨c,hc,r',hr',ht'⟩

/-- With every value reserved once and released once: the reserves that take a value over name its
owner, and the releases they take over are dropped. -/
theorem netSameTxnTransfers_eq {reserves : List Claim} (hrs : (reserves.map claimKey).Nodup) :
    (netSameTxnTransfers reserves rel).1 = reserves.map (transferred rel) ∧
      ∀ q,q ∈ (netSameTxnTransfers reserves rel).2 ↔ q ∈ rel ∧ ∀ r ∈ reserves,¬TakesOver r q := by
  obtain ⟨hmap,hcons⟩ := transferAll_eq hnodup hrs fun i (hi : i ∈ ([] : List ℕ)) =>
    absurd hi not_mem_nil
  refine ⟨hmap,fun q => ?_⟩
  simp only [netSameTxnTransfers,mem_map,mem_filter,decide_eq_true_eq]
  constructor
  · rintro ⟨⟨q',i⟩,⟨hmem,hi⟩,rfl⟩
    rw [mem_zipIdx_iff_getElem?] at hmem
    refine ⟨mem_of_getElem? hmem,fun r hr ht => hi ?_⟩
    exact (hcons i).mpr (.inr ⟨q',hmem,r,hr,ht⟩)
  · rintro ⟨hq,hnone⟩
    obtain ⟨i,hi⟩ := mem_iff_getElem?.mp hq
    refine ⟨(q,i),⟨mem_zipIdx_iff_getElem?.mpr hi,fun hmem => ?_⟩,rfl⟩
    rcases (hcons i).mp hmem with hmem | ⟨c,hc,r,hr,ht⟩
    · exact absurd hmem not_mem_nil
    · obtain rfl := Option.mem_unique hi hc
      exact hnone r hr ht

end Transfers

end Syzy
