import Syzy.Identity
import Syzy.KeyedRows
import Syzy.Machine

/-!
Unique keys in the catalog and their open-time heal. The repair takes the unique indexes of app.db for
the keys that are wanted; only the originator of a statement has these indexes.
-/

namespace Syzy

open Machine List

structure KeyDef where
  id : KeyID
  members : List ColumnID
  coordinated : Bool
  predicate : Option ℕ
deriving DecidableEq

/-- The rows of one key; a dropped marker drops the whole key. -/
structure KeyRecord where
  table : TableID
  key : KeyDef
  dropped : Bool
deriving DecidableEq

def KeyRecord.ref (r : KeyRecord) : TableID × KeyID := (r.table,r.key.id)

/-- A physical unique index; an inline constraint has no name. -/
structure UniqueIndex where
  name : Option ℕ
  table : TableID
  members : List ColumnID
  coordinated : Bool
  predicate : Option ℕ

inductive KeyEvent
  | createTable (table : TableID) (keys : List KeyDef)
  | addUniqueKey (table : TableID) (key : KeyDef) (index : ℕ)
  | dropUniqueKey (table : TableID) (key : KeyID) (index : ℕ)
  | dropIndex (index : ℕ)

structure KeyNode where
  tables : List TableID
  keys : List KeyRecord
  indexes : List UniqueIndex

namespace KeyNode

variable (s : KeyNode) (ev : KeyEvent)

def addKey (table : TableID) (keys : List KeyRecord) (key : KeyDef) : List KeyRecord :=
  Keyed.upsert KeyRecord.ref ⟨table,key,false⟩ keys

/-- The metadata transaction of an event; dropping an index has no catalog effect. -/
def applyMeta : KeyEvent → KeyNode
  | .createTable table keys =>
    { s with tables := s.tables++[table],keys := keys.foldl (addKey table) s.keys }
  | .addUniqueKey table key _ => { s with keys := addKey table s.keys key }
  | .dropUniqueKey table key _ =>
    { s with keys := Keyed.upsert KeyRecord.ref ⟨table,⟨key,[],false,none⟩,true⟩ s.keys }
  | .dropIndex _ => s


/-- The originator's statements run natively in SQLite. -/
def native : KeyNode :=
  { s.applyMeta ev with
    indexes := match ev with
      | .createTable table keys =>
        s.indexes++keys.map fun k => ⟨none,table,k.members,k.coordinated,k.predicate⟩
      | .addUniqueKey table k index =>
        s.indexes++[⟨some index,table,k.members,k.coordinated,k.predicate⟩]
      | .dropUniqueKey _ _ index => s.indexes.filter fun i => i.name ≠ some index
      | .dropIndex index => s.indexes.filter fun i => i.name ≠ some index }

/-- A receiver renders tables without their constraints and takes key events for applied. -/
def rendered : KeyNode :=
  { s.applyMeta ev with
    indexes := match ev with
      | .dropIndex index => s.indexes.filter fun i => i.name ≠ some index
      | _ => s.indexes }

end KeyNode

/-! The coordinated keys that the chain leaves. -/

def setTerminalCoordinatedKey (table : TableID) (active : List (TableID × KeyDef)) (key : KeyDef) :
    List (TableID × KeyDef) :=
  if key.coordinated then (active.filter fun p => (p.1,p.2.id) ≠ (table,key.id))++[(table,key)] else active

def applyTerminalCoordinatedKeyOp (active : List (TableID × KeyDef)) : KeyEvent → List (TableID × KeyDef)
  | .createTable table keys =>
    keys.foldl (setTerminalCoordinatedKey table) (active.filter fun p => p.1 ≠ table)
  | .addUniqueKey table key _ =>
    setTerminalCoordinatedKey table (active.filter fun p => (p.1,p.2.id) ≠ (table,key.id)) key
  | .dropUniqueKey table key _ => active.filter fun p => (p.1,p.2.id) ≠ (table,key)
  | .dropIndex _ => active

/-- Of the keys with one signature the one with the smallest id. -/
def canonicalCoordinatedKeys (active : List (TableID × KeyDef)) : List (TableID × KeyDef) :=
  active.filter fun p => !active.any fun q =>
    q.2.members = p.2.members && q.2.predicate = p.2.predicate && q.2.id < p.2.id

def terminalCoordinatedKeys (chain : List KeyEvent) : List (TableID × KeyDef) :=
  canonicalCoordinatedKeys (chain.foldl applyTerminalCoordinatedKeyOp [])

namespace KeyNode

def repairCoordinatedKeyCatalog (chain : List KeyEvent) (s : KeyNode) : KeyNode :=
  let missing := (terminalCoordinatedKeys chain).filter fun p =>
    !s.keys.any fun r => r.ref = (p.1,p.2.id) && !r.dropped
  { s with keys := missing.foldl (fun keys p => addKey p.1 keys p.2) s.keys }

/-- No physical enforcement stays on the columns of a coordinated key. -/
def normalizeCoordinatedIndexes (s : KeyNode) : KeyNode :=
  { s with indexes := s.indexes.filter fun i => !s.keys.any fun r =>
      !r.dropped && r.key.coordinated && r.table = i.table && r.key.members = i.members }

/-- The signatures that the unique indexes of a table stand for; eventual partial ones never made a key. -/
def desiredUniqueKeys (s : KeyNode) (table : TableID) : List (List ColumnID × Bool × Option ℕ) :=
  (s.indexes.filter fun i => i.table = table && (i.coordinated || i.predicate.isNone)).map fun i =>
    (i.members,i.coordinated,i.predicate)

def sameSig (k k' : KeyDef) : Bool :=
  k.members = k'.members && k.coordinated = k'.coordinated && k.predicate = k'.predicate

/-- A total coordinated key beside a partial one on the same columns. -/
def poison (keys : List KeyRecord) (r : KeyRecord) : Bool :=
  r.key.coordinated && r.key.predicate.isNone && keys.any fun r' =>
    !r'.dropped && r'.table = r.table && r'.key.coordinated && r'.key.predicate.isSome &&
      r'.key.members = r.key.members

def wanted (s : KeyNode) (r : KeyRecord) : Bool :=
  r.key.coordinated && !poison s.keys r ||
    (s.desiredUniqueKeys r.table).contains (r.key.members,r.key.coordinated,r.key.predicate)

/-- Drop unwanted keys, and of equal ones all but the one with the smallest id. -/
def repairUniqueKeys (s : KeyNode) : KeyNode :=
  { s with keys := s.keys.map fun r =>
      if !r.dropped && s.tables.contains r.table && (!s.wanted r || s.keys.any fun r' =>
        !r'.dropped && r'.table = r.table && sameSig r'.key r.key && r'.key.id < r.key.id) then
        { r with dropped := true }
      else r }

def healCatalog (chain : List KeyEvent) (s : KeyNode) : KeyNode :=
  (s.repairCoordinatedKeyCatalog chain).normalizeCoordinatedIndexes.repairUniqueKeys

/-- A coordinated key on the same columns, unless both are partial with different predicates. -/
def coordinatedOverlap (key : KeyDef) (r : KeyRecord) : Bool :=
  !r.dropped && r.key.coordinated && r.key.members = key.members &&
    !(r.key.predicate.isSome && key.predicate.isSome && r.key.predicate ≠ key.predicate)

/-- What admission lets through: fresh ids, columns of one table only, inline keys that are total and on
different columns, and coordinated keys without overlap. -/
def Admits (s : KeyNode) : KeyEvent → Prop
  | .createTable table keys => table ∉ s.tables ∧ (∀ r ∈ s.keys,r.table ≠ table) ∧
      (keys.map KeyDef.id).Nodup ∧ (keys.map KeyDef.members).Nodup ∧
      ∀ k ∈ keys,k.predicate = none ∧ ∀ r ∈ s.keys,r.key.members ≠ k.members
  | .addUniqueKey table key _ => table ∈ s.tables ∧ ∀ r ∈ s.keys,r.ref ≠ (table,key.id) ∧
      (r.table ≠ table → r.key.members ≠ key.members) ∧
      (key.coordinated = true → coordinatedOverlap key r = false)
  | .dropUniqueKey table key _ => ∃ r ∈ s.keys,r.ref = (table,key) ∧ r.dropped = false
  | .dropIndex _ => True

instance (s : KeyNode) : DecidablePred s.Admits
  | .createTable _ _ => inferInstanceAs (Decidable (_ ∧ _))
  | .addUniqueKey _ _ _ => inferInstanceAs (Decidable (_ ∧ _))
  | .dropUniqueKey table key _ => inferInstanceAs (Decidable (∃ r ∈ s.keys,r.ref = (table,key) ∧ r.dropped = false))
  | .dropIndex _ => inferInstanceAs (Decidable True)

def genesis : KeyNode := ⟨[],[],[]⟩

def originator (chain : List KeyEvent) : KeyNode := chain.foldl native genesis

def receiver (chain : List KeyEvent) : KeyNode := chain.foldl rendered genesis

def activeKeys (s : KeyNode) : List KeyRecord := s.keys.filter fun r => !r.dropped

def metaOf (chain : List KeyEvent) : KeyNode := chain.foldl applyMeta genesis

/-- Coordinated keys on the same columns differ in their predicates. -/
structure Separate (keys : List KeyRecord) : Prop where
  predicates : ∀ r ∈ keys,∀ r' ∈ keys,r.dropped = false → r'.dropped = false →
    r.key.coordinated = true → r'.key.coordinated = true → r.key.members = r'.key.members →
    r = r' ∨ r.key.predicate ≠ none ∧ r'.key.predicate ≠ none ∧ r.key.predicate ≠ r'.key.predicate

variable {s : KeyNode} {ev : KeyEvent} {chain : List KeyEvent}

variable {active : List (TableID × KeyDef)} {key : KeyDef} {r : KeyRecord} {table : TableID}

theorem keys_createTable {keys : List KeyDef} (ha : s.Admits (.createTable table keys)) :
    (s.applyMeta (.createTable table keys)).keys = s.keys++keys.map (⟨table,·,false⟩) := by
  obtain ⟨-,htable,hids,-⟩ := ha
  have hgen : ∀ (ks : List KeyDef) (l : List KeyRecord),(∀ r ∈ l,∀ k ∈ ks,r.ref ≠ (table,k.id)) →
      (ks.map KeyDef.id).Nodup → ks.foldl (addKey table) l = l++ks.map (⟨table,·,false⟩) := by
    intro ks
    induction ks with
    | nil => simp
    | cons k ks ih =>
      intro l hl hnodup
      obtain ⟨hk,hnodup⟩ := nodup_cons.mp hnodup
      have hadd : addKey table l k = l++[⟨table,k,false⟩] :=
        Keyed.upsert_of_absent _ fun r hr => hl r hr k mem_cons_self
      rw [foldl_cons,hadd,ih _ ?_ hnodup,append_assoc,map_cons,singleton_append]
      intro r hr k' hk'
      rw [mem_append,mem_singleton] at hr
      obtain hr | rfl := hr
      · exact hl r hr k' (mem_cons_of_mem _ hk')
      · intro heq
        have hid : k.id = k'.id := (Prod.mk.inj heq).2
        exact hk (hid ▸ mem_map_of_mem hk')
  exact hgen keys s.keys (fun r hr k _ heq => htable r hr (Prod.mk.inj heq).1) hids

theorem predicates_of_not_overlap (h : coordinatedOverlap key r = false) (hd : r.dropped = false)
    (hc : r.key.coordinated = true) (hm : r.key.members = key.members) :
    r.key.predicate ≠ none ∧ key.predicate ≠ none ∧ r.key.predicate ≠ key.predicate := by
  simpa [coordinatedOverlap,hd,hc,hm,Option.isSome_iff_ne_none,and_assoc] using h

theorem keys_addUniqueKey {index : ℕ} (ha : s.Admits (.addUniqueKey table key index)) :
    (s.applyMeta (.addUniqueKey table key index)).keys = s.keys++[⟨table,key,false⟩] :=
  Keyed.upsert_of_absent _ fun r hr => (ha.2 r hr).1

theorem Separate.apply (h : Separate s.keys) (ha : s.Admits ev) : Separate (s.applyMeta ev).keys := by
  constructor
  intro r hr r' hr' hd hd' hc hc' hmem
  cases ev with
  | createTable table keys =>
    rw [keys_createTable ha,mem_append,mem_map] at hr hr'
    obtain ⟨-,-,-,hmembers,hkeys⟩ := ha
    obtain hr | ⟨k,hk,rfl⟩ := hr <;> obtain hr' | ⟨k',hk',rfl⟩ := hr'
    · exact h.predicates r hr r' hr' hd hd' hc hc' hmem
    · exact absurd hmem ((hkeys k' hk').2 r hr)
    · exact absurd hmem.symm ((hkeys k hk).2 r' hr')
    · rw [inj_on_of_nodup_map hmembers hk hk' hmem]
      exact .inl rfl
  | addUniqueKey table key index =>
    rw [keys_addUniqueKey ha,mem_append,mem_singleton] at hr hr'
    obtain hr | rfl := hr <;> obtain hr' | rfl := hr'
    · exact h.predicates r hr r' hr' hd hd' hc hc' hmem
    · exact .inr (predicates_of_not_overlap ((ha.2 r hr).2.2 hc') hd hc hmem)
    · obtain ⟨hp,hp',hne⟩ := predicates_of_not_overlap ((ha.2 r' hr').2.2 hc) hd' hc' hmem.symm
      exact .inr ⟨hp',hp,hne.symm⟩
    · exact .inl rfl
  | dropUniqueKey table key index =>
    obtain rfl | ⟨hr,-⟩ := (Keyed.mem_upsert KeyRecord.ref).mp hr
    · exact absurd hd (by simp)
    · obtain rfl | ⟨hr',-⟩ := (Keyed.mem_upsert KeyRecord.ref).mp hr'
      · exact absurd hd' (by simp)
      · exact h.predicates r hr r' hr' hd hd' hc hc' hmem
  | dropIndex index => exact h.predicates r hr r' hr' hd hd' hc hc' hmem

theorem mem_setTerminal {p : TableID × KeyDef}
    (h : p ∈ setTerminalCoordinatedKey table active key) :
    p ∈ active ∨ p = (table,key) := by
  unfold setTerminalCoordinatedKey at h
  split_ifs at h
  · obtain h | h := mem_append.mp h
    · exact .inl (mem_filter.mp h).1
    · exact .inr (mem_singleton.mp h)
  · exact .inl h

theorem mem_applyMeta (hr : r ∈ s.keys) (ha : s.Admits ev)
    (hev : ∀ index,ev ≠ .dropUniqueKey r.table r.key.id index) : r ∈ (s.applyMeta ev).keys := by
  cases ev with
  | createTable table keys =>
    rw [keys_createTable ha]
    exact mem_append_left _ hr
  | addUniqueKey table key index =>
    rw [keys_addUniqueKey ha]
    exact mem_append_left _ hr
  | dropUniqueKey table key index =>
    refine (Keyed.mem_upsert KeyRecord.ref).mpr (.inr ⟨hr,fun heq => hev index ?_⟩)
    obtain ⟨rfl,rfl⟩ := Prod.mk.inj heq
    rfl
  | dropIndex index => exact hr

theorem terminal_active (ha : s.Admits ev) (h : ∀ p ∈ active,⟨p.1,p.2,false⟩ ∈ s.keys) :
    ∀ p ∈ applyTerminalCoordinatedKeyOp active ev,⟨p.1,p.2,false⟩ ∈ (s.applyMeta ev).keys := by
  intro p hp
  cases ev with
  | createTable table keys =>
    have hgen : ∀ (ks : List KeyDef) (l : List (TableID × KeyDef)),
        p ∈ ks.foldl (setTerminalCoordinatedKey table) l → p ∈ l ∨ ∃ k ∈ ks,p = (table,k) := by
      intro ks
      induction ks with
      | nil => exact fun l hp => .inl hp
      | cons k ks ih =>
        intro l hp
        obtain hp | ⟨k',hk',hp⟩ := ih _ hp
        · exact (mem_setTerminal hp).imp_right fun hp => ⟨k,mem_cons_self,hp⟩
        · exact .inr ⟨k',mem_cons_of_mem _ hk',hp⟩
    rw [keys_createTable ha]
    obtain hp | ⟨k,hk,rfl⟩ := hgen keys _ hp
    · exact mem_append_left _ (h p (mem_filter.mp hp).1)
    · exact mem_append_right _ (mem_map.mpr ⟨k,hk,rfl⟩)
  | addUniqueKey table key index =>
    rw [keys_addUniqueKey ha]
    obtain hp | rfl := mem_setTerminal hp
    · exact mem_append_left _ (h p (mem_filter.mp hp).1)
    · exact mem_append_right _ (mem_singleton_self _)
  | dropUniqueKey table key index =>
    obtain ⟨hp,hne⟩ := mem_filter.mp hp
    refine (Keyed.mem_upsert KeyRecord.ref).mpr (.inr ⟨h p hp,?_⟩)
    exact of_decide_eq_true hne
  | dropIndex index => exact h p hp

structure Healthy (chain : List KeyEvent) (keys : List KeyRecord) : Prop extends Separate keys where
  expected : ∀ p ∈ terminalCoordinatedKeys chain,⟨p.1,p.2,false⟩ ∈ keys

theorem healthy_metaOf (ha : Permitted applyMeta Admits genesis chain) :
    Healthy chain (metaOf chain).keys := by
  have hgen : ∀ (evs : List KeyEvent) (s : KeyNode) (active : List (TableID × KeyDef)),
      Permitted applyMeta Admits s evs → (∀ p ∈ active,⟨p.1,p.2,false⟩ ∈ s.keys) →
      ∀ p ∈ evs.foldl applyTerminalCoordinatedKeyOp active,
        ⟨p.1,p.2,false⟩ ∈ (evs.foldl applyMeta s).keys := by
    intro evs
    induction evs with
    | nil => exact fun s active _ h => h
    | cons ev evs ih => exact fun s active ha h => ih _ _ ha.2 (terminal_active ha.1 h)
  have hseparate := ha.invariant (I := fun s => Separate s.keys) (fun _ _ h ha => h.apply ha)
    ⟨by simp [genesis]⟩
  exact ⟨hseparate,fun p hp => hgen chain genesis [] ha (by simp) p (mem_filter.mp hp).1⟩

theorem Healthy.heal (h : Healthy chain s.keys)
    (hc : ∀ r ∈ s.keys,r.dropped = false → r.key.coordinated = true) :
    (s.healCatalog chain).keys = s.keys := by
  have hrestored : s.repairCoordinatedKeyCatalog chain = s := by
    have hnone : ((terminalCoordinatedKeys chain).filter fun p =>
        !s.keys.any fun r => r.ref = (p.1,p.2.id) && !r.dropped) = [] := by
      refine filter_eq_nil_iff.mpr fun p hp => ?_
      have hany : (s.keys.any fun r => r.ref = (p.1,p.2.id) && !r.dropped) = true :=
        any_eq_true.mpr ⟨_,h.expected p hp,by simp [KeyRecord.ref]⟩
      simp [hany]
    rw [repairCoordinatedKeyCatalog,hnone]
    rfl
  rw [healCatalog,hrestored]
  have hkeep : ∀ r ∈ s.keys,r.dropped = false → s.normalizeCoordinatedIndexes.wanted r = true ∧
      (s.keys.any fun r' => !r'.dropped && r'.table = r.table && sameSig r'.key r.key &&
        r'.key.id < r.key.id) = false := by
    intro r hr hd
    have hcoord := hc r hr hd
    have hpoison : poison s.keys r = false := by
      refine Bool.eq_false_iff.mpr fun hp => ?_
      simp only [poison,Bool.and_eq_true,any_eq_true,decide_eq_true_eq,Bool.not_eq_true'] at hp
      obtain ⟨⟨-,hnone⟩,r',hr',⟨⟨⟨hd',-⟩,hcoord'⟩,hsome⟩,hmem⟩ := hp
      obtain rfl | ⟨-,hp,-⟩ := h.predicates r' hr' r hr hd' hd hcoord' hcoord hmem
      · simp_all
      · exact hp (Option.isNone_iff_eq_none.mp hnone)
    refine ⟨?_,Bool.eq_false_iff.mpr fun hany => ?_⟩
    · show (r.key.coordinated && !poison s.keys r || _) = true
      simp [hcoord,hpoison]
    · simp only [any_eq_true,Bool.and_eq_true,decide_eq_true_eq,Bool.not_eq_true',sameSig] at hany
      obtain ⟨r',hr',⟨⟨hd',-⟩,⟨hmem,-⟩,hpred⟩,hlt⟩ := hany
      obtain rfl | ⟨-,-,hne⟩ := h.predicates r' hr' r hr hd' hd (hc r' hr' hd') hcoord hmem
      · exact hlt.false.elim
      · exact hne hpred
  refine (map_congr_left fun r hr => ?_).trans (map_id _)
  cases hd : r.dropped with
  | true => simp
  | false =>
    obtain ⟨hw,hdup⟩ := hkeep r hr hd
    rw [hw]
    exact if_neg fun hcond => by
      rw [Bool.and_eq_true,Bool.or_eq_true] at hcond
      exact hcond.2.elim (by simp) fun h => absurd (hdup.symm.trans h) (by simp)

theorem keys_foldl {f : KeyNode → KeyEvent → KeyNode}
    (hf : ∀ s ev,(f s ev).keys = (s.applyMeta ev).keys ∧ (f s ev).tables = (s.applyMeta ev).tables)
    (chain : List KeyEvent) : (chain.foldl f genesis).keys = (metaOf chain).keys ∧
      (chain.foldl f genesis).tables = (metaOf chain).tables := by
  have hmeta : ∀ (s s' : KeyNode) (ev : KeyEvent),s.keys = s'.keys → s.tables = s'.tables →
      (s.applyMeta ev).keys = (s'.applyMeta ev).keys ∧
        (s.applyMeta ev).tables = (s'.applyMeta ev).tables := by
    intro s s' ev hk ht
    cases ev <;> simp [applyMeta,hk,ht]
  have hgen : ∀ (evs : List KeyEvent) (s s' : KeyNode),s.keys = s'.keys → s.tables = s'.tables →
      (evs.foldl f s).keys = (evs.foldl applyMeta s').keys ∧
        (evs.foldl f s).tables = (evs.foldl applyMeta s').tables := by
    intro evs
    induction evs with
    | nil => exact fun s s' hk ht => ⟨hk,ht⟩
    | cons ev evs ih =>
      intro s s' hk ht
      obtain ⟨hk',ht'⟩ := hmeta s s' ev hk ht
      exact ih _ _ ((hf s ev).1.trans hk') ((hf s ev).2.trans ht')
  exact hgen chain genesis genesis rfl rfl

theorem heal_iterate (h : Healthy chain s.keys)
    (hc : ∀ r ∈ s.keys,r.dropped = false → r.key.coordinated = true) (n : ℕ) :
    ((healCatalog chain)^[n] s).keys = s.keys := by
  induction n generalizing s with
  | zero => rfl
  | succ n ih =>
    have hkeys := h.heal hc
    rw [Function.iterate_succ_apply,ih (hkeys ▸ h) (hkeys ▸ hc),hkeys]

def creates : KeyEvent → List KeyRecord
  | .createTable table keys => keys.map (⟨table,·,false⟩)
  | .addUniqueKey table key _ => [⟨table,key,false⟩]
  | _ => []

theorem unremoved_mem {pre post : List KeyEvent}
    (ha : Permitted applyMeta Admits genesis (pre++ev::post)) (hr : r ∈ creates ev)
    (hpost : ∀ index,.dropUniqueKey r.table r.key.id index ∉ post) :
    r ∈ (metaOf (pre++ev::post)).keys := by
  obtain ⟨-,hev,hpermitted⟩ := permitted_append.mp ha
  rw [metaOf,foldl_append,foldl_cons]
  have hmem : r ∈ ((pre.foldl applyMeta genesis).applyMeta ev).keys := by
    cases ev with
    | createTable table keys =>
      rw [keys_createTable hev]
      exact mem_append_right _ hr
    | addUniqueKey table key index =>
      rw [keys_addUniqueKey hev]
      exact mem_append_right _ hr
    | dropUniqueKey | dropIndex => exact absurd hr not_mem_nil
  exact (hpermitted.and_forall (Q := fun e => ∀ index,e ≠ .dropUniqueKey r.table r.key.id index)
    fun e he index heq => hpost index (heq ▸ he)).invariant (I := fun s => r ∈ s.keys)
    (fun _ _ hmem ha => mem_applyMeta hmem ha.1 ha.2) hmem

theorem table_mem (ha : Permitted applyMeta Admits genesis chain) :
    ∀ r ∈ (metaOf chain).keys,r.table ∈ (metaOf chain).tables := by
  refine ha.invariant (I := fun s => ∀ r ∈ s.keys,r.table ∈ s.tables) (fun s ev h ha r hr => ?_)
    (by simp [genesis])
  cases ev with
  | createTable table keys =>
    rw [keys_createTable ha,mem_append,mem_map] at hr
    obtain hr | ⟨k,-,rfl⟩ := hr
    · exact mem_append_left _ (h r hr)
    · exact mem_append_right _ (mem_singleton_self table)
  | addUniqueKey table key index =>
    rw [keys_addUniqueKey ha,mem_append,mem_singleton] at hr
    obtain hr | rfl := hr
    · exact h r hr
    · exact ha.1
  | dropUniqueKey table key index =>
    obtain rfl | ⟨hr,-⟩ := (Keyed.mem_upsert KeyRecord.ref).mp hr
    · obtain ⟨r,hr,heq,-⟩ := ha
      exact (Prod.mk.inj heq).1 ▸ h r hr
    · exact h r hr
  | dropIndex index => exact h r hr

/-- Without indexes a heal drops every eventual key. -/
theorem coordinated_of_healed (hi : s.indexes = []) (ht : r.table ∈ s.tables)
    (hr : r ∈ (s.healCatalog chain).activeKeys) : r.key.coordinated = true := by
  obtain ⟨hr,hd⟩ := mem_filter.mp hr
  obtain ⟨r₀,-,heq⟩ := mem_map.mp hr
  split_ifs at heq with hcond
  · rw [← heq] at hd
    simp at hd
  · subst heq
    by_contra hc
    refine hcond ?_
    simp_all [wanted,desiredUniqueKeys,normalizeCoordinatedIndexes,repairCoordinatedKeyCatalog]

/-- Originator and receiver agree on the active keys however often each has healed, and every key that
no event dropped is among them, if and only if the chain leaves no eventual key active. -/
theorem heal_agrees (ha : Permitted applyMeta Admits genesis chain) :
    (∀ m n,((healCatalog chain)^[m] (originator chain)).activeKeys =
        ((healCatalog chain)^[n] (receiver chain)).activeKeys ∧
      ∀ pre ev post r,chain = pre++ev::post → r ∈ creates ev → r.dropped = false →
        (∀ index,.dropUniqueKey r.table r.key.id index ∉ post) →
        r ∈ ((healCatalog chain)^[m] (originator chain)).activeKeys) ↔
      ∀ r ∈ (metaOf chain).keys,r.dropped = false → r.key.coordinated = true := by
  have hhealthy := healthy_metaOf ha
  have horiginator : (originator chain).keys = (metaOf chain).keys :=
    (keys_foldl (fun s ev => by cases ev <;> exact ⟨rfl,rfl⟩) chain).1
  obtain ⟨hreceiver,htables⟩ : (receiver chain).keys = (metaOf chain).keys ∧
      (receiver chain).tables = (metaOf chain).tables :=
    keys_foldl (fun s ev => by cases ev <;> exact ⟨rfl,rfl⟩) chain
  constructor
  · intro h r hr hd
    have hindexes : ∀ (evs : List KeyEvent) (s : KeyNode),s.indexes = [] →
        (evs.foldl rendered s).indexes = [] := by
      intro evs
      induction evs with
      | nil => exact fun _ hs => hs
      | cons ev evs ih => exact fun s hs => ih _ (by cases ev <;> simp [rendered,hs])
    have hmem : r ∈ ((healCatalog chain)^[0] (originator chain)).activeKeys :=
      mem_filter.mpr ⟨horiginator ▸ hr,by simp [hd]⟩
    rw [(h 0 1).1] at hmem
    exact coordinated_of_healed (hindexes chain genesis rfl) (htables ▸ table_mem ha r hr) hmem
  · intro hc m n
    have hm : ((healCatalog chain)^[m] (originator chain)).keys = (metaOf chain).keys :=
      (heal_iterate (horiginator ▸ hhealthy) (horiginator ▸ hc) m).trans horiginator
    have hn : ((healCatalog chain)^[n] (receiver chain)).keys = (metaOf chain).keys :=
      (heal_iterate (hreceiver ▸ hhealthy) (hreceiver ▸ hc) n).trans hreceiver
    refine ⟨by rw [activeKeys,activeKeys,hm,hn],?_⟩
    rintro pre ev post r rfl hr hd hpost
    rw [activeKeys,hm]
    exact mem_filter.mpr ⟨unremoved_mem ha hr hpost,by simp [hd]⟩

end KeyNode

namespace KeySample

open KeyNode

/-- Two partial keys and a total one, all coordinated, and an eventual key that is dropped again. -/
def coordinatedChain : List KeyEvent :=
  [.createTable 1 [⟨5,[10,11],true,none⟩],.addUniqueKey 1 ⟨7,[11],true,some 3⟩ 20,
    .addUniqueKey 1 ⟨8,[11],true,some 4⟩ 21,.addUniqueKey 1 ⟨6,[12],false,none⟩ 22,
    .dropUniqueKey 1 6 22,.dropIndex 23]

theorem coordinatedChain_agrees :
    Permitted applyMeta Admits genesis coordinatedChain ∧
      ((healCatalog coordinatedChain)^[2] (originator coordinatedChain)).activeKeys =
        ((healCatalog coordinatedChain)^[1] (receiver coordinatedChain)).activeKeys ∧
      ⟨1,⟨7,[11],true,some 3⟩,false⟩ ∈
        ((healCatalog coordinatedChain)^[2] (originator coordinatedChain)).activeKeys := by
  have ha : Permitted applyMeta Admits genesis coordinatedChain := by decide
  have h := (heal_agrees ha).mpr (by decide) 2 1
  exact ⟨ha,h.1,by decide⟩

def eventualChain : List KeyEvent := [.createTable 1 [⟨5,[10],false,none⟩]]

/-- The receiver of an inline eventual key drops it at its first heal; the originator keeps it. -/
theorem eventualChain_differs :
    Permitted applyMeta Admits genesis eventualChain ∧
      (healCatalog eventualChain (originator eventualChain)).activeKeys =
        [⟨1,⟨5,[10],false,none⟩,false⟩] ∧
      (healCatalog eventualChain (receiver eventualChain)).activeKeys = [] := by decide

end KeySample

end Syzy
