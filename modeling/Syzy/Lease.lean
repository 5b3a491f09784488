import Syzy.Cas

/-!
The lease of the coordinated-uniqueness leaseholder: one record in a bucket, mutated by conditional
writes. Its generation is the fencing token. Calls of any number of owners interleave in any way, with
clocks of their own and loads that may lag.
-/

namespace Syzy

open Machine List

/-- An expiry of zero means that the lease was relinquished. -/
structure LeaseRecord where
  owner : String
  generation : ℕ
  expiresAtUS : ℤ
  addr : String
deriving DecidableEq

instance : Inhabited LeaseRecord := ⟨⟨"",0,0,""⟩⟩

def LeaseRecord.held (r : LeaseRecord) (nowUS : ℤ) : Bool := r.owner ≠ "" ∧ nowUS < r.expiresAtUS

inductive LeaseError where
  | leaseHeld
  | fenced
deriving DecidableEq

/-- A call at the lease store. A missing etag is the empty one. -/
inductive LeaseCall (ε : Type) where
  | acquire (owner addr : String) (nowUS ttlUS : ℤ)
  | renew (record : LeaseRecord) (etag : Option ε) (nowUS ttlUS : ℤ)
  | release (record : LeaseRecord) (etag : Option ε)
deriving DecidableEq

open Cas

variable {ε : Type}

namespace LeaseCall

def isAcquire : LeaseCall ε → Bool
  | .acquire .. => true
  | _ => false

def holder : LeaseCall ε → Option (LeaseRecord × Option ε)
  | .acquire .. => none
  | .renew record etag _ _ => some (record,etag)
  | .release record etag => some (record,etag)

/-- The node a call is made for. -/
def caller : LeaseCall ε → String
  | .acquire owner _ _ _ => owner
  | .renew record _ _ _ => record.owner
  | .release record _ => record.owner

end LeaseCall

namespace LeaseStore

/-- A missing object reads as the zero record with an empty etag. -/
def read (seen : Option (Version LeaseRecord ε (LeaseCall ε))) : LeaseRecord × Option ε :=
  match seen with
  | none => (default,none)
  | some v => (v.content,some v.etag)

def acquire (owner addr : String) (nowUS ttlUS : ℤ) (cur : LeaseRecord) (etag : Option ε) :
    Except LeaseError (LeaseRecord × Option ε) :=
  if cur.held nowUS ∧ cur.owner ≠ owner then .error .leaseHeld
  else .ok (⟨owner,cur.generation+1,nowUS+ttlUS,addr⟩,etag)

/-- Renewals and releases write only over their own generation. They prefer the etag the holder has
tracked. -/
def rewrite (record : LeaseRecord) (etag : Option ε) (expiresAtUS : ℤ) (cur : LeaseRecord)
    (curEtag : Option ε) : Except LeaseError (LeaseRecord × Option ε) :=
  if cur.owner ≠ record.owner ∨ cur.generation ≠ record.generation then .error .fenced
  else .ok ({ record with expiresAtUS := expiresAtUS },if etag.isSome then etag else curEtag)

def renew (record : LeaseRecord) (etag : Option ε) (nowUS ttlUS : ℤ) :
    LeaseRecord → Option ε → Except LeaseError (LeaseRecord × Option ε) :=
  rewrite record etag (nowUS+ttlUS)

def release (record : LeaseRecord) (etag : Option ε) :
    LeaseRecord → Option ε → Except LeaseError (LeaseRecord × Option ε) :=
  rewrite record etag 0

def cas (etag : Option ε) : Expect ε :=
  match etag with
  | none => .absent
  | some e => .etag e

def write (call : LeaseCall ε) (seen : Option (Version LeaseRecord ε (LeaseCall ε))) :
    Option (Expect ε × LeaseRecord) :=
  let r := match call with
    | .acquire owner addr nowUS ttlUS => acquire owner addr nowUS ttlUS (read seen).1 (read seen).2
    | .renew record etag nowUS ttlUS => renew record etag nowUS ttlUS (read seen).1 (read seen).2
    | .release record etag => release record etag (read seen).1 (read seen).2
  match r with
  | .error _ => none
  | .ok (next,etag) => some (cas etag,next)

abbrev Lease (ε : Type) := Object LeaseRecord ε (LeaseCall ε)

def step [DecidableEq ε] : Lease ε → Action ε (LeaseCall ε) → Lease ε := Object.step write

/-- A holder calls with a record that was stored, and with the etag it was stored under or none. -/
def Issued (o : Lease ε) (record : LeaseRecord) (etag : Option ε) : Prop :=
  ∃ v ∈ o.versions,v.content = record ∧ (etag = none ∨ etag = some v.etag)

def Allowed (o : Lease ε) (a : Action ε (LeaseCall ε)) : Prop :=
  Honest write o a ∧ match a with
    | .load call _ => ∀ h ∈ call.holder,Issued o h.1 h.2
    | .put _ _ => True

instance [DecidableEq ε] (o : Lease ε) (a : Action ε (LeaseCall ε)) : Decidable (Allowed o a) := by
  unfold Allowed Issued
  refine @instDecidableAnd _ _ inferInstance ?_
  split <;> infer_instance

/-- Acquisitions open generations, renewals and releases keep them. -/
def tenure (ε : Type) : Tenure LeaseRecord (LeaseCall ε) String :=
  ⟨LeaseRecord.generation,LeaseRecord.owner,"",LeaseCall.isAcquire⟩

structure OK (o : Lease ε) : Prop extends o.Sound where
  linked : Linked (tenure ε).Link o.versions
  positive : ∀ v ∈ o.versions,0 < v.content.generation
  holders : ∀ p ∈ o.pending,∀ h ∈ p.1.holder,Issued o h.1 h.2
  acquirers : ∀ v ∈ o.versions,∀ owner addr nowUS ttlUS,
    v.writer = .acquire owner addr nowUS ttlUS → v.content.owner = owner

variable {o : Lease ε}

variable {c record : LeaseRecord} {call : LeaseCall ε} {etag : Option ε}
  {seen : Option (Version LeaseRecord ε (LeaseCall ε))} {x : Expect ε}

theorem write_acquire {owner addr : String} {nowUS ttlUS : ℤ}
    (h : write (.acquire owner addr nowUS ttlUS) seen = some (x,c)) :
    x = cas (read seen).2 ∧ c.generation = (read seen).1.generation+1 ∧ c.owner = owner := by
  simp only [write,acquire] at h
  split_ifs at h
  obtain ⟨rfl,rfl⟩ := Prod.mk.inj (Option.some.inj h)
  exact ⟨rfl,rfl,rfl⟩

theorem rewrite_ok {cur next : LeaseRecord} {curEtag e : Option ε} {expiresAtUS : ℤ}
    (h : rewrite record etag expiresAtUS cur curEtag = .ok (next,e)) :
    e = (if etag.isSome then etag else curEtag) ∧ cur.generation = record.generation ∧
      cur.owner = record.owner ∧ next.generation = record.generation ∧ next.owner = record.owner := by
  unfold rewrite at h
  by_cases hf : cur.owner ≠ record.owner ∨ cur.generation ≠ record.generation
  · rw [if_pos hf] at h
    cases h
  · rw [if_neg hf] at h
    rw [not_or,not_not,not_not] at hf
    obtain ⟨rfl,rfl⟩ := Prod.mk.inj (Except.ok.inj h)
    exact ⟨rfl,hf.2,hf.1,rfl,rfl⟩

theorem write_holder (hcall : call.holder = some (record,etag)) (h : write call seen = some (x,c)) :
    x = cas (if etag.isSome then etag else (read seen).2) ∧
      (read seen).1.generation = record.generation ∧ (read seen).1.owner = record.owner ∧
      c.generation = record.generation ∧ c.owner = record.owner := by
  have hrewrite : ∃ expiresAtUS e,rewrite record etag expiresAtUS (read seen).1 (read seen).2 = .ok (c,e) ∧
      x = cas e := by
    cases call with
    | acquire => cases hcall
    | renew record' etag' nowUS ttlUS =>
      obtain ⟨rfl,rfl⟩ := Prod.mk.inj (Option.some.inj hcall)
      simp only [write,renew] at h
      split at h
      · cases h
      · rename_i next e hok
        obtain ⟨rfl,rfl⟩ := Prod.mk.inj (Option.some.inj h)
        exact ⟨_,e,hok,rfl⟩
    | release record' etag' =>
      obtain ⟨rfl,rfl⟩ := Prod.mk.inj (Option.some.inj hcall)
      simp only [write,release] at h
      split at h
      · cases h
      · rename_i next e hok
        obtain ⟨rfl,rfl⟩ := Prod.mk.inj (Option.some.inj h)
        exact ⟨_,e,hok,rfl⟩
  obtain ⟨expiresAtUS,e,hok,rfl⟩ := hrewrite
  obtain ⟨rfl,hrest⟩ := rewrite_ok hok
  exact ⟨rfl,hrest⟩

theorem write_owner (h : write call seen = some (x,c)) : c.owner = call.caller := by
  cases call with
  | acquire => exact (write_acquire h).2.2
  | renew => exact (write_holder rfl h).2.2.2.2
  | release => exact (write_holder rfl h).2.2.2.2

/-- A renewal or release writes only while its own generation is the stored one. -/
theorem OK.current_of_holder (h : OK o) (hmem : (call,seen) ∈ o.pending)
    (hcall : call.holder = some (record,etag)) (hw : write call seen = some (x,c))
    (hmet : x.Met o.versions) :
    ∃ v,o.versions.getLast? = some v ∧ v.content.generation = record.generation ∧
      v.content.owner = record.owner := by
  obtain ⟨rfl,hgen,howner,-,-⟩ := write_holder hcall hw
  obtain ⟨u,hu,hrec,hetag⟩ := h.holders _ hmem _ hcall
  have hpos := h.positive u hu
  rw [hrec] at hpos
  cases seen with
  | none => exact absurd hgen (by simp only [read]; exact hpos.ne)
  | some v =>
    have hv := h.loaded _ hmem v rfl
    rcases hetag with hetag | hetag
    · simp only at hetag
      subst hetag
      obtain ⟨w,hw,hc⟩ := h.faithful.content_of_met hv hmet
      exact ⟨w,hw,by rw [hc]; exact hgen,by rw [hc]; exact howner⟩
    · simp only at hetag
      subst hetag
      obtain ⟨w,hw,hc⟩ := h.faithful.content_of_met hu hmet
      exact ⟨w,hw,by rw [hc,hrec],by rw [hc,hrec]⟩

theorem OK.empty : OK (Object.empty : Lease ε) :=
  ⟨Object.sound_empty,linked_nil,fun _ h => absurd h not_mem_nil,
    fun _ h => absurd h not_mem_nil,fun _ h => absurd h not_mem_nil⟩

theorem OK.link (h : OK o) (hmem : (call,seen) ∈ o.pending) (hw : write call seen = some (x,c))
    (hmet : x.Met o.versions) :
    (tenure ε).Link (o.versions.getLast?.map Version.content) call c ∧ 0 < c.generation := by
  cases hcall : call.holder with
  | some held =>
    obtain ⟨record,etag⟩ := held
    obtain ⟨v,hv,hgen,howner⟩ := h.current_of_holder hmem hcall hw hmet
    obtain ⟨-,-,-,hcgen,hcowner⟩ := write_holder hcall hw
    have hkeeps : call.isAcquire = false := by
      cases call with
      | acquire => cases hcall
      | _ => rfl
    have hpos := h.positive v (mem_of_getLast? hv)
    refine ⟨?_,by omega⟩
    simp only [Tenure.Link,tenure,hkeeps,Bool.false_eq_true,if_false,Tenure.genOf,Tenure.ownerOf,hv,
      Option.map_some,Option.getD_some]
    exact ⟨hcgen.trans hgen.symm,hcowner.trans howner.symm⟩
  | none =>
    cases call with
    | renew | release => cases hcall
    | acquire owner addr nowUS ttlUS =>
      obtain ⟨rfl,hgen,-⟩ := write_acquire hw
      refine ⟨?_,by omega⟩
      simp only [Tenure.Link,tenure,LeaseCall.isAcquire,if_true,Tenure.genOf]
      rw [hgen]
      cases seen with
      | none =>
        have hnil : o.versions = [] := hmet
        rw [hnil]
        rfl
      | some v =>
        obtain ⟨w,hlast,hc⟩ := h.faithful.content_of_met (h.loaded _ hmem v rfl) hmet
        rw [hlast]
        simp only [read,Option.map_some,Option.getD_some,hc]

section Step

variable [DecidableEq ε] {a : Action ε (LeaseCall ε)}

theorem Issued.step (a : Action ε (LeaseCall ε)) {record : LeaseRecord} {etag : Option ε}
    (h : Issued o record etag) : Issued (LeaseStore.step o a) record etag := by
  obtain ⟨v,hv,hrest⟩ := h
  exact ⟨v,(o.versions_prefix_step write a).subset hv,hrest⟩

theorem OK.step (h : OK o) (ha : Allowed o a) : OK (LeaseStore.step o a) := by
  refine ⟨h.toSound.step ha.1,?_,?_,fun p hp held hheld => ?_,?_⟩
  · rcases o.step_versions write a with hv | ⟨i,e,op,x,c,-,hw,hmet,hv⟩
    · rw [LeaseStore.step,hv]
      exact h.linked
    · obtain ⟨seen,hmem,hwrite⟩ := Object.pending_of_attempt hw
      rw [LeaseStore.step,hv,linked_concat]
      exact ⟨h.linked,(h.link (mem_of_getElem? hmem) hwrite hmet).1⟩
  · rcases o.step_versions write a with hv | ⟨i,e,op,x,c,-,hw,hmet,hv⟩
    · rw [LeaseStore.step,hv]
      exact h.positive
    · obtain ⟨seen,hmem,hwrite⟩ := Object.pending_of_attempt hw
      rw [LeaseStore.step,hv]
      intro v hmemv
      rcases mem_concat.mp hmemv with hmemv | rfl
      · exact h.positive v hmemv
      · exact (h.link (mem_of_getElem? hmem) hwrite hmet).2
  · refine Issued.step a ?_
    rcases Object.mem_pending_step hp with hp | ⟨seen,rfl,-⟩
    · exact h.holders p hp held hheld
    · exact ha.2 held hheld
  · rcases o.step_versions write a with hv | ⟨i,e,op,x,c,-,hw,hmet,hv⟩
    · rw [LeaseStore.step,hv]
      exact h.acquirers
    · obtain ⟨seen,hmem,hwrite⟩ := Object.pending_of_attempt hw
      rw [LeaseStore.step,hv]
      intro v hmemv owner addr nowUS ttlUS hwriter
      rcases mem_concat.mp hmemv with hmemv | rfl
      · exact h.acquirers v hmemv owner addr nowUS ttlUS hwriter
      · subst hwriter
        exact (write_acquire hwrite).2.2

end Step

def acquired (o : Lease ε) : List ℕ :=
  (o.versions.filter fun v => v.writer.isAcquire).map fun v => v.content.generation

/-- In every interleaving generations never fall, each is one acquisition's and carries its owner,
and a record of an older generation renews and releases nothing. -/
theorem lease_fencing [DecidableEq ε] (as : List (Action ε (LeaseCall ε)))
    (h : Permitted LeaseStore.step Allowed Object.empty as) :
    ((as.foldl LeaseStore.step Object.empty).versions.map fun v => v.content.generation).Pairwise
        (· ≤ ·) ∧
    (∀ v ∈ (as.foldl LeaseStore.step Object.empty).versions,
      (∃ w ∈ (as.foldl LeaseStore.step Object.empty).versions,
        (∃ addr nowUS ttlUS,w.writer = .acquire v.content.owner addr nowUS ttlUS) ∧
          w.content.generation = v.content.generation) ∧
      (acquired (as.foldl LeaseStore.step Object.empty)).count v.content.generation = 1) ∧
    ∀ i etag call seen record tracked,
      (as.foldl LeaseStore.step Object.empty).pending[i]? = some (call,seen) →
      call.holder = some (record,tracked) →
      (∃ v ∈ (as.foldl LeaseStore.step Object.empty).versions,
        record.generation < v.content.generation) →
      (LeaseStore.step (as.foldl LeaseStore.step Object.empty) (.put i etag)).versions =
        (as.foldl LeaseStore.step Object.empty).versions := by
  have hok := h.invariant (I := OK) (fun o a ho ha => ho.step ha) OK.empty
  generalize as.foldl LeaseStore.step Object.empty = o at hok
  refine ⟨?_,fun v hv => ?_,?_⟩
  · have hgen := Tenure.gen_le hok.linked
    rw [pairwise_map] at hgen ⊢
    exact hgen
  · have hcount := Tenure.count_opened hok.linked hv (hok.positive v hv)
    refine ⟨?_,hcount⟩
    have hmem : (tenure ε).gen v.content ∈ (tenure ε).opened o.versions :=
      count_pos_iff.mp (by omega)
    obtain ⟨w,hw,hgen⟩ := mem_map.mp hmem
    obtain ⟨hw,hopens⟩ := mem_filter.mp hw
    have howner : w.content.owner = v.content.owner := Tenure.owner_eq hok.linked hw hv hgen
    refine ⟨w,hw,?_,hgen⟩
    cases hwriter : w.writer with
    | acquire owner addr nowUS ttlUS =>
      have := hok.acquirers w hw owner addr nowUS ttlUS hwriter
      exact ⟨addr,nowUS,ttlUS,by rw [← howner,this]⟩
    | _ => simp [tenure,hwriter,LeaseCall.isAcquire] at hopens
  · intro i etag call seen record tracked hpending hcall ⟨v,hv,hlater⟩
    rcases o.step_versions write (.put i etag) with hsame | ⟨j,e,op,x,c,hput,hw,hmet,-⟩
    · exact hsame
    · cases hput
      obtain ⟨seen',hpending',hwrite⟩ := Object.pending_of_attempt hw
      obtain ⟨rfl,rfl⟩ := Prod.mk.inj (Option.mem_unique hpending hpending')
      obtain ⟨w,hlast,hgen,-⟩ :=
        hok.current_of_holder (mem_of_getElem? hpending) hcall hwrite hmet
      have hle : v.content.generation ≤ w.content.generation := Tenure.gen_le_last hok.linked hv hlast
      omega

end LeaseStore

structure Leaseholder (ε : Type) where
  owner : String
  addr : String
  isLeader : Bool
  lease : LeaseRecord
  etag : Option ε
deriving DecidableEq

namespace Leaseholder

/-- A tick renews the lease it has and asks for it otherwise. -/
def tick (l : Leaseholder ε) (nowUS ttlUS : ℤ) : LeaseCall ε :=
  if l.isLeader then .renew l.lease l.etag nowUS ttlUS else .acquire l.owner l.addr nowUS ttlUS

/-- What the answer to a call does to the node: the stored record with its etag, or nothing. -/
def settle (l : Leaseholder ε) (call : LeaseCall ε) (stored : Option (LeaseRecord × ε)) :
    Leaseholder ε :=
  match call,stored with
  | .acquire ..,some (record,etag) => { l with isLeader := true,lease := record,etag := some etag }
  | .renew ..,some (record,etag) => { l with lease := record,etag := some etag }
  | .renew ..,none => { l with isLeader := false }
  | _,_ => l

end Leaseholder

/-- Leaseholders over one lease; each pending call belongs to one of them. -/
structure LeaseCluster (ε : Type) where
  object : LeaseStore.Lease ε
  holders : List (Leaseholder ε)
  callers : List ℕ

inductive HolderAction (ε : Type) where
  | tick (h : ℕ) (nowUS ttlUS : ℤ) (seen : ℕ)
  | releaseLease (h seen : ℕ)
  | answer (i : ℕ) (etag : ε) (lost : Bool)

namespace LeaseCluster

variable {s : LeaseCluster ε} {a : HolderAction ε}

/-- The action at the lease store that a node's action comes to. -/
def storeAction (s : LeaseCluster ε) : HolderAction ε → Option (Action ε (LeaseCall ε))
  | .tick h nowUS ttlUS seen => s.holders[h]?.map fun l => .load (l.tick nowUS ttlUS) seen
  | .releaseLease h seen => s.holders[h]?.bind fun l =>
      if l.isLeader then some (.load (.release l.lease l.etag) seen) else none
  | .answer i etag _ => some (.put i etag)

def stored [DecidableEq ε] (s : LeaseCluster ε) (i : ℕ) (etag : ε) : Option (LeaseRecord × ε) :=
  (s.object.attempt LeaseStore.write i).bind fun w =>
    if w.2.1.Met s.object.versions then some (w.2.2,etag) else none

def step [DecidableEq ε] (s : LeaseCluster ε) (a : HolderAction ε) : LeaseCluster ε :=
  match s.storeAction a with
  | none => s
  | some b =>
    let object := LeaseStore.step s.object b
    match a with
    | .tick h _ _ _ => { s with object := object,callers := s.callers++[h] }
    | .releaseLease h _ => { s with
        object := object
        holders := s.holders.modify h fun l => { l with isLeader := false }
        callers := s.callers++[h] }
    | .answer i etag lost => { s with
        object := object
        holders := match s.object.pending[i]?,s.callers[i]? with
          | some (call,_),some h =>
            if lost then s.holders else s.holders.modify h fun l => l.settle call (s.stored i etag)
          | _,_ => s.holders
        callers := s.callers.eraseIdx i }

/-- A leader has a record and an etag that were stored together. -/
def Led (s : LeaseCluster ε) : Prop :=
  ∀ l ∈ s.holders,l.isLeader = true → LeaseStore.Issued s.object l.lease l.etag

theorem Led.issued (h : s.Led) {b : Action ε (LeaseCall ε)} (hb : s.storeAction a = some b)
    (hhonest : Honest LeaseStore.write s.object b) : LeaseStore.Allowed s.object b := by
  refine ⟨hhonest,?_⟩
  cases a with
  | tick i nowUS ttlUS seen =>
    obtain ⟨l,hl,rfl⟩ := Option.map_eq_some_iff.mp hb
    unfold Leaseholder.tick
    split_ifs with hlead
    · intro held hheld
      cases hheld
      exact h l (mem_of_getElem? hl) hlead
    · exact fun held hheld => absurd hheld (by simp [LeaseCall.holder])
  | releaseLease i seen =>
    obtain ⟨l,hl,hb⟩ := Option.bind_eq_some_iff.mp hb
    split_ifs at hb with hlead
    cases hb
    intro held hheld
    cases hheld
    exact h l (mem_of_getElem? hl) hlead
  | answer i etag lost =>
    cases hb
    trivial

theorem issued_settle {l : Leaseholder ε} {call : LeaseCall ε} {o : LeaseStore.Lease ε}
    {stored : Option (LeaseRecord × ε)}
    (hl : l.isLeader = true → LeaseStore.Issued o l.lease l.etag)
    (hstored : ∀ r,stored = some r → LeaseStore.Issued o r.1 (some r.2)) :
    (l.settle call stored).isLeader = true →
      LeaseStore.Issued o (l.settle call stored).lease (l.settle call stored).etag := by
  cases call <;> cases stored <;>
    first
      | exact hl
      | exact fun _ => hstored _ rfl
      | exact fun h => Bool.noConfusion h

theorem mem_of_mem_modify {β : Type} {l : List β} {i : ℕ} {f : β → β} {x : β}
    (h : x ∈ l.modify i f) : ∃ y ∈ l,x = y ∨ x = f y := by
  obtain ⟨j,hj⟩ := getElem?_of_mem h
  rw [getElem?_modify] at hj
  obtain ⟨y,hy,rfl⟩ := Option.map_eq_some_iff.mp hj
  refine ⟨y,mem_of_getElem? hy,?_⟩
  split_ifs
  · exact .inr rfl
  · exact .inl rfl

/-- Leases and calls in flight bear the name of the node they belong to. -/
structure Owned (s : LeaseCluster ε) : Prop where
  leases : ∀ l ∈ s.holders,l.isLeader = true → l.lease.owner = l.owner
  aligned : s.object.pending.length = s.callers.length
  calls : ∀ (i : ℕ) p h l,s.object.pending[i]? = some p → s.callers[i]? = some h →
    s.holders[h]? = some l → p.1.caller = l.owner

theorem owner_settle (l : Leaseholder ε) (call : LeaseCall ε) (stored : Option (LeaseRecord × ε)) :
    (l.settle call stored).owner = l.owner := by
  cases call <;> cases stored <;> rfl

theorem owner_of_modify {holders : List (Leaseholder ε)} {f : Leaseholder ε → Leaseholder ε}
    (hf : ∀ l,(f l).owner = l.owner) {i j : ℕ} {l : Leaseholder ε}
    (h : (holders.modify i f)[j]? = some l) : ∃ m,holders[j]? = some m ∧ m.owner = l.owner := by
  rw [getElem?_modify] at h
  obtain ⟨m,hm,rfl⟩ := Option.map_eq_some_iff.mp h
  refine ⟨m,hm,?_⟩
  split_ifs
  · exact (hf m).symm
  · rfl

theorem lease_settle {l : Leaseholder ε} {call : LeaseCall ε} {stored : Option (LeaseRecord × ε)}
    (hl : l.isLeader = true → l.lease.owner = l.owner)
    (hstored : ∀ r,stored = some r → r.1.owner = l.owner) :
    (l.settle call stored).isLeader = true →
      (l.settle call stored).lease.owner = (l.settle call stored).owner := by
  cases call <;> cases stored <;>
    first
      | exact hl
      | exact fun _ => hstored _ rfl
      | exact fun h => Bool.noConfusion h

theorem Owned.concat (h : s.Owned) {q : LeaseCall ε × Option (Version LeaseRecord ε (LeaseCall ε))}
    {i : ℕ} {m : Leaseholder ε} (hm : s.holders[i]? = some m) (hq : q.1.caller = m.owner) {j k : ℕ}
    {p : LeaseCall ε × Option (Version LeaseRecord ε (LeaseCall ε))} {l : Leaseholder ε}
    (hp : (s.object.pending++[q])[j]? = some p) (hk : (s.callers++[i])[j]? = some k)
    (hl : s.holders[k]? = some l) : p.1.caller = l.owner := by
  by_cases hj : j < s.callers.length
  · rw [getElem?_append_left (h.aligned ▸ hj)] at hp
    rw [getElem?_append_left hj] at hk
    exact h.calls j p k l hp hk hl
  · rw [getElem?_append_right (by rw [h.aligned]; omega),getElem?_singleton] at hp
    rw [getElem?_append_right (by omega),getElem?_singleton] at hk
    split_ifs at hp hk
    cases hp
    cases hk
    cases hm.symm.trans hl
    exact hq

variable [DecidableEq ε]

theorem issued_stored {i : ℕ} {etag : ε} {r : LeaseRecord × ε} (h : s.stored i etag = some r) :
    LeaseStore.Issued (LeaseStore.step s.object (.put i etag)) r.1 (some r.2) := by
  obtain ⟨w,hw,hr⟩ := Option.bind_eq_some_iff.mp h
  split_ifs at hr with hmet
  cases hr
  refine ⟨⟨w.2.2,etag,w.1⟩,?_,rfl,.inr rfl⟩
  simp [LeaseStore.step,Object.step,hw,hmet]

theorem Led.step (h : s.Led) : (s.step a).Led := by
  unfold LeaseCluster.step
  cases hb : s.storeAction a with
  | none => exact h
  | some b =>
    have hkept : ∀ l ∈ s.holders,l.isLeader = true →
        LeaseStore.Issued (LeaseStore.step s.object b) l.lease l.etag :=
      fun l hl hlead => (h l hl hlead).step b
    cases a with
    | tick i nowUS ttlUS seen => exact hkept
    | releaseLease i seen =>
      intro l hl hlead
      obtain ⟨l',hl',rfl | rfl⟩ := mem_of_mem_modify hl
      · exact hkept l hl' hlead
      · exact Bool.noConfusion hlead
    | answer i etag lost =>
      cases hb
      dsimp only
      split
      · split_ifs
        · exact hkept
        · intro l hl
          obtain ⟨l',hl',rfl | rfl⟩ := mem_of_mem_modify hl
          · exact hkept l hl'
          · exact issued_settle (hkept l' hl') fun r hr => issued_stored hr
      · exact hkept

theorem object_step {b : Action ε (LeaseCall ε)} (hb : s.storeAction a = some b) :
    (s.step a).object = LeaseStore.step s.object b := by
  cases a <;> simp [LeaseCluster.step,hb]

def storeRun : LeaseCluster ε → List (HolderAction ε) → List (Action ε (LeaseCall ε))
  | _,[] => []
  | s,a::as => (s.storeAction a).toList++storeRun (s.step a) as

def Served (s : LeaseCluster ε) (a : HolderAction ε) : Prop :=
  ∀ b ∈ s.storeAction a,Honest LeaseStore.write s.object b

instance (s : LeaseCluster ε) (a : HolderAction ε) : Decidable (s.Served a) :=
  inferInstanceAs (Decidable (∀ b ∈ s.storeAction a,_))

/-- Leaseholders that do not lead at first are callers that the fencing asks for. -/
theorem Led.permitted {as : List (HolderAction ε)} (h : s.Led)
    (has : Permitted LeaseCluster.step Served s as) :
    Permitted LeaseStore.step LeaseStore.Allowed s.object (s.storeRun as) := by
  induction as generalizing s with
  | nil => trivial
  | cons a as ih =>
    have hrest := ih h.step has.2
    unfold storeRun
    cases hb : s.storeAction a with
    | none => simpa [LeaseCluster.step,hb] using hrest
    | some b =>
      rw [object_step hb] at hrest
      exact ⟨h.issued hb (has.1 b hb),hrest⟩

theorem Led.ok_step (h : s.Led) (hok : LeaseStore.OK s.object) (ha : s.Served a) :
    LeaseStore.OK (s.step a).object := by
  cases hb : s.storeAction a with
  | none => simpa [LeaseCluster.step,hb] using hok
  | some b =>
    rw [object_step hb]
    exact hok.step (h.issued hb (ha b hb))

theorem pending_put (o : LeaseStore.Lease ε) (i : ℕ) (etag : ε) :
    (LeaseStore.step o (.put i etag)).pending = o.pending.eraseIdx i := by
  simp only [LeaseStore.step,Object.step]
  split
  · rfl
  · split_ifs <;> rfl

theorem owner_stored {i : ℕ} {etag : ε} {r : LeaseRecord × ε} (h : s.stored i etag = some r) :
    ∃ p,s.object.pending[i]? = some p ∧ r.1.owner = p.1.caller := by
  obtain ⟨w,hw,hr⟩ := Option.bind_eq_some_iff.mp h
  split_ifs at hr
  cases hr
  obtain ⟨seen,hp,hwrite⟩ := Object.pending_of_attempt hw
  exact ⟨_,hp,LeaseStore.write_owner hwrite⟩

theorem Owned.step (h : s.Owned) : (s.step a).Owned := by
  unfold LeaseCluster.step
  cases hb : s.storeAction a with
  | none => exact h
  | some b =>
    cases a with
    | tick i nowUS ttlUS seen =>
      obtain ⟨m,hm,rfl⟩ := Option.map_eq_some_iff.mp hb
      have hcaller : (m.tick nowUS ttlUS).caller = m.owner := by
        unfold Leaseholder.tick
        split_ifs with hlead
        · exact h.leases m (mem_of_getElem? hm) hlead
        · rfl
      exact ⟨h.leases,by simp [LeaseStore.step,Object.step,h.aligned],
        fun j p k l hp hk hl => h.concat hm hcaller hp hk hl⟩
    | releaseLease i seen =>
      obtain ⟨m,hm,hb⟩ := Option.bind_eq_some_iff.mp hb
      split_ifs at hb with hlead
      cases hb
      refine ⟨fun l hl hl' => ?_,by simp [LeaseStore.step,Object.step,h.aligned],
        fun j p k l hp hk hl => ?_⟩
      · obtain ⟨l₀,hl₀,rfl | rfl⟩ := mem_of_mem_modify hl
        · exact h.leases l hl₀ hl'
        · exact Bool.noConfusion hl'
      · obtain ⟨l₀,hl₀,howner⟩ :=
          owner_of_modify (f := fun l => { l with isLeader := false }) (fun _ => rfl) hl
        rw [← howner]
        exact h.concat (q := (.release m.lease m.etag,_)) hm
          (h.leases m (mem_of_getElem? hm) hlead) hp hk hl₀
    | answer i etag lost =>
      cases hb
      have hcalls : ∀ (j : ℕ) p k l,(s.object.pending.eraseIdx i)[j]? = some p →
          (s.callers.eraseIdx i)[j]? = some k → s.holders[k]? = some l → p.1.caller = l.owner := by
        intro j p k l hp hk hl
        rw [getElem?_eraseIdx] at hp hk
        split_ifs at hp hk with hj
        · exact h.calls j p k l hp hk hl
        · exact h.calls (j+1) p k l hp hk hl
      have haligned : (s.object.pending.eraseIdx i).length = (s.callers.eraseIdx i).length := by
        simp [length_eraseIdx,h.aligned]
      dsimp only
      split
      · rename_i call seen k hcall hk
        split_ifs
        · exact ⟨h.leases,by rw [pending_put]; exact haligned,by rw [pending_put]; exact hcalls⟩
        · refine ⟨?_,by rw [pending_put]; exact haligned,?_⟩
          · intro l hl
            obtain ⟨j,hj⟩ := getElem?_of_mem hl
            dsimp only at hj
            rw [getElem?_modify] at hj
            obtain ⟨m,hm,rfl⟩ := Option.map_eq_some_iff.mp hj
            split_ifs with hkj
            · refine lease_settle (h.leases m (mem_of_getElem? hm)) fun r hr => ?_
              obtain ⟨p,hp,hr⟩ := owner_stored hr
              subst hkj
              rw [hr]
              exact h.calls i p k m hp hk hm
            · exact h.leases m (mem_of_getElem? hm)
          · intro j p k' l hp hk' hl
            obtain ⟨m,hm,howner⟩ := owner_of_modify (fun l => owner_settle l _ _) hl
            rw [pending_put] at hp
            rw [← howner]
            exact hcalls j p k' m hp hk' hm
      · exact ⟨h.leases,by rw [pending_put]; exact haligned,by rw [pending_put]; exact hcalls⟩

/-- What a leader holds, asleep or cut off as it may be, is a stored record that names it, and no
other owner's record has its generation: leaders of one generation are one owner. -/
theorem leaders_of_generation (holders : List (Leaseholder ε)) (as : List (HolderAction ε))
    (hnew : ∀ l ∈ holders,l.isLeader = false)
    (has : Permitted LeaseCluster.step Served ⟨Object.empty,holders,[]⟩ as) :
    let s := as.foldl LeaseCluster.step ⟨Object.empty,holders,[]⟩
    ∀ l ∈ s.holders,l.isLeader = true → l.lease.owner = l.owner ∧
      (∃ v ∈ s.object.versions,v.content = l.lease) ∧
      (∀ v ∈ s.object.versions,v.content.generation = l.lease.generation →
        v.content.owner = l.owner) ∧
      ∀ l' ∈ s.holders,l'.isLeader = true → l'.lease.generation = l.lease.generation →
        l'.owner = l.owner := by
  intro s l hl hlead
  obtain ⟨⟨hled,hok⟩,hown⟩ := has.invariant
    (I := fun s => (s.Led ∧ LeaseStore.OK s.object) ∧ s.Owned)
    (fun s a h ha => ⟨⟨h.1.1.step,h.1.1.ok_step h.1.2 ha⟩,h.2.step⟩)
    ⟨⟨fun l hl hlead => by simp [hnew l hl] at hlead,.empty⟩,
      fun l hl hlead => by simp [hnew l hl] at hlead,rfl,fun i p h l hp => by simp [Object.empty] at hp⟩
  have howner := hown.leases l hl hlead
  obtain ⟨v,hv,hrec,-⟩ := hled l hl hlead
  have hgen : ∀ w ∈ s.object.versions,w.content.generation = l.lease.generation →
      w.content.owner = l.owner := by
    intro w hw hgen
    rw [← howner]
    rw [← hrec] at hgen ⊢
    exact Tenure.owner_eq hok.linked hw hv hgen
  refine ⟨howner,⟨v,hv,hrec⟩,hgen,fun l' hl' hlead' heq => ?_⟩
  obtain ⟨w,hw,hrec',-⟩ := hled l' hl' hlead'
  rw [← hown.leases l' hl' hlead',← hrec']
  exact hgen w hw (by rw [hrec',heq])

end LeaseCluster

/-! A holder that sleeps past its lease and wakes up in the middle of a renewal. -/
namespace LeaseSample

open LeaseStore

def taken : LeaseRecord := ⟨"a",1,10,"host-a"⟩

/-- The second owner takes over between the load and the write of the first one's renewal. -/
def sleeps : List (Action ℕ (LeaseCall ℕ)) :=
  [.load (.acquire "a" "host-a" 0 10) 0,.put 0 1,
    .load (.renew taken (some 1) 9 10) 1,.load (.acquire "b" "host-b" 12 10) 1,.put 1 2]

theorem sleeps_fenced :
    (sleeps.foldl LeaseStore.step Object.empty).versions.map (fun v => v.content.generation) = [1,2] ∧
    (LeaseStore.step (sleeps.foldl LeaseStore.step Object.empty) (.put 0 3)).versions =
      (sleeps.foldl LeaseStore.step Object.empty).versions :=
  ⟨by decide,(lease_fencing sleeps (by decide)).2.2 0 3
    (.renew taken (some 1) 9 10) (some ⟨taken,1,.acquire "a" "host-a" 0 10⟩) taken (some 1)
    (by decide) rfl (by decide)⟩

/-- The first owner takes the lease and sleeps past it in the middle of a renewal; the second takes it
over. Both believe to lead. -/
def takeover : List (HolderAction ℕ) :=
  [.tick 0 0 10 0,.answer 0 1 false,.tick 0 9 10 1,.tick 1 12 10 1,.answer 1 2 false]

def two : LeaseCluster ℕ :=
  ⟨Object.empty,[⟨"a","host-a",false,default,none⟩,⟨"b","host-b",false,default,none⟩],[]⟩

theorem both_lead :
    ((takeover.foldl LeaseCluster.step two).holders.map fun l =>
        (l.owner,l.isLeader,l.lease.generation)) =
        [("a",true,1),("b",true,2)] ∧
      (∃ v ∈ (takeover.foldl LeaseCluster.step two).object.versions,v.content = taken) ∧
      ∀ v ∈ (takeover.foldl LeaseCluster.step two).object.versions,v.content.generation = 2 →
        v.content.owner = "b" := by
  have h := LeaseCluster.leaders_of_generation two.holders takeover (by decide) (by decide)
  exact ⟨by decide,(h ⟨"a","host-a",true,taken,some 1⟩ (by decide) rfl).2.1,
    (h ⟨"b","host-b",true,⟨"b",2,22,"host-b"⟩,some 2⟩ (by decide) rfl).2.2.1⟩

end LeaseSample

end Syzy
