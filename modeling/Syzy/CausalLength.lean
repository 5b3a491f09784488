import Mathlib.Data.List.ReduceOption
import Syzy.Evidence
import Syzy.Machine
import Syzy.Publish

/-!
The causal lengths one node gives to its own changesets. The drain derives the records of a batch of
commits from the row clocks it holds and from what earlier records of the batch decided, and
publishes the clocks once the batch is done.
-/

namespace Syzy

open Machine Function ExceptFold List

/-- One local transaction as the self-journal holds it. -/
structure Commit where
  stamp : Stamp
  touches : List TouchRec

/-- A node's clocks and the changesets its drain has emitted. -/
structure Drain where
  cache : Cache
  emitted : List (Stamp × List Record)

structure DrainBatch where
  scratch : SinkBatch
  emitted : List (Stamp × List Record)

namespace DrainBatch

/-- Materialise one commit; one that comes to nothing emits no changeset. -/
def commit (cat : Catalog) (s : DrainBatch) (c : Stamp × List RecordEvidence) : DrainBatch :=
  let b := SinkBatch.buildRecords cat c.1 { s.scratch with records := [] } c.2
  ⟨b,if b.records = [] then s.emitted else s.emitted++[(c.1,b.records)]⟩

end DrainBatch

namespace Drain

def beginBatch (d : Drain) : DrainBatch := ⟨.new d.cache.rowState,d.emitted⟩

def publish (d : Drain) (s : DrainBatch) : Drain where
  cache := s.scratch.cellClocks.foldl Cache.publishCell
    (s.scratch.clocks.foldl Cache.publishRow d.cache)
  emitted := s.emitted

def evidence (cat : Catalog) (batch : List Commit) :
    Except CaptureError (List (Stamp × List RecordEvidence)) :=
  batch.mapM fun c => (buildRecordEvidence cat c.touches).map fun evs => (c.stamp,evs)

/-- One batch. A commit that cannot be decoded fails the batch before it emits anything. -/
def apply (cat : Catalog) (d : Drain) (batch : List Commit) : Drain :=
  match evidence cat batch with
  | .error _ => d
  | .ok cs => d.publish (cs.foldl (DrainBatch.commit cat) d.beginBatch)

end Drain

namespace SinkBatch

variable {cat : Catalog} {b b' : SinkBatch} {stamp : Stamp} {ev : RecordEvidence}
  {evs : List RecordEvidence} {k : RowKey}

section

variable (r : Record) (st : RowState) (clear : Bool)

@[simp] theorem rowState_emit :
    (b.emit r st clear).rowState = Function.update b.rowState r.key st := rfl
@[simp] theorem records_emit : (b.emit r st clear).records = b.records++[r] := rfl
@[simp] theorem clocks_emit : (b.emit r st clear).clocks = b.clocks++[⟨r.key,st,clear⟩] := rfl

end

def emits (b : SinkBatch) : RecordEvidence → List Record
  | .insert k image => [.insert k (b.rowState k).nextLiveCL image]
  | .update k changed => [.update k (b.rowState k).nextLiveCL changed]
  | .delete k => [.delete k (b.rowState k).nextTombCL]
  | .updatePKChange k k' image =>
    [.delete k (b.rowState k).nextTombCL,.insert k' (b.rowState k').nextLiveCL image]
  | .blobPatch k col ranges =>
    [.blobPatch k (if (b.rowState k).cl = 0 then 1 else (b.rowState k).cl) col ranges]

theorem records_buildRecord (cat : Catalog) (stamp : Stamp) (b : SinkBatch) (ev : RecordEvidence) :
    (buildRecord cat stamp b ev).records = b.records++b.emits ev := by
  cases ev with
  | update k changed =>
    simp only [buildRecord]
    split_ifs
    · rfl
    · rfl
  | updatePKChange k k' image => simp [buildRecord,emits]
  | _ => rfl

def cls (b : SinkBatch) (k : RowKey) : ℕ := (b.rowState k).cl

end SinkBatch

theorem RowState.nextLiveCL_odd (rs : RowState) : rs.nextLiveCL%2 = 1 := by
  unfold nextLiveCL
  by_cases h : rs.isLive = true
  · rw [if_pos h]
    exact isLive_iff.mp h
  · rw [if_neg h]
    rw [isLive_iff] at h
    omega

theorem RowState.nextTombCL_of_isLive {rs : RowState} (h : rs.isLive = true) :
    rs.nextTombCL = rs.cl+1 := if_pos h

theorem RowState.put_cl_eq_max (rs st : RowState) (clear : Bool) :
    (rs.put st clear).cl = max rs.cl st.cl := by
  rw [put_cl]
  split_ifs with h
  · exact (max_eq_right (le_of_dominatedBy h)).symm
  · refine (max_eq_left ?_).symm
    by_contra hlt
    exact h (dominatedBy_of_lt (not_le.mp hlt))

def Record.isDelete : Record → Bool
  | delete _ _ => true
  | _ => false

/-- A delete carries an even length above zero, a write of a live row an odd one. -/
def Record.LengthOK : Record → Prop
  | delete _ c => 0 < c ∧ c%2 = 0
  | insert _ c _ | update _ c _ | blobPatch _ c _ _ => c%2 = 1

/-- The causal-length discipline of a node's changesets. -/
structure Disciplined (css : List (List Record)) : Prop where
  lengths : ∀ r ∈ css.flatten,r.LengthOK
  deletes : css.flatten.Pairwise fun x y => x.key = y.key → y.isDelete = true → x.cl < y.cl
  climbs : ∀ cs ∈ css,cs.Pairwise fun x y => x.key = y.key → x.cl ≤ y.cl

/-- The discipline asks for a delete and for a primary-key change that the row's clock is live, and
that the change moves the row to another key. -/
def LiveAt (b : SinkBatch) : RecordEvidence → Prop
  | .delete k => (b.rowState k).isLive = true
  | .updatePKChange k k' _ => (b.rowState k).isLive = true ∧ k ≠ k'
  | _ => True

instance (b : SinkBatch) (ev : RecordEvidence) : Decidable (LiveAt b ev) := by
  cases ev <;> unfold LiveAt <;> infer_instance

/-- Every piece of a commit's evidence meets the batch as it must. -/
def LiveCommit (cat : Catalog) (s : DrainBatch) (c : Stamp × List RecordEvidence) : Prop :=
  Permitted (SinkBatch.buildRecord cat c.1) LiveAt { s.scratch with records := [] } c.2

instance (cat : Catalog) (s : DrainBatch) (c : Stamp × List RecordEvidence) :
    Decidable (LiveCommit cat s c) :=
  inferInstanceAs (Decidable (Permitted _ _ _ _))

def LiveBatch (cat : Catalog) (d : Drain) (batch : List Commit) : Prop :=
  match Drain.evidence cat batch with
  | .error _ => True
  | .ok cs => Permitted (DrainBatch.commit cat) (LiveCommit cat) d.beginBatch cs

instance (cat : Catalog) (d : Drain) (batch : List Commit) : Decidable (LiveBatch cat d batch) := by
  unfold LiveBatch
  cases Drain.evidence cat batch <;> infer_instance

def LiveRun (cat : Catalog) (d : Drain) (batches : List (List Commit)) : Prop :=
  Permitted (Drain.apply cat) (LiveBatch cat) d batches

instance (cat : Catalog) (d : Drain) (batches : List (List Commit)) :
    Decidable (LiveRun cat d batches) :=
  inferInstanceAs (Decidable (Permitted _ _ _ _))

section Orderly

variable {f : RowKey → ℕ} {h : List Record} {r : Record}

/-- What a node has emitted and the causal lengths it holds. -/
structure Orderly (f : RowKey → ℕ) (h : List Record) : Prop where
  lengths : ∀ x ∈ h,x.LengthOK
  climbs : h.Pairwise fun x y => x.key = y.key → x.cl ≤ y.cl ∧ (y.isDelete = true → x.cl < y.cl)
  bound : ∀ x ∈ h,x.cl ≤ f x.key
  known : ∀ k,f k = 0 ∨ ∃ x ∈ h,x.key = k ∧ x.cl = f k

/-- A record that raises its row's length, strictly for a delete. -/
structure Lands (f : RowKey → ℕ) (r : Record) : Prop where
  length : r.LengthOK
  le : f r.key ≤ r.cl
  lt : r.isDelete = true → f r.key < r.cl

def land (f : RowKey → ℕ) (r : Record) : RowKey → ℕ := Function.update f r.key r.cl

theorem Orderly.land (ho : Orderly f h) (hr : Lands f r) : Orderly (land f r) (h++[r]) where
  lengths := by
    intro x hx
    rcases mem_concat.mp hx with hx | rfl
    · exact ho.lengths x hx
    · exact hr.length
  climbs := by
    refine pairwise_append.mpr ⟨ho.climbs,pairwise_singleton _ _,fun x hx y hy hkey => ?_⟩
    rw [mem_singleton.mp hy] at hkey ⊢
    have hle := ho.bound x hx
    rw [hkey] at hle
    exact ⟨hle.trans hr.le,fun hd => hle.trans_lt (hr.lt hd)⟩
  bound := by
    intro x hx
    unfold Syzy.land
    rcases mem_concat.mp hx with hx | rfl
    · by_cases hkey : x.key = r.key
      · have hle := ho.bound x hx
        rw [hkey] at hle ⊢
        rw [update_self]
        exact hle.trans hr.le
      · rw [update_of_ne hkey]
        exact ho.bound x hx
    · rw [update_self]
  known := by
    intro k
    unfold Syzy.land
    by_cases hk : k = r.key
    · subst hk
      exact .inr ⟨r,by simp,rfl,by simp⟩
    · rw [update_of_ne hk]
      refine (ho.known k).imp id ?_
      rintro ⟨x,hx,hxk⟩
      exact ⟨x,by simp [hx],hxk⟩

theorem Orderly.foldl_land {rs : List Record} (ho : Orderly f h)
    (hrs : Permitted Syzy.land Lands f rs) : Orderly (rs.foldl Syzy.land f) (h++rs) := by
  induction rs generalizing f h with
  | nil => simpa using ho
  | cons r rs ih =>
    have := ih (ho.land hrs.1) hrs.2
    simpa using this

theorem Orderly.disciplined {css : List (List Record)} (ho : Orderly f css.flatten) :
    Disciplined css where
  lengths := ho.lengths
  deletes := ho.climbs.imp fun hxy hkey hd => (hxy hkey).2 hd
  climbs := fun _ hcs => (ho.climbs.sublist (sublist_flatten_of_mem hcs)).imp
    fun hxy hkey => (hxy hkey).1

end Orderly

namespace RecordEvidence

def isBlobPatch : RecordEvidence → Bool
  | blobPatch _ _ _ => true
  | _ => false

end RecordEvidence

namespace SinkBatch

variable {cat : Catalog} {b : SinkBatch} {stamp : Stamp} {ev : RecordEvidence} {c : Cache}

theorem cls_emit (b : SinkBatch) (r : Record) (stamp : Stamp) (clear : Bool) :
    (b.emit r (.ofBase r.cl stamp) clear).cls = land b.cls r := by
  funext k
  unfold cls land
  rw [rowState_emit]
  by_cases hk : k = r.key
  · rw [hk,update_self,update_self]
    rfl
  · rw [update_of_ne hk,update_of_ne hk]

theorem cls_emitCells (b : SinkBatch) (k : RowKey) (changed : Image) (stamp : Stamp) :
    (b.emitCells k (b.rowState k).nextLiveCL changed stamp).cls =
      land b.cls (.update k (b.rowState k).nextLiveCL changed) := by
  funext k'
  unfold cls land emitCells setRowState
  have hle := (b.rowState k).le_nextLiveCL
  by_cases hk : k' = k
  · subst hk
    simp only [update_self,Record.key_update,Record.cl_update]
    split_ifs
    · rfl
    · omega
  · simp only [update_of_ne hk,Record.key_update]

theorem cls_buildRecord (hev : ev.isBlobPatch = false) :
    (buildRecord cat stamp b ev).cls = (b.emits ev).foldl land b.cls := by
  cases ev with
  | insert k image => exact cls_emit b (.insert k _ image) stamp false
  | update k changed =>
    simp only [buildRecord]
    split_ifs
    · exact cls_emitCells b k changed stamp
    · exact cls_emit b (.update k _ changed) stamp _
  | delete k => exact cls_emit b (.delete k _) stamp false
  | updatePKChange k k' image =>
    have h₁ := cls_emit b (.delete k (b.rowState k).nextTombCL) stamp false
    have h₂ := cls_emit (b.emit (.delete k (b.rowState k).nextTombCL)
      (.ofBase (b.rowState k).nextTombCL stamp) false)
      (.insert k' (b.rowState k').nextLiveCL image) stamp false
    exact h₂.trans (congrArg (land · (.insert k' (b.rowState k').nextLiveCL image)) h₁)
  | blobPatch k col ranges => exact Bool.noConfusion hev

theorem lands_emits (hev : ev.isBlobPatch = false) (hlive : LiveAt b ev) :
    Permitted land Lands b.cls (b.emits ev) := by
  have hins : ∀ k image,Lands b.cls (.insert k (b.rowState k).nextLiveCL image) := fun k image =>
    ⟨(b.rowState k).nextLiveCL_odd,(b.rowState k).le_nextLiveCL,fun h => Bool.noConfusion h⟩
  have hdel : ∀ k,(b.rowState k).isLive = true → Lands b.cls (.delete k (b.rowState k).nextTombCL) := by
    intro k hk
    have hodd := RowState.isLive_iff.mp hk
    have hcl := RowState.nextTombCL_of_isLive hk
    refine ⟨⟨?_,?_⟩,?_,fun _ => ?_⟩
    · omega
    · omega
    · show (b.rowState k).cl ≤ (b.rowState k).nextTombCL
      omega
    · show (b.rowState k).cl < (b.rowState k).nextTombCL
      omega
  cases ev with
  | insert k image => exact ⟨hins k image,trivial⟩
  | update k changed =>
    exact ⟨⟨(b.rowState k).nextLiveCL_odd,(b.rowState k).le_nextLiveCL,
      fun h => Bool.noConfusion h⟩,trivial⟩
  | delete k => exact ⟨hdel k hlive,trivial⟩
  | updatePKChange k k' image =>
    have hcls : land b.cls (.delete k (b.rowState k).nextTombCL) k' = b.cls k' :=
      update_of_ne (fun h => hlive.2 h.symm) _ _
    exact ⟨hdel k hlive.1,⟨(hins k' image).length,hcls.le.trans (hins k' image).le,
      fun h => Bool.noConfusion h⟩,trivial⟩
  | blobPatch k col ranges => exact Bool.noConfusion hev

/-- The clock updates collected so far leave every row the length the batch sees. -/
def Agrees (c : Cache) (b : SinkBatch) : Prop :=
  ∀ k,((b.clocks.filter fun u => u.key = k).foldl RowState.putUpdate (c.rowState k)).cl = b.cls k

theorem Agrees.emit {r : Record} (h : b.Agrees c) (hle : b.cls r.key ≤ r.cl) (stamp : Stamp)
    (clear : Bool) :
    (b.emit r (.ofBase r.cl stamp) clear).Agrees c := by
  intro k
  rw [cls_emit,land,clocks_emit,filter_append,foldl_append]
  by_cases hk : k = r.key
  · subst hk
    rw [update_self]
    have hput : ∀ rs : RowState,(rs.putUpdate ⟨r.key,.ofBase r.cl stamp,clear⟩).cl =
        max rs.cl r.cl := fun rs => rs.put_cl_eq_max _ clear
    simp only [decide_true,filter_cons,if_true,filter_nil,foldl_cons,foldl_nil,hput,h r.key]
    exact max_eq_right hle
  · rw [update_of_ne hk,← h k]
    have hne : ¬r.key = k := fun e => hk e.symm
    simp [hne]

theorem Agrees.emitCells (h : b.Agrees c) (k : RowKey) (changed : Image) :
    (b.emitCells k (b.rowState k).nextLiveCL changed stamp).Agrees c := by
  have hle := (b.rowState k).le_nextLiveCL
  by_cases hlt : (b.rowState k).cl < (b.rowState k).nextLiveCL
  · have hclocks : (b.emitCells k (b.rowState k).nextLiveCL changed stamp).clocks =
        (b.emit (.update k (b.rowState k).nextLiveCL changed)
          (.ofBase (b.rowState k).nextLiveCL Stamp.zero) true).clocks := if_pos hlt
    have hcls : (b.emitCells k (b.rowState k).nextLiveCL changed stamp).cls =
        (b.emit (.update k (b.rowState k).nextLiveCL changed)
          (.ofBase (b.rowState k).nextLiveCL Stamp.zero) true).cls :=
      (cls_emitCells b k changed stamp).trans
        (cls_emit b (.update k (b.rowState k).nextLiveCL changed) Stamp.zero true).symm
    have := h.emit (r := .update k (b.rowState k).nextLiveCL changed) hle Stamp.zero true
    intro k'
    rw [hclocks,hcls]
    exact this k'
  · have hclocks : (b.emitCells k (b.rowState k).nextLiveCL changed stamp).clocks = b.clocks :=
      if_neg hlt
    have hcls : (b.emitCells k (b.rowState k).nextLiveCL changed stamp).cls = b.cls := by
      rw [cls_emitCells]
      refine update_eq_iff.mpr ⟨?_,fun _ _ => rfl⟩
      show (b.rowState k).nextLiveCL = (b.rowState k).cl
      omega
    intro k'
    rw [hclocks,hcls]
    exact h k'

theorem Agrees.buildRecord (h : b.Agrees c) (hev : ev.isBlobPatch = false) (hlive : LiveAt b ev) :
    (buildRecord cat stamp b ev).Agrees c := by
  have hlands := lands_emits hev hlive
  cases ev with
  | insert k image => exact h.emit hlands.1.le stamp false
  | update k changed =>
    simp only [SinkBatch.buildRecord]
    split_ifs
    · exact h.emitCells k changed
    · exact h.emit (r := .update k _ changed) hlands.1.le stamp _
  | delete k => exact h.emit hlands.1.le stamp false
  | updatePKChange k k' image =>
    have hmid := h.emit hlands.1.le stamp false
    refine hmid.emit (r := .insert k' (b.rowState k').nextLiveCL image) ?_ stamp false
    rw [cls_emit]
    exact hlands.2.1.le
  | blobPatch k col ranges => exact Bool.noConfusion hev

/-- A batch in order: the lengths it sees are those of what was emitted, and its clock updates lead
to them. -/
structure InOrder (c : Cache) (h : List Record) (b : SinkBatch) : Prop where
  agrees : b.Agrees c
  orderly : Orderly b.cls (h++b.records)

theorem InOrder.buildRecord {h : List Record} (ho : b.InOrder c h) (hev : ev.isBlobPatch = false)
    (hlive : LiveAt b ev) : (buildRecord cat stamp b ev).InOrder c h where
  agrees := ho.agrees.buildRecord hev hlive
  orderly := by
    rw [cls_buildRecord hev,records_buildRecord,← append_assoc]
    exact ho.orderly.foldl_land (lands_emits hev hlive)

theorem InOrder.buildRecords {h : List Record} {evs : List RecordEvidence} (ho : b.InOrder c h)
    (hevs : ∀ ev ∈ evs,ev.isBlobPatch = false)
    (hlive : Permitted (SinkBatch.buildRecord cat stamp) LiveAt b evs) :
    (buildRecords cat stamp b evs).InOrder c h :=
  (hlive.and_forall hevs).invariant (fun _ _ ho hev => ho.buildRecord hev.2 hev.1) ho

theorem records_buildRecords_extends (cat : Catalog) (stamp : Stamp) (b : SinkBatch)
    (evs : List RecordEvidence) : b.records <+: (buildRecords cat stamp b evs).records := by
  induction evs generalizing b with
  | nil => exact prefix_rfl
  | cons ev evs ih =>
    refine IsPrefix.trans ?_ (ih (buildRecord cat stamp b ev))
    rw [records_buildRecord]
    exact prefix_append _ _

end SinkBatch

/-- The discipline of one more changeset after the records before it. -/
structure FollowsOn (h cs : List Record) : Prop where
  lengths : ∀ r ∈ cs,r.LengthOK
  deletes : ∀ x ∈ h,∀ y ∈ cs,x.key = y.key → y.isDelete = true → x.cl < y.cl
  own : cs.Pairwise fun x y => x.key = y.key → y.isDelete = true → x.cl < y.cl
  climbs : cs.Pairwise fun x y => x.key = y.key → x.cl ≤ y.cl

theorem FollowsOn.of_initial {h cs cs' : List Record} (hf : FollowsOn h cs) (hp : cs' <+: cs) :
    FollowsOn h cs' where
  lengths := fun r hr => hf.lengths r (hp.subset hr)
  deletes := fun x hx y hy => hf.deletes x hx y (hp.subset hy)
  own := hf.own.sublist hp.sublist
  climbs := hf.climbs.sublist hp.sublist

theorem Disciplined.followsOn {css : List (List Record)} {cs : List Record}
    (h : Disciplined (css++[cs])) : FollowsOn css.flatten cs := by
  have hflat : (css++[cs]).flatten = css.flatten++cs := by simp
  have hdel := h.deletes
  rw [hflat] at hdel
  obtain ⟨-,hown,hcross⟩ := pairwise_append.mp hdel
  exact ⟨fun r hr => h.lengths r (by simp [hr]),hcross,hown,h.climbs cs (by simp)⟩

theorem Disciplined.of_initial {css css' : List (List Record)} (h : Disciplined css)
    (hp : css' <+: css) : Disciplined css' := by
  obtain ⟨rest,rfl⟩ := hp
  have hflat : (css'++rest).flatten = css'.flatten++rest.flatten := by simp
  refine ⟨fun r hr => h.lengths r ?_,?_,fun cs hcs => h.climbs cs (by simp [hcs])⟩
  · rw [hflat]
    exact mem_append_left _ hr
  · have hdel := h.deletes
    rw [hflat] at hdel
    exact (pairwise_append.mp hdel).1

namespace SinkBatch

variable {cat : Catalog} {b : SinkBatch} {stamp : Stamp} {ev : RecordEvidence} {c : Cache}
  {h : List Record}

/-- A delete in order has met a live clock: an even length is zero or was given out before. -/
theorem isLive_of_delete {k : RowKey} (ho : b.InOrder c h)
    (hf : FollowsOn h (b.records++[.delete k (b.rowState k).nextTombCL])) :
    (b.rowState k).isLive = true := by
  let r : Record := .delete k (b.rowState k).nextTombCL
  have hr : r ∈ b.records++[r] := by simp
  by_contra hdead
  have hcl : (b.rowState k).nextTombCL = b.cls k := if_neg hdead
  have hlen : r.LengthOK := hf.lengths r hr
  rcases ho.orderly.known k with hzero | ⟨x,hx,hkey,hxcl⟩
  · have hpos : 0 < (b.rowState k).nextTombCL := hlen.1
    omega
  · have hlt : x.cl < (b.rowState k).nextTombCL := by
      rcases mem_append.mp hx with hx | hx
      · exact hf.deletes x hx r hr hkey rfl
      · exact (pairwise_append.mp hf.own).2.2 x hx r (by simp [r]) hkey rfl
    omega

theorem liveAt_of_followsOn (ho : b.InOrder c h) (hf : FollowsOn h (b.records++b.emits ev)) :
    LiveAt b ev := by
  cases ev with
  | delete k => exact isLive_of_delete ho hf
  | updatePKChange k k' image =>
    have hlive : (b.rowState k).isLive = true :=
      isLive_of_delete ho (hf.of_initial ⟨[.insert k' (b.rowState k').nextLiveCL image],by simp [emits]⟩)
    refine ⟨hlive,?_⟩
    intro hk
    subst hk
    have hpair := (pairwise_append.mp hf.climbs).2.1
    have hle : (b.rowState k).nextTombCL ≤ (b.rowState k).nextLiveCL :=
      (pairwise_cons.mp hpair).1 (.insert k (b.rowState k).nextLiveCL image) (by simp) rfl
    rw [RowState.nextTombCL_of_isLive hlive,RowState.nextLiveCL,if_pos hlive] at hle
    omega
  | _ => trivial

/-- A commit whose changeset keeps the discipline met live clocks throughout. -/
theorem permitted_of_followsOn {evs : List RecordEvidence} (ho : b.InOrder c h)
    (hevs : ∀ ev ∈ evs,ev.isBlobPatch = false)
    (hf : FollowsOn h (buildRecords cat stamp b evs).records) :
    Permitted (buildRecord cat stamp) LiveAt b evs := by
  induction evs generalizing b with
  | nil => trivial
  | cons ev evs ih =>
    have hnext := hf.of_initial (records_buildRecords_extends cat stamp (buildRecord cat stamp b ev) evs)
    rw [records_buildRecord] at hnext
    have hlive := liveAt_of_followsOn ho hnext
    have hev := hevs ev (by simp)
    exact ⟨hlive,ih (ho.buildRecord hev hlive) (fun e he => hevs e (by simp [he])) hf⟩

end SinkBatch

namespace DrainBatch

variable {cat : Catalog} {s : DrainBatch} {c : Cache} {p : Stamp × List RecordEvidence}

/-- The changesets' records, in the order they were emitted. -/
def history (emitted : List (Stamp × List Record)) : List (List Record) := emitted.map Prod.snd

def InOrder (c : Cache) (s : DrainBatch) : Prop :=
  s.scratch.Agrees c ∧ Orderly s.scratch.cls (history s.emitted).flatten

theorem InOrder.scratch (h : s.InOrder c) :
    SinkBatch.InOrder c (history s.emitted).flatten { s.scratch with records := [] } where
  agrees := h.1
  orderly := by
    rw [append_nil]
    exact h.2

theorem history_commit (cat : Catalog) (s : DrainBatch) (p : Stamp × List RecordEvidence) :
    (history (s.commit cat p).emitted).flatten = (history s.emitted).flatten++
      (SinkBatch.buildRecords cat p.1 { s.scratch with records := [] } p.2).records := by
  unfold commit
  by_cases hnil : (SinkBatch.buildRecords cat p.1 { s.scratch with records := [] } p.2).records = []
  · simp [hnil]
  · simp [hnil,history]

theorem InOrder.commit (h : s.InOrder c) (hevs : ∀ ev ∈ p.2,ev.isBlobPatch = false)
    (hlive : LiveCommit cat s p) : (s.commit cat p).InOrder c := by
  have hb := h.scratch.buildRecords hevs hlive
  refine ⟨hb.agrees,?_⟩
  rw [history_commit]
  exact hb.orderly

theorem emitted_commit_extends (cat : Catalog) (s : DrainBatch) (p : Stamp × List RecordEvidence) :
    s.emitted <+: (s.commit cat p).emitted := by
  simp only [DrainBatch.commit]
  split_ifs
  · exact prefix_rfl
  · exact prefix_append _ _

theorem emitted_foldl_extends (cat : Catalog) (s : DrainBatch)
    (cs : List (Stamp × List RecordEvidence)) :
    s.emitted <+: (cs.foldl (DrainBatch.commit cat) s).emitted := by
  induction cs generalizing s with
  | nil => exact prefix_rfl
  | cons p cs ih => exact (emitted_commit_extends cat s p).trans (ih _)

theorem liveCommit_of_disciplined (h : s.InOrder c) (hevs : ∀ ev ∈ p.2,ev.isBlobPatch = false)
    (hd : Disciplined (history (s.commit cat p).emitted)) : LiveCommit cat s p := by
  refine SinkBatch.permitted_of_followsOn h.scratch hevs ?_
  by_cases hnil : (SinkBatch.buildRecords cat p.1 { s.scratch with records := [] } p.2).records = []
  · rw [hnil]
    exact ⟨by simp,by simp,Pairwise.nil,Pairwise.nil⟩
  · refine Disciplined.followsOn ?_
    simpa [DrainBatch.commit,hnil,history] using hd

theorem permitted_of_disciplined {cs : List (Stamp × List RecordEvidence)} (h : s.InOrder c)
    (hevs : ∀ p ∈ cs,∀ ev ∈ p.2,ev.isBlobPatch = false)
    (hd : Disciplined (history (cs.foldl (DrainBatch.commit cat) s).emitted)) :
    Permitted (DrainBatch.commit cat) (LiveCommit cat) s cs := by
  induction cs generalizing s with
  | nil => trivial
  | cons p cs ih =>
    have hp := hevs p (by simp)
    have hlive := liveCommit_of_disciplined h hp
      (hd.of_initial ((emitted_foldl_extends cat (s.commit cat p) cs).map Prod.snd))
    exact ⟨hlive,ih (h.commit hp hlive) (fun q hq => hevs q (by simp [hq])) hd⟩

end DrainBatch

/-- Evidence as row events give it: images over all columns of their table, updates of some columns
outside its key, and no patch. -/
def Captured (cat : Catalog) : RecordEvidence → Prop
  | .insert k image | .updatePKChange _ k image => ∃ tab,cat.tableByID k.table = some tab ∧
      image.map ColValue.column = tab.columns.map Column.id
  | .update k changed => ∃ tab,cat.tableByID k.table = some tab ∧ changed ≠ [] ∧
      ∀ v ∈ changed,tab.isValueColumn v.column = true
  | .delete _ => True
  | .blobPatch _ _ _ => False

theorem Captured.isBlobPatch {cat : Catalog} {ev : RecordEvidence} (h : Captured cat ev) :
    ev.isBlobPatch = false := by
  cases ev with
  | blobPatch k col ranges => exact h.elim
  | _ => rfl

/-- A report holds a value for every column of its table. -/
def Reported (cat : Catalog) (r : TouchRec) : Prop :=
  ∀ tab,cat.tableByID r.table = some tab → ∀ img,r.oldVals = some img ∨ r.newVals = some img →
    img.length = tab.columns.length

section Captured

variable {cat : Catalog} {tab : Table}

variable {cols : List Column} {img : Image} {k : RowKey} {touches : List TouchRec}

theorem map_column_assignColumnIDs (h : img.length = cols.length) :
    (assignColumnIDs cols img).map ColValue.column = cols.map Column.id := by
  induction cols generalizing img with
  | nil => simpa [assignColumnIDs] using h
  | cons c cols ih =>
    obtain ⟨v,img,rfl⟩ := exists_cons_of_length_eq_add_one h
    simp [assignColumnIDs,ih (Nat.succ.inj h)]

theorem map_column_counterDeltasInPlace {old new changed r : Image}
    (h : counterDeltasInPlace cols old new changed = some r) :
    r.map ColValue.column = changed.map ColValue.column := by
  induction cols generalizing old new changed with
  | nil => simp_all [counterDeltasInPlace]
  | cons c cols ih =>
    cases old with
    | nil => simp_all [counterDeltasInPlace]
    | cons o old =>
      cases new with
      | nil => simp_all [counterDeltasInPlace]
      | cons n new =>
        obtain ⟨mid,hmid,hrest⟩ := Option.bind_eq_some_iff.mp h
        rw [ih hrest]
        unfold counterDeltaAt at hmid
        split_ifs at hmid
        · rw [Option.some.inj hmid]
        · obtain ⟨δ,-,rfl⟩ := Option.map_eq_some_iff.mp hmid
          rw [map_map]
          refine map_congr_left fun v _ => ?_
          by_cases hv : v.column = c.id <;> simp [hv]

theorem encodeKey_table {cols : Image} (h : encodeKey tab cols = .ok k) :
    k.table = tab.id := by
  unfold encodeKey at h
  cases hpk : tab.encodePKFromSlice cols with
  | none => simp [hpk] at h
  | some pk =>
    rw [hpk] at h
    exact (Except.ok.inj h) ▸ rfl

def Aligned (cat : Catalog) (s : DedupSlot) : Prop :=
  ∀ tab,cat.tableByID s.table = some tab → ∀ img,s.t.firstOld = some img ∨ s.t.lastNew = some img →
    img.map ColValue.column = tab.columns.map Column.id

theorem aligned_assign {r : TouchRec} (hr : Reported cat r)
    (htab : cat.tableByID r.table = some tab)
    (h : r.oldVals.map (assignColumnIDs tab.columns) = some img ∨
      r.newVals.map (assignColumnIDs tab.columns) = some img) :
    img.map ColValue.column = tab.columns.map Column.id := by
  rcases h with h | h
  · obtain ⟨img',himg',rfl⟩ := Option.map_eq_some_iff.mp h
    exact map_column_assignColumnIDs (hr tab htab img' (.inl himg'))
  · obtain ⟨img',himg',rfl⟩ := Option.map_eq_some_iff.mp h
    exact map_column_assignColumnIDs (hr tab htab img' (.inr himg'))

theorem aligned_again {r : TouchRec} {s : DedupSlot} (hr : Reported cat r)
    (htab : cat.tableByID r.table = some tab) (hs : Aligned cat s) : Aligned cat (s.again tab r) := by
  unfold DedupSlot.again
  split_ifs with hslot
  · intro tab' htab' img himg
    obtain rfl : tab = tab' := by
      rw [hslot.2,htab] at htab'
      exact Option.some.inj htab'
    rcases himg with himg | himg
    · exact hs tab htab' img (.inl himg)
    · exact aligned_assign hr htab (.inr himg)
  · exact hs

theorem aligned_dedupTouch {slots : List DedupSlot} {r : TouchRec} (hr : Reported cat r)
    (hs : ∀ s ∈ slots,Aligned cat s) : ∀ s ∈ dedupTouch cat slots r,Aligned cat s := by
  unfold dedupTouch
  by_cases hdb : r.dbName ≠ "main"
  · rw [if_pos hdb]
    exact hs
  · rw [if_neg hdb]
    cases htab : cat.tableByID r.table with
    | none => exact hs
    | some tab =>
      intro s hmem
      split_ifs at hmem
      · obtain ⟨s',hs',rfl⟩ := mem_map.mp hmem
        exact aligned_again hr htab (hs s' hs')
      · rcases mem_concat.mp hmem with hmem | rfl
        · exact hs s hmem
        · intro tab' htab' img himg
          obtain rfl : tab = tab' := Option.mem_unique htab htab'
          exact aligned_assign hr htab himg

theorem aligned_foldl (hr : ∀ r ∈ touches,Reported cat r) :
    ∀ s ∈ touches.foldl (dedupTouch cat) [],Aligned cat s := by
  induction touches using reverseRecOn with
  | nil => exact by simp
  | append_singleton touches r ih =>
    rw [foldl_append]
    exact aligned_dedupTouch (hr r (by simp)) (ih fun r' hr' => hr r' (by simp [hr']))

theorem captured_evidenceForUpdate (hids : (tab.columns.map Column.id).Nodup) {old new : Image}
    {ev : RecordEvidence} (htab : cat.tableByID k.table = some tab)
    (h : evidenceForUpdate tab k old new = .ok (some ev)) : Captured cat ev := by
  have hvalue : ∀ v ∈ fullImageSlice tab.columns new,tab.isValueColumn v.column = true := by
    intro v hv
    obtain ⟨c,hc,hpk,hid⟩ := mem_fullImageSlice hv
    rw [hid]
    exact isValueColumn_of_mem hids hc hpk
  have hchanged : ∀ v ∈ changedColumnsSlice tab.columns old new,tab.isValueColumn v.column = true :=
    fun v hv => hvalue v (changedColumnsSlice_subset hv)
  unfold evidenceForUpdate at h
  dsimp only at h
  split_ifs at h with hnil hgroup hcounters
  · cases h
  · cases hr : counterDeltasInPlace tab.columns old new (changedColumnsSlice tab.columns old new) with
    | none => simp [hr] at h
    | some r =>
      rw [hr] at h
      cases h
      have hcols := map_column_counterDeltasInPlace hr
      refine ⟨tab,htab,?_,fun v hv => ?_⟩
      · intro hempty
        rw [hempty] at hcols
        exact hnil (map_eq_nil_iff.mp hcols.symm)
      · have hmem := mem_map_of_mem (f := ColValue.column) hv
        rw [hcols] at hmem
        obtain ⟨w,hw,hwv⟩ := mem_map.mp hmem
        rw [← hwv]
        exact hchanged w hw
  · cases h
    exact ⟨tab,htab,hnil,hchanged⟩
  · cases h
    obtain ⟨v,hv⟩ := exists_mem_of_ne_nil _ hnil
    exact ⟨tab,htab,ne_nil_of_mem (changedColumnsSlice_subset hv),hvalue⟩

theorem captured_evidenceForTouched (hids : (tab.columns.map Column.id).Nodup)
    (htab : cat.tableByID tab.id = some tab) {t : Touched} {ev : RecordEvidence}
    (himg : ∀ img,t.lastNew = some img → img.map ColValue.column = tab.columns.map Column.id)
    (h : evidenceForTouched tab t = .ok (some ev)) : Captured cat ev := by
  have hkey : ∀ {cols k},encodeKey tab cols = .ok k → cat.tableByID k.table = some tab := by
    intro cols k hk
    rw [encodeKey_table hk]
    exact htab
  unfold evidenceForTouched at h
  split at h
  · cases h
  · cases h
  · obtain ⟨k,hk,h⟩ := bind_eq_ok.mp h
    cases h
    exact ⟨tab,hkey hk,himg _ ‹_›⟩
  · cases h
  · obtain ⟨k,hk,h⟩ := bind_eq_ok.mp h
    cases h
    trivial
  · obtain ⟨k,-,h⟩ := bind_eq_ok.mp h
    obtain ⟨k',hk',h⟩ := bind_eq_ok.mp h
    cases h
    exact ⟨tab,hkey hk',himg _ ‹_›⟩
  · obtain ⟨k,-,h⟩ := bind_eq_ok.mp h
    obtain ⟨k',hk',h⟩ := bind_eq_ok.mp h
    split_ifs at h with hne
    · cases h
      exact ⟨tab,hkey hk',himg _ ‹_›⟩
    · exact captured_evidenceForUpdate hids (hkey hk') h
  · cases h

theorem captured_buildRecordEvidence (hcat : cat.OK) {evs : List RecordEvidence}
    (hr : ∀ r ∈ touches,Reported cat r) (h : buildRecordEvidence cat touches = .ok evs) :
    ∀ ev ∈ evs,Captured cat ev := by
  obtain ⟨oevs,hoevs,hevs⟩ := bind_eq_ok.mp h
  cases hevs
  intro ev hev
  obtain ⟨s,hs,hsev⟩ := (mapM_spec hoevs).2 (some ev) (reduceOption_mem_iff.mp hev)
  unfold slotEvidence at hsev
  cases htab : cat.tableByID s.table with
  | none => simp [htab] at hsev
  | some tab =>
    rw [htab] at hsev
    have hid : cat.tableByID tab.id = some tab := by rw [hcat.id_eq _ _ htab,htab]
    exact captured_evidenceForTouched (hcat.columns_nodup _ _ htab) hid
      (fun img himg => aligned_foldl hr s hs tab htab img (.inr himg)) hsev

end Captured

namespace Drain

open DrainBatch

variable {cat : Catalog} {d : Drain} {batch : List Commit}

def InOrder (d : Drain) : Prop :=
  Orderly (fun k => (d.cache.rowState k).cl) (history d.emitted).flatten

theorem InOrder.begin (h : d.InOrder) : d.beginBatch.InOrder d.cache := ⟨fun _ => rfl,h⟩

theorem rowState_publish_cl (d : Drain) (s : DrainBatch) (k : RowKey) :
    ((d.publish s).cache.rowState k).cl =
      ((s.scratch.clocks.filter fun u => u.key = k).foldl RowState.putUpdate
        (d.cache.rowState k)).cl := by
  rw [publish,Cache.rowState_foldl_publishCell,foldl_putCellUpdate_cl,
    Cache.rowState_foldl_publishRow]

theorem InOrder.publish {s : DrainBatch} (h : s.InOrder d.cache) : (d.publish s).InOrder := by
  have hcls : (fun k => ((d.publish s).cache.rowState k).cl) = s.scratch.cls := by
    funext k
    rw [rowState_publish_cl]
    exact h.1 k
  unfold InOrder
  rw [hcls]
  exact h.2

theorem captured_evidence (hcat : cat.OK) {cs : List (Stamp × List RecordEvidence)}
    (hr : ∀ c ∈ batch,∀ r ∈ c.touches,Reported cat r) (h : evidence cat batch = .ok cs) :
    ∀ p ∈ cs,∀ ev ∈ p.2,Captured cat ev := by
  intro p hp
  obtain ⟨c,hc,hcp⟩ := (mapM_spec h).2 p hp
  obtain ⟨evs,hevs,rfl⟩ := map_eq_ok.mp hcp
  exact captured_buildRecordEvidence hcat (hr c hc) hevs

theorem InOrder.apply (hcat : cat.OK) (h : d.InOrder)
    (hr : ∀ c ∈ batch,∀ r ∈ c.touches,Reported cat r) (hlive : LiveBatch cat d batch) :
    (d.apply cat batch).InOrder := by
  unfold Drain.apply
  unfold LiveBatch at hlive
  cases hev : evidence cat batch with
  | error e => exact h
  | ok cs =>
    rw [hev] at hlive
    have hcap := captured_evidence hcat hr hev
    exact InOrder.publish ((hlive.and_forall (Q := fun p => ∀ ev ∈ p.2,ev.isBlobPatch = false)
      fun p hp ev hev => (hcap p hp ev hev).isBlobPatch).invariant
      (fun _ _ hs hp => hs.commit hp.2 hp.1) h.begin)

theorem emitted_apply_extends (cat : Catalog) (d : Drain) (batch : List Commit) :
    d.emitted <+: (d.apply cat batch).emitted := by
  unfold Drain.apply
  cases evidence cat batch with
  | error e => exact prefix_rfl
  | ok cs => exact emitted_foldl_extends cat d.beginBatch cs

theorem emitted_run_extends (cat : Catalog) (d : Drain) (batches : List (List Commit)) :
    d.emitted <+: (batches.foldl (Drain.apply cat) d).emitted := by
  induction batches generalizing d with
  | nil => exact prefix_rfl
  | cons batch batches ih => exact (emitted_apply_extends cat d batch).trans (ih _)

theorem liveBatch_of_disciplined (hcat : cat.OK) (h : d.InOrder)
    (hr : ∀ c ∈ batch,∀ r ∈ c.touches,Reported cat r)
    (hd : Disciplined (history (d.apply cat batch).emitted)) : LiveBatch cat d batch := by
  unfold LiveBatch
  unfold Drain.apply at hd
  cases hev : evidence cat batch with
  | error e => trivial
  | ok cs =>
    rw [hev] at hd
    have hcap := captured_evidence hcat hr hev
    exact permitted_of_disciplined h.begin (fun p hp ev hev => (hcap p hp ev hev).isBlobPatch) hd

/-- A node that starts without clocks keeps the discipline exactly as long as every delete and every
primary-key change meets a live clock, the latter with a new key. -/
theorem disciplined_iff_liveRun (hcat : cat.OK) {batches : List (List Commit)} (h : d.InOrder)
    (hr : ∀ batch ∈ batches,∀ c ∈ batch,∀ r ∈ c.touches,Reported cat r) :
    Disciplined (history (batches.foldl (Drain.apply cat) d).emitted) ↔ LiveRun cat d batches := by
  constructor
  · intro hd
    induction batches generalizing d with
    | nil => trivial
    | cons batch batches ih =>
      have hb := hr batch (by simp)
      have hlive := liveBatch_of_disciplined hcat h hb
        (hd.of_initial ((emitted_run_extends cat (d.apply cat batch) batches).map Prod.snd))
      exact ⟨hlive,ih (h.apply hcat hb hlive) (fun b hb => hr b (by simp [hb])) hd⟩
  · intro hlive
    have : (batches.foldl (Drain.apply cat) d).InOrder :=
      (hlive.and_forall hr).invariant (fun _ _ hd hb => hd.apply hcat hb.2 hb.1) h
    exact this.disciplined

end Drain

end Syzy
