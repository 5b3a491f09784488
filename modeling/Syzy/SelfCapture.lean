import Syzy.Machine
import Syzy.SelfLogRun

/-!
Dot uniqueness and exactly-once capture over all runs of a node: what one action preserves, and what
every run with crashes and restarts therefore preserves.
-/

namespace Syzy

open List SelfNode

section Invariant

variable (cat : Catalog) (o : Origin) (journal : List Commit) (log : List SelfLogEntry)

def Snapshot.seqOver (snap : Snapshot) (store : Meta) (o : Origin) : Seq :=
  (snap.senderNextSeq.lookup o).getD (store.senderSeqs.getD o)

/-- A captured snapshot that waits to be written. -/
structure SnapshotOK (store : Meta) (c : Cache) (snap : Snapshot) : Prop where
  held : o ∈ snap.senderNextSeq → o ∈ c.dirtySenderSeqs ∧ snap.metaDirty = true
  marker : snap.metaDirty = true →
    (upTo cat journal (snap.markers.getD o)).length ≤ (snap.seqOver store o).toNat-1
  inside : snap.metaDirty = true → snap.markers.getD o ≤ journal.length
  covered : (snap.seqOver store o).toNat ≤ log.length+1

/-- A batch under way: with what it has still to append, the log ends where the batch does. -/
structure BatchOK (synced : ℕ) (c : Cache) (b : SelfBatch) : Prop where
  full : LogOK cat o journal (log++b.toAppend)
  offsets : upTo cat journal b.endOffset = (log++b.toAppend).map SelfLogEntry.endOffset
  inside : b.endOffset ≤ journal.length
  next : (c.senderNext o).toNat+b.toAlloc = (log++b.toAppend).length+1
  rest : b.toAppend.length ≤ b.toAlloc
  synced : b.toSync = false → b.toAppend = [] ∧ synced = log.length
  hand : ∀ cs ∈ b.toHand,∃ e ∈ log++b.toAppend,e.changeset = cs

/-- The node's own part of the cache: the counter is not past the log, the marker not past the
counter, and an unmarked counter is the stored one. -/
structure SeqsOK (store : Meta) (c : Cache) : Prop where
  self : c.self = o
  next : (c.senderNext o).toNat ≤ log.length+1
  marker : (upTo cat journal (c.snapshotMarker o)).length < (c.senderNext o).toNat
  inside : c.snapshotMarker o ≤ journal.length
  dirty : o ∈ c.dirtySenderSeqs → c.metaDirty = true
  clean : o ∉ c.dirtySenderSeqs → c.senderNextSeq.getD o = store.senderSeqs.getD o

structure ProcessOK (synced : ℕ) (store : Meta) (p : Process) : Prop where
  seqs : SeqsOK cat o journal log store p.cache
  covered : (store.senderSeqs.getD o).toNat ≤ log.length+1
  drained : p.drained ≤ journal.length
  idle : p.dead = false → p.batch = none →
    upTo cat journal p.drained = log.map SelfLogEntry.endOffset ∧
      (p.cache.senderNext o).toNat = log.length+1
  batch : ∀ b,p.batch = some b → BatchOK cat o journal log synced p.cache b
  snapshot : ∀ snap,p.snapshot = some snap → SnapshotOK cat o journal log store p.cache snap

end Invariant

section Steps

variable {cat : Catalog} {s : SelfNode} {p : Process}

theorem ProcessOK.fail {o : Origin} {journal : List Commit} {log : List SelfLogEntry} {synced : ℕ}
    {store : Meta} (h : ProcessOK cat o journal log synced store p) :
    ProcessOK cat o journal log synced store { p with batch := none,dead := true } where
  seqs := h.seqs
  covered := h.covered
  drained := h.drained
  idle := fun hd => absurd hd (by simp)
  batch := fun b hb => absurd hb (by simp)
  snapshot := h.snapshot

section Process

variable {o : Origin} {journal : List Commit} {log : List SelfLogEntry} {synced : ℕ} {store : Meta}

theorem ProcessOK.inbound {c : Cache} (h : ProcessOK cat o journal log synced store p)
    (hc : p.cache.SameSelf c) : ProcessOK cat o journal log synced store { p with cache := c } := by
  have hnext : c.senderNext o = p.cache.senderNext o := by
    unfold Cache.senderNext
    rw [hc.senderNextSeq]
  have hmarker : c.snapshotMarker o = p.cache.snapshotMarker o := by
    rw [← h.seqs.self]
    exact hc.marker
  refine ⟨⟨hc.self.trans h.seqs.self,?_,?_,?_,?_,?_⟩,h.covered,h.drained,?_,fun b hb => ?_,
    fun snap hsnap => ?_⟩
  · rw [hnext]
    exact h.seqs.next
  · rw [hmarker,hnext]
    exact h.seqs.marker
  · rw [hmarker]
    exact h.seqs.inside
  · rw [hc.dirtySenderSeqs]
    exact fun hmem => hc.metaDirty (h.seqs.dirty hmem)
  · rw [hc.dirtySenderSeqs,hc.senderNextSeq]
    exact h.seqs.clean
  · show _ → _ → _ ∧ (c.senderNext o).toNat = _
    rw [hnext]
    exact h.idle
  · have hbatch := h.batch b hb
    refine ⟨hbatch.full,hbatch.offsets,hbatch.inside,?_,hbatch.rest,hbatch.synced,hbatch.hand⟩
    rw [hnext]
    exact hbatch.next
  · have hs := h.snapshot snap hsnap
    refine ⟨?_,hs.marker,hs.inside,hs.covered⟩
    rw [hc.dirtySenderSeqs]
    exact hs.held

theorem ProcessOK.capture (h : ProcessOK cat o journal log synced store p) :
    ProcessOK cat o journal log synced store
      { p with snapshot := some p.cache.snapshotIncremental } := by
  refine ⟨h.seqs,h.covered,h.drained,h.idle,h.batch,fun snap hsnap => ?_⟩
  cases hsnap
  have hlookup : p.cache.snapshotIncremental.senderNextSeq.lookup o =
      if o ∈ p.cache.dirtySenderSeqs then some (p.cache.senderNextSeq.getD o) else none :=
    FinMap.lookup_ofFinset ..
  have hseq : p.cache.snapshotIncremental.seqOver store o = p.cache.senderNextSeq.getD o := by
    unfold Snapshot.seqOver
    rw [hlookup]
    by_cases hmem : o ∈ p.cache.dirtySenderSeqs
    · rw [if_pos hmem]
      rfl
    · rw [if_neg hmem]
      exact (h.seqs.clean hmem).symm
  have hnext := Cache.toNat_senderNext p.cache o
  have hcount := h.seqs.marker
  have hle := h.seqs.next
  refine ⟨fun hmem => ?_,fun _ => ?_,fun _ => h.seqs.inside,?_⟩
  · have hdirty : o ∈ p.cache.dirtySenderSeqs := by
      by_contra hnot
      rw [if_neg hnot,Finmap.lookup_eq_none] at hlookup
      exact hlookup hmem
    exact ⟨hdirty,h.seqs.dirty hdirty⟩
  · rw [hseq]
    show (upTo cat journal (p.cache.snapshotMarker o)).length ≤ _
    omega
  · rw [hseq]
    omega

end Process

variable {b : SelfBatch} {e : SelfLogEntry}

theorem shipsCommit_of_parsed {journal : List Commit} {d n : ℕ} {c : Commit} {off : ℕ}
    {evs : List RecordEvidence} {b : SinkBatch}
    (hc : (c,off) ∈ ((journal.drop d).take n).zipIdx (d+1)) (hoff : e.endOffset = off)
    (hstamp : e.changeset.stamp = c.stamp) (hevs : buildRecordEvidence cat c.touches = .ok evs)
    (hrecords : e.changeset.records =
      (SinkBatch.buildRecords cat c.stamp { b with records := [] } evs).records) :
    ShipsCommit cat journal e := by
  rw [mem_zipIdx_iff_le_and_getElem?_sub] at hc
  obtain ⟨k,rfl⟩ := Nat.exists_eq_add_of_le hc.1
  have hk : d+1+k-(d+1) = k := by omega
  have hget := hc.2
  rw [hk] at hget
  have hlt : k < n := by
    have := (List.getElem?_eq_some_iff.mp hget).1
    rw [length_take] at this
    omega
  rw [getElem?_take_of_lt hlt,getElem?_drop] at hget
  exact ⟨d+k,c,evs,b,hoff.trans (Nat.add_right_comm d 1 k),hget,hstamp,hevs,hrecords⟩

theorem ProcessOK.collect {o : Origin} {journal : List Commit} {log : List SelfLogEntry} {synced : ℕ}
    {store : Meta} (h : ProcessOK cat o journal log synced store p) (hlog : LogOK cat o journal log)
    (n : ℕ) (view : RowKey → RowState) (schemaSeq : ℕ) :
    ProcessOK cat o journal log synced store (p.collect cat o journal n view schemaSeq) := by
  unfold Process.collect
  split_ifs with hbusy
  · exact h
  · rw [not_or,Bool.not_eq_true,Bool.not_eq_true,Option.isSome_eq_false_iff,Option.isNone_iff_eq_none]
      at hbusy
    cases hparse : parseBatch cat journal p.drained n with
    | error err =>
      exact ⟨h.seqs,h.covered,h.drained,fun hd => absurd hd (by simp),fun b hb => absurd (hbusy.2.symm.trans hb) (by simp),
        h.snapshot⟩
    | ok parsed =>
      dsimp only
      obtain ⟨hlen,hoff,hsrc⟩ := parsed_spec hparse
      rw [length_zipIdx] at hlen
      obtain ⟨hidle,hnext⟩ := h.idle hbusy.1 hbusy.2
      have hbuilt := built_buildChangesets cat o schemaSeq parsed (.new view) (p.cache.senderNext o)
      have hstart : p.cache.senderNext o = UInt64.ofNat (log.length+1) := by
        rw [← hnext,UInt64.ofNat_toNat]
      have hinside : p.drained+parsed.length ≤ journal.length := by
        have hd : (p.drained : ℕ) ≤ journal.length := h.drained
        have htake : ((journal.drop p.drained).take n).length ≤ journal.length-p.drained := by
          rw [length_take,length_drop]
          exact Nat.min_le_right _ _
        exact (Nat.add_le_add_left (hlen.le.trans htake) _).trans (Nat.add_sub_cancel' hd).le
      have hup : upTo cat journal (p.drained+parsed.length) = log.map SelfLogEntry.endOffset++
          (buildChangesets cat o schemaSeq (.new view) (p.cache.senderNext o) parsed).1.map
            SelfLogEntry.endOffset := by
        rw [hlen,upTo_take_drop cat p.drained n h.drained,hidle,hbuilt.offsets,hoff]
        rfl
      split_ifs with hnil
      · rw [hnil,map_nil,append_nil] at hup
        exact ⟨h.seqs,h.covered,hinside,fun _ _ => ⟨hup,hnext⟩,
          fun b hb => absurd (hbusy.2.symm.trans hb) (by simp),h.snapshot⟩
      · refine ⟨h.seqs,h.covered,h.drained,fun _ hb => absurd hb (by simp),fun b hb => ?_,h.snapshot⟩
        cases hb
        refine ⟨⟨?_,fun i e he => ?_,fun e he => ?_⟩,?_,hinside,?_,le_rfl,fun hs => absurd hs (by simp),
          fun cs hcs => ?_⟩
        · rw [map_append,← hup]
          exact upTo_initial hinside
        · rw [getElem?_append] at he
          split_ifs at he with hi
          · exact hlog.dots i e he
          · rw [hbuilt.dots _ e he,hstart,← UInt64.ofNat_add]
            congr 2
            omega
        · rcases mem_append.mp he with he | he
          · exact hlog.ships e he
          · obtain ⟨x,hx,b,hoffset,hstamp,hrecords⟩ := hbuilt.records e he
            obtain ⟨c,hc,hcstamp,hevs⟩ := hsrc x hx
            exact shipsCommit_of_parsed hc hoffset (hstamp.trans hcstamp) hevs (hcstamp ▸ hrecords)
        · rw [hup,map_append]
        · show _+(buildChangesets cat o schemaSeq (.new view) (p.cache.senderNext o) parsed).1.length =
            (log++(buildChangesets cat o schemaSeq (.new view) (p.cache.senderNext o) parsed).1).length+1
          rw [hnext,length_append]
          omega
        · obtain ⟨e,he,hcs⟩ := mem_map.mp hcs
          exact ⟨e,mem_append_right _ he,hcs⟩

theorem Cache.SameFrontier.sameSelf {c c' : Cache} (h : c.SameFrontier c') : c.SameSelf c' where
  self := h.self
  senderNextSeq := h.senderNextSeq
  dirtySenderSeqs := h.dirtySenderSeqs
  marker := by
    unfold Cache.snapshotMarker
    rw [h.markers]
  metaDirty := fun hm => h.metaDirty.trans hm

section Alloc

variable {o : Origin} {journal : List Commit} {log : List SelfLogEntry} {synced : ℕ} {store : Meta}
  {b : SelfBatch} {n : ℕ}

theorem Cache.toNat_senderNext_allocSelfSeq (c : Cache) (o : Origin)
    (hfew : (c.senderNext o).toNat+1 < 2^64) :
    (((c.allocSelfSeq o).2).senderNext o).toNat = (c.senderNext o).toNat+1 := by
  have hnext : FinMap.getD (c.allocSelfSeq o).2.senderNextSeq o = c.senderNext o+1 := by
    simp [Cache.allocSelfSeq,Cache.senderNext,FinMap.getD_insert]
  have hsucc : (c.senderNext o+1).toNat = (c.senderNext o).toNat+1 := by
    rw [UInt64.toNat_add,UInt64.toNat_one,Nat.mod_eq_of_lt hfew]
  rw [Cache.toNat_senderNext,hnext,hsucc]
  omega

variable (h : ProcessOK cat o journal log synced store p)
  (hb : p.batch = some b)
  (happend : b.toAppend = [])
include h hb happend

theorem ProcessOK.alloc (halloc : b.toAlloc = n+1) (hfew : journal.length+1 < 2^64)
    (hlog : log.length ≤ journal.length) :
    ProcessOK cat o journal log synced store { p with
      cache := (p.cache.allocSelfSeq o).2
      batch := some { b with toPublish := ([],[]),toAlloc := n } } := by
  have hbatch := h.batch b hb
  have hcount := hbatch.next
  rw [happend,append_nil,halloc] at hcount
  have hsucc := p.cache.toNat_senderNext_allocSelfSeq o (by omega)
  have hmarker : (p.cache.allocSelfSeq o).2.snapshotMarker o = p.cache.snapshotMarker o := rfl
  have hmore := h.seqs.marker
  refine ⟨⟨h.seqs.self,?_,?_,h.seqs.inside,fun _ => rfl,fun hmem => ?_⟩,h.covered,h.drained,
    fun _ hnone => absurd hnone (by simp),fun b' hb' => ?_,fun snap hsnap => ?_⟩
  · rw [hsucc]
    omega
  · rw [hmarker,hsucc]
    omega
  · exact absurd (Finset.mem_insert_self _ _) hmem
  · cases hb'
    refine ⟨hbatch.full,hbatch.offsets,hbatch.inside,?_,?_,hbatch.synced,hbatch.hand⟩
    · show ((p.cache.allocSelfSeq o).2.senderNext o).toNat+n = (log++b.toAppend).length+1
      rw [hsucc,happend,append_nil]
      omega
    · show b.toAppend.length ≤ n
      rw [happend]
      exact Nat.zero_le _
  · have hs := h.snapshot snap hsnap
    exact ⟨fun hmem => ⟨Finset.mem_insert_of_mem (hs.held hmem).1,(hs.held hmem).2⟩,hs.marker,hs.inside,
      hs.covered⟩

theorem ProcessOK.finish (halloc : b.toAlloc = 0) :
    ProcessOK cat o journal log synced store { p with
      cache := p.cache.setSnapshotMarker o b.endOffset
      drained := b.endOffset
      batch := none } := by
  have hbatch := h.batch b hb
  have hcount := hbatch.next
  have hup := hbatch.offsets
  rw [happend,append_nil] at hcount hup
  rw [halloc,Nat.add_zero] at hcount
  have hmarker : (p.cache.setSnapshotMarker o b.endOffset).snapshotMarker o = b.endOffset := by
    simp [Cache.snapshotMarker,Cache.setSnapshotMarker,FinMap.getD_insert]
  have hnext : (p.cache.setSnapshotMarker o b.endOffset).senderNext o = p.cache.senderNext o := rfl
  refine ⟨⟨h.seqs.self,h.seqs.next,?_,?_,fun _ => rfl,h.seqs.clean⟩,h.covered,hbatch.inside,
    fun _ _ => ⟨hup,hcount⟩,fun b' hb' => absurd hb' (by simp),fun snap hsnap => ?_⟩
  · rw [hmarker,hnext,hup,hcount,length_map]
    omega
  · rw [hmarker]
    exact hbatch.inside
  · have hs := h.snapshot snap hsnap
    exact ⟨hs.held,hs.marker,hs.inside,hs.covered⟩

end Alloc

structure SelfNode.OK (cat : Catalog) (s : SelfNode) : Prop where
  log : LogOK cat s.self s.journal s.log
  synced : s.synced ≤ s.log.length
  handed : ∀ cs ∈ s.handed,∃ i e,i < s.synced ∧ s.log[i]? = some e ∧ e.changeset = cs
  store : StoreOK cat s.self s.journal s.store
  process : ∀ p,s.process = some p → ProcessOK cat s.self s.journal s.log s.synced s.store p

theorem SelfNode.new_ok (cat : Catalog) (o : Origin) : (new o).OK cat where
  log := ⟨ nil_prefix,fun i e h => absurd h (by simp [new]),
    fun e h => absurd h not_mem_nil⟩
  synced := le_rfl
  handed := fun cs h => absurd h not_mem_nil
  store := ⟨by simp [new,upTo,offsets,offsetsFrom],by simp [new,Meta.empty]⟩
  process := fun p h => absurd h (by simp [new])

variable (h : s.OK cat)
include h

theorem SelfNode.OK.commit (c : Commit) :
    OK cat { s with journal := s.journal++[c] } where
  log := h.log.concat
  synced := h.synced
  handed := h.handed
  store := by
    refine ⟨?_,h.store.inside.trans (by simp)⟩
    rw [upTo_append _ h.store.inside]
    exact h.store.marker
  process := by
    intro p hp
    have hproc := h.process p hp
    have hlen : s.journal.length ≤ (s.journal++[c]).length := by simp
    refine ⟨⟨hproc.seqs.self,hproc.seqs.next,?_,hproc.seqs.inside.trans hlen,hproc.seqs.dirty,
      hproc.seqs.clean⟩,hproc.covered,hproc.drained.trans hlen,fun hd hb => ?_,fun b hb => ?_,
      fun snap hsnap => ?_⟩
    · rw [upTo_append _ hproc.seqs.inside]
      exact hproc.seqs.marker
    · rw [upTo_append _ hproc.drained]
      exact hproc.idle hd hb
    · have hbatch := hproc.batch b hb
      refine ⟨hbatch.full.concat,?_,hbatch.inside.trans hlen,hbatch.next,hbatch.rest,hbatch.synced,
        hbatch.hand⟩
      rw [upTo_append _ hbatch.inside]
      exact hbatch.offsets
    · have hs := hproc.snapshot snap hsnap
      refine ⟨hs.held,fun hm => ?_,fun hm => (hs.inside hm).trans hlen,hs.covered⟩
      rw [upTo_append _ (hs.inside hm)]
      exact hs.marker hm

theorem SelfNode.OK.setProcess (hp : ProcessOK cat s.self s.journal s.log s.synced s.store p) :
    OK cat { s with process := some p } where
  log := h.log
  synced := h.synced
  handed := h.handed
  store := h.store
  process := fun _ hq => Option.some.inj hq ▸ hp

theorem SelfNode.OK.crash : OK cat { s with process := none } where
  log := h.log
  synced := h.synced
  handed := h.handed
  store := h.store
  process := fun q hq => absurd hq (by simp)

theorem SelfNode.OK.hostCrash (kept : ℕ) : OK cat { s with
    log := s.survivors kept
    synced := (s.survivors kept).length
    process := none } where
  log := h.log.of_initial ( take_prefix _ _)
  synced := le_rfl
  handed := by
    intro cs hcs
    obtain ⟨i,e,hi,hget,he⟩ := h.handed cs hcs
    have hlen : i < s.log.length := (List.getElem?_eq_some_iff.mp hget).1
    refine ⟨i,e,?_,?_,he⟩
    · simp only [survivors,length_take]
      omega
    · simp only [survivors]
      rw [getElem?_take_of_lt (by omega)]
      exact hget
  store := h.store
  process := fun q hq => absurd hq (by simp)

theorem SelfNode.OK.restart (hfew : s.journal.length+1 < 2^64) : (s.restart cat).OK cat := by
  have hspec := recoverSelf_spec h.log h.store hfew
  unfold SelfNode.restart
  split_ifs at hspec with hcov
  · obtain ⟨c,hc,hend⟩ := hspec
    rw [hc]
    refine h.setProcess ⟨⟨hend.self,hend.next.le,?_,hend.inside,hend.dirty,hend.clean⟩,hcov,hend.inside,
      fun _ _ => ⟨hend.marker,hend.next⟩,fun b hb => absurd hb (by simp),
      fun snap hsnap => absurd hsnap (by simp)⟩
    rw [hend.marker,hend.next,length_map]
    omega
  · obtain ⟨err,herr⟩ := hspec
    rw [herr]
    exact h

section

variable (hp : s.process = some p)
include hp

/-- A written snapshot counts no more than the log holds, and what is no longer marked is stored. -/
theorem SelfNode.OK.writeSnapshot {snap : Snapshot} (hsnap : p.snapshot = some snap) :
    (s.writeSnapshot p snap).OK cat := by
  have hproc := h.process p hp
  have hs := hproc.snapshot snap hsnap
  have hseq : FinMap.getD (Syzy.writeSnapshot s.store snap).senderSeqs s.self =
      snap.seqOver s.store s.self := by
    unfold Syzy.writeSnapshot Snapshot.seqOver
    by_cases hm : snap.metaDirty = true
    · simp only [hm,if_true,FinMap.getD,FinMap.lookup_union_eq]
      cases snap.senderNextSeq.lookup s.self <;> rfl
    · have hnone : snap.senderNextSeq.lookup s.self = none :=
        Finmap.lookup_eq_none.mpr fun hmem => hm (hs.held hmem).2
      simp [hm,hnone]
  have hmarker : snap.metaDirty = true →
      FinMap.getD (Syzy.writeSnapshot s.store snap).snapshotMarkers s.self =
        snap.markers.getD s.self := by
    intro hm
    simp [Syzy.writeSnapshot,hm]
  have hmarker' : snap.metaDirty = false →
      FinMap.getD (Syzy.writeSnapshot s.store snap).snapshotMarkers s.self =
        s.store.snapshotMarkers.getD s.self ∧ snap.seqOver s.store s.self =
        s.store.senderSeqs.getD s.self := by
    intro hm
    have hnone : snap.senderNextSeq.lookup s.self = none :=
      Finmap.lookup_eq_none.mpr fun hmem => absurd (hs.held hmem).2 (by simp [hm])
    exact ⟨by simp [Syzy.writeSnapshot,hm],by simp [Snapshot.seqOver,hnone]⟩
  have hstore : StoreOK cat s.self s.journal (Syzy.writeSnapshot s.store snap) := by
    constructor
    · rw [hseq]
      cases hm : snap.metaDirty with
      | true =>
        rw [hmarker hm]
        exact hs.marker hm
      | false =>
        rw [(hmarker' hm).1,(hmarker' hm).2]
        exact h.store.marker
    · cases hm : snap.metaDirty with
      | true =>
        rw [hmarker hm]
        exact hs.inside hm
      | false =>
        rw [(hmarker' hm).1]
        exact h.store.inside
  have hdirty : ∀ {o},o ∈ (p.cache.clearSnapshotDirty snap).dirtySenderSeqs ↔
      o ∈ p.cache.dirtySenderSeqs ∧
        snap.senderNextSeq.lookup o ≠ some (p.cache.senderNextSeq.getD o) := by
    intro o
    exact Finset.mem_filter
  refine ⟨h.log,h.synced,h.handed,hstore,fun q hq => ?_⟩
  cases hq
  refine ⟨⟨hproc.seqs.self,hproc.seqs.next,hproc.seqs.marker,hproc.seqs.inside,fun hmem => ?_,
    fun hmem => ?_⟩,?_,hproc.drained,hproc.idle,fun b hb => ?_,fun snap' hsnap' => absurd hsnap' (by simp)⟩
  · have hne : (p.cache.clearSnapshotDirty snap).dirtySenderSeqs ≠ ∅ := Finset.ne_empty_of_mem hmem
    have hmeta := hproc.seqs.dirty (hdirty.mp hmem).1
    show (p.cache.metaDirty && _) = true
    rw [hmeta,Bool.true_and,Bool.not_eq_true',decide_eq_false_iff_not]
    exact fun hall => hne hall.2.2.1
  · show p.cache.senderNextSeq.getD s.self =
      FinMap.getD (Syzy.writeSnapshot s.store snap).senderSeqs s.self
    rw [hseq]
    unfold Snapshot.seqOver
    by_cases hold : s.self ∈ p.cache.dirtySenderSeqs
    · have hval : snap.senderNextSeq.lookup s.self = some (p.cache.senderNextSeq.getD s.self) := by
        by_contra hne
        exact hmem (hdirty.mpr ⟨hold,hne⟩)
      rw [hval]
      rfl
    · have hnone : snap.senderNextSeq.lookup s.self = none :=
        Finmap.lookup_eq_none.mpr fun hin => hold (hs.held hin).1
      rw [hnone]
      exact hproc.seqs.clean hold
  · show (FinMap.getD (Syzy.writeSnapshot s.store snap).senderSeqs s.self).toNat ≤ _
    rw [hseq]
    exact hs.covered
  · have hbatch := hproc.batch b hb
    exact ⟨hbatch.full,hbatch.offsets,hbatch.inside,hbatch.next,hbatch.rest,hbatch.synced,hbatch.hand⟩

variable (hb : p.batch = some b)
include hb

theorem SelfNode.OK.append {rest : List SelfLogEntry} (happend : b.toAppend = e::rest) :
    OK cat { s with
      log := s.log++[e]
      process := some { p with batch := some { b with toAppend := rest } } } := by
  have hproc := h.process p hp
  have hbatch := hproc.batch b hb
  have hall : s.log++[e]++rest = s.log++b.toAppend := by rw [happend,append_assoc]; rfl
  have hgrow : s.log.length+1 ≤ (s.log++[e]).length+1 := by simp
  refine ⟨?_,h.synced.trans (by simp),fun cs hcs => ?_,h.store,fun q hq => ?_⟩
  · refine hbatch.full.of_initial ?_
    rw [← hall]
    exact prefix_append _ _
  · obtain ⟨i,e',hi,hget,he'⟩ := h.handed cs hcs
    refine ⟨i,e',hi,?_,he'⟩
    rw [getElem?_append_left (List.getElem?_eq_some_iff.mp hget).1]
    exact hget
  · cases hq
    have hseqs := hproc.seqs
    refine ⟨⟨hseqs.self,hseqs.next.trans hgrow,hseqs.marker,hseqs.inside,hseqs.dirty,hseqs.clean⟩,
      hproc.covered.trans hgrow,hproc.drained,fun _ hnone => absurd hnone (by simp),fun b' hb' => ?_,
      fun snap hsnap => ?_⟩
    · cases hb'
      refine ⟨?_,?_,hbatch.inside,?_,?_,fun hs => ?_,?_⟩
      · rw [hall]
        exact hbatch.full
      · rw [hall]
        exact hbatch.offsets
      · rw [hall]
        exact hbatch.next
      · have := hbatch.rest
        rw [happend,length_cons] at this
        exact (Nat.le_succ _).trans this
      · have := (hbatch.synced hs).1
        rw [happend] at this
        exact absurd this (by simp)
      · rw [hall]
        exact hbatch.hand
    · have hs := hproc.snapshot snap hsnap
      exact ⟨hs.held,hs.marker,hs.inside,hs.covered.trans hgrow⟩

theorem SelfNode.OK.sync (happend : b.toAppend = []) :
    OK cat { s with
      synced := s.log.length
      process := some { p with batch := some { b with toSync := false } } } := by
  have hproc := h.process p hp
  have hbatch := hproc.batch b hb
  refine ⟨h.log,le_rfl,fun cs hcs => ?_,h.store,fun q hq => ?_⟩
  · obtain ⟨i,e,hi,hget,he⟩ := h.handed cs hcs
    exact ⟨i,e,hi.trans_le h.synced,hget,he⟩
  · cases hq
    refine ⟨hproc.seqs,hproc.covered,hproc.drained,fun _ hnone => absurd hnone (by simp),
      fun b' hb' => ?_,hproc.snapshot⟩
    cases hb'
    exact ⟨hbatch.full,hbatch.offsets,hbatch.inside,hbatch.next,hbatch.rest,fun _ => ⟨happend,rfl⟩,
      hbatch.hand⟩

theorem SelfNode.OK.hand {cs : Changeset} {rest : List Changeset} (hsync : b.toSync = false)
    (hhand : b.toHand = cs::rest) :
    OK cat { s with
      handed := s.handed++[cs]
      process := some { p with batch := some { b with toHand := rest } } } := by
  have hproc := h.process p hp
  have hbatch := hproc.batch b hb
  obtain ⟨happend,hsynced⟩ := hbatch.synced hsync
  refine ⟨h.log,h.synced,fun cs' hcs' => ?_,h.store,fun q hq => ?_⟩
  · rcases mem_append.mp hcs' with hold | hnew
    · exact h.handed cs' hold
    · obtain ⟨e,he,hecs⟩ := hbatch.hand cs (by simp [hhand])
      rw [happend,append_nil] at he
      obtain ⟨i,hi⟩ := getElem?_of_mem he
      refine ⟨i,e,?_,hi,hecs.trans (mem_singleton.mp hnew).symm⟩
      rw [hsynced]
      exact (List.getElem?_eq_some_iff.mp hi).1
  · cases hq
    refine ⟨hproc.seqs,hproc.covered,hproc.drained,fun _ hnone => absurd hnone (by simp),
      fun b' hb' => ?_,hproc.snapshot⟩
    cases hb'
    exact ⟨hbatch.full,hbatch.offsets,hbatch.inside,hbatch.next,hbatch.rest,hbatch.synced,
      fun cs' hcs' => hbatch.hand cs' (by simp [hhand,hcs'])⟩

theorem SelfNode.OK.tickBatch (hfew : s.journal.length+1 < 2^64) : (s.tickBatch p b).OK cat := by
  obtain ⟨toAppend,toSync,toHand,toPublish,toAlloc,endOffset⟩ := b
  cases toAppend with
  | cons e rest => exact h.append hp hb rfl
  | nil =>
    cases toSync with
    | true => exact h.sync hp hb rfl
    | false =>
      cases toHand with
      | cons cs rest => exact h.hand hp hb rfl rfl
      | nil =>
        cases toAlloc with
        | succ n =>
          have hsame := (Cache.SameFrontier.foldl Cache.publishRow_sameFrontier toPublish.1 p.cache).trans
            (Cache.SameFrontier.foldl Cache.publishCell_sameFrontier toPublish.2 _)
          exact h.setProcess (((h.process p hp).inbound hsame.sameSelf).alloc hb rfl rfl hfew
            h.log.length_le)
        | zero => exact h.setProcess ((h.process p hp).finish hb rfl rfl)

end

theorem SelfNode.OK.step (hfew : s.journal.length+1 < 2^64) (a : SelfStep) :
    (s.step cat a).OK cat := by
  cases hp : s.process with
  | none =>
    cases a with
    | commit c => exact h.commit c
    | crash => exact h.crash
    | hostCrash kept => exact h.hostCrash kept
    | restart =>
      simp only [SelfNode.step]
      split_ifs
      · exact h
      · exact h.restart hfew
    | _ => simpa only [SelfNode.step,hp] using h
  | some p =>
    have hproc := h.process p hp
    cases a with
    | commit c => exact h.commit c
    | crash => exact h.crash
    | hostCrash kept => exact h.hostCrash kept
    | restart => simpa [SelfNode.step,hp] using h
    | collect n view schemaSeq =>
      simp only [SelfNode.step,hp]
      exact h.setProcess (hproc.collect h.log n view schemaSeq)
    | tick =>
      simp only [SelfNode.step,hp]
      cases hb : p.batch with
      | none => exact h
      | some b => exact h.tickBatch hp hb hfew
    | fail =>
      simp only [SelfNode.step,hp]
      exact h.setProcess hproc.fail
    | inbound c =>
      simp only [SelfNode.step,hp]
      split_ifs with hc
      · exact h.setProcess (hproc.inbound hc)
      · exact h
    | capture =>
      simp only [SelfNode.step,hp]
      exact h.setProcess hproc.capture
    | write =>
      simp only [SelfNode.step,hp]
      cases hsnap : p.snapshot with
      | none => exact h
      | some snap => exact h.writeSnapshot hp hsnap

end Steps

end Syzy
