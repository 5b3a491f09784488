import Syzy.Frontier
import Syzy.Replica

/-!
The bookkeeping of a replica: what its cache, its store, a pass under way, the ledger of persisted
heads and the mirror journals say about the changesets that were accepted. Every step keeps it.
-/

namespace Syzy

open List

def Covers (f : FinMap Origin FrontierEntry) (d : Dot) : Prop :=
  d.seq ≤ (FinMap.getD f d.origin).lastSeq

def Counts (f : FinMap Origin FrontierEntry) (g : FinMap Origin SeqSet) (d : Dot) : Prop :=
  Covers f d ∨ d.seq ∈ g.getD d.origin

/-- Two caches with the same frontiers and the same persisted heads. -/
structure Cache.SameHeads (c c' : Cache) : Prop where
  frontier : c'.frontier = c.frontier
  gaps : c'.appliedGaps = c.appliedGaps
  forgotten : c'.forgottenOrigins = c.forgottenOrigins
  persisted : c'.persistedFrontier = c.persistedFrontier
  prevPersisted : c'.prevPersistedFrontier = c.prevPersistedFrontier
  clean : c'.metaDirty = false → c.metaDirty = false

theorem Cache.SameFrontier.sameHeads {c c' : Cache} (h : c.SameFrontier c') : c.SameHeads c' :=
  ⟨h.frontier,h.gaps,h.forgotten,h.persisted,h.prevPersisted,fun hm => h.metaDirty ▸ hm⟩

namespace Replica

/-- The changeset has not been left behind by an eviction. -/
def Fresh (s : Replica) (d : Dot) : Prop := d.seq ≠ 0 ∧ d ∉ s.stale

/-- The frontiers of the cache, the store and the pass between them count accepted changesets only,
and what one of them covers is covered by those it feeds. -/
structure Books (s : Replica) : Prop where
  cache : ∀ d,d.seq ≠ 0 → Counts s.cache.frontier s.cache.appliedGaps d → d ∈ s.accepted
  store : ∀ d,d.seq ≠ 0 → Counts s.store.frontier s.store.appliedGaps d → d ∈ s.accepted
  pass : ∀ p,s.pass = some p → ∀ d,d.seq ≠ 0 → Counts p.snap.frontier p.snap.appliedGaps d →
    d ∈ s.accepted
  ledger : ∀ d,d.seq ≠ 0 → d.seq ≤ s.cache.persistedFrontier.getD d.origin → d ∈ s.accepted
  journals : ∀ o,∀ cs ∈ s.mirror.getD o,cs.dot ∈ s.accepted
  marked : ∀ f,s.inFlight = some f → f.marked = true → f.changeset.dot ∈ s.accepted
  prev_le : ∀ o,s.cache.prevPersistedFrontier.getD o ≤ s.cache.persistedFrontier.getD o
  persisted : ∀ d,s.Fresh d → d.seq ≤ s.cache.persistedFrontier.getD d.origin →
    Covers s.store.frontier d
  loaded : ∀ d,s.Fresh d → Covers s.store.frontier d → Covers s.cache.frontier d
  captured : ∀ p,s.pass = some p → ∀ d,s.Fresh d → Covers s.store.frontier d →
    Covers p.snap.frontier d
  kept : ∀ p,s.pass = some p → ∀ d,s.Fresh d → Covers p.snap.frontier d → Covers s.cache.frontier d
  written : ∀ p,s.pass = some p → p.written = true ∨ p.snap.metaDirty = false →
    ∀ d,s.Fresh d → Covers p.snap.frontier d → Covers s.store.frontier d
  clean : s.cache.metaDirty = false → ∀ d,s.Fresh d → Covers s.cache.frontier d →
    Covers s.store.frontier d
  forgotten : ∀ o ∈ s.cache.forgottenOrigins,o ∉ s.cache.frontier
  passForgotten : ∀ p,s.pass = some p → ∀ o ∈ p.snap.forgotten,o ∉ p.snap.frontier

section Books

variable {cfg : Config} {s s' : Replica} {cs : Changeset} {d : Dot}

theorem not_covers_empty (hd : d.seq ≠ 0) : ¬Covers ∅ d := by
  intro h
  refine hd (le_antisymm h ?_)
  simp [UInt64.le_iff_toNat_le]

theorem not_counts_empty (hd : d.seq ≠ 0) : ¬Counts ∅ ∅ d := by
  rintro (h | h)
  · exact not_covers_empty hd h
  · rw [FinMap.getD_empty] at h
    exact SeqSet.not_mem_empty h

theorem seq_not_le_zero (hd : d.seq ≠ 0) : ¬d.seq ≤ 0 := fun h => hd (le_antisymm h (by
  simp [UInt64.le_iff_toNat_le]))

theorem Books.new (me : Origin) : (Replica.new me).Books where
  cache d hd h := absurd h (not_counts_empty hd)
  store d hd h := absurd h (not_counts_empty hd)
  pass p hp := by simp [Replica.new] at hp
  ledger d hd h := by
    have hz : FinMap.getD (Replica.new me).cache.persistedFrontier d.origin = 0 :=
      FinMap.getD_empty _
    rw [hz] at h
    exact absurd h (seq_not_le_zero hd)
  journals o cs hcs := by
    have hnil : FinMap.getD (Replica.new me).mirror o = [] := FinMap.getD_empty _
    simp [hnil] at hcs
  marked f hf := by simp [Replica.new] at hf
  prev_le o := le_refl _
  persisted d hd h := by
    have hz : FinMap.getD (Replica.new me).cache.persistedFrontier d.origin = 0 :=
      FinMap.getD_empty _
    rw [hz] at h
    exact absurd h (seq_not_le_zero hd.1)
  loaded d hd h := absurd h (not_covers_empty hd.1)
  captured p hp := by simp [Replica.new] at hp
  kept p hp := by simp [Replica.new] at hp
  written p hp := by simp [Replica.new] at hp
  clean _ d hd h := absurd h (not_covers_empty hd.1)
  forgotten o ho := by simp [Replica.new,Node.new,Cache.new] at ho
  passForgotten p hp := by simp [Replica.new] at hp

theorem Books.congr (h : s.Books) (hc : s.cache.SameHeads s'.cache) (hstore : s'.store = s.store)
    (hpass : s'.pass = s.pass) (hacc : s'.accepted = s.accepted) (hstale : s'.stale = s.stale)
    (hmirror : ∀ o,∀ cs ∈ s'.mirror.getD o,cs.dot ∈ s.accepted)
    (hmarked : ∀ f,s'.inFlight = some f → f.marked = true → f.changeset.dot ∈ s.accepted) :
    s'.Books := by
  have hfresh : ∀ d,s'.Fresh d → s.Fresh d := fun d hd => ⟨hd.1,hstale ▸ hd.2⟩
  constructor
  · rw [hc.frontier,hc.gaps,hacc]
    exact h.cache
  · rw [hstore,hacc]
    exact h.store
  · rw [hpass,hacc]
    exact h.pass
  · rw [hc.persisted,hacc]
    exact h.ledger
  · rw [hacc]
    exact hmirror
  · rw [hacc]
    exact hmarked
  · rw [hc.prevPersisted,hc.persisted]
    exact h.prev_le
  · rw [hc.persisted,hstore]
    exact fun d hd => h.persisted d (hfresh d hd)
  · rw [hc.frontier,hstore]
    exact fun d hd => h.loaded d (hfresh d hd)
  · rw [hpass,hstore]
    exact fun p hp d hd => h.captured p hp d (hfresh d hd)
  · rw [hpass,hc.frontier]
    exact fun p hp d hd => h.kept p hp d (hfresh d hd)
  · rw [hpass,hstore]
    exact fun p hp hw d hd => h.written p hp hw d (hfresh d hd)
  · rw [hc.frontier,hstore]
    exact fun hm d hd => h.clean (hc.clean hm) d (hfresh d hd)
  · rw [hc.forgotten,hc.frontier]
    exact h.forgotten
  · rw [hpass]
    exact h.passForgotten

theorem counts_markApplied (c : Cache) (cs : Changeset) (d : Dot) :
    Counts (c.markApplied cs.dot.origin cs.dot.seq cs.stamp.clock).frontier
      (c.markApplied cs.dot.origin cs.dot.seq cs.stamp.clock).appliedGaps d ↔
      d = cs.dot ∨ Counts c.frontier c.appliedGaps d := by
  have hdot : d = cs.dot ↔ d.origin = cs.dot.origin ∧ d.seq = cs.dot.seq := by
    cases d
    cases cs.dot
    simp
  rw [hdot]
  exact c.applied_markApplied cs.dot.origin d.origin cs.dot.seq d.seq cs.stamp.clock

variable {c : Cache} {f : FinMap Origin FrontierEntry} {m : Meta} {o : Origin} {snap : Snapshot}
  {w : Bool}

theorem covers_markApplied (h : Covers c.frontier d) (cs : Changeset) :
    Covers (c.markApplied cs.dot.origin cs.dot.seq cs.stamp.clock).frontier d := by
  have hle : c.lastSeq d.origin ≤
      (c.markApplied cs.dot.origin cs.dot.seq cs.stamp.clock).lastSeq d.origin := by
    rw [Cache.lastSeq_markApplied]
    split_ifs with ho
    · rw [ho]
      exact le_max_left _ _
    · exact le_refl _
  exact h.trans hle

theorem Books.markApplied (h : s.Books) (cs : Changeset) : (s.markApplied cs).Books where
  cache d hd hc := by
    rcases (counts_markApplied s.cache cs d).mp hc with rfl | hc
    · exact Finset.mem_insert_self _ _
    · exact Finset.mem_insert_of_mem (h.cache d hd hc)
  store d hd hc := Finset.mem_insert_of_mem (h.store d hd hc)
  pass p hp d hd hc := Finset.mem_insert_of_mem (h.pass p hp d hd hc)
  ledger d hd hle := Finset.mem_insert_of_mem (h.ledger d hd hle)
  journals o c hc := Finset.mem_insert_of_mem (h.journals o c hc)
  marked f hf hm := Finset.mem_insert_of_mem (h.marked f hf hm)
  prev_le := h.prev_le
  persisted := h.persisted
  loaded d hd hc := covers_markApplied (h.loaded d hd hc) cs
  captured := h.captured
  kept p hp d hd hc := covers_markApplied (h.kept p hp d hd hc) cs
  written := h.written
  clean hm := by simp [Replica.markApplied,Cache.markApplied] at hm
  forgotten o ho := by
    obtain ⟨hne,ho⟩ := Finset.mem_erase.mp ho
    have hout := h.forgotten o ho
    simpa [Replica.markApplied,Cache.markApplied,Finmap.mem_insert,hne] using hout
  passForgotten := h.passForgotten

theorem Books.capture (h : s.Books) :
    Books { s with pass := some ⟨s.cache.snapshotIncremental,false⟩ } where
  cache := h.cache
  store := h.store
  pass p hp := by
    cases hp
    exact h.cache
  ledger := h.ledger
  journals := h.journals
  marked := h.marked
  prev_le := h.prev_le
  persisted := h.persisted
  loaded := h.loaded
  captured p hp := by
    cases hp
    exact h.loaded
  kept p hp d _ hc := by
    cases hp
    exact hc
  written p hp hw := by
    cases hp
    exact h.clean (hw.resolve_left Bool.false_ne_true)
  clean := h.clean
  forgotten := h.forgotten
  passForgotten p hp := by
    cases hp
    exact h.forgotten

theorem Books.endPass (h : s.Books) : Books { s with pass := none } where
  cache := h.cache
  store := h.store
  pass p hp := by cases hp
  ledger := h.ledger
  journals := h.journals
  marked := h.marked
  prev_le := h.prev_le
  persisted := h.persisted
  loaded := h.loaded
  captured p hp := by cases hp
  kept p hp := by cases hp
  written p hp := by cases hp
  clean := h.clean
  forgotten := h.forgotten
  passForgotten p hp := by cases hp

theorem mem_of_covers (hd : d.seq ≠ 0) (h : Covers f d) :
    ∃ e,f.lookup d.origin = some e ∧ d.seq ≤ e.lastSeq := by
  unfold Covers FinMap.getD at h
  cases hf : f.lookup d.origin with
  | none =>
    rw [hf] at h
    exact absurd h (seq_not_le_zero hd)
  | some e =>
    rw [hf] at h
    exact ⟨e,rfl,h⟩

theorem covers_of_lookup {e : FrontierEntry} (hf : f.lookup d.origin = some e)
    (h : d.seq ≤ e.lastSeq) : Covers f d := by
  rw [Covers,FinMap.getD_of_lookup hf]
  exact h

/-- What the store covers after a write, the pass or the store covered before. -/
theorem covers_writeSnapshot (hd : d.seq ≠ 0) (h : Covers (writeSnapshot m snap).frontier d) :
    Covers snap.frontier d ∨ Covers m.frontier d := by
  unfold writeSnapshot at h
  split_ifs at h
  · obtain ⟨e,he,hle⟩ := mem_of_covers hd h
    rw [FinMap.lookup_filter,FinMap.lookup_union_eq] at he
    split_ifs at he
    cases hs : snap.frontier.lookup d.origin with
    | none => exact .inr (covers_of_lookup (by simpa [hs] using he) hle)
    | some e' =>
      rw [hs,Option.some_or] at he
      cases he
      exact .inl (covers_of_lookup hs hle)
  · exact .inr h

theorem covers_writeSnapshot_of_snap (hm : snap.metaDirty = true)
    (hfor : ∀ o ∈ snap.forgotten,o ∉ snap.frontier) (hd : d.seq ≠ 0) (h : Covers snap.frontier d) :
    Covers (writeSnapshot m snap).frontier d := by
  obtain ⟨e,he,hle⟩ := mem_of_covers hd h
  have hout : d.origin ∉ snap.forgotten := fun ho =>
    hfor _ ho (Finmap.mem_of_lookup_eq_some he)
  refine covers_of_lookup ?_ hle
  rw [writeSnapshot,if_pos hm]
  simp [FinMap.lookup_filter,FinMap.lookup_union_eq,hout,he]

/-- The store keeps covering what it covered and now covers what the pass captured. -/
theorem Books.covers_written (h : s.Books) (hp : s.pass = some ⟨snap,w⟩) (hd : s.Fresh d)
    (hc : Covers snap.frontier d) :
    Covers (writeSnapshot s.store snap).frontier d := by
  cases hm : snap.metaDirty with
  | true => exact covers_writeSnapshot_of_snap hm (h.passForgotten _ hp) hd.1 hc
  | false =>
    have := h.written _ hp (.inr hm) d hd hc
    rw [writeSnapshot,if_neg (by simp [hm])]
    exact this

theorem Books.write (h : s.Books) (hp : s.pass = some ⟨snap,w⟩) :
    Books { s with store := writeSnapshot s.store snap,pass := some ⟨snap,true⟩ } := by
  have hkeep : ∀ d,s.Fresh d → Covers s.store.frontier d →
      Covers (writeSnapshot s.store snap).frontier d := fun d hd hc =>
    h.covers_written hp hd (h.captured _ hp d hd hc)
  constructor
  · exact h.cache
  · intro d hd hc
    rcases hc with hc | hc
    · rcases covers_writeSnapshot hd hc with hc | hc
      · exact h.pass _ hp d hd (.inl hc)
      · exact h.store d hd (.inl hc)
    · change d.seq ∈ FinMap.getD (writeSnapshot s.store snap).appliedGaps d.origin at hc
      unfold writeSnapshot at hc
      split_ifs at hc
      · exact h.pass _ hp d hd (.inr hc)
      · exact h.store d hd (.inr hc)
  · intro p hp'
    cases hp'
    exact h.pass ⟨snap,w⟩ hp
  · exact h.ledger
  · exact h.journals
  · exact h.marked
  · exact h.prev_le
  · exact fun d hd hle => hkeep d hd (h.persisted d hd hle)
  · intro d hd hc
    rcases covers_writeSnapshot hd.1 hc with hc | hc
    · exact h.kept _ hp d hd hc
    · exact h.loaded d hd hc
  · intro p hp' d hd hc
    cases hp'
    rcases covers_writeSnapshot hd.1 hc with hc | hc
    · exact hc
    · exact h.captured _ hp d hd hc
  · intro p hp'
    cases hp'
    exact h.kept ⟨snap,w⟩ hp
  · intro p hp' _ d hd hc
    cases hp'
    exact h.covers_written hp hd hc
  · exact fun hm d hd hc => hkeep d hd (h.clean hm d hd hc)
  · exact h.forgotten
  · intro p hp'
    cases hp'
    exact h.passForgotten ⟨snap,w⟩ hp

theorem getD_advancePersisted (c : Cache) (snap : Snapshot) (o : Origin) :
    FinMap.getD (c.advancePersisted snap).1 o =
        (if c.persistedFrontier.getD o < (snap.frontier.getD o).lastSeq
          then c.persistedFrontier.getD o else c.prevPersistedFrontier.getD o) ∧
      FinMap.getD (c.advancePersisted snap).2 o =
        max (c.persistedFrontier.getD o) (snap.frontier.getD o).lastSeq := by
  have hmem : c.persistedFrontier.getD o < (snap.frontier.getD o).lastSeq → o ∈ snap.frontier := by
    intro hlt
    by_contra ho
    rw [FinMap.getD,FinMap.getD,Finmap.lookup_eq_none.mpr ho] at hlt
    exact absurd hlt (not_lt.mpr (UInt64.le_iff_toNat_le.mpr (Nat.zero_le _)))
  have hkeys : o ∈ (FinMap.filter (fun o => c.persistedFrontier.getD o <
      (snap.frontier.getD o).lastSeq) snap.frontier).keys ↔
      c.persistedFrontier.getD o < (snap.frontier.getD o).lastSeq := by
    rw [Finmap.mem_keys,← not_iff_not,← Finmap.lookup_eq_none,FinMap.lookup_filter]
    by_cases hlt : c.persistedFrontier.getD o < (snap.frontier.getD o).lastSeq
    · simpa [hlt] using Finmap.lookup_eq_none.not.mpr (not_not.mpr (hmem hlt))
    · simp [hlt]
  simp only [Cache.advancePersisted,FinMap.getD_ofFinset_union]
  by_cases hlt : c.persistedFrontier.getD o < (snap.frontier.getD o).lastSeq
  · rw [if_pos (hkeys.mpr hlt),if_pos (hkeys.mpr hlt),if_pos hlt,max_eq_right hlt.le]
    exact ⟨rfl,rfl⟩
  · rw [if_neg (hkeys.not.mpr hlt),if_neg (hkeys.not.mpr hlt),if_neg hlt,max_eq_left (not_lt.mp hlt)]
    exact ⟨rfl,rfl⟩

/-- A pass that was written and acknowledged moves the persisted heads to what it captured. -/
theorem Books.acknowledge (h : s.Books) (hp : s.pass = some ⟨snap,true⟩) :
    Books { s with cache := s.cache.clearSnapshotDirty snap,pass := none } := by
  have hper : ∀ d : Dot,d.seq ≤ FinMap.getD (s.cache.advancePersisted snap).2 d.origin →
      d.seq ≤ s.cache.persistedFrontier.getD d.origin ∨ Covers snap.frontier d := by
    intro d hle
    rw [(getD_advancePersisted s.cache snap d.origin).2] at hle
    exact le_max_iff.mp hle
  constructor
  · exact h.cache
  · exact h.store
  · intro p hp'
    cases hp'
  · intro d hd hle
    rcases hper d hle with hle | hc
    · exact h.ledger d hd hle
    · exact h.pass _ hp d hd (.inl hc)
  · exact h.journals
  · exact h.marked
  · intro o
    change FinMap.getD (s.cache.advancePersisted snap).1 o ≤
      FinMap.getD (s.cache.advancePersisted snap).2 o
    rw [(getD_advancePersisted s.cache snap o).1,(getD_advancePersisted s.cache snap o).2]
    split_ifs
    · exact le_max_left _ _
    · exact (h.prev_le o).trans (le_max_left _ _)
  · intro d hd hle
    rcases hper d hle with hle | hc
    · exact h.persisted d hd hle
    · exact h.written _ hp (.inl rfl) d hd hc
  · exact h.loaded
  · intro p hp'
    cases hp'
  · intro p hp'
    cases hp'
  · intro p hp'
    cases hp'
  · intro hm d hd hc
    simp only [Cache.clearSnapshotDirty,Bool.and_eq_false_iff,Bool.not_eq_false',
      decide_eq_true_eq] at hm
    rcases hm with hm | hm
    · exact h.clean hm d hd hc
    · have hfront : s.cache.frontier = snap.frontier := hm.2.2.2.2.2.2.2.1
      change Covers s.cache.frontier d at hc
      rw [hfront] at hc
      exact h.written _ hp (.inl rfl) d hd hc
  · exact fun o ho => h.forgotten o (Finset.mem_filter.mp ho).1
  · intro p hp'
    cases hp'

theorem covers_erase (hd : d.seq ≠ 0) :
    Covers (f.erase o) d ↔ d.origin ≠ o ∧ Covers f d := by
  unfold Covers FinMap.getD
  rw [FinMap.lookup_erase_eq]
  by_cases ho : d.origin = o
  · rw [if_pos ho]
    exact iff_of_false (seq_not_le_zero hd) fun h => h.1 ho
  · simp [ho]

theorem counts_erase {g : FinMap Origin SeqSet} (hd : d.seq ≠ 0)
    (h : Counts (f.erase o) (g.erase o) d) : d.origin ≠ o ∧ Counts f g d := by
  rcases h with h | h
  · exact ⟨((covers_erase hd).mp h).1,.inl ((covers_erase hd).mp h).2⟩
  · unfold FinMap.getD at h
    rw [FinMap.lookup_erase_eq] at h
    by_cases ho : d.origin = o
    · rw [if_pos ho] at h
      exact absurd h SeqSet.not_mem_empty
    · rw [if_neg ho] at h
      exact ⟨ho,.inr h⟩

theorem Books.evict (h : s.Books) (he : s.cache.evictOrigin o = (true,c)) :
    Books { s with
      cache := c
      stale := s.stale ∪ s.accepted.filter fun d => d.origin = o } := by
  unfold Cache.evictOrigin at he
  by_cases hnone : o = s.cache.self ∨ (o ∉ s.cache.frontier ∧ o ∉ s.cache.appliedGaps ∧
      o ∉ s.cache.snapshotMarkers)
  · rw [if_pos hnone] at he
    exact absurd (Prod.mk.inj he).1 (by decide)
  rw [if_neg hnone] at he
  obtain ⟨-,rfl⟩ := Prod.mk.inj he
  have hfresh : ∀ d,d.seq ≠ 0 → d ∉ s.stale ∪ s.accepted.filter (fun d => d.origin = o) →
      s.Fresh d ∧ (d ∈ s.accepted → d.origin ≠ o) := by
    intro d hd hst
    simp only [Finset.mem_union,Finset.mem_filter,not_or,not_and] at hst
    exact ⟨⟨hd,hst.1⟩,hst.2⟩
  constructor
  · exact fun d hd hc => h.cache d hd (counts_erase hd hc).2
  · exact h.store
  · exact h.pass
  · exact h.ledger
  · exact h.journals
  · exact h.marked
  · exact h.prev_le
  · intro d hd hle
    exact h.persisted d (hfresh d hd.1 hd.2).1 hle
  · intro d hd hc
    obtain ⟨hf,hne⟩ := hfresh d hd.1 hd.2
    exact (covers_erase hd.1).mpr ⟨hne (h.store d hd.1 (.inl hc)),h.loaded d hf hc⟩
  · exact fun p hp d hd => h.captured p hp d (hfresh d hd.1 hd.2).1
  · intro p hp d hd hc
    obtain ⟨hf,hne⟩ := hfresh d hd.1 hd.2
    exact (covers_erase hd.1).mpr ⟨hne (h.pass p hp d hd.1 (.inl hc)),h.kept p hp d hf hc⟩
  · exact fun p hp hw d hd => h.written p hp hw d (hfresh d hd.1 hd.2).1
  · exact fun hm => absurd hm Bool.noConfusion
  · intro o' ho'
    rw [← Finmap.lookup_eq_none]
    rw [FinMap.lookup_erase_eq]
    rcases Finset.mem_insert.mp ho' with rfl | ho'
    · exact if_pos rfl
    · rw [Finmap.lookup_eq_none.mpr (h.forgotten o' ho'),ite_self]
  · exact h.passForgotten

/-- A replayed entry moves the frontier past a changeset that was accepted before. -/
theorem Books.replayed (cat : Catalog) (h : Books { s with cache := c })
    (hcs : cs.dot ∈ s.accepted) : Books { s with cache := replayChangeset cat c cs } := by
  unfold replayChangeset
  split_ifs
  · exact h
  · have hsame : Books { s with cache := cs.records.foldl (replayRecord cat cs.stamp) c } :=
      h.congr (Cache.replayRecords_sameFrontier cat cs.stamp cs.records c).sameHeads rfl rfl rfl rfl
        h.journals h.marked
    have hmark := hsame.markApplied cs
    unfold Replica.markApplied at hmark
    rwa [Finset.insert_eq_of_mem hcs] at hmark

theorem Books.recovered (cat : Catalog) (h : Books { s with cache := c }) (origins : List Origin) :
    Books { s with cache := recoverMirror cat s.mirror origins c } := by
  have hfold : ∀ (css : List Changeset) (c : Cache),(∀ cs ∈ css,cs.dot ∈ s.accepted) →
      Books { s with cache := c } → Books { s with cache := css.foldl (replayChangeset cat) c } := by
    intro css
    induction css with
    | nil => exact fun c _ h => h
    | cons cs css ih =>
      intro c hcss h
      exact ih _ (fun cs' h' => hcss cs' (by simp [h'])) (h.replayed cat (hcss cs (by simp)))
  induction origins generalizing c with
  | nil => exact h
  | cons o origins ih =>
    refine ih ?_
    unfold replayJournal
    split_ifs
    · exact h
    · exact hfold _ c (fun cs hcs => h.journals o cs (mem_of_mem_drop hcs)) h

theorem Books.restart (h : s.Books) (cfg : Config) (kept : Origin → ℕ) (origins : List Origin) :
    (s.restart cfg kept origins).Books := by
  have hmirror : ∀ o,∀ cs ∈ FinMap.getD (FinMap.ofFinset s.mirror.keys fun o =>
      (s.mirror.getD o).take (kept o)) o,cs.dot ∈ s.accepted := by
    intro o cs hcs
    unfold FinMap.getD at hcs
    rw [FinMap.lookup_ofFinset] at hcs
    split_ifs at hcs
    · exact h.journals o cs (mem_of_mem_take hcs)
    · exact absurd hcs not_mem_nil
  have hzero : ∀ (d : Dot),d.seq ≠ 0 →
      ¬d.seq ≤ FinMap.getD (Cache.loadFromMeta s.cache.self s.store).persistedFrontier d.origin := by
    intro d hd
    have hz : FinMap.getD (Cache.loadFromMeta s.cache.self s.store).persistedFrontier d.origin = 0 :=
      FinMap.getD_empty _
    rw [hz]
    exact seq_not_le_zero hd
  refine Books.recovered (s := { s with
    markerTableReady := false
    mirror := FinMap.ofFinset s.mirror.keys fun o => (s.mirror.getD o).take (kept o)
    pass := none
    inFlight := none
    failed := []
    stored := []
    landed := [] }) cfg.catalog ?_ origins
  exact {
    cache := h.store
    store := h.store
    pass := fun p hp => by cases hp
    ledger := fun d hd hle => absurd hle (hzero d hd)
    journals := hmirror
    marked := fun f hf => by cases hf
    prev_le := fun o => le_refl _
    persisted := fun d hd hle => absurd hle (hzero d hd.1)
    loaded := fun d _ hc => hc
    captured := fun p hp => by cases hp
    kept := fun p hp => by cases hp
    written := fun p hp => by cases hp
    clean := fun _ d _ hc => hc
    forgotten := fun o ho => absurd ho (Finset.notMem_empty o)
    passForgotten := fun p hp => by cases hp }

theorem Books.apply (h : s.Books) (cfg : Config) (cs : Changeset) (force : Bool) :
    (s.apply cfg cs force).Books := by
  unfold Replica.apply
  rcases applyCommit_cases cfg s.toNode cs force with ⟨b,r,hr,hcase⟩ | ⟨n',added,hn',hc⟩
  · have hnode : ∀ (f : List (Changeset × ApplyError)) (l : List Dot) (q : List QuarantineEntry),
        Books { s with markerTableReady := b,failed := f,landed := l,quarantine := q } :=
      fun f l q => h.congr ⟨rfl,rfl,rfl,rfl,rfl,id⟩ rfl rfl rfl rfl h.journals h.marked
    rw [hr]
    rcases hcase with ⟨rfl,-⟩ | ⟨e,rfl,-⟩
    · exact hnode s.failed _ s.quarantine
    · simp only
      split_ifs
      · exact hnode s.failed s.landed _
      · exact hnode _ s.landed s.quarantine
      · exact hnode s.failed s.landed s.quarantine
  · rw [hn']
    refine h.congr hc.cache.sameHeads rfl rfl rfl rfl ?_ ?_
    · change ∀ o,∀ cs ∈ n'.mirror.getD o,cs.dot ∈ s.accepted
      rw [hc.mirror]
      exact h.journals
    · intro f hf hm
      cases hf
      exact absurd hm Bool.noConfusion

theorem Books.appendMirror (h : s.Books) (hcs : cs.dot ∈ s.accepted) :
    (s.appendMirror cs).Books := by
  refine h.congr ⟨rfl,rfl,rfl,rfl,rfl,fun hm => absurd hm Bool.noConfusion⟩ rfl rfl rfl rfl ?_
    h.marked
  intro o c hc
  change c ∈ FinMap.getD (s.mirror.insert cs.dot.origin
    (s.mirror.getD cs.dot.origin++[cs])) o at hc
  by_cases ho : o = cs.dot.origin
  · rw [FinMap.getD_insert,if_pos ho] at hc
    rcases mem_concat.mp hc with hc | rfl
    · exact h.journals _ c hc
    · exact hcs
  · rw [FinMap.getD_insert,if_neg ho] at hc
    exact h.journals o c hc

theorem Books.step (h : s.Books) (cfg : Config) (a : Action) : (s.step cfg a).Books := by
  have hlists : ∀ (f : List (Changeset × ApplyError)) (st : List Changeset) (l : List Dot)
      (q : List QuarantineEntry),
      Books { s with failed := f,stored := st,landed := l,quarantine := q } :=
    fun f st l q => h.congr ⟨rfl,rfl,rfl,rfl,rfl,id⟩ rfl rfl rfl rfl h.journals h.marked
  cases a with
  | deliver cs =>
    simp only [Replica.step]
    split_ifs
    · exact h
    · exact h.apply cfg cs false
  | retry dot =>
    simp only [Replica.step]
    split_ifs
    · exact h
    · split
      · exact h.apply cfg _ true
      · exact h
  | mark =>
    simp only [Replica.step]
    split
    · rename_i cs force hf
      exact (h.markApplied cs).congr ⟨rfl,rfl,rfl,rfl,rfl,id⟩ rfl rfl rfl rfl
        (h.markApplied cs).journals fun f hf' _ => by
          cases hf'
          exact Finset.mem_insert_self _ _
    · exact h
  | journal =>
    simp only [Replica.step]
    split
    · rename_i cs force hf
      have happend := h.appendMirror (h.marked _ hf rfl)
      exact happend.congr ⟨rfl,rfl,rfl,rfl,rfl,id⟩ rfl rfl rfl rfl happend.journals
        fun f hf' => by cases hf'
    · exact h
  | setAside cs err =>
    simp only [Replica.step]
    split_ifs
    · exact hlists _ s.stored s.landed s.quarantine
    · exact hlists _ _ s.landed _
    · exact h
  | advancePast cs =>
    simp only [Replica.step]
    split_ifs
    · exact (h.markApplied cs).congr ⟨rfl,rfl,rfl,rfl,rfl,id⟩ rfl rfl rfl rfl
        (h.markApplied cs).journals (h.markApplied cs).marked
    · exact h
  | clearEntry dot =>
    simp only [Replica.step]
    split_ifs
    · exact hlists s.failed s.stored _ _
    · exact h
  | capture =>
    simp only [Replica.step]
    split_ifs
    · exact h
    · exact h.capture
  | write =>
    simp only [Replica.step]
    split
    · exact h.write ‹_›
    · exact h
  | writeFails =>
    simp only [Replica.step]
    split
    · exact h.endPass
    · exact h
  | acknowledge =>
    simp only [Replica.step]
    split
    · exact h.acknowledge ‹_›
    · exact h
  | evict o =>
    simp only [Replica.step]
    split_ifs with he
    · exact h.evict (Prod.ext he rfl)
    · exact h
  | crash kept origins => exact h.restart cfg kept origins

end Books

end Replica

end Syzy
