import Syzy.Books
import Syzy.Schedule

/-!
Counter contributions are added at most once along every run of a replica in which no apply prunes
the marker of a changeset that awaits a retry, and no changeset returns after its origin's eviction.
-/

namespace Syzy

open List Replica

theorem Node.resident_iff {n : Node} {d : Dot} :
    n.resident d = true ↔ ∃ cs ∈ n.quarantined,cs.dot = d := by
  simp [Node.resident,Node.quarantined]

theorem putQuarantine_changesets (q : List QuarantineEntry) (cs : Changeset) (err : ApplyError) :
    (putQuarantine q cs err).map QuarantineEntry.changeset =
      if q.any fun e => e.changeset.dot = cs.dot then q.map QuarantineEntry.changeset
      else q.map QuarantineEntry.changeset++[cs] := by
  unfold putQuarantine
  split_ifs
  · rw [map_map]
    refine map_congr_left fun e _ => ?_
    rw [Function.comp_apply]
    split_ifs <;> rfl
  · simp

theorem resident_putQuarantine (n : Node) (cs : Changeset) (err : ApplyError) (d : Dot) :
    Node.resident { n with quarantine := putQuarantine n.quarantine cs err } d = true ↔
      d = cs.dot ∨ n.resident d = true := by
  rw [Node.resident_iff,Node.resident_iff,Node.quarantined,putQuarantine_changesets]
  split_ifs with hany
  · refine ⟨.inr,fun h => h.elim (fun hd => ?_) id⟩
    rw [hd]
    exact Node.resident_iff.mp hany
  · constructor
    · rintro ⟨c,hc,rfl⟩
      rcases mem_append.mp hc with hc | hc
      · exact .inr ⟨c,hc,rfl⟩
      · exact .inl (congrArg Changeset.dot (mem_singleton.mp hc))
    · rintro (rfl | ⟨c,hc,rfl⟩)
      · exact ⟨cs,by simp,rfl⟩
      · exact ⟨c,mem_append_left _ hc,rfl⟩

theorem resident_deleteQuarantine (n : Node) (dot d : Dot) :
    Node.resident { n with quarantine := deleteQuarantine n.quarantine dot } d = true ↔
      d ≠ dot ∧ n.resident d = true := by
  simp only [Node.resident,deleteQuarantine,any_filter,any_eq_true]
  constructor
  · rintro ⟨e,he,h⟩
    simp only [Bool.and_eq_true,decide_eq_true_eq] at h
    exact ⟨h.2 ▸ h.1,e,he,by simpa using h.2⟩
  · rintro ⟨hne,e,he,h⟩
    rw [decide_eq_true_eq] at h
    exact ⟨e,he,by simpa [h] using hne⟩

namespace Replica

def Pending (s : Replica) (cs : Changeset) : Prop :=
  cs ∈ s.quarantined ∨ (∃ f ∈ s.failed,f.1 = cs) ∨ cs ∈ s.stored ∨
    ∃ f,s.inFlight = some f ∧ f.changeset = cs

/-- The changeset has been committed by an apply or a retry that is not over yet. -/
def Landed (s : Replica) (d : Dot) : Prop :=
  d ∈ s.landed ∨ ∃ f,s.inFlight = some f ∧ f.changeset.dot = d

/-- The frontier has moved past the changeset or is about to do so without a commit. -/
def Passed (s : Replica) (d : Dot) : Prop := d ∈ s.accepted ∨ ∃ cs ∈ s.stored,cs.dot = d

/-- Neither a delivery nor a restart can bring the changeset back. -/
def Settled (s : Replica) (d : Dot) : Prop :=
  d ∈ s.stale ∨ Covers s.cache.frontier d ∧ Covers s.store.frontier d

/-- Each changeset contributed at most once; a contribution without a marker is settled; and what
landed or was passed contributed, unless it is in quarantine. -/
structure Contributions (cfg : Config) (me : Origin) (S : Finset Changeset) (s : Replica) : Prop where
  self : s.cache.self = me
  mem : ∀ cs,s.Pending cs → cs ∈ S ∧ cs.dot.origin ≠ me
  seq_ne_zero : ∀ d ∈ s.contributed,d.seq ≠ 0
  nodup : s.contributed.Nodup
  certified : ∀ d ∈ s.markers.getD ∅,d ∈ s.contributed
  kept : ∀ d ∈ s.contributed,d ∈ s.markers.getD ∅ ∨ s.awaitsRetry d = false ∧ s.Settled d
  landed : ∀ cs ∈ S,counterBearing cfg.catalog cs.records = true → s.Landed cs.dot →
    cs.dot ∈ s.contributed
  passed : ∀ cs ∈ S,counterBearing cfg.catalog cs.records = true → s.Passed cs.dot →
    cs.dot ∈ s.contributed ∨ s.resident cs.dot = true

section Contributions

variable {cfg : Config} {me : Origin} {S : Finset Changeset} {s s' : Replica} {cs : Changeset}
variable {d : Dot}

theorem Contributions.new (cfg : Config) (me : Origin) (S : Finset Changeset) :
    Contributions cfg me S (new me) where
  self := rfl
  mem cs h := by simp [Pending,Replica.new,Node.new,Node.quarantined] at h
  seq_ne_zero d hd := absurd hd not_mem_nil
  nodup := nodup_nil
  certified d hd := absurd hd (Finset.notMem_empty d)
  kept d hd := absurd hd not_mem_nil
  landed cs _ _ h := by simp [Landed,Replica.new] at h
  passed cs _ _ h := by simp [Passed,Replica.new] at h

theorem awaitsRetry_eq_false : s.awaitsRetry d = false ↔
    s.resident d = false ∧ ∀ f ∈ s.failed,f.1.dot ≠ d := by
  simp [awaitsRetry]

theorem Contributions.congr (h : s.Contributions cfg me S) (hself : s'.cache.self = s.cache.self)
    (hmarkers : s'.markers.getD ∅ = s.markers.getD ∅) (hcontr : s'.contributed = s.contributed)
    (hmem : ∀ cs,s'.Pending cs → s.Pending cs ∨ cs ∈ S ∧ cs.dot.origin ≠ me)
    (hkept : ∀ d ∈ s.contributed,s.awaitsRetry d = false → s.Settled d →
      s'.awaitsRetry d = false ∧ s'.Settled d)
    (hlanded : ∀ cs ∈ S,counterBearing cfg.catalog cs.records = true → s'.Landed cs.dot →
      s.Landed cs.dot ∨ cs.dot ∈ s.contributed)
    (hpassed : ∀ cs ∈ S,counterBearing cfg.catalog cs.records = true → s'.Passed cs.dot →
      cs.dot ∈ s.contributed ∨ s'.resident cs.dot = true) : s'.Contributions cfg me S where
  self := hself.trans h.self
  mem cs hp := (hmem cs hp).elim (h.mem cs) id
  seq_ne_zero := hcontr ▸ h.seq_ne_zero
  nodup := hcontr ▸ h.nodup
  certified := by
    rw [hmarkers,hcontr]
    exact h.certified
  kept d hd := by
    rw [hcontr] at hd
    rw [hmarkers]
    exact (h.kept d hd).imp_right fun hk => hkept d hd hk.1 hk.2
  landed cs hcs hb hl := by
    rw [hcontr]
    exact (hlanded cs hcs hb hl).elim (h.landed cs hcs hb) id
  passed := by
    rw [hcontr]
    exact hpassed

theorem Settled.move (h : s.Settled d) (hd : d.seq ≠ 0) (hB : s'.Books) (hstale : s.stale ⊆ s'.stale)
    (hstore : s'.Fresh d → Covers s.store.frontier d → Covers s'.store.frontier d) :
    s'.Settled d := by
  by_cases hst : d ∈ s'.stale
  · exact .inl hst
  · rcases h with h | ⟨-,hm⟩
    · exact .inl (hstale h)
    · have hm' := hstore ⟨hd,hst⟩ hm
      exact .inr ⟨hB.loaded d ⟨hd,hst⟩ hm',hm'⟩

theorem Contributions.move (h : s.Contributions cfg me S) {c : Cache} {m : Meta} {p : Option Pass}
    {stale : Finset Dot} (hself : c.self = s.cache.self)
    (hB : Books { s with cache := c,store := m,pass := p,stale := stale })
    (hstale : s.stale ⊆ stale)
    (hstore : ∀ d,d.seq ≠ 0 → d ∉ stale → Covers s.store.frontier d → Covers m.frontier d) :
    Contributions cfg me S { s with cache := c,store := m,pass := p,stale := stale } :=
  h.congr hself rfl rfl (fun _ => .inl)
    (fun d hd hr hs => ⟨hr,hs.move (h.seq_ne_zero d hd) hB hstale fun hf => hstore d hf.1 hf.2⟩)
    (fun _ _ _ => .inl) h.passed

theorem Settled.isAppliedRemote (h : s.Settled d) (hd : s.Fresh d) (horigin : d.origin ≠ s.cache.self) :
    s.cache.isAppliedRemote d.origin d.seq = true :=
  (Cache.isAppliedRemote_iff hd.1).mpr ⟨horigin,.inl (h.resolve_left hd.2).1⟩

variable {force : Bool} {n' : Node} {seq : Seq}

/-- A changeset of the workload that may be applied now and has no marker was never contributed. -/
theorem Contributions.not_contributed (h : s.Contributions cfg me S) (hseq : cs.dot.seq ≠ 0)
    (horigin : cs.dot.origin ≠ s.cache.self) (hwait : force = true → s.awaitsRetry cs.dot = true)
    (hstale : force = false → cs.dot ∉ s.stale)
    (hun : force = true ∨ s.cache.isAppliedRemote cs.dot.origin cs.dot.seq = false)
    (hmark : cs.dot ∉ s.markers.getD ∅) : cs.dot ∉ s.contributed := by
  intro hc
  obtain ⟨hres,hset⟩ := (h.kept _ hc).resolve_left hmark
  cases force with
  | true =>
    rw [hwait rfl] at hres
    exact Bool.noConfusion hres
  | false =>
    have hnot := hun.resolve_left Bool.noConfusion
    rw [hset.isAppliedRemote ⟨hseq,hstale rfl⟩ horigin] at hnot
    exact Bool.noConfusion hnot

theorem markerPruneBound_lt {persisted : Seq} (hseq : seq ≠ 0) :
    Cache.markerPruneBound persisted seq < seq := by
  unfold Cache.markerPruneBound
  split_ifs with hle
  · have hpos : 0 < seq.toNat := by
      rw [Nat.pos_iff_ne_zero]
      exact fun h0 => hseq (UInt64.toNat_inj.mp (by simpa using h0))
    rw [UInt64.lt_iff_toNat_lt,UInt64.toNat_sub_of_le]
    · simp only [UInt64.toNat_one]
      omega
    · rw [UInt64.le_iff_toNat_le]
      exact hpos
  · exact not_le.mp hle

theorem markerPruneBound_le {persisted : Seq} (hseq : seq ≠ 0) :
    Cache.markerPruneBound persisted seq ≤ persisted := by
  by_cases hle : seq ≤ persisted
  · exact le_trans (le_of_lt (markerPruneBound_lt hseq)) hle
  · rw [Cache.markerPruneBound,if_neg hle]

/-- A marker that an apply prunes certifies a changeset that the store covers. -/
theorem Books.settled_of_pruned (h : s.Books) (hseq : cs.dot.seq ≠ 0) (hd : d.seq ≠ 0)
    (horigin : d.origin = cs.dot.origin) (hle : d.seq ≤ Cache.markerPruneBound
      (s.cache.persistedFrontierBound cs.dot.origin) cs.dot.seq) : s.Settled d := by
  by_cases hst : d ∈ s.stale
  · exact .inl hst
  · have hper : d.seq ≤ s.cache.persistedFrontier.getD d.origin := by
      rw [horigin]
      exact le_trans (le_trans hle (markerPruneBound_le hseq)) (h.prev_le _)
    have hstore := h.persisted d ⟨hd,hst⟩ hper
    exact .inr ⟨h.loaded d ⟨hd,hst⟩ hstore,hstore⟩

theorem Settled.committed {added : Bool} {f : Option InFlight} {L : List Dot} (hset : s.Settled d)
    (hw : s.awaitsRetry d = false) (hc : Committed cfg s.toNode cs force n' added) :
    awaitsRetry { s with toNode := n',inFlight := f,contributed := L } d = false ∧
      Settled { s with toNode := n',inFlight := f,contributed := L } d := by
  constructor
  · rw [awaitsRetry_eq_false] at hw ⊢
    exact ⟨(hc.resident_eq d).trans hw.1,hw.2⟩
  · change d ∈ s.stale ∨ Covers n'.cache.frontier d ∧ Covers s.store.frontier d
    rw [hc.cache.frontier]
    exact hset

section

variable (h : s.Contributions cfg me S)
include h

/-- After its commit every changeset that contributed is certified or settled. -/
theorem Contributions.kept_commit (hB : s.Books) (hseq : cs.dot.seq ≠ 0)
    (hcnt : counterBearing cfg.catalog cs.records = true) (hmark : cs.dot ∉ s.markers.getD ∅)
    (hprune : ∀ d ∈ s.prunes cfg cs,s.awaitsRetry d = false) (hd : d ∈ s.contributed++[cs.dot]) :
    d ∈ writeAppliedMarker s.cache (s.markers.getD ∅) cs.dot ∨
      s.awaitsRetry d = false ∧ s.Settled d := by
  rw [mem_writeAppliedMarker]
  rcases mem_concat.mp hd with hd | rfl
  · rcases h.kept d hd with hm | hk
    · by_cases hp : 0 < Cache.markerPruneBound (s.cache.persistedFrontierBound cs.dot.origin)
          cs.dot.seq ∧ d.origin = cs.dot.origin ∧ d.seq ≤ Cache.markerPruneBound
          (s.cache.persistedFrontierBound cs.dot.origin) cs.dot.seq
      · refine .inr ⟨hprune d ?_,hB.settled_of_pruned hseq (h.seq_ne_zero d hd) hp.2.1 hp.2.2⟩
        rw [prunes,if_pos ⟨hcnt,hmark⟩,Finset.mem_filter]
        exact ⟨hm,hp.2⟩
      · exact .inl ⟨.inr hm,hp⟩
    · exact .inr hk
  · exact .inl ⟨.inl rfl,fun hp => absurd (markerPruneBound_lt hseq) (not_lt.mpr hp.2.2)⟩

theorem Contributions.commit (hB : s.Books) (hS : Workload S) (hcs : cs ∈ S)
    (hwait : force = true → s.awaitsRetry cs.dot = true)
    (hstale : force = false → cs.dot ∉ s.stale)
    (hprune : ∀ d ∈ s.prunes cfg cs,s.awaitsRetry d = false)
    (hc : Committed cfg s.toNode cs force n' true) :
    Contributions cfg me S { s with
      toNode := n'
      inFlight := some ⟨cs,force,false⟩
      contributed := s.contributed++[cs.dot] } := by
  have hseq := (hS.wellFormed cs hcs).seq_ne_zero
  have hmark := hc.unmarked rfl
  have hnew := h.not_contributed hseq hc.remote hwait hstale hc.unapplied hmark
  have hmarkers : n'.markers.getD ∅ = writeAppliedMarker s.cache (s.markers.getD ∅) cs.dot :=
    hc.markers
  constructor
  · exact hc.cache.self.trans h.self
  · rintro c (hp | hp | hp | ⟨f,hf,rfl⟩)
    · refine h.mem c (.inl ?_)
      rw [Node.quarantined,← hc.quarantine]
      exact hp
    · exact h.mem c (.inr (.inl hp))
    · exact h.mem c (.inr (.inr (.inl hp)))
    · cases hf
      exact ⟨hcs,h.self ▸ hc.remote⟩
  · intro d hd
    rcases mem_concat.mp hd with hd | rfl
    · exact h.seq_ne_zero d hd
    · exact hseq
  · exact nodup_append'.mpr ⟨h.nodup,nodup_singleton _,by simpa using hnew⟩
  · intro d hd
    rw [hmarkers,mem_writeAppliedMarker] at hd
    rcases hd.1 with rfl | hd
    · simp
    · exact mem_append_left _ (h.certified d hd)
  · intro d hd
    rcases h.kept_commit hB hseq (hc.bearing rfl) hmark hprune hd with hk | ⟨hw,hset⟩
    · exact .inl (hmarkers ▸ hk)
    · exact .inr (hset.committed hw hc)
  · rintro c hcS hb (hl | ⟨f,hf,hdot⟩)
    · exact mem_append_left _ (h.landed c hcS hb (.inl hl))
    · cases hf
      exact mem_append_right _ (mem_singleton.mpr hdot.symm)
  · intro c hcS hb hp
    rw [hc.resident_eq]
    exact (h.passed c hcS hb hp).imp_left (mem_append_left _)

theorem Contributions.recommit (hS : Workload S) (hcs : cs ∈ S)
    (hc : Committed cfg s.toNode cs force n' false) :
    Contributions cfg me S { s with toNode := n',inFlight := some ⟨cs,force,false⟩ } := by
  refine h.congr hc.cache.self hc.markers rfl ?_ (fun _ _ hw hset => hset.committed hw hc) ?_ ?_
  · rintro c (hp | hp | hp | ⟨f,hf,rfl⟩)
    · refine .inl (.inl ?_)
      rw [Node.quarantined,← hc.quarantine]
      exact hp
    · exact .inl (.inr (.inl hp))
    · exact .inl (.inr (.inr (.inl hp)))
    · cases hf
      exact .inr ⟨hcs,h.self ▸ hc.remote⟩
  · rintro c hcS hb (hl | ⟨f,hf,hdot⟩)
    · exact .inl (.inl hl)
    · cases hf
      obtain rfl := hS.dot_inj cs hcs c hcS hdot
      by_contra hnot
      have hmark : cs.dot ∉ s.markers.getD ∅ := fun hm => hnot (.inr (h.certified _ hm))
      exact Bool.noConfusion (hc.added_of_unmarked hb hmark)
  · intro c hcS hb hp
    rw [hc.resident_eq]
    exact h.passed c hcS hb hp

theorem Contributions.apply (hB : s.Books) (hS : Workload S) (hcs : cs ∈ S)
    (hremote : force = true → cs.dot.origin ≠ me)
    (hwait : force = true → s.awaitsRetry cs.dot = true)
    (hstale : force = false → cs.dot ∉ s.stale)
    (hprune : ∀ d ∈ s.prunes cfg cs,s.awaitsRetry d = false) :
    Contributions cfg me S (s.apply cfg cs force) := by
  have hseq := (hS.wellFormed cs hcs).seq_ne_zero
  unfold Replica.apply
  rcases applyCommit_cases cfg s.toNode cs force with ⟨b,r,hr,hcase⟩ | ⟨n',added,hn',hc⟩
  · rw [hr]
    have hready : Contributions cfg me S { s with markerTableReady := b } :=
      h.congr rfl rfl rfl (fun _ => .inl) (fun _ _ hw hs => ⟨hw,hs⟩) (fun _ _ _ => .inl) h.passed
    rcases hcase with ⟨rfl,hself⟩ | ⟨e,rfl,hdet⟩
    · cases force with
      | true => exact absurd ((hself rfl).trans h.self) (hremote rfl)
      | false => exact hready
    · simp only
      split_ifs with hd hf
      · have hq := bumpQuarantineAttempt_quarantined s.quarantine cs.dot
        have hres : ∀ d,Node.resident { s.toNode with
            quarantine := bumpQuarantineAttempt s.quarantine cs.dot } d = s.resident d := by
          intro d
          rw [Bool.eq_iff_iff,Node.resident_iff,Node.resident_iff,Node.quarantined,hq]
          rfl
        refine h.congr rfl rfl rfl ?_ ?_ (fun _ _ _ => .inl) ?_
        · rintro c (hp | hp)
          · refine .inl (.inl ?_)
            rw [Node.quarantined,← hq]
            exact hp
          · exact .inl (.inr hp)
        · intro d _ hw hset
          rw [awaitsRetry_eq_false] at hw ⊢
          exact ⟨⟨(hres d).trans hw.1,hw.2⟩,hset⟩
        · intro c hcS hb hp
          exact (h.passed c hcS hb hp).imp_right (hres c.dot).trans
      · obtain ⟨hne,hun⟩ := hdet hd
        have hnot := hun.resolve_left hf
        refine h.congr rfl rfl rfl ?_ ?_ (fun _ _ _ => .inl) h.passed
        · rintro c (hp | ⟨f,hp,rfl⟩ | hp)
          · exact .inl (.inl hp)
          · rcases mem_concat.mp hp with hp | rfl
            · exact .inl (.inr (.inl ⟨f,hp,rfl⟩))
            · exact .inr ⟨hcs,h.self ▸ hne⟩
          · exact .inl (.inr (.inr hp))
        · intro d _ hw hset
          rw [awaitsRetry_eq_false] at hw ⊢
          refine ⟨⟨hw.1,fun f hf' => ?_⟩,hset⟩
          rcases mem_concat.mp hf' with hf' | rfl
          · exact hw.2 f hf'
          · rintro rfl
            rw [hset.isAppliedRemote ⟨hseq,hstale (by simpa using hf)⟩ hne] at hnot
            exact Bool.noConfusion hnot
      · exact hready
  · rw [hn']
    cases added with
    | true => exact h.commit hB hS hcs hwait hstale hprune hc
    | false => exact h.recommit hS hcs hc

theorem Contributions.markApplied
    (hcs : ∀ c ∈ S,counterBearing cfg.catalog c.records = true → c.dot = cs.dot → c.dot ∈ s.contributed ∨ s.resident c.dot = true) :
    Contributions cfg me S (s.markApplied cs) := by
  refine h.congr (Cache.markApplied_self _ _ _ _) rfl rfl (fun _ => .inl) ?_
    (fun _ _ _ => .inl) ?_
  · intro d _ hw hset
    exact ⟨hw,hset.imp_right fun hc => ⟨covers_markApplied hc.1 cs,hc.2⟩⟩
  · rintro c hcS hb (hp | hp)
    · rcases Finset.mem_insert.mp hp with hp | hp
      · exact hcs c hcS hb hp
      · exact h.passed c hcS hb (.inl hp)
    · exact h.passed c hcS hb (.inr hp)

theorem Contributions.mark (hf : s.inFlight = some ⟨cs,force,false⟩) :
    Contributions cfg me S { s.markApplied cs with inFlight := some ⟨cs,force,true⟩ } := by
  have hm : Contributions cfg me S (s.markApplied cs) :=
    h.markApplied fun c hcS hb hdot => .inl (h.landed c hcS hb (.inr ⟨_,hf,hdot.symm⟩))
  refine hm.congr rfl rfl rfl ?_ (fun _ _ hw hs => ⟨hw,hs⟩) ?_ hm.passed
  · rintro c (hp | hp | hp | ⟨f,hf',rfl⟩)
    · exact .inl (.inl hp)
    · exact .inl (.inr (.inl hp))
    · exact .inl (.inr (.inr (.inl hp)))
    · cases hf'
      exact .inl (.inr (.inr (.inr ⟨_,hf,rfl⟩)))
  · rintro c _ _ (hl | ⟨f,hf',hdot⟩)
    · exact .inl (.inl hl)
    · cases hf'
      exact .inl (.inr ⟨_,hf,hdot⟩)

theorem Contributions.journal (hf : s.inFlight = some ⟨cs,force,true⟩) :
    Contributions cfg me S { s.appendMirror cs with
      inFlight := none
      landed := if force then s.landed++[cs.dot] else s.landed } := by
  refine h.congr rfl rfl rfl ?_ (fun _ _ hw hs => ⟨hw,hs⟩) ?_ h.passed
  · rintro c (hp | hp | hp | ⟨f,hf',-⟩)
    · exact .inl (.inl hp)
    · exact .inl (.inr (.inl hp))
    · exact .inl (.inr (.inr (.inl hp)))
    · cases hf'
  · rintro c _ _ (hl | ⟨f,hf',-⟩)
    · cases force with
      | false => exact .inl (.inl hl)
      | true =>
        rcases mem_append.mp hl with hl | hl
        · exact .inl (.inl hl)
        · exact .inl (.inr ⟨_,hf,(mem_singleton.mp hl).symm⟩)
    · cases hf'

theorem Contributions.setAside {err : ApplyError} (hf : (cs,err) ∈ s.failed) :
    Contributions cfg me S { s with
      failed := s.failed.erase (cs,err)
      quarantine := putQuarantine s.quarantine cs err
      stored := s.stored++[cs] } := by
  have hpend : s.Pending cs := .inr (.inl ⟨_,hf,rfl⟩)
  refine h.congr rfl rfl rfl ?_ ?_ (fun _ _ _ => .inl) ?_
  · rintro c (hp | ⟨f,hf',rfl⟩ | hp | hp)
    · refine .inl ?_
      change c ∈ (putQuarantine s.quarantine cs err).map QuarantineEntry.changeset at hp
      rw [putQuarantine_changesets] at hp
      split_ifs at hp
      · exact .inl hp
      · rcases mem_append.mp hp with hp | hp
        · exact .inl hp
        · exact mem_singleton.mp hp ▸ hpend
    · exact .inl (.inr (.inl ⟨f,mem_of_mem_erase hf',rfl⟩))
    · rcases mem_append.mp hp with hp | hp
      · exact .inl (.inr (.inr (.inl hp)))
      · exact .inl (mem_singleton.mp hp ▸ hpend)
    · exact .inl (.inr (.inr (.inr hp)))
  · intro d _ hw hset
    rw [awaitsRetry_eq_false] at hw ⊢
    refine ⟨⟨?_,fun f hf' => hw.2 f (mem_of_mem_erase hf')⟩,hset⟩
    rw [Bool.eq_false_iff,ne_eq,resident_putQuarantine,hw.1]
    rintro (hd | hd)
    · exact hw.2 _ hf hd.symm
    · exact Bool.noConfusion hd
  · rintro c hcS hb (hp | ⟨c',hp,hdot⟩)
    · exact (h.passed c hcS hb (.inl hp)).imp_right fun hr =>
        (resident_putQuarantine _ _ _ _).mpr (.inr hr)
    · rcases mem_concat.mp hp with hp | rfl
      · exact (h.passed c hcS hb (.inr ⟨c',hp,hdot⟩)).imp_right fun hr =>
          (resident_putQuarantine _ _ _ _).mpr (.inr hr)
      · exact .inr ((resident_putQuarantine _ _ _ _).mpr (.inl hdot.symm))

theorem Contributions.dropFailed (f : Changeset × ApplyError) :
    Contributions cfg me S { s with failed := s.failed.erase f } := by
  refine h.congr rfl rfl rfl ?_ ?_ (fun _ _ _ => .inl) h.passed
  · rintro c (hp | ⟨f',hf',rfl⟩ | hp)
    · exact .inl (.inl hp)
    · exact .inl (.inr (.inl ⟨f',mem_of_mem_erase hf',rfl⟩))
    · exact .inl (.inr (.inr hp))
  · intro d _ hw hset
    rw [awaitsRetry_eq_false] at hw ⊢
    exact ⟨⟨hw.1,fun f' hf' => hw.2 f' (mem_of_mem_erase hf')⟩,hset⟩

theorem Contributions.advancePast (hst : cs ∈ s.stored) :
    Contributions cfg me S { s.markApplied cs with stored := s.stored.erase cs } := by
  have hm : Contributions cfg me S (s.markApplied cs) :=
    h.markApplied fun c hcS hb hdot => h.passed c hcS hb (.inr ⟨cs,hst,hdot.symm⟩)
  refine hm.congr rfl rfl rfl ?_ (fun _ _ hw hs => ⟨hw,hs⟩) (fun _ _ _ => .inl) ?_
  · rintro c (hp | hp | hp | hp)
    · exact .inl (.inl hp)
    · exact .inl (.inr (.inl hp))
    · exact .inl (.inr (.inr (.inl (mem_of_mem_erase hp))))
    · exact .inl (.inr (.inr (.inr hp)))
  · rintro c hcS hb (hp | ⟨c',hp,hdot⟩)
    · exact hm.passed c hcS hb (.inl hp)
    · exact hm.passed c hcS hb (.inr ⟨c',mem_of_mem_erase hp,hdot⟩)

theorem Contributions.clearEntry (hl : d ∈ s.landed) :
    Contributions cfg me S { s with
      quarantine := deleteQuarantine s.quarantine d
      landed := s.landed.erase d } := by
  refine h.congr rfl rfl rfl ?_ ?_ ?_ ?_
  · rintro c (hp | hp)
    · refine .inl (.inl ?_)
      obtain ⟨e,he,rfl⟩ := mem_map.mp hp
      exact mem_map_of_mem (mem_of_mem_filter he)
    · exact .inl (.inr hp)
  · intro x _ hw hset
    rw [awaitsRetry_eq_false] at hw ⊢
    refine ⟨⟨?_,hw.2⟩,hset⟩
    rw [Bool.eq_false_iff,ne_eq,resident_deleteQuarantine,hw.1]
    exact fun hx => Bool.noConfusion hx.2
  · rintro c _ _ (hc | hc)
    · exact .inl (.inl (mem_of_mem_erase hc))
    · exact .inl (.inr hc)
  · intro c hcS hb hp
    rcases h.passed c hcS hb hp with hc | hr
    · exact .inl hc
    · by_cases hd : c.dot = d
      · exact .inl (h.landed c hcS hb (.inl (hd ▸ hl)))
      · exact .inr ((resident_deleteQuarantine _ _ _).mpr ⟨hd,hr⟩)

end

theorem recoverMirror_self (cat : Catalog) (mirror : FinMap Origin (List Changeset))
    (origins : List Origin) (c : Cache) : (recoverMirror cat mirror origins c).self = c.self := by
  have hreplay : ∀ (css : List Changeset) (c : Cache),
      (css.foldl (replayChangeset cat) c).self = c.self := by
    intro css
    induction css with
    | nil => exact fun _ => rfl
    | cons cs css ih =>
      intro c
      rw [foldl_cons,ih,replayChangeset]
      split_ifs
      · rfl
      · rw [Cache.markApplied_self]
        exact (Cache.replayRecords_sameFrontier cat cs.stamp cs.records c).self
  unfold recoverMirror
  induction origins generalizing c with
  | nil => rfl
  | cons o origins ih =>
    rw [foldl_cons,ih,replayJournal]
    split_ifs
    · rfl
    · exact hreplay _ c

theorem Contributions.restart (h : s.Contributions cfg me S) (hB : s.Books) (kept : Origin → ℕ)
    (origins : List Origin) : Contributions cfg me S (s.restart cfg kept origins) := by
  refine h.congr (recoverMirror_self _ _ _ _) rfl rfl ?_ ?_ ?_ ?_
  · rintro c (hp | ⟨f,hf,-⟩ | hp | ⟨f,hf,-⟩)
    · exact .inl (.inl hp)
    · cases hf
    · cases hp
    · cases hf
  · intro d hd hw hset
    rw [awaitsRetry_eq_false] at hw ⊢
    refine ⟨⟨hw.1,fun f hf => by cases hf⟩,?_⟩
    exact hset.move (h.seq_ne_zero d hd) (hB.restart cfg kept origins) (Finset.Subset.refl _)
      fun _ hc => hc
  · rintro c _ _ (hl | ⟨f,hf,-⟩)
    · cases hl
    · cases hf
  · rintro c hcS hb (hp | ⟨c',hp,-⟩)
    · exact h.passed c hcS hb (.inl hp)
    · cases hp

theorem Contributions.step (hS : Workload S) (h : s.Contributions cfg me S) (hB : s.Books) {a : Action}
    (hdeliver : ∀ cs,a = .deliver cs → cs ∈ S) (hp : Permits cfg s a) :
    Contributions cfg me S (s.step cfg a) := by
  cases a with
  | deliver cs =>
    simp only [Replica.step]
    split_ifs
    · exact h
    · exact h.apply hB hS (hdeliver cs rfl) (fun hf => Bool.noConfusion hf)
        (fun hf => Bool.noConfusion hf) (fun _ => hp.1) hp.2
  | retry dot =>
    simp only [Replica.step]
    split_ifs
    · exact h
    · split
      · rename_i e he
        have hmem := mem_of_find?_eq_some he
        have hdot : e.changeset.dot = dot := by simpa using find?_some he
        have hq : e.changeset ∈ s.quarantined := mem_map_of_mem hmem
        obtain ⟨heS,hne⟩ := h.mem e.changeset (.inl hq)
        refine h.apply hB hS heS (fun _ => hne) (fun _ => ?_) (fun hf => Bool.noConfusion hf)
          (hp e hmem hdot)
        rw [awaitsRetry,Node.resident_iff.mpr ⟨_,hq,rfl⟩,Bool.true_or]
      · exact h
  | mark =>
    simp only [Replica.step]
    split
    · exact h.mark ‹_›
    · exact h
  | journal =>
    simp only [Replica.step]
    split
    · exact h.journal ‹_›
    · exact h
  | setAside cs err =>
    simp only [Replica.step]
    split_ifs with hf
    · exact h.dropFailed _
    · exact h.setAside hf
    · exact h
  | advancePast cs =>
    simp only [Replica.step]
    split_ifs with hst
    · exact h.advancePast hst
    · exact h
  | clearEntry dot =>
    simp only [Replica.step]
    split_ifs with hl
    · exact h.clearEntry hl
    · exact h
  | capture =>
    simp only [Replica.step]
    split_ifs
    · exact h
    · exact h.move rfl hB.capture (Finset.Subset.refl _) fun _ _ _ hc => hc
  | write =>
    simp only [Replica.step]
    split
    · rename_i snap hpass
      exact h.move rfl (hB.write hpass) (Finset.Subset.refl _) fun d hd hst hc =>
        hB.covers_written hpass ⟨hd,hst⟩ (hB.captured _ hpass d ⟨hd,hst⟩ hc)
    · exact h
  | writeFails =>
    simp only [Replica.step]
    split
    · exact h.move rfl hB.endPass (Finset.Subset.refl _) fun _ _ _ hc => hc
    · exact h
  | acknowledge =>
    simp only [Replica.step]
    split
    · rename_i snap hpass
      exact h.move rfl (hB.acknowledge hpass) (Finset.Subset.refl _) fun _ _ _ hc => hc
    · exact h
  | evict o =>
    simp only [Replica.step]
    split_ifs with he
    · refine h.move ?_ (hB.evict (Prod.ext he rfl)) Finset.subset_union_left fun _ _ _ hc => hc
      unfold Cache.evictOrigin
      split_ifs <;> rfl
    · exact h
  | crash kept origins => exact h.restart hB kept origins

theorem Contributions.run (hS : Workload S) {actions : List Action}
    (hdeliver : ∀ cs,.deliver cs ∈ actions → cs ∈ S)
    (hp : Machine.Permitted (Replica.step cfg) (Permits cfg) (Replica.new me) actions) :
    (run cfg (Replica.new me) actions).Contributions cfg me S ∧
      (run cfg (Replica.new me) actions).Books := by
  have hp' := hp.and_forall (Q := fun a => ∀ cs,a = .deliver cs → cs ∈ S)
    fun a ha cs h => hdeliver cs (h ▸ ha)
  exact hp'.invariant (I := fun s => s.Contributions cfg me S ∧ s.Books)
    (fun s a hs ha => ⟨hs.1.step hS hs.2 ha.2 ha.1,hs.2.step cfg a⟩) ⟨.new cfg me S,.new me⟩

end Contributions

/-- The transactions that have left the rows of `app.db`, one after another, each with its changeset
and the records that it ran. -/
inductive Transactions (cat : Catalog) : List (Changeset × List Record) → Rows → Prop
  | nil : Transactions cat [] ∅
  | concat {txns : List (Changeset × List Record)} {d d' : Data} {cs : Changeset}
      {records : List Record} (h : Transactions cat txns d.rows)
      (hrun : applyData cat d cs.stamp records = .ok d') :
      Transactions cat (txns++[(cs,records)]) d'.rows

/-- The transactions that ran the contributions of a changeset. -/
def contributing (cat : Catalog) (txns : List (Changeset × List Record)) : List Dot :=
  (txns.filter fun x => counterBearing cat x.2).map fun x => x.1.dot

/-- The rows come from transactions that ran their changeset whole or without its contributions. -/
structure Explained (cfg : Config) (s : Replica) (txns : List (Changeset × List Record)) : Prop where
  rows : Transactions cfg.catalog txns s.rows
  records : ∀ x ∈ txns,x.2 = x.1.records ∨ x.2 = stripCounterContributions cfg.catalog x.1.records
  contributed : contributing cfg.catalog txns = s.contributed

section Explained

variable {cfg : Config} {s s' : Replica} {txns : List (Changeset × List Record)}

theorem Explained.congr (h : s.Explained cfg txns) (hrows : s'.rows = s.rows)
    (hcontributed : s'.contributed = s.contributed) : s'.Explained cfg txns :=
  ⟨hrows ▸ h.rows,h.records,hcontributed ▸ h.contributed⟩

theorem Explained.apply (h : s.Explained cfg txns) (cs : Changeset) (force : Bool) :
    ∃ txns',(s.apply cfg cs force).Explained cfg txns' := by
  rcases applyCommit_cases cfg s.toNode cs force with ⟨b,r,hr,hcase⟩ | ⟨n',added,hn',hc⟩
  · refine ⟨txns,h.congr ?_ ?_⟩ <;> simp only [Replica.apply,hr] <;>
      rcases hcase with ⟨rfl,-⟩ | ⟨e,rfl,-⟩ <;> simp only <;> split_ifs <;> rfl
  · refine ⟨txns++[(cs,if added then cs.records
      else stripCounterContributions cfg.catalog cs.records)],?_,fun x hx => ?_,?_⟩
    · simp only [Replica.apply,hn']
      exact h.rows.concat hc.ran
    · rcases mem_concat.mp hx with hx | rfl
      · exact h.records x hx
      · cases added with
        | true => exact .inl rfl
        | false => exact .inr rfl
    · simp only [Replica.apply,hn']
      rw [contributing,filter_append,map_append,← contributing,h.contributed]
      cases added with
      | true => simp [hc.bearing rfl]
      | false => simp [counterBearing_strip]

theorem Explained.step (h : s.Explained cfg txns) (a : Action) :
    ∃ txns',(s.step cfg a).Explained cfg txns' := by
  cases a with
  | deliver cs =>
    simp only [Replica.step]
    split_ifs
    · exact ⟨txns,h⟩
    · exact h.apply cs false
  | retry dot =>
    simp only [Replica.step]
    split_ifs
    · exact ⟨txns,h⟩
    · split
      · exact h.apply _ true
      · exact ⟨txns,h⟩
  | crash kept origins => exact ⟨txns,h.congr rfl rfl⟩
  | _ =>
    refine ⟨txns,h.congr ?_ ?_⟩ <;> simp only [Replica.step] <;> repeat' split
    all_goals rfl

theorem Explained.run (cfg : Config) (me : Origin) (actions : List Action) :
    ∃ txns,(run cfg (new me) actions).Explained cfg txns := by
  induction actions using reverseRecOn with
  | nil => exact ⟨[],.nil,fun _ hx => absurd hx not_mem_nil,rfl⟩
  | append_singleton actions a ih =>
    obtain ⟨txns,h⟩ := ih
    rw [Replica.run,foldl_append]
    exact h.step a

end Explained

end Replica

namespace ExactlyOnceSample

def table : Table where
  id := 1
  columns := [⟨1,1,false,true,false,.null,.binary⟩,⟨2,0,true,true,false,.int 0,.binary⟩,⟨3,0,false,true,false,.null,.binary⟩]
  uniqueKeys := []
  cellGroup := true
  dropped := false

def config : Config where
  catalog := ⟨fun id => if id = 1 then some table else none⟩
  schemaSeq := 0
  quarantineCap := 8

def key (b : Byte) : RowKey := ⟨1,replicate 15 0++[1,3,1,b]⟩
def inserted (seq : Seq) (b : Byte) : Changeset :=
  ⟨⟨8,seq⟩,⟨⟨seq.toNat,0⟩,8⟩,[.insert (key b) 1 [⟨2,colInt,.text,[0,0,0,0,0,0,0,0]⟩,
    ⟨3,colText,.text,[97]⟩]],0⟩
def added (seq : Seq) (n : Byte) : Changeset :=
  ⟨⟨7,seq⟩,⟨⟨3+seq.toNat,0⟩,7⟩,[.update (key 97) 1 [⟨2,colInt,.delta,[0,0,0,0,0,0,0,n]⟩]],0⟩
def changesets : Finset Changeset := {inserted 1 98,inserted 2 97,added 1 5,added 2 1,added 3 1}

def err : ApplyError := .constraintFailed .notNull (key 97)
def applied (cs : Changeset) : List Action := [.deliver cs,.mark,.journal]
def pass : List Action := [.capture,.write,.acknowledge]

/-- The first addition outruns its row, waits in quarantine and lands at a retry; the process stops
before the entry is deleted. -/
def retried : List Action :=
  applied (inserted 1 98)++[.deliver (added 1 5),.setAside (added 1 5) err,.advancePast (added 1 5)]++
    applied (inserted 2 97)++[.retry ⟨7,1⟩,.mark,.journal,.crash (fun _ => 9) [7,8]]

theorem workload : Workload changesets where
  wellFormed := by decide
  dot_inj := by decide
  stamp_inj := by decide

theorem deliver_mem {actions : List Action} {l : List Changeset}
    (h : actions.filterMap (fun a => match a with | .deliver cs => some cs | _ => none) = l)
    (hl : ∀ cs ∈ l,cs ∈ changesets) : ∀ cs,.deliver cs ∈ actions → cs ∈ changesets :=
  fun cs hcs => hl cs (h ▸ mem_filterMap.mpr ⟨_,hcs,rfl⟩)

/-- The entry that survived the crash is retried while its marker stands. -/
def early : List Action := retried++[.retry ⟨7,1⟩,.mark,.journal,.clearEntry ⟨7,1⟩]

end ExactlyOnceSample

end Syzy
