import Syzy.SelfLog

/-!
Runs of a node with crashes at any point. The log always holds one changeset for each of the first
commits that replicate, with consecutive seqs; whatever was handed out is under the sync; and the
recovered marker stands exactly where the log ends.
-/

namespace Syzy

open ExceptFold UInt64 List SelfLogEntry

def replicated (cat : Catalog) (c : Commit) : Bool :=
  match buildRecordEvidence cat c.touches with
  | .ok evs => evs ≠ []
  | .error _ => false

/-- The offsets past the replicated commits of a piece of the journal that begins at an offset. -/
def offsetsFrom (cat : Catalog) (k : ℕ) (journal : List Commit) : List ℕ :=
  ((journal.zipIdx (k+1)).filter fun x => replicated cat x.1).map Prod.snd

def offsets (cat : Catalog) (journal : List Commit) : List ℕ := offsetsFrom cat 0 journal

def upTo (cat : Catalog) (journal : List Commit) (p : ℕ) : List ℕ :=
  (offsets cat journal).filter (· ≤ p)

section Offsets

variable {cat : Catalog} {journal : List Commit} {k p : ℕ}

theorem offsetsFrom_append (A B : List Commit) :
    offsetsFrom cat k (A++B) = offsetsFrom cat k A++offsetsFrom cat (k+A.length) B := by
  unfold offsetsFrom
  rw [zipIdx_append,filter_append,map_append]
  congr 4
  omega

theorem offsetsFrom_sublist : (offsetsFrom cat k journal).Sublist (range' (k+1) journal.length) := by
  have h := (filter_sublist (p := fun x : Commit × ℕ => replicated cat x.1)
    (l := journal.zipIdx (k+1))).map Prod.snd
  rwa [zipIdx_map_snd] at h

theorem mem_offsetsFrom_bounds {o : ℕ} (h : o ∈ offsetsFrom cat k journal) :
    k < o ∧ o ≤ k+journal.length := by
  have := mem_range'_1.mp (offsetsFrom_sublist.subset h)
  omega

theorem offsets_sorted : (offsets cat journal).Pairwise (· < ·) :=
  (pairwise_lt_range' (s := 0+1) (n := journal.length)).sublist offsetsFrom_sublist

/-- A longer journal has the same commits before an offset of the shorter one. -/
theorem upTo_append (B : List Commit) (hp : p ≤ journal.length) :
    upTo cat (journal++B) p = upTo cat journal p := by
  have hB : (offsetsFrom cat (0+journal.length) B).filter (· ≤ p) = [] := by
    refine filter_eq_nil_iff.mpr fun o ho => ?_
    have := mem_offsetsFrom_bounds ho
    simp only [decide_eq_true_eq]
    omega
  rw [upTo,offsets,offsetsFrom_append,filter_append,hB,append_nil]
  rfl

theorem upTo_take_drop (cat : Catalog) {journal : List Commit} (d n : ℕ) (hd : d ≤ journal.length) :
    upTo cat journal (d+((journal.drop d).take n).length) =
      upTo cat journal d++offsetsFrom cat d ((journal.drop d).take n) := by
  let B := (journal.drop d).take n
  have hsplit : journal = journal.take d++(B++(journal.drop d).drop n) := by
    simp [B]
  have hlen : (journal.take d).length = d := by simp [hd]
  have hoff : offsets cat journal = offsetsFrom cat 0 (journal.take d)++(offsetsFrom cat d B++
      offsetsFrom cat (d+B.length) ((journal.drop d).drop n)) := by
    conv_lhs => rw [hsplit]
    rw [offsets,offsetsFrom_append,offsetsFrom_append,hlen,Nat.zero_add]
  have hfilter : ∀ (l : List ℕ) (q : ℕ),(∀ o ∈ l,o ≤ q) → l.filter (· ≤ q) = l :=
    fun l q h => filter_eq_self.mpr fun o ho => decide_eq_true (h o ho)
  have hnil : ∀ (l : List ℕ) (q : ℕ),(∀ o ∈ l,q < o) → l.filter (· ≤ q) = [] :=
    fun l q h => filter_eq_nil_iff.mpr fun o ho => by
      have := h o ho
      simp only [decide_eq_true_eq]
      omega
  have hA : ∀ o ∈ offsetsFrom cat 0 (journal.take d),o ≤ d := fun o ho => by
    have := mem_offsetsFrom_bounds ho
    omega
  have hB : ∀ o ∈ offsetsFrom cat d B,d < o ∧ o ≤ d+B.length := fun o ho => mem_offsetsFrom_bounds ho
  have hC : ∀ o ∈ offsetsFrom cat (d+B.length) ((journal.drop d).drop n),d+B.length < o :=
    fun o ho => (mem_offsetsFrom_bounds ho).1
  unfold upTo
  rw [hoff]
  simp only [filter_append]
  rw [hfilter _ _ fun o ho => (hA o ho).trans (Nat.le_add_right _ _),
    hfilter _ (d+B.length) fun o ho => (hB o ho).2,hnil _ (d+B.length) hC,
    hfilter _ d hA,hnil _ d fun o ho => (hB o ho).1,
    hnil _ d fun o ho => (Nat.le_add_right _ _).trans_lt (hC o ho)]
  simp [B]

theorem upTo_initial (hp : p ≤ journal.length) : upTo cat journal p <+: offsets cat journal := by
  have h := upTo_take_drop cat 0 p (Nat.zero_le journal.length)
  have hlen : ((journal.drop 0).take p).length = p := by simp [hp]
  have hzero : upTo cat journal 0 = [] := by
    refine filter_eq_nil_iff.mpr fun o ho => ?_
    have := (mem_offsetsFrom_bounds ho).1
    simp only [decide_eq_true_eq]
    omega
  rw [hlen,Nat.zero_add,hzero,nil_append,drop_zero] at h
  refine ⟨offsetsFrom cat p (journal.drop p),?_⟩
  have hsplit : offsets cat journal = offsetsFrom cat 0 (journal.take p++journal.drop p) := by
    rw [take_append_drop]
    rfl
  have htake : (journal.take p).length = p := by simp [hp]
  rw [h,hsplit,offsetsFrom_append,htake,Nat.zero_add]

end Offsets

/-- The entry's changeset ships the commit that ends at its offset. -/
def ShipsCommit (cat : Catalog) (journal : List Commit) (e : SelfLogEntry) : Prop :=
  ∃ (i : ℕ) (c : Commit) (evs : List RecordEvidence) (b : SinkBatch),e.endOffset = i+1 ∧
    journal[i]? = some c ∧ e.changeset.stamp = c.stamp ∧ buildRecordEvidence cat c.touches = .ok evs ∧
    e.changeset.records = (SinkBatch.buildRecords cat c.stamp { b with records := [] } evs).records

section Build

variable {cat : Catalog} {o : Origin} {schemaSeq : ℕ}

theorem SinkBatch.emits_ne_nil (b : SinkBatch) (ev : RecordEvidence) : b.emits ev ≠ [] := by
  cases ev <;> exact cons_ne_nil _ _

theorem SinkBatch.records_eq_nil_iff {stamp : Stamp} {b : SinkBatch} {evs : List RecordEvidence} :
    (buildRecords cat stamp { b with records := [] } evs).records = [] ↔ evs = [] := by
  cases evs with
  | nil => simp [buildRecords]
  | cons ev evs =>
    simp only [reduceCtorEq,iff_false]
    intro hnil
    have hp := records_buildRecords_extends cat stamp (buildRecord cat stamp { b with records := [] } ev) evs
    change _ <+: (buildRecords cat stamp { b with records := [] } (ev::evs)).records at hp
    rw [hnil,prefix_nil,records_buildRecord] at hp
    exact emits_ne_nil _ _ (append_eq_nil_iff.mp hp).2

structure Built (cat : Catalog) (o : Origin) (seq : Seq)
    (parsed : List (ℕ × Stamp × List RecordEvidence)) (es : List SelfLogEntry) : Prop where
  offsets : es.map endOffset = (parsed.filter fun x => x.2.2 ≠ []).map Prod.fst
  dots : ∀ (i : ℕ) (e : SelfLogEntry),es[i]? = some e → e.changeset.dot = ⟨o,seq+UInt64.ofNat i⟩
  records : ∀ e ∈ es,∃ x ∈ parsed,∃ b : SinkBatch,e.endOffset = x.1 ∧ e.changeset.stamp = x.2.1 ∧
    e.changeset.records = (SinkBatch.buildRecords cat x.2.1 { b with records := [] } x.2.2).records

theorem built_buildChangesets (cat : Catalog) (o : Origin) (schemaSeq : ℕ) (parsed : List (ℕ × Stamp × List RecordEvidence)) (b : SinkBatch)
    (seq : Seq) : Built cat o seq parsed (buildChangesets cat o schemaSeq b seq parsed).1 := by
  induction parsed generalizing b seq with
  | nil => exact ⟨rfl,fun i e h => absurd h (by simp [buildChangesets]),fun e h => absurd h not_mem_nil⟩
  | cons x parsed ih =>
    obtain ⟨off,stamp,evs⟩ := x
    rw [buildChangesets]
    by_cases hnil : evs = []
    · rw [if_pos (SinkBatch.records_eq_nil_iff.mpr hnil)]
      have h := ih (SinkBatch.buildRecords cat stamp { b with records := [] } evs) seq
      refine ⟨?_,h.dots,fun e he => ?_⟩
      · rw [h.offsets]
        simp [hnil]
      · obtain ⟨x,hx,hrest⟩ := h.records e he
        exact ⟨x,mem_cons_of_mem _ hx,hrest⟩
    · rw [if_neg (mt SinkBatch.records_eq_nil_iff.mp hnil)]
      have h := ih (SinkBatch.buildRecords cat stamp { b with records := [] } evs) (seq+1)
      refine ⟨?_,fun i e he => ?_,fun e he => ?_⟩
      · simp [hnil,h.offsets]
      · cases i with
        | zero =>
          cases he
          simp
        | succ i =>
          rw [h.dots i e he,ofNat_add,UInt64.add_assoc,UInt64.add_comm (UInt64.ofNat i)]
          rfl
      · rcases mem_cons.mp he with rfl | he
        · exact ⟨_,mem_cons_self,b,rfl,rfl,rfl⟩
        · obtain ⟨x,hx,hrest⟩ := h.records e he
          exact ⟨x,mem_cons_of_mem _ hx,hrest⟩

theorem parsed_spec {l : List (Commit × ℕ)} {parsed : List (ℕ × Stamp × List RecordEvidence)}
    (h : (l.mapM fun x => (buildRecordEvidence cat x.1.touches).map fun evs => (x.2,x.1.stamp,evs)) =
      .ok parsed) :
    parsed.length = l.length ∧ (parsed.filter fun x => x.2.2 ≠ []).map Prod.fst =
        (l.filter fun x => replicated cat x.1).map Prod.snd ∧
      ∀ x ∈ parsed,∃ c,(c,x.1) ∈ l ∧ x.2.1 = c.stamp ∧ buildRecordEvidence cat c.touches = .ok x.2.2 := by
  induction l generalizing parsed with
  | nil =>
    cases h
    exact ⟨rfl,rfl,by simp⟩
  | cons y l ih =>
    rw [mapM_cons] at h
    obtain ⟨x,hx,h⟩ := bind_eq_ok.mp h
    obtain ⟨rest,hrest,h⟩ := bind_eq_ok.mp h
    cases h
    obtain ⟨evs,hevs,rfl⟩ := map_eq_ok.mp hx
    obtain ⟨hlen,hoff,hmem⟩ := ih hrest
    have hrep : replicated cat y.1 = decide (evs ≠ []) := by simp [replicated,hevs]
    refine ⟨by simp [hlen],?_,fun x hx => ?_⟩
    · by_cases hnil : evs = []
      · simp [hnil,hrep,← hoff]
      · simp [hnil,hrep,← hoff]
    · rcases mem_cons.mp hx with rfl | hx
      · exact ⟨y.1,mem_cons_self,rfl,hevs⟩
      · obtain ⟨c,hc,hrest⟩ := hmem x hx
        exact ⟨c,mem_cons_of_mem _ hc,hrest⟩

end Build

/-- A log of one node: a changeset for each of the first replicated commits, numbered from one. -/
structure LogOK (cat : Catalog) (o : Origin) (journal : List Commit) (log : List SelfLogEntry) :
    Prop where
  offsets : log.map endOffset <+: offsets cat journal
  dots : ∀ (i : ℕ) (e : SelfLogEntry),log[i]? = some e → e.changeset.dot = ⟨o,UInt64.ofNat (i+1)⟩
  ships : ∀ e ∈ log,ShipsCommit cat journal e

theorem toNat_ofNat_seq {n : ℕ} (h : n < 2^64) : (UInt64.ofNat n).toNat = n := by
  rw [toNat_ofNat']
  exact Nat.mod_eq_of_lt h

section Log

variable {cat : Catalog} {o : Origin} {journal : List Commit} {log : List SelfLogEntry}

theorem LogOK.length_le (h : LogOK cat o journal log) : log.length ≤ journal.length := by
  have h₁ := h.offsets.length_le
  have h₂ : (Syzy.offsets cat journal).length ≤ (range' (0+1) journal.length).length :=
    offsetsFrom_sublist.length_le
  rw [length_map] at h₁
  rw [length_range'] at h₂
  exact h₁.trans h₂

theorem LogOK.of_initial {log' : List SelfLogEntry} (h : LogOK cat o journal log) (hp : log' <+: log) :
    LogOK cat o journal log' where
  offsets := (hp.map endOffset).trans h.offsets
  dots := by
    intro i e he
    obtain ⟨rest,rfl⟩ := hp
    refine h.dots i e ?_
    rw [getElem?_append_left (List.getElem?_eq_some_iff.mp he).1]
    exact he
  ships := fun e he => h.ships e (hp.subset he)

theorem LogOK.endOffset_pos (h : LogOK cat o journal log) {e : SelfLogEntry} (he : e ∈ log) :
    e.endOffset ≠ 0 := by
  have hmem := h.offsets.subset (mem_map_of_mem (f := endOffset) he)
  exact Nat.ne_of_gt (mem_offsetsFrom_bounds hmem).1

theorem LogOK.concat {es : List SelfLogEntry} {c : Commit} (h : LogOK cat o journal es) :
    LogOK cat o (journal++[c]) es where
  offsets := by
    refine h.offsets.trans ?_
    unfold Syzy.offsets
    rw [offsetsFrom_append]
    exact prefix_append _ _
  dots := h.dots
  ships := by
    intro e he
    obtain ⟨i,c',evs,b,hoff,hget,hrest⟩ := h.ships e he
    refine ⟨i,c',evs,b,hoff,?_,hrest⟩
    rw [getElem?_append_left (List.getElem?_eq_some_iff.mp hget).1]
    exact hget

theorem LogOK.eq_of_dot (h : LogOK cat o journal log) (hfew : journal.length+1 < 2^64) {i j : ℕ}
    {e e' : SelfLogEntry} (hi : log[i]? = some e) (hj : log[j]? = some e')
    (hdot : e.changeset.dot = e'.changeset.dot) : e = e' := by
  have hlen := h.length_le
  have hi' := (List.getElem?_eq_some_iff.mp hi).1
  have hj' := (List.getElem?_eq_some_iff.mp hj).1
  rw [h.dots i e hi,h.dots j e' hj] at hdot
  have hseq : UInt64.ofNat (i+1) = UInt64.ofNat (j+1) := congrArg Dot.seq hdot
  have hnat := congrArg UInt64.toNat hseq
  rw [toNat_ofNat_seq (by omega),toNat_ofNat_seq (by omega)] at hnat
  have : i = j := by omega
  subst this
  exact Option.mem_unique hi hj

end Log

section Recovery

variable {cat : Catalog} {c : Cache} {pre log : List SelfLogEntry} {s : SelfReplay} {e : SelfLogEntry}

/-- The replay of the first entries of a log. -/
structure Replayed (c : Cache) (pre : List SelfLogEntry) (s : SelfReplay) : Prop where
  self : s.cache.self = c.self
  legacy : s.legacy = 0
  maxSeq : s.maxSeq.toNat = pre.length
  seqs : (s.cache.senderNextSeq.getD c.self).toNat =
    max (c.senderNextSeq.getD c.self).toNat (if pre = [] then 0 else pre.length+1)
  dirty : c.self ∈ s.cache.dirtySenderSeqs → s.cache.metaDirty = true
  clean : c.self ∉ s.cache.dirtySenderSeqs →
    s.cache.senderNextSeq.getD c.self = c.senderNextSeq.getD c.self
  above : ∀ e ∈ pre,e.endOffset ≤ s.marker
  base : c.snapshotMarker c.self ≤ s.marker
  attained : s.marker = c.snapshotMarker c.self ∨ ∃ e ∈ pre,s.marker = e.endOffset

theorem observeHLC_senderNextSeq (c : Cache) (clk : Clock) :
    (c.observeHLC clk).self = c.self ∧ (c.observeHLC clk).senderNextSeq = c.senderNextSeq ∧
      (c.observeHLC clk).dirtySenderSeqs = c.dirtySenderSeqs ∧
      (c.metaDirty = true → (c.observeHLC clk).metaDirty = true) := by
  unfold Cache.observeHLC
  split_ifs
  · exact ⟨rfl,rfl,rfl,fun _ => rfl⟩
  · exact ⟨rfl,rfl,rfl,id⟩

theorem getD_observeSelfSeq (c : Cache) (o : Origin) (seq : Seq) (hseq : seq.toNat+1 < 2^64) :
    (FinMap.getD (c.observeSelfSeq o seq).senderNextSeq o).toNat =
      max (c.senderNextSeq.getD o).toNat (seq.toNat+1) := by
  have hsucc : (seq+1).toNat = seq.toNat+1 := by
    rw [UInt64.toNat_add,toNat_one,Nat.mod_eq_of_lt hseq]
  unfold Cache.observeSelfSeq
  split_ifs with hlt
  · rw [lt_iff_toNat_lt,hsucc] at hlt
    simp only [FinMap.getD_insert,if_true,hsucc]
    omega
  · rw [lt_iff_toNat_lt,hsucc] at hlt
    omega

theorem observeSelfSeq_marks (c : Cache) (o : Origin) (seq : Seq) :
    (c.observeSelfSeq o seq).self = c.self ∧ ((o ∈ c.dirtySenderSeqs → c.metaDirty = true) →
        o ∈ (c.observeSelfSeq o seq).dirtySenderSeqs → (c.observeSelfSeq o seq).metaDirty = true) ∧
      (o ∉ (c.observeSelfSeq o seq).dirtySenderSeqs → o ∉ c.dirtySenderSeqs ∧
        FinMap.getD (c.observeSelfSeq o seq).senderNextSeq o = c.senderNextSeq.getD o) := by
  unfold Cache.observeSelfSeq
  split_ifs
  · exact ⟨rfl,fun _ _ => rfl,fun h => absurd (Finset.mem_insert_self _ _) h⟩
  · exact ⟨rfl,id,fun h => ⟨h,rfl⟩⟩

theorem Replayed.entry (h : Replayed c pre s) (hoff : e.endOffset ≠ 0)
    (hdot : e.changeset.dot = ⟨c.self,UInt64.ofNat (pre.length+1)⟩) (hfew : pre.length+2 < 2^64) :
    ∃ s',recoverEntry cat s e = .ok s' ∧ Replayed c (pre++[e]) s' := by
  have horigin : e.changeset.dot.origin = c.self := congrArg Dot.origin hdot
  have hseq : e.changeset.dot.seq.toNat = pre.length+1 := by
    rw [hdot]
    exact toNat_ofNat_seq (by omega)
  unfold recoverEntry
  rw [if_neg hoff,if_neg (by rw [horigin,h.self]; exact not_not.mpr rfl)]
  refine ⟨_,rfl,?_⟩
  set observed := s.cache.observeSelfSeq s.cache.self e.changeset.dot.seq with hobserved
  obtain ⟨hself₁,hmark₁,hclean₁⟩ := observeSelfSeq_marks s.cache c.self e.changeset.dot.seq
  have hgetD := getD_observeSelfSeq s.cache c.self e.changeset.dot.seq (by omega)
  rw [← h.self,← hobserved] at hself₁ hmark₁ hclean₁ hgetD
  obtain ⟨hself₂,hseqs₂,hdirty₂,hmeta₂⟩ := observeHLC_senderNextSeq observed e.changeset.stamp.clock
  have hsame := Cache.replayRecords_sameFrontier cat e.changeset.stamp
    (e.changeset.records.filter fun r => ¬r.isBlobPatch) (observed.observeHLC e.changeset.stamp.clock)
  refine ⟨?_,h.legacy,?_,?_,fun hmem => ?_,fun hmem => ?_,fun e' he' => ?_,?_,?_⟩
  · rw [hsame.self,hself₂,hself₁,h.self]
  · rw [length_append]
    show (if s.maxSeq < e.changeset.dot.seq then e.changeset.dot.seq else s.maxSeq).toNat = _
    rw [if_pos (by rw [lt_iff_toNat_lt,hseq,h.maxSeq]; omega),hseq]
    rfl
  · rw [hsame.senderNextSeq,hseqs₂,← h.self,hgetD,h.self,h.seqs,hseq]
    simp only [append_eq_nil_iff,cons_ne_nil,and_false,if_false,length_append,length_singleton]
    split_ifs <;> omega
  · rw [hsame.dirtySenderSeqs,hdirty₂,← h.self] at hmem
    rw [hsame.metaDirty]
    exact hmeta₂ (hmark₁ (by rw [h.self]; exact h.dirty) hmem)
  · rw [hsame.dirtySenderSeqs,hdirty₂,← h.self] at hmem
    obtain ⟨hmem,hval⟩ := hclean₁ hmem
    rw [hsame.senderNextSeq,hseqs₂,← h.self,hval,h.self]
    exact h.clean (by rw [← h.self]; exact hmem)
  · show e'.endOffset ≤ if s.marker < e.endOffset then e.endOffset else s.marker
    rcases mem_concat.mp he' with he' | rfl
    · have := h.above e' he'
      split_ifs with hlt
      · exact this.trans hlt.le
      · exact this
    · split_ifs with hlt
      · exact le_rfl
      · exact not_lt.mp hlt
  · show _ ≤ if s.marker < e.endOffset then e.endOffset else s.marker
    split_ifs with hlt
    · exact h.base.trans hlt.le
    · exact h.base
  · show (if s.marker < e.endOffset then e.endOffset else s.marker) = _ ∨ ∃ e' ∈ _,
      (if s.marker < e.endOffset then e.endOffset else s.marker) = _
    split_ifs with hlt
    · exact .inr ⟨e,by simp,rfl⟩
    · refine h.attained.imp id ?_
      rintro ⟨e',he',hm⟩
      exact ⟨e',by simp [he'],hm⟩

theorem replayed_log {o : Origin} {journal : List Commit} (h : LogOK cat o journal log)
    (hself : c.self = o) (hclean : c.dirtySenderSeqs = ∅) (hfew : journal.length+1 < 2^64) :
    ∃ s,log.foldlM (recoverEntry cat) ⟨c,c.snapshotMarker c.self,0,0⟩ = .ok s ∧ Replayed c log s := by
  have hinit : Replayed c [] ⟨c,c.snapshotMarker c.self,0,0⟩ := by
    refine ⟨rfl,rfl,rfl,by simp,fun hmem => ?_,fun _ => rfl,by simp,le_rfl,.inl rfl⟩
    rw [hclean] at hmem
    exact absurd hmem (Finset.notMem_empty _)
  have hlen := h.length_le
  have hentry : ∀ pre e post,log = pre++e::post → ∀ s,Replayed c pre s →
      ∃ s',recoverEntry cat s e = .ok s' ∧ Replayed c (pre++[e]) s' := by
    intro pre e post hlog s hs
    have hget : log[pre.length]? = some e := by simp [hlog]
    have hlt : pre.length < log.length := (List.getElem?_eq_some_iff.mp hget).1
    refine hs.entry (h.endOffset_pos (by simp [hlog])) ?_ (by omega)
    rw [hself]
    exact h.dots _ _ hget
  rcases foldlM_invariant (f := recoverEntry cat) hinit
    (fun pre e post s s' hlog hs hok => by
      obtain ⟨s'',hok',hs''⟩ := hentry pre e post hlog s hs
      exact Except.ok.inj (hok'.symm.trans hok) ▸ hs'') with hok | ⟨err,pre,e,post,s',-,hlog,hs',herr⟩
  · exact hok
  · obtain ⟨s'',hok',-⟩ := hentry pre e post hlog s' hs'
    exact absurd (hok'.symm.trans herr) (by simp)

theorem LogOK.upTo_marker {o : Origin} {journal : List Commit} (h : LogOK cat o journal log) {m M : ℕ}
    (hm : (upTo cat journal m).length ≤ log.length) (habove : ∀ e ∈ log,e.endOffset ≤ M)
    (hattained : M = m ∨ ∃ e ∈ log,M = e.endOffset) :
    upTo cat journal M = log.map endOffset := by
  obtain ⟨rest,hrest⟩ := h.offsets
  have hsorted : (log.map endOffset++rest).Pairwise (· < ·) := hrest ▸ offsets_sorted
  have hbelow := (pairwise_append.mp hsorted).2.2
  have hlow : (log.map endOffset).filter (· ≤ M) = log.map endOffset := by
    refine filter_eq_self.mpr fun x hx => ?_
    obtain ⟨e,he,rfl⟩ := mem_map.mp hx
    exact decide_eq_true (habove e he)
  have hhigh : rest.filter (· ≤ M) = [] := by
    refine filter_eq_nil_iff.mpr fun x hx => ?_
    rw [decide_eq_true_eq,not_le]
    rcases hattained with rfl | ⟨e,he,rfl⟩
    · by_contra hle
      rw [not_lt] at hle
      have hall : (log.map endOffset).filter (· ≤ M) = log.map endOffset :=
        filter_eq_self.mpr fun y hy => decide_eq_true ((hbelow y hy x hx).le.trans hle)
      have hmem : x ∈ rest.filter (· ≤ M) := mem_filter.mpr ⟨hx,decide_eq_true hle⟩
      rw [upTo,← hrest,filter_append,hall,length_append,length_map] at hm
      have := length_pos_of_mem hmem
      omega
    · exact hbelow _ (mem_map_of_mem he) x hx
  rw [upTo,← hrest,filter_append,hlow,hhigh,append_nil]

/-- What the snapshot says of the node's own changesets. -/
structure StoreOK (cat : Catalog) (o : Origin) (journal : List Commit) (m : Meta) : Prop where
  marker : (upTo cat journal (m.snapshotMarkers.getD o)).length ≤ (m.senderSeqs.getD o).toNat-1
  inside : m.snapshotMarkers.getD o ≤ journal.length

structure AtEnd (cat : Catalog) (o : Origin) (journal : List Commit) (log : List SelfLogEntry)
    (store : Meta) (c : Cache) : Prop where
  self : c.self = o
  next : (c.senderNext o).toNat = log.length+1
  marker : upTo cat journal (c.snapshotMarker o) = log.map endOffset
  inside : c.snapshotMarker o ≤ journal.length
  dirty : o ∈ c.dirtySenderSeqs → c.metaDirty = true
  clean : o ∉ c.dirtySenderSeqs → c.senderNextSeq.getD o = store.senderSeqs.getD o

variable {o : Origin} {journal : List Commit} {store : Meta}

theorem Cache.toNat_senderNext (c : Cache) (o : Origin) :
    (c.senderNext o).toNat = max (c.senderNextSeq.getD o).toNat 1 := by
  unfold Cache.senderNext
  split_ifs with h0
  · simp [h0]
  · have : (c.senderNextSeq.getD o).toNat ≠ 0 := fun hz => h0 (UInt64.toNat_inj.mp hz)
    omega

/-- Recovery succeeds exactly when the log covers the seqs the snapshot counts. -/
theorem recoverSelf_spec (h : LogOK cat o journal log) (hstore : StoreOK cat o journal store)
    (hfew : journal.length+1 < 2^64) :
    if (store.senderSeqs.getD o).toNat ≤ log.length+1 then
      ∃ c,recoverSelf cat log (.loadFromMeta o store) = .ok c ∧ AtEnd cat o journal log store c
    else ∃ err,recoverSelf cat log (.loadFromMeta o store) = .error err := by
  obtain ⟨s,hs,hr⟩ := replayed_log (c := .loadFromMeta o store) h rfl rfl hfew
  have hclaimed : ((Cache.loadFromMeta o store).senderNext o).toNat =
      max (store.senderSeqs.getD o).toNat 1 := Cache.toNat_senderNext _ o
  have hpred : 1 ≤ (Cache.loadFromMeta o store).senderNext o := by
    rw [le_iff_toNat_le,toNat_one]
    omega
  have hguard : (s.legacy = 0 ∧ 1 < (Cache.loadFromMeta o store).senderNext o ∧
      s.maxSeq < (Cache.loadFromMeta o store).senderNext o-1) ↔
      ¬(store.senderSeqs.getD o).toNat ≤ log.length+1 := by
    have hmax := hr.maxSeq
    constructor
    · rintro ⟨-,hone,hlt⟩
      rw [lt_iff_toNat_lt,toNat_one] at hone
      rw [lt_iff_toNat_lt,UInt64.toNat_sub_of_le _ _ hpred,toNat_one] at hlt
      omega
    · intro hnot
      refine ⟨hr.legacy,?_,?_⟩
      · rw [lt_iff_toNat_lt,toNat_one]
        omega
      · rw [lt_iff_toNat_lt,UInt64.toNat_sub_of_le _ _ hpred,toNat_one]
        omega
  have hrun : recoverSelf cat log (.loadFromMeta o store) =
      if s.legacy = 0 ∧ 1 < (Cache.loadFromMeta o store).senderNext o ∧
        s.maxSeq < (Cache.loadFromMeta o store).senderNext o-1
      then .error (.uncaptured s.maxSeq ((Cache.loadFromMeta o store).senderNext o))
      else .ok (s.cache.setSnapshotMarker o s.marker) := by
    unfold recoverSelf
    rw [hs]
    rfl
  rw [hrun]
  split_ifs with hcov hg hg
  · exact absurd hcov (hguard.mp hg)
  · refine ⟨_,rfl,?_⟩
    have hmarker : (s.cache.setSnapshotMarker o s.marker).snapshotMarker o = s.marker := by
      simp [Cache.snapshotMarker,Cache.setSnapshotMarker,FinMap.getD_insert]
    have hup : upTo cat journal s.marker = log.map endOffset :=
      h.upTo_marker (m := store.snapshotMarkers.getD o)
        (hstore.marker.trans (by omega)) hr.above hr.attained
    refine ⟨hr.self,?_,by rw [hmarker]; exact hup,?_,fun _ => rfl,hr.clean⟩
    · have hnext : ((s.cache.setSnapshotMarker o s.marker).senderNext o).toNat =
          max (s.cache.senderNextSeq.getD o).toNat 1 := Cache.toNat_senderNext _ o
      have hseqs : (s.cache.senderNextSeq.getD o).toNat =
          max (store.senderSeqs.getD o).toNat (if log = [] then 0 else log.length+1) := hr.seqs
      rw [hnext,hseqs]
      split_ifs with hnil
      · simp only [hnil,length_nil] at hcov ⊢
        omega
      · omega
    · rw [hmarker]
      rcases hr.attained with hm | ⟨e,he,hm⟩
      · rw [hm]
        exact hstore.inside
      · rw [hm]
        have hmem := h.offsets.subset (mem_map_of_mem (f := endOffset) he)
        simpa using (mem_offsetsFrom_bounds hmem).2
  · exact ⟨_,rfl⟩
  · exact absurd (hguard.mpr hcov) hg

end Recovery

end Syzy
