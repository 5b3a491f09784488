import Syzy.CausalRun
import Syzy.SelfCapture

/-!
Recovery of a node after any run: what is handed out keeps its dot and its place in the self-log, and
a restart followed by a drain leaves each replicated commit in exactly one changeset of the log, as
long as no host crash takes away what a persisted snapshot counts.
-/

namespace Syzy

open Machine List SelfNode

def SelfBatch.work (b : SelfBatch) : ℕ :=
  b.toAppend.length+(if b.toSync then 1 else 0)+b.toHand.length+b.toAlloc+1

namespace SelfNode

variable (b : SelfBatch)

/-- A crash, a restart and a drain of the whole journal. -/
def recover (cat : Catalog) (view : RowKey → RowState) (schemaSeq : ℕ) (s : SelfNode) : SelfNode :=
  (replicate (3*s.journal.length+2) SelfStep.tick).foldl (step cat)
    ((((s.step cat .crash).step cat .restart)).step cat (.collect s.journal.length view schemaSeq))

/-- The log covers the seqs that the persisted snapshot counts. -/
def Covered (s : SelfNode) : Prop := (s.store.senderSeqs.getD s.self).toNat ≤ s.log.length+1

/-- A host crash leaves in the log what the persisted snapshot counts. -/
def KeepsCounted (s : SelfNode) : SelfStep → Prop
  | .hostCrash kept => (s.store.senderSeqs.getD s.self).toNat ≤ (s.survivors kept).length+1
  | _ => True

instance (s : SelfNode) (a : SelfStep) : Decidable (s.KeepsCounted a) := by
  unfold KeepsCounted
  split <;> infer_instance

def Builds (cat : Catalog) (journal : List Commit) : Prop :=
  ∀ c ∈ journal,∃ evs,buildRecordEvidence cat c.touches = .ok evs

/-- The node comes back, and a drain to the end of a journal that builds gives each replicated commit
one changeset. -/
def Recovers (cat : Catalog) (s : SelfNode) : Prop :=
  ∀ view schemaSeq,(s.recover cat view schemaSeq).process.isSome = true ∧
    (Builds cat s.journal → (s.recover cat view schemaSeq).log.map SelfLogEntry.endOffset =
      offsets cat s.journal)

variable {cat : Catalog} {s : SelfNode} {p : Process} {a : SelfStep}

@[simp] theorem tickBatch_self : (s.tickBatch p b).self = s.self := by
  obtain ⟨_ | _,_ | _,_ | _,_,_ | _,_⟩ := b <;> rfl

@[simp] theorem tickBatch_journal : (s.tickBatch p b).journal = s.journal := by
  obtain ⟨_ | _,_ | _,_ | _,_,_ | _,_⟩ := b <;> rfl

@[simp] theorem restart_frame : (s.restart cat).self = s.self ∧ (s.restart cat).journal = s.journal ∧
    (s.restart cat).log = s.log ∧ (s.restart cat).store = s.store := by
  unfold restart
  split <;> exact ⟨rfl,rfl,rfl,rfl⟩

theorem tickBatch_process : (s.tickBatch p b).process ≠ none := by
  obtain ⟨_ | _,_ | _,_ | _,_,_ | _,_⟩ := b <;> exact Option.some_ne_none _

/-- An action that finds or leaves no process keeps the log and the store, a host crash apart. -/
theorem step_of_none (h : s.process = none ∨ (s.step cat a).process = none)
    (hh : ∀ kept,a ≠ .hostCrash kept) :
    (s.step cat a).self = s.self ∧ (s.step cat a).log = s.log ∧ (s.step cat a).store = s.store := by
  cases a with
  | hostCrash kept => exact absurd rfl (hh kept)
  | commit | crash => exact ⟨rfl,rfl,rfl⟩
  | restart =>
    simp only [step]
    split_ifs
    · exact ⟨rfl,rfl,rfl⟩
    · exact ⟨restart_frame.1,restart_frame.2.2⟩
  | tick =>
    cases hp : s.process with
    | none => simp [step,hp]
    | some p =>
      cases hb : p.batch with
      | none => simp [step,hp,hb]
      | some b =>
        simp only [step,hp,hb,reduceCtorEq,false_or] at h
        exact absurd h (tickBatch_process b)
  | write =>
    cases hp : s.process with
    | none => simp [step,hp]
    | some p =>
      cases hsnap : p.snapshot with
      | none => simp [step,hp,hsnap]
      | some snap => simp [step,hp,hsnap,writeSnapshot] at h
  | inbound c =>
    simp only [step]
    split
    · exact ⟨rfl,rfl,rfl⟩
    · split_ifs <;> exact ⟨rfl,rfl,rfl⟩
  | _ =>
    simp only [step]
    split <;> exact ⟨rfl,rfl,rfl⟩

theorem step_frame (s : SelfNode) (a : SelfStep) : (s.step cat a).self = s.self ∧
    s.journal.length ≤ (s.step cat a).journal.length := by
  cases hp : s.process with
  | none => cases a <;> simp [step,hp]
  | some p =>
    cases a with
    | tick => cases hb : p.batch <;> simp [step,hp,hb]
    | write => cases hsnap : p.snapshot <;> simp [step,hp,hsnap,writeSnapshot]
    | inbound c =>
      simp only [step,hp]
      split_ifs <;> exact ⟨rfl,le_rfl⟩
    | _ => simp [step,hp]

theorem journal_run (cat : Catalog) (s : SelfNode) (as : List SelfStep) :
    s.journal.length ≤ (as.foldl (step cat) s).journal.length := by
  induction as generalizing s with
  | nil => exact le_rfl
  | cons a as ih => exact (s.step_frame a).2.trans (ih _)

theorem run_self (s : SelfNode) (as : List SelfStep) : (as.foldl (step cat) s).self = s.self := by
  induction as generalizing s with
  | nil => rfl
  | cons a as ih => exact (ih _).trans (s.step_frame a).1

section

variable (h : s.OK cat)
include h

theorem OK.run (as : List SelfStep)
    (hfew : (as.foldl (SelfNode.step cat) s).journal.length+1 < 2^64) :
    (as.foldl (SelfNode.step cat) s).OK cat := by
  induction as generalizing s with
  | nil => exact h
  | cons a as ih =>
    have hs := s.journal_run cat (a::as)
    exact ih (h.step (by omega) a) hfew

theorem OK.covered_of_some (hp : s.process = some p) : s.Covered :=
  (h.process p hp).covered

theorem OK.covered_step (hfew : s.journal.length+1 < 2^64) (hcov : s.Covered)
    (ha : s.KeepsCounted a) : (s.step cat a).Covered := by
  cases hq : (s.step cat a).process with
  | some q => exact (h.step hfew a).covered_of_some hq
  | none =>
    by_cases hh : ∃ kept,a = .hostCrash kept
    · obtain ⟨kept,rfl⟩ := hh
      exact ha
    · obtain ⟨hself,hlog,hstore⟩ := step_of_none (.inr hq) fun kept hk => hh ⟨kept,hk⟩
      rw [Covered,hself,hlog,hstore]
      exact hcov

theorem OK.not_covered_step (hcov : ¬s.Covered) : ¬(s.step cat a).Covered := by
  by_cases hh : ∃ kept,a = .hostCrash kept
  · obtain ⟨kept,rfl⟩ := hh
    intro hle
    refine hcov (le_trans hle ?_)
    show (s.log.take (max kept s.synced)).length+1 ≤ s.log.length+1
    rw [length_take]
    omega
  have hp : s.process = none := by
    cases hp : s.process with
    | none => rfl
    | some p => exact absurd (h.covered_of_some hp) hcov
  obtain ⟨hself,hlog,hstore⟩ := step_of_none (.inl hp) fun kept hk => hh ⟨kept,hk⟩
  rw [Covered,hself,hlog,hstore]
  exact hcov

theorem OK.not_covered_run (hcov : ¬s.Covered) (as : List SelfStep)
    (hfew : (as.foldl (SelfNode.step cat) s).journal.length+1 < 2^64) :
    ¬(as.foldl (SelfNode.step cat) s).Covered := by
  induction as generalizing s with
  | nil => exact hcov
  | cons a as ih =>
    have hs := s.journal_run cat (a::as)
    exact ih (h.step (by omega) a) (h.not_covered_step hcov) hfew

/-- The log of a run covers the snapshot at its end exactly when no host crash took from it what the
snapshot counts. -/
theorem OK.covered_iff (hcov : s.Covered) (as : List SelfStep)
    (hfew : (as.foldl (SelfNode.step cat) s).journal.length+1 < 2^64) :
    (as.foldl (SelfNode.step cat) s).Covered ↔ Permitted (SelfNode.step cat) KeepsCounted s as := by
  induction as generalizing s with
  | nil => exact iff_of_true hcov trivial
  | cons a as ih =>
    have hs := s.journal_run cat (a::as)
    have hok := h.step (by omega) a
    rw [permitted_cons]
    by_cases ha : s.KeepsCounted a
    · rw [and_iff_right ha]
      exact ih hok (h.covered_step (by omega) hcov ha) hfew
    · refine iff_of_false (hok.not_covered_run ?_ as hfew) fun hp => ha hp.1
      cases a with
      | hostCrash kept => exact ha
      | _ => exact absurd trivial ha

end

def Drained (s : SelfNode) (off : ℕ) : Prop :=
  ∃ p,s.process = some p ∧ p.dead = false ∧ p.batch = none ∧ p.drained = off

theorem tickBatch_work : ∃ q,(s.tickBatch p b).process = some q ∧ q.dead = p.dead ∧
    ((q.batch = none ∧ q.drained = b.endOffset) ∨
      ∃ b',q.batch = some b' ∧ b'.endOffset = b.endOffset ∧ b'.work+1 = b.work) := by
  obtain ⟨toAppend,toSync,toHand,toPublish,toAlloc,endOffset⟩ := b
  cases toAppend with
  | cons e rest =>
    refine ⟨_,rfl,rfl,.inr ⟨_,rfl,rfl,?_⟩⟩
    simp only [SelfBatch.work,length_cons]
    omega
  | nil =>
    cases toSync with
    | true =>
      refine ⟨_,rfl,rfl,.inr ⟨_,rfl,rfl,?_⟩⟩
      simp only [SelfBatch.work,if_true,Bool.false_eq_true,if_false]
      omega
    | false =>
      cases toHand with
      | cons cs rest =>
        refine ⟨_,rfl,rfl,.inr ⟨_,rfl,rfl,?_⟩⟩
        simp only [SelfBatch.work,length_cons]
        omega
      | nil =>
        cases toAlloc with
        | succ n =>
          refine ⟨_,rfl,rfl,.inr ⟨_,rfl,rfl,?_⟩⟩
          simp only [SelfBatch.work]
          omega
        | zero => exact ⟨_,rfl,rfl,.inl ⟨rfl,rfl⟩⟩

theorem Drained.ticks {off : ℕ} (h : s.Drained off) (n : ℕ) :
    ((replicate n SelfStep.tick).foldl (step cat) s).Drained off := by
  induction n generalizing s with
  | zero => exact h
  | succ n ih =>
    obtain ⟨p,hp,hdead,hb,hoff⟩ := h
    have htick : s.step cat .tick = s := by simp [step,hp,hb]
    rw [replicate_succ,foldl_cons,htick]
    exact ih ⟨p,hp,hdead,hb,hoff⟩

theorem drained_ticks {b : SelfBatch} (hp : s.process = some p) (hdead : p.dead = false)
    (hb : p.batch = some b) {n : ℕ} (hn : b.work ≤ n) :
    ((replicate n SelfStep.tick).foldl (step cat) s).Drained b.endOffset := by
  induction n generalizing s p b with
  | zero => exact absurd hn (by simp [SelfBatch.work])
  | succ n ih =>
    have htick : s.step cat .tick = s.tickBatch p b := by simp [step,hp,hb]
    rw [replicate_succ,foldl_cons,htick]
    obtain ⟨q,hq,hqdead,hdone | ⟨b',hb',hoff,hwork⟩⟩ := tickBatch_work (s := s) (p := p) b
    · exact Drained.ticks ⟨q,hq,hqdead.trans hdead,hdone.1,hdone.2⟩ n
    · rw [← hoff]
      exact ih hq (hqdead.trans hdead) hb' (by omega)

theorem parseBatch_of_builds {journal : List Commit} (h : Builds cat journal) (d n : ℕ) :
    ∃ parsed,parseBatch cat journal d n = .ok parsed := by
  refine ExceptFold.mapM_total fun x hx => ?_
  obtain ⟨evs,hevs⟩ := h x.1 ((drop_subset _ _) ((take_subset _ _)
    (fst_mem_of_mem_zipIdx hx)))
  exact ⟨(x.2,x.1.stamp,evs),by rw [hevs]; rfl⟩

theorem collect_work {journal : List Commit} {o : Origin} {n : ℕ}
    {parsed : List (ℕ × Stamp × List RecordEvidence)} (hdead : p.dead = false) (hb : p.batch = none)
    (hparse : parseBatch cat journal p.drained n = .ok parsed) (view : RowKey → RowState)
    (schemaSeq : ℕ) :
    (p.collect cat o journal n view schemaSeq).dead = false ∧
      (((p.collect cat o journal n view schemaSeq).batch = none ∧
          (p.collect cat o journal n view schemaSeq).drained = p.drained+parsed.length) ∨
        ∃ b,(p.collect cat o journal n view schemaSeq).batch = some b ∧
          b.endOffset = p.drained+parsed.length ∧ b.work = 3*b.toAppend.length+2) := by
  unfold Process.collect
  rw [if_neg (by simp [hdead,hb]),hparse]
  dsimp only
  split_ifs
  · exact ⟨hdead,.inl ⟨hb,rfl⟩⟩
  · refine ⟨hdead,.inr ⟨_,rfl,rfl,?_⟩⟩
    simp only [SelfBatch.work,length_map,if_true]
    omega

theorem OK.drains (h : s.OK cat) (hp : s.process = some p) (hdead : p.dead = false)
    (hb : p.batch = none) (hbuilds : Builds cat s.journal) (view : RowKey → RowState)
    (schemaSeq : ℕ) :
    ((replicate (3*s.journal.length+2) SelfStep.tick).foldl (SelfNode.step cat)
      (s.step cat (.collect s.journal.length view schemaSeq))).Drained s.journal.length := by
  have hproc := h.process p hp
  obtain ⟨parsed,hparse⟩ := parseBatch_of_builds hbuilds p.drained s.journal.length
  have hend : p.drained+parsed.length = s.journal.length := by
    have hlen := (parsed_spec hparse).1
    have hdrained : (p.drained : ℕ) ≤ s.journal.length := hproc.drained
    rw [length_zipIdx,length_take,length_drop,Nat.min_eq_right (Nat.sub_le _ _)] at hlen
    rw [hlen]
    exact Nat.add_sub_cancel' hdrained
  have hcollect := hproc.collect h.log s.journal.length view schemaSeq
  have hwork := collect_work (o := s.self) hdead hb hparse view schemaSeq
  have hstep : s.step cat (.collect s.journal.length view schemaSeq) =
      { s with process := some (p.collect cat s.self s.journal s.journal.length view schemaSeq) } := by
    simp only [SelfNode.step,hp]
  rw [hstep]
  generalize p.collect cat s.self s.journal s.journal.length view schemaSeq = q at hcollect hwork
  obtain ⟨hdead',⟨hnone,hoff⟩ | ⟨b,hb',hoff,hwork⟩⟩ := hwork
  · exact Drained.ticks ⟨_,rfl,hdead',hnone,hoff.trans hend⟩ _
  · have hfull := (hcollect.batch b hb').full.length_le
    rw [length_append] at hfull
    have hn : b.work ≤ 3*s.journal.length+2 := by omega
    have hticks : ((replicate (3*s.journal.length+2) SelfStep.tick).foldl (SelfNode.step cat)
        { s with process := some q }).Drained b.endOffset := drained_ticks rfl hdead' hb' hn
    rw [show (b.endOffset : ℕ) = s.journal.length from hoff.trans hend] at hticks
    exact hticks

theorem upTo_length (cat : Catalog) (journal : List Commit) :
    upTo cat journal journal.length = offsets cat journal := by
  refine filter_eq_self.mpr fun x hx => decide_eq_true ?_
  have := (mem_offsetsFrom_bounds hx).2
  omega

theorem ticks_frame (n : ℕ) :
    ((replicate n SelfStep.tick).foldl (step cat) s).journal = s.journal ∧
      (((replicate n SelfStep.tick).foldl (step cat) s).process = none ↔ s.process = none) := by
  induction n generalizing s with
  | zero => exact ⟨rfl,Iff.rfl⟩
  | succ n ih =>
    have htick : (s.step cat .tick).journal = s.journal ∧
        ((s.step cat .tick).process = none ↔ s.process = none) := by
      cases hp : s.process with
      | none => simp [step,hp]
      | some p => cases hb : p.batch <;> simp [step,hp,hb,tickBatch_process]
    rw [replicate_succ,foldl_cons,ih.1,ih.2]
    exact htick

theorem recover_of_restart {c : Cache} (view : RowKey → RowState) (schemaSeq : ℕ)
    (hc : recoverSelf cat s.log (Cache.loadFromMeta s.self s.store) = .ok c) :
    s.recover cat view schemaSeq = (replicate (3*s.journal.length+2) SelfStep.tick).foldl (step cat)
      (step cat { s with process := some ⟨c,c.snapshotMarker s.self,none,false,none⟩ }
        (.collect s.journal.length view schemaSeq)) := by
  have hrestart : (s.step cat .crash).step cat .restart =
      { s with process := some ⟨c,c.snapshotMarker s.self,none,false,none⟩ } := by
    show restart cat { s with process := none } = _
    unfold restart
    rw [hc]
  rw [recover,hrestart]

/-- A node comes back exactly when its log covers the snapshot, and then it drains. -/
theorem OK.recovers_iff (h : s.OK cat) (hfew : s.journal.length+1 < 2^64) :
    s.Recovers cat ↔ s.Covered := by
  have hspec := recoverSelf_spec h.log h.store hfew
  split_ifs at hspec with hcov
  · refine iff_of_true (fun view schemaSeq => ?_) hcov
    obtain ⟨c,hc,-⟩ := hspec
    have hup : OK cat
        { s with process := some ⟨c,c.snapshotMarker s.self,none,false,none⟩ } := by
      have hres := h.restart hfew
      unfold SelfNode.restart at hres
      rwa [hc] at hres
    rw [recover_of_restart view schemaSeq hc]
    refine ⟨?_,fun hbuilds => ?_⟩
    · rw [← Option.ne_none_iff_isSome]
      exact mt (ticks_frame _).2.mp (by simp [SelfNode.step])
    · obtain ⟨p,hp,hdead,hb,hoff⟩ := hup.drains rfl rfl rfl hbuilds view schemaSeq
      have hfinal := (hup.step hfew (.collect s.journal.length view schemaSeq)).run
        (replicate (3*s.journal.length+2) SelfStep.tick) (by rw [(ticks_frame _).1]; exact hfew)
      have hidle := ((hfinal.process p hp).idle hdead hb).1
      rw [(ticks_frame _).1,hoff] at hidle
      exact hidle.symm.trans (upTo_length cat s.journal)
  · refine iff_of_false (fun hrec => ?_) hcov
    obtain ⟨err,herr⟩ := hspec
    have hrestart : (s.step cat .crash).step cat .restart = { s with process := none } := by
      show SelfNode.restart cat { s with process := none } = _
      unfold SelfNode.restart
      rw [herr]
    have hnone : (s.recover cat (fun _ => default) 0).process = none := by
      rw [recover,hrestart,(ticks_frame _).2]
      rfl
    exact absurd (hrec (fun _ => default) 0).1 (by simp [hnone])

end SelfNode

/-- Over every run with crashes and restarts no dot is handed out twice and the self-log keeps what
was handed out; the node recovers with every replicated commit captured if and only if no host crash
took away a changeset that a persisted snapshot counts. -/
theorem selfLog_captures_once (cat : Catalog) (o : Origin) (as : List SelfStep)
    (hfew : (as.foldl (step cat) (.new o)).journal.length+1 < 2^64) :
    (∀ cs ∈ (as.foldl (step cat) (.new o)).handed,
      ∀ cs' ∈ (as.foldl (step cat) (.new o)).handed,cs.dot = cs'.dot → cs = cs') ∧
    (∀ cs ∈ (as.foldl (step cat) (.new o)).handed,
      ∃ e ∈ (as.foldl (step cat) (.new o)).log,e.changeset = cs) ∧
    LogOK cat o (as.foldl (step cat) (.new o)).journal
      (as.foldl (step cat) (.new o)).log ∧
    ((as.foldl (step cat) (.new o)).Recovers cat ↔
      Permitted (step cat) KeepsCounted (.new o) as) := by
  have hok := (new_ok cat o).run as hfew
  have hself : (as.foldl (step cat) (.new o)).self = o := run_self _ as
  refine ⟨fun cs hcs cs' hcs' hdot => ?_,fun cs hcs => ?_,?_,?_⟩
  · obtain ⟨i,e,-,hi,rfl⟩ := hok.handed cs hcs
    obtain ⟨j,e',-,hj,rfl⟩ := hok.handed cs' hcs'
    rw [hok.log.eq_of_dot hfew hi hj hdot]
  · obtain ⟨i,e,-,hi,he⟩ := hok.handed cs hcs
    exact ⟨e,mem_of_getElem? hi,he⟩
  · have hlog := hok.log
    rwa [hself] at hlog
  · rw [hok.recovers_iff hfew]
    exact (new_ok cat o).covered_iff (Nat.zero_le 1) as hfew

/-! A node with one row and crashes around its first changeset. -/
namespace SelfLogSample

open CaptureSample CausalSample

def insertRow : SelfStep := .commit (commit 1 [.insert (place (.rowid 1)) (image 1 10)])
def updateRow : SelfStep :=
  .commit (commit 2 [.update (place (.rowid 1)) (place (.rowid 1)) (image 1 10) (image 1 11)])

def collectAll : SelfStep := .collect 8 (fun _ => default) 0

/-- The first changeset is appended and lost before the sync; the second time it is captured. -/
def loses : List SelfStep :=
  [.restart,insertRow,collectAll,.tick,.hostCrash 0,.restart,collectAll,.tick,.tick,.tick,.tick,.tick,
    .capture,.write,updateRow,.hostCrash 0]

theorem loses_captured : ((loses.foldl (step catalog) (.new 1)).Recovers catalog) ∧
    (loses.foldl (step catalog) (.new 1)).handed.length = 1 :=
  ⟨(selfLog_captures_once catalog 1 loses (by decide)).2.2.2.mpr (by decide +kernel),by decide⟩

/-- The first changeset is appended, the process dies before the sync, and its successor counts the
changeset in a snapshot before the host dies. -/
def counts : List SelfStep :=
  [.restart,insertRow,collectAll,.tick,.crash,.restart,.capture,.write,.hostCrash 0]

/-- The node never comes back, and its commit is in no changeset. -/
theorem counts_uncaptured : ((counts.foldl (step catalog) (.new 1)).recover catalog
      (fun _ => default) 0).process.isNone = true ∧
    ((counts.foldl (step catalog) (.new 1)).recover catalog (fun _ => default) 0).log.length = 0 ∧
    offsets catalog (counts.foldl (step catalog) (.new 1)).journal = [1] := by
  decide

end SelfLogSample

end Syzy
