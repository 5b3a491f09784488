import Syzy.Reanchor
import Syzy.TailedLogRun

/-!
A stream that starts at the zero position misses nothing as long as the log is not restarted before
its first pass.
-/

namespace Syzy

open Paged Machine

section Run

variable {word : ChecksumPage} {first : UInt32} {p : Pin}

/-- The earlier generations hold nothing after the pin. -/
def WalLog.Fresh (p : Pin) (l : WalLog) : Prop :=
  ∀ k G,k < l.past.length → l.generations[k]? = some G → ∀ i < G.txns.length,¬p.Before k i

namespace WalLog.Fresh

variable {l : WalLog}

theorem now (l : WalLog) : l.Fresh ⟨l.past.length,l.live.txns.length⟩ := by
  intro k G hk _ i _ hb
  obtain hb | ⟨hb,-⟩ := hb
  · exact absurd (Nat.lt_trans hb hk) (Nat.lt_irrefl _)
  · exact absurd hk (hb ▸ Nat.lt_irrefl _)

theorem run {a : WalStep} (h : l.Fresh p) (hcalm : ∀ hdr written,a = .restart hdr written →
      ∀ i < l.live.txns.length,¬p.Before l.past.length i) : (a.run l).Fresh p := by
  intro k G hk hG
  cases a with
  | commit w =>
    obtain hG | ⟨rfl,-⟩ := WalLog.generations_commit hG
    · exact h k G hk hG
    · exact absurd hk (Nat.lt_irrefl _)
  | backfill frames => exact h k G hk hG
  | restart hdr written =>
    obtain hG | ⟨rfl,-⟩ := WalLog.generations_restart hG
    · rcases Nat.lt_or_eq_of_le (WalLog.le_of_generations hG) with hlt | rfl
      · exact h k G hlt hG
      · obtain rfl := Option.mem_unique WalLog.generations_live hG
        exact hcalm hdr written rfl
    · simp [WalStep.run,WalLog.restart] at hk

end WalLog.Fresh

namespace TailedLog

variable {s : TailedLog} {r : Reading}

/-- The tailer stands at the zero position, before anything that is due. -/
structure AtZero (first : UInt32) (p : Pin) (s : TailedLog) : Prop where
  sound : s.log.Sound first
  fresh : s.log.Fresh p
  zero : s.tailer.pos = .zero
  stage : s.stage = .idle ∨ (∃ n,s.stage = .drain n) ∨ ∃ n,s.stage = .checkpoint n

theorem zero_at (h : WalHeader) : Position.zero.At h (walWrites []) :=
  ⟨rfl,fun _ => ⟨rfl,rfl,rfl⟩,fun hn => absurd rfl hn,fun hn => absurd rfl hn⟩

variable (word) in
/-- The first pass reads the whole live generation, or leaves the tailer where it is. -/
theorem AtZero.pass (h : AtZero first p s)
    (htail : Uncommitted s.log.live.header s.log.live.txns r.tail) :
    let q := s.pass word s.tailer.pos none r
    q.2.tailer.pos = .zero ∧ (q.1 = true → s.log.live.txns = []) ∨
      Placed p.Before q.2 s.log.past.length s.log.live.txns [] := by
  intro q
  cases hw : s.log.written with
  | false =>
    have hq : q.2 = s := pass_unwritten hw
    exact .inl ⟨by rw [hq,h.zero],fun _ => h.sound.unwritten hw⟩
  | true =>
    obtain ⟨hpos,-,hok⟩ | ⟨hat,hys,f,hpatch,hship⟩ := pass_at word none
      h.sound hw (List.nil_append _).symm (h.zero ▸ zero_at _ : s.tailer.pos.At _ (walWrites [])) htail
      fun _ he => absurd he (by simp)
    · exact .inl ⟨hpos.trans h.zero,hok⟩
    · refine .inr (.of_accepted h.sound pass_frame.1 rfl hys hat hpatch hship ?_ ?_)
      · exact fun hj hG i hi hd => absurd hd (h.fresh _ _ hj hG i hi)
      · exact fun i hi => absurd hi (Nat.not_lt_zero i)

variable (word r) in
theorem AtZero.passTo (h : AtZero first p s) {stage : RecycleStage}
    (htail : Uncommitted s.log.live.header s.log.live.txns r.tail)
    (hstage : stage = .idle ∨ (∃ n,stage = .drain n) ∨ ∃ n,stage = .checkpoint n) :
    let s' := (s.pass word s.tailer.pos none r).2.atStage stage
    AtZero first p s' ∨ Tails first p.Before s' := by
  intro s'
  obtain ⟨hpos,-⟩ | hplaced := h.pass word htail
  · refine .inl ⟨sound_pass h.sound,?_,hpos,hstage⟩
    show (s.pass word s.tailer.pos none r).2.log.Fresh p
    rw [pass_frame.1]
    exact h.fresh
  · refine .inr (.of_placed (s := s') (sound_pass h.sound) (hplaced.congr rfl rfl rfl) ?_)
    obtain rfl | ⟨n,rfl⟩ | ⟨n,rfl⟩ := hstage
    · trivial
    · trivial
    · trivial

theorem AtZero.step (h : AtZero first p s) {a : TailedAction} (ha : s.Sqlite a)
    (hcalm : ∀ hdr written,a = .other (.restart hdr written) →
      ∀ i < s.log.live.txns.length,¬p.Before s.log.past.length i) :
    AtZero first p (s.step word a) ∨ Tails first p.Before (s.step word a) := by
  have hstage := h.stage
  cases a with
  | other a =>
    refine .inl ⟨h.sound.run ha,h.fresh.run fun hdr written heq => ?_,h.zero,h.stage⟩
    exact hcalm hdr written (congrArg _ heq)
  | sync r =>
    rw [TailedLog.step]
    cases hst : s.stage with
    | idle =>
      have hto := h.passTo word r ha (.inl (rfl : RecycleStage.idle = _))
      have heq : (s.pass word s.tailer.pos none r).2.atStage .idle =
          (s.pass word s.tailer.pos none r).2 := by
        have hidle : (s.pass word s.tailer.pos none r).2.stage = .idle := pass_frame.2.trans hst
        rw [atStage,← hidle]
      exact heq ▸ hto
    | _ => exact .inl h
  | checkpointUnderLock =>
    rw [TailedLog.step]
    cases s.stage with
    | idle => exact .inl ⟨h.sound,h.fresh,h.zero,.inr (.inl ⟨2,rfl⟩)⟩
    | _ => exact .inl h
  | drain r =>
    rw [TailedLog.step]
    cases hst : s.stage with
    | drain attempts =>
      refine h.passTo word r ha ?_
      cases (s.pass word s.tailer.pos none r).1 with
      | true => exact .inr (.inr ⟨attempts,rfl⟩)
      | false => exact .inl rfl
    | inPlace | adopt => simp [hst] at hstage
    | _ => exact .inl h
  | checkpoint failed busy frames =>
    rw [TailedLog.step]
    cases hst : s.stage with
    | checkpoint attempts =>
      refine .inl ⟨h.sound.run (a := .backfill frames) ha,
        h.fresh.run (a := .backfill frames) (fun _ _ heq => by cases heq),h.zero,?_⟩
      have hretry : ∀ n,(RecycleStage.retry n = .idle ∨ (∃ m,RecycleStage.retry n = .drain m) ∨
          ∃ m,RecycleStage.retry n = .checkpoint m) := by
        intro n
        cases n with
        | zero => exact .inl rfl
        | succ n => exact .inr (.inl ⟨n,rfl⟩)
      have hzero : s.tailer.pos.frameN = 0 := by rw [h.zero]; rfl
      dsimp only [atStage]
      rw [hzero]
      split_ifs with hf hb hz hn
      · exact .inl rfl
      · exact .inl rfl
      · exact .inl rfl
      · exact hretry attempts
      · exact absurd (not_not.mp hn).symm hz
    | _ => exact .inl h
  | recycle missing tail write =>
    rw [TailedLog.step]
    cases hst : s.stage with
    | recycle attempts nLog => simp [hst] at hstage
    | _ => exact .inl h
  | sample missing =>
    rw [TailedLog.step]
    cases hst : s.stage with
    | sample nLog frames => simp [hst] at hstage
    | _ => exact .inl h

theorem Placed.synced {due : ℕ → ℕ → Prop} {k : ℕ} {xs ys : List (Patch Bytes)}
    (h : Placed due s k xs ys) (hs : s.log.Sound first) (hw : s.log.written = true)
    (htail : Uncommitted s.log.live.header s.log.live.txns r.tail)
    (hok : (s.pass word s.tailer.pos none r).1 = true) :
    Placed due (s.pass word s.tailer.pos none r).2 s.log.past.length s.log.live.txns [] := by
  obtain ⟨⟨G,hG,htx,hat⟩,hne,hbefore,hread⟩ := id h
  by_cases hk : s.log.live.header.salt1 = G.header.salt1
  · obtain rfl := hs.eq_live hG hk
    obtain rfl := Option.mem_unique WalLog.generations_live hG
    obtain ⟨hpos,hship,hnil⟩ | ⟨hat',hys,f,hpatch,hship⟩ := pass_at word none
      hs hw htx hat htail fun _ he => absurd he (by simp)
    · obtain rfl := hnil hok
      rw [List.append_nil] at htx
      rw [htx]
      exact h.congr pass_frame.1 hpos hship
    · exact .of_accepted hs pass_frame.1 htx hys hat' hpatch hship hbefore hread
  · have hfail : s.pass word s.tailer.pos none r = (false,s.setTailer s.tailer) := by
      have hsync := sync_refused word hat hne hk
        (s.log.live.header.appendFrames s.log.live.header.chksum (walWrites s.log.live.txns)++r.tail)
        r.nextTXID
      rw [Tailer.sync] at hsync
      rw [TailedLog.pass,WalLog.file,hw,if_pos rfl,walFile,hsync]
    rw [hfail] at hok
    exact Bool.noConfusion hok

/-- Behind the last transaction of the live generation everything due is accepted. -/
theorem Placed.shipped_all {due : ℕ → ℕ → Prop} (h : Placed due s s.log.past.length s.log.live.txns [])
    {k : ℕ} {G : WalGeneration} (hG : s.log.generations[k]? = some G) (i : ℕ) (hi : i < G.txns.length)
    (hd : due k i) : s.Shipped k i := by
  rcases Nat.lt_or_eq_of_le (WalLog.le_of_generations hG) with hk | rfl
  · exact h.before hk hG i hi hd
  · obtain rfl := Option.mem_unique WalLog.generations_live hG
    exact h.read i hi hd

end TailedLog

namespace Anchoring

open TailedLog

variable {s : Anchoring}

/-- What the phase of the publisher says of its tailer. -/
def PhaseOK (first : UInt32) (s : Anchoring) : Prop :=
  match s.phase with
  | .standby => s.tailed.stage = .idle ∧ s.baseline = none
  | .claimed => s.tailed.stage = .idle ∧ s.baseline = none
  | .pinned p => s.tailed.stage = .idle ∧ s.baseline = none ∧ s.tailed.log.Fresh p
  | .promoted => s.tailed.stage = .idle ∧ ∃ p,s.baseline = some p ∧ s.tailed.log.Fresh p
  | .leading => s.tailed.stage = .idle ∧ ∃ p,s.baseline = some p ∧ s.tailed.log.Fresh p
  | .tailing => ∃ p,s.baseline = some p ∧ (AtZero first p s.tailed ∨ Tails first p.Before s.tailed)
  | .recycling => s.tailed.stage = .idle ∧ ∃ p,s.baseline = some p ∧ Tails first p.Before s.tailed
  | .recyclePinned q =>
    s.tailed.stage = .idle ∧ s.tailed.log.Fresh q ∧ ∃ p,s.baseline = some p ∧ Tails first p.Before s.tailed
  | .recyclePromoted => s.tailed.stage = .idle ∧ ∃ p,s.baseline = some p ∧ s.tailed.log.Fresh p

structure Anchored (first : UInt32) (s : Anchoring) : Prop where
  sound : s.tailed.log.Sound first
  phase : PhaseOK first s

theorem Anchored.other (h : Anchored first s) {a : WalStep} (ha : a.Ok s.tailed.log)
    (hcalm : ∀ hdr written,a = .restart hdr written → s.Settled) :
    Anchored first (s.setTailed (s.tailed.setLog (a.run s.tailed.log))) := by
  obtain ⟨hs,hphase⟩ := h
  refine ⟨hs.run ha,?_⟩
  have hfresh : ∀ p ∈ s.openPin,s.tailed.log.Fresh p → (a.run s.tailed.log).Fresh p :=
    fun p hp hf => hf.run fun hdr written heq => hcalm hdr written heq p hp
  revert hphase hfresh
  rw [PhaseOK,PhaseOK,openPin,setTailed]
  cases hph : s.phase with
  | standby | claimed => exact fun h _ => h
  | pinned p => exact fun ⟨h,hb,hf⟩ hfresh => ⟨h,hb,hfresh p rfl hf⟩
  | promoted | leading => exact fun ⟨h,p,hb,hf⟩ hfresh => ⟨h,p,hb,hfresh p hb hf⟩
  | tailing =>
    rintro ⟨p,hb,hz | ht⟩ hfresh
    · have hz' : s.tailed.tailer.pos.IsZero := by rw [hz.zero]; exact ⟨rfl,rfl,rfl⟩
      rw [if_pos hz'] at hfresh
      exact ⟨p,hb,.inl ⟨hs.run ha,hfresh p hb hz.fresh,hz.zero,hz.stage⟩⟩
    · exact ⟨p,hb,.inr (ht.other ha)⟩
  | recycling => exact fun ⟨h,p,hb,ht⟩ _ => ⟨h,p,hb,ht.other ha⟩
  | recyclePinned q => exact fun ⟨h,hf,p,hb,ht⟩ hfresh => ⟨h,hfresh q rfl hf,p,hb,ht.other ha⟩
  | recyclePromoted => exact fun ⟨h,p,hb,hf⟩ hfresh => ⟨h,p,hb,hfresh p hb hf⟩

variable (word) in
theorem Anchored.tail (h : Anchored first s) (hph : s.phase = .tailing) {a : TailedAction}
    (ha : s.tailed.Sqlite a) (hother : ∀ b,a ≠ .other b) :
    ∃ p,s.baseline = some p ∧ (AtZero first p (s.tailed.step word a) ∨
      Tails first p.Before (s.tailed.step word a)) := by
  obtain ⟨-,hphase⟩ := h
  rw [PhaseOK,hph] at hphase
  obtain ⟨p,hb,hz | ht⟩ := hphase
  · exact ⟨p,hb,hz.step ha fun hdr written heq => absurd heq (hother _)⟩
  · exact ⟨p,hb,.inr (ht.step ha)⟩

theorem sound_of_either {t : TailedLog} (h : AtZero first p t ∨ Tails first p.Before t) :
    t.log.Sound first := by
  obtain h | h := h
  · exact h.sound
  · exact h.sound

theorem Anchored.tailing (h : Anchored first s) (hph : s.phase = .tailing) {a : TailedAction}
    (ha : s.tailed.Sqlite a) (hother : ∀ b,a ≠ .other b) :
    Anchored first (s.setTailed (s.tailed.step word a)) := by
  obtain ⟨p,hb,hor⟩ := h.tail word hph ha hother
  refine ⟨sound_of_either hor,?_⟩
  rw [PhaseOK,setTailed,hph]
  exact ⟨p,hb,hor⟩

theorem emit_ne_mismatch {t t' : Tailer} {pos : Position} {pageSize draws : ℕ} {f : FrameScan}
    {draw : ℕ → ℕ} : t.emit word pos pageSize f draw ≠ .failed .prevFrameMismatch draws t' := by
  rw [Tailer.emit]
  dsimp only
  split_ifs
  · exact SyncPass.noConfusion
  · exact SyncPass.noConfusion
  · cases encodeIncremental _ _ _ with
    | error e =>
      intro h
      exact absurd (SyncPass.failed.inj h).1 (by simp)
    | ok f => exact SyncPass.noConfusion

theorem not_recycled_of_atZero {t : TailedLog} (h : AtZero first p t) (r : Reading) :
    t.recycled word r = false := by
  have hne : ∀ draws t',t.tailer.sync word (t.log.file r.missing r.tail) r.nextTXID ≠
      .failed .prevFrameMismatch draws t' := by
    intro draws t'
    rw [Tailer.sync,h.zero]
    cases t.log.file r.missing r.tail with
    | none => exact SyncPass.noConfusion
    | some w =>
      rw [Tailer.syncFrom,Tailer.openReader,if_pos ⟨rfl,rfl,rfl⟩]
      cases newWALReader w with
      | none => exact SyncPass.noConfusion
      | some reader =>
        dsimp only [Option.map_some]
        rw [if_neg fun hn => Bool.noConfusion hn.1]
        split_ifs
        · exact SyncPass.noConfusion
        · exact emit_ne_mismatch
  rw [recycled]
  split
  · rename_i draws t' heq
    exact absurd heq (hne draws t')
  · rfl

section

variable (h : Anchored first s)
include h

theorem Anchored.sync (hph : s.phase = .tailing) (hst : s.tailed.stage = .idle) {r : Reading}
    (ha : s.tailed.Sqlite (.sync r)) :
    Anchored first ((s.setTailed (s.tailed.step word (.sync r))).setPhase
      (if s.tailed.recycled word r then .recycling else .tailing)) := by
  cases hrec : s.tailed.recycled word r with
  | false =>
    obtain ⟨p,hb,hor⟩ := h.tail word hph ha fun _ => TailedAction.noConfusion
    exact ⟨sound_of_either hor,p,hb,hor⟩
  | true =>
    obtain ⟨hs,hphase⟩ := h
    rw [PhaseOK,hph] at hphase
    obtain ⟨p,hb,hz | ht⟩ := hphase
    · exact absurd hrec (by rw [not_recycled_of_atZero hz]; simp)
    · have ht' : Tails first p.Before (s.tailed.step word (.sync r)) := ht.step ha
      refine ⟨ht'.sound,?_,p,hb,ht'⟩
      rw [TailedLog.step,hst]
      exact pass_frame.2.trans hst

theorem Anchored.step {a : AnchorAction} (ha : s.Sqlite a) (hcalm : s.Calm a) :
    Anchored first (s.step word a) := by
  have hphase := h.phase
  rw [PhaseOK] at hphase
  cases a with
  | tail a =>
    cases a with
    | other b =>
      refine h.other ha fun hdr written heq => ?_
      subst heq
      exact hcalm
    | sync r =>
      rw [Anchoring.step]
      split
      · rename_i hph hst
        exact h.sync hph hst ha
      · exact h
    | _ =>
      rw [Anchoring.step]
      · split
        · rename_i hph
          exact h.tailing hph ha fun _ => TailedAction.noConfusion
        · exact h
      all_goals exact fun _ => TailedAction.noConfusion
  | standbyCheck => exact ⟨h.sound,h.phase⟩
  | standbyTruncate hdr =>
    rw [Anchoring.step]
    split
    · cases hdr with
      | none => exact ⟨h.sound,h.phase⟩
      | some hdr =>
        have hback := h.other (a := .backfill s.tailed.log.mxFrame) (Nat.le_refl _)
          fun _ _ heq => by cases heq
        have hrest := hback.other (a := .restart hdr false) (ha hdr rfl) fun _ _ _ => hcalm
        exact ⟨hrest.sound,hrest.phase⟩
    · exact h
  | claim =>
    rw [Anchoring.step]
    cases hph : s.phase with
    | standby =>
      rw [hph] at hphase
      exact ⟨h.sound,hphase⟩
    | _ => exact h
  | pin =>
    rw [Anchoring.step]
    cases hph : s.phase with
    | claimed =>
      rw [hph] at hphase
      exact ⟨h.sound,hphase.1,hphase.2,.now _⟩
    | recycling =>
      rw [hph] at hphase
      exact ⟨h.sound,hphase.1,.now _,hphase.2⟩
    | _ => exact h
  | promote =>
    rw [Anchoring.step]
    cases hph : s.phase with
    | pinned p =>
      rw [hph] at hphase
      exact ⟨h.sound,hphase.1,p,rfl,hphase.2.2⟩
    | recyclePinned p =>
      rw [hph] at hphase
      exact ⟨h.sound,hphase.1,p,rfl,hphase.2.1⟩
    | _ => exact h
  | lead =>
    rw [Anchoring.step]
    cases hph : s.phase with
    | promoted =>
      rw [hph] at hphase
      exact ⟨h.sound,hphase⟩
    | _ => exact h
  | startStream ck =>
    rw [Anchoring.step]
    cases hph : s.phase with
    | leading =>
      rw [hph] at hphase
      obtain ⟨hst,p,hb,hf⟩ := hphase
      exact ⟨h.sound,p,hb,.inl ⟨h.sound,hf,rfl,.inl hst⟩⟩
    | _ => exact h
  | reset ck =>
    rw [Anchoring.step]
    cases hph : s.phase with
    | recyclePromoted =>
      rw [hph] at hphase
      obtain ⟨hst,p,hb,hf⟩ := hphase
      exact ⟨h.sound,p,hb,.inl ⟨h.sound,hf,rfl,.inl hst⟩⟩
    | _ => exact h
  | fail =>
    rw [Anchoring.step]
    cases hph : s.phase with
    | claimed =>
      rw [hph] at hphase
      exact ⟨h.sound,hphase⟩
    | pinned p =>
      rw [hph] at hphase
      exact ⟨h.sound,hphase.1,hphase.2.1⟩
    | recycling =>
      rw [hph] at hphase
      obtain ⟨-,p,hb,ht⟩ := hphase
      exact ⟨h.sound,p,hb,.inr ht⟩
    | recyclePinned q =>
      rw [hph] at hphase
      obtain ⟨-,-,p,hb,ht⟩ := hphase
      exact ⟨h.sound,p,hb,.inr ht⟩
    | _ => exact h

theorem Anchored.next (hp : s.baseline = some p) :
    s.next.log = s.tailed.log ∧ (AtZero first p s.next ∨ Tails first p.Before s.next) := by
  obtain ⟨hs,hphase⟩ := h
  revert hphase
  rw [PhaseOK,Anchoring.next]
  cases s.phase with
  | standby | claimed => exact fun hph => absurd (hph.2.symm.trans hp) (by simp)
  | pinned q => exact fun hph => absurd (hph.2.1.symm.trans hp) (by simp)
  | promoted | leading | recyclePromoted =>
    rintro ⟨hst,q,hb,hf⟩
    obtain rfl := Option.mem_unique hp hb
    exact ⟨rfl,.inl ⟨hs,hf,rfl,.inl hst⟩⟩
  | tailing =>
    rintro ⟨q,hb,hor⟩
    obtain rfl := Option.mem_unique hp hb
    exact ⟨rfl,hor⟩
  | recycling =>
    rintro ⟨-,q,hb,ht⟩
    obtain rfl := Option.mem_unique hp hb
    exact ⟨rfl,.inr ht⟩
  | recyclePinned q' =>
    rintro ⟨-,-,q,hb,ht⟩
    obtain rfl := Option.mem_unique hp hb
    exact ⟨rfl,.inr ht⟩

theorem Anchored.noSilentGap : s.NoSilentGap word where
  accounted := by
    intro p hp k G hG i hi hd
    obtain ⟨hlog,hz | ht⟩ := h.next hp
    · rcases Nat.lt_or_eq_of_le (WalLog.le_of_generations hG) with hk | hk
      · exact absurd hd (hz.fresh k G (hlog ▸ hk) (hlog ▸ hG) i hi)
      · exact .inr (.inl (.inl ⟨hk,by rw [hz.zero]; exact ⟨rfl,rfl,rfl⟩⟩))
    · obtain hship | hahead | href := ht.accounted word (hlog ▸ hG) i hi hd
      · exact .inl hship
      · exact .inr (.inl (.inr hahead))
      · exact .inr (.inr href)
  synced := by
    intro p hp r hw htail hok k G hG i hi hd
    obtain ⟨hlog,hor⟩ := h.next hp
    rw [← hlog] at hw htail hG
    have hpass : (s.next.pass word s.next.tailer.pos none r).2.log = s.next.log := pass_frame.1
    have hplaced : Placed p.Before (s.next.pass word s.next.tailer.pos none r).2
        s.next.log.past.length s.next.log.live.txns [] ∨ s.next.log.live.txns = [] ∧
          s.next.log.Fresh p := by
      obtain hz | ht := hor
      · obtain ⟨-,hnil⟩ | hplaced := hz.pass word htail
        · exact .inr ⟨hnil hok,hz.fresh⟩
        · exact .inl hplaced
      · obtain ⟨hs,k,xs,ys,hpl,-⟩ := ht
        exact .inl (hpl.synced hs hw htail hok)
    obtain hplaced | ⟨hnil,hfresh⟩ := hplaced
    · rw [← hpass] at hplaced hG
      exact hplaced.shipped_all hG i hi hd
    · rcases Nat.lt_or_eq_of_le (WalLog.le_of_generations hG) with hk | rfl
      · exact absurd hd (hfresh k G hk hG i hi)
      · obtain rfl := Option.mem_unique WalLog.generations_live hG
        rw [hnil] at hi
        exact absurd hi (Nat.not_lt_zero i)

end

/-- While no restart meets transactions after an open pin, no transaction after the pin of HEAD's
baseline is silently lost. -/
theorem noSilentGap_of_calm (word : ChecksumPage) {first : UInt32} {s : Anchoring}
    (hs : s.Starts first) {as : List AnchorAction}
    (h : Permitted (step word) (fun s a => s.Sqlite a ∧ s.Calm a) s as) :
    (as.foldl (step word) s).NoSilentGap word := by
  have hstart : Anchored first s := by
    refine ⟨hs.sound,?_⟩
    rw [PhaseOK,hs.phase]
    exact ⟨hs.idle,hs.baseline⟩
  exact (h.invariant (I := Anchored first) (fun _ _ ht ha => ht.step ha.1 ha.2) hstart).noSilentGap

end Anchoring

end Run

namespace ReanchorSample

open Anchoring RecycleSample

def standby : Anchoring where
  tailed := ⟨⟨[],⟨header 5,[]⟩,0,true⟩,⟨.zero,none⟩,.idle,[]⟩
  phase := .standby
  leading := false
  truncating := false
  baseline := none

theorem standby_starts : standby.Starts 5 := by
  have hlive : ∀ {k G},standby.tailed.log.generations[k]? = some G → k = 0 ∧ G = ⟨header 5,[]⟩ := by
    intro k G hG
    match k with
    | 0 => exact ⟨rfl,(Option.some.inj hG).symm⟩
    | k+1 => exact absurd hG (by simp [standby,WalLog.generations])
  refine ⟨⟨fun hG => ?_,by decide,by decide,fun hG w hw => ?_,fun h => Bool.noConfusion h⟩,rfl,rfl,rfl⟩
  · obtain ⟨rfl,rfl⟩ := hlive hG
    rfl
  · obtain ⟨-,rfl⟩ := hlive hG
    exact absurd hw List.not_mem_nil

/-- A claim whose first pass reads a commit made after the pin; a foreign restart then drops an unread
commit, and the next pass asks for a new baseline. -/
def calmActions : List AnchorAction :=
  [.claim,.pin,.tail (.other (.commit (write 1))),.promote,.lead,.startStream none,
    .tail (.sync (reading true)),.tail (.other (.commit (write 2))),.tail (.other (.backfill 2)),
    .tail (.other (.restart (header 6) true)),.tail (.sync (reading true)),.pin,.promote,.reset none]

/-- The standby's truncation falls between the pin and the first pass. -/
def truncatedActions : List AnchorAction :=
  [.claim,.standbyCheck,.pin,.tail (.other (.commit (write 1))),.promote,
    .standbyTruncate (some (header 6)),.lead,.startStream none,.tail (.other (.commit (write 2))),
    .tail (.sync (reading true))]

theorem calmActions_noSilentGap :
    Permitted (step word) (fun s a => s.Sqlite a ∧ s.Calm a) standby calmActions ∧
      (calmActions.foldl (step word) standby).baseline = some ⟨1,0⟩ ∧
      (calmActions.foldl (step word) standby).NoSilentGap word := by
  have hrun : Permitted (step word) (fun s a => s.Sqlite a ∧ s.Calm a) standby calmActions := by
    decide +kernel
  exact ⟨hrun,by decide +kernel,noSilentGap_of_calm word standby_starts hrun⟩

/-- The commit behind the pin is in no file, and the passes go on without an error. -/
theorem not_noSilentGap_of_truncated :
    Permitted (step word) Sqlite standby truncatedActions ∧
      ¬(truncatedActions.foldl (step word) standby).NoSilentGap word := by
  refine ⟨by decide,fun h => ?_⟩
  have hpass : ((truncatedActions.foldl (step word) standby).next.pass word
      (truncatedActions.foldl (step word) standby).next.tailer.pos none (reading true)).1 = true ∧
      ((truncatedActions.foldl (step word) standby).next.pass word
      (truncatedActions.foldl (step word) standby).next.tailer.pos none
        (reading true)).2.shipped.all (fun b => b.generation = 1) = true := by decide
  have hfirst : ((truncatedActions.foldl (step word) standby).tailed.log.generations[0]?).map
      (fun G => G.txns.length) = some 1 := by decide
  obtain ⟨G,hG,hlen⟩ := Option.map_eq_some_iff.mp hfirst
  obtain ⟨b,hb,hgen,-⟩ := h.synced ⟨0,0⟩ (by decide) (reading true) (by decide)
    (by decide) hpass.1 hG 0 (by omega) (by decide)
  have := List.all_eq_true.mp hpass.2 b hb
  rw [hgen] at this
  exact absurd this (by decide)

end ReanchorSample

end Syzy
