import Syzy.PgFold

/-!
A row-group Postgres table under local commits, inbound records and restarts. A commit changes the table
before it has a version; an inbound record that lands is stashed, and the fold of a stashed row repairs
the table one way or the other.
-/

namespace Syzy.Pg

open List

abbrev PgVersion := ℕ ×ₗ Stamp

/-- A row of a row-group table has no column overrides. -/
abbrev GroupClock := RowClock Empty

def RowClock.version {κ : Type} (k : RowClock κ) : PgVersion := toLex (k.cl,k.base)

variable {π ι : Type}

inductive PgEffect (ι : Type)
  | put (v : ι)
  | recreate (v : ι)
  | remove

namespace PgEffect

def content : PgEffect ι → Option ι
  | put v => some v
  | recreate v => some v
  | remove => none

def isRecreate : PgEffect ι → Bool
  | recreate _ => true
  | _ => false

def version (k : GroupClock) (stamp : Stamp) : PgEffect ι → PgVersion
  | put _ => toLex (k.nextLiveCL,stamp)
  | recreate _ => toLex (k.tombCL+1,stamp)
  | remove => toLex (k.tombCL,stamp)

def records (k : GroupClock) (stamp : Stamp) (e : PgEffect ι) : List (PgVersion × Option ι) :=
  (if e.isRecreate then [(toLex (k.tombCL,stamp),none)] else [])++[(e.version k stamp,e.content)]

end PgEffect

/-- One row with its clock and its stashed winner, the published and the delivered records, and the last
checkpoint. -/
structure PgSide (ι : Type) where
  row : Option ι
  clock : GroupClock
  stash : Option (PgVersion × Option ι)
  published : List (PgVersion × Option ι)
  seen : List PgVersion
  applied : List PgVersion
  savedClock : GroupClock
  savedApplied : List PgVersion

namespace PgSide

variable (s : PgSide ι)

def init : PgSide ι := ⟨none,RowClock.zero,none,[],[],[],RowClock.zero,[]⟩

def commit (e : PgEffect ι) : PgSide ι := { s with row := e.content }

/-- A stashed winner that is above the local record is put back and the record dropped; otherwise the
record is written again and the stash cleared. -/
def fold (stamp : Stamp) (e : PgEffect ι) : PgSide ι :=
  let v := e.version s.clock stamp
  let landed := { s with
    published := s.published++e.records s.clock stamp
    clock := s.clock.putRowState (ofLex v).1 (ofLex v).2 }
  match s.stash with
  | none => landed
  | some w =>
    if e.isRecreate || !decide (v < w.1) then { landed with row := e.content,stash := none }
    else { s with row := w.2 }

def deliver (v : PgVersion) (content : Option ι) : PgSide ι :=
  if v ∈ s.applied then s
  else
    let s' := { s with seen := v::s.seen,applied := v::s.applied }
    if s.clock.dominatedBy (ofLex v).1 (ofLex v).2 then
      { s' with
        row := content
        clock := s.clock.putRowState (ofLex v).1 (ofLex v).2
        stash := some (v,content) }
    else s'

def checkpoint : PgSide ι := { s with savedClock := s.clock,savedApplied := s.applied }

def restart : PgSide ι :=
  { s with
    clock := s.published.foldl (fun k r => k.putRowState (ofLex r.1).1 (ofLex r.1).2) s.savedClock
    applied := s.savedApplied
    stash := none }

end PgSide

/-- The rows, and the commits that are not folded yet. -/
structure WinnerNode (π ι : Type) where
  rows : π → PgSide ι
  pending : List (π → Option (PgEffect ι))

inductive WinnerAction (π ι : Type)
  | commit (effects : π → Option (PgEffect ι))
  | fold (stamp : Stamp)
  | deliver (k : π) (v : PgVersion)
  | checkpoint
  | restart

namespace WinnerNode

variable [DecidableEq π] (me : Origin) (log : π → PgVersion → Option ι)

variable (n : WinnerNode π ι)

omit [DecidableEq π] in
def init : WinnerNode π ι := ⟨fun _ => PgSide.init,[]⟩

def run : WinnerAction π ι → WinnerNode π ι
  | .commit effects => ⟨fun k => (effects k).elim (n.rows k) (n.rows k).commit,n.pending++[effects]⟩
  | .fold stamp =>
    match n.pending with
    | [] => n
    | effects::rest => ⟨fun k => (effects k).elim (n.rows k) ((n.rows k).fold stamp),rest⟩
  | .deliver k v => { n with rows := Function.update n.rows k ((n.rows k).deliver v (log k v)) }
  | .checkpoint => { n with rows := fun k => (n.rows k).checkpoint }
  | .restart => { n with rows := fun k => (n.rows k).restart }

omit [DecidableEq π] in
def pendingAt (k : π) : List (PgEffect ι) := n.pending.filterMap fun effects => effects k

omit [DecidableEq π] in
/-- Inbound records are of other origins. The record of a fold is above the row's clock unless a winner is
stashed; one that is above a stashed winner finds no later commit on its row. A restart finds no unfolded
commit that was overwritten. -/
def Admits : WinnerAction π ι → Prop
  | .fold stamp => stamp.origin = me ∧ ∀ effects rest,n.pending = effects::rest → ∀ k e,effects k = some e →
      if (n.rows k).stash = none then (n.rows k).clock.version < e.version (n.rows k).clock stamp
      else (n.rows k).clock.version < e.version (n.rows k).clock stamp → n.pendingAt k = [e]
  | .deliver _ v => (ofLex v).2.origin ≠ me ∧ 1 ≤ (ofLex v).1
  | .restart => ∀ k e,(n.pendingAt k).getLast? = some e → (n.rows k).row = e.content
  | _ => True

end WinnerNode

section Version

variable {k : GroupClock} {stamp : Stamp} {v : PgVersion} {e : PgEffect ι}

theorem dominatedBy_iff_lt : k.dominatedBy (ofLex v).1 (ofLex v).2 = true ↔ k.version < v := by
  rw [RowClock.dominatedBy_iff,RowClock.version,← toLex_ofLex v,Prod.Lex.toLex_lt_toLex]
  rfl

theorem version_putRowState : (k.putRowState (ofLex v).1 (ofLex v).2).version = max k.version v := by
  unfold RowClock.putRowState
  by_cases h : k.dominatedBy (ofLex v).1 (ofLex v).2 = true
  · rw [if_pos h,max_eq_right (dominatedBy_iff_lt.mp h).le]
    rfl
  · rw [if_neg h]
    exact (max_eq_left (not_lt.mp fun hlt => h (dominatedBy_iff_lt.mpr hlt))).symm

theorem version_stamp : (ofLex (e.version k stamp)).2 = stamp := by cases e <;> rfl

/-- The records of a fold are above the clock and up to the version, and that one has the content. -/
theorem records_spec {r : PgVersion × Option ι} (hs : k.version < e.version k stamp) (hr : r ∈ e.records k stamp) :
    k.version < r.1 ∧ r.1 ≤ e.version k stamp ∧ (ofLex r.1).2 = stamp ∧
      (r.1 = e.version k stamp → r.2 = e.content) := by
  have htomb := k.tombCL_gt
  obtain hr | rfl := mem_concat.mp hr
  · cases e with
    | put | remove => simp [PgEffect.isRecreate] at hr
    | recreate v =>
      obtain rfl : r = (toLex (k.tombCL,stamp),none) := by simpa [PgEffect.isRecreate] using hr
      have hlt : toLex (k.tombCL,stamp) < (PgEffect.recreate v).version k stamp :=
        Prod.Lex.toLex_lt_toLex.mpr (.inl (Nat.lt_succ_self _))
      exact ⟨Prod.Lex.toLex_lt_toLex.mpr (.inl htomb),hlt.le,rfl,fun h => absurd h hlt.ne⟩
  · exact ⟨hs,le_rfl,version_stamp,fun _ => rfl⟩

end Version

namespace PgSide

variable {me : Origin} {log : PgVersion → Option ι} {s : PgSide ι} {pend rest : List (PgEffect ι)}
  {e : PgEffect ι} {v : PgVersion}

def Holds (log : PgVersion → Option ι) (s : PgSide ι) (v : PgVersion) (c : Option ι) : Prop :=
  (v,c) ∈ s.published ∨ v ∈ s.seen ∧ c = log v

abbrev bottom : PgVersion := (RowClock.zero : GroupClock).version

/-- A clock is the greatest version of what it knows. -/
structure Knows (published : List (PgVersion × Option ι)) (applied : List PgVersion) (k : GroupClock) : Prop where
  pos : bottom ≤ k.version
  applied_le : ∀ v ∈ applied,v ≤ k.version
  source : k.version = bottom ∨ (∃ c,(k.version,c) ∈ published) ∨ k.version ∈ applied

/-- The clock is above every published record. When it is above every delivered one and no commit is
pending, the row is what the record of its version says; a pending commit that no record was stashed over
is in the row. -/
structure Agrees (me : Origin) (log : PgVersion → Option ι) (s : PgSide ι) (pend : List (PgEffect ι)) :
    Prop where
  live : Knows s.published s.applied s.clock
  saved : Knows s.published s.savedApplied s.savedClock
  saved_le : s.savedClock.version ≤ s.clock.version
  own : ∀ r ∈ s.published,(ofLex r.1).2.origin = me ∧ bottom < r.1 ∧ r.1 ≤ s.clock.version
  peer : ∀ v ∈ s.seen,(ofLex v).2.origin ≠ me ∧ bottom < v
  applied_seen : ∀ v ∈ s.applied,v ∈ s.seen
  saved_seen : ∀ v ∈ s.savedApplied,v ∈ s.seen
  stash : ∀ w,s.stash = some w → w.1 = s.clock.version ∧ w.1 ∈ s.seen ∧ w.2 = log w.1
  settled : pend = [] → (∀ v ∈ s.seen,v ≤ s.clock.version) → ∀ c,s.Holds log s.clock.version c → s.row = c
  empty : pend = [] → s.published = [] → s.seen = [] → s.row = none
  unfolded : ∀ e,pend.getLast? = some e → s.stash = none → s.row = e.content

theorem agrees_init : Agrees me log init [] where
  live := ⟨le_rfl,by simp [init],.inl rfl⟩
  saved := ⟨le_rfl,by simp [init],.inl rfl⟩
  saved_le := le_rfl
  own := by simp [init]
  peer := by simp [init]
  applied_seen := by simp [init]
  saved_seen := by simp [init]
  stash := by simp [init]
  settled := by simp [init,Holds]
  empty _ _ _ := rfl
  unfolded := by simp

theorem Agrees.commit (h : Agrees me log s pend) (e : PgEffect ι) :
    Agrees me log (s.commit e) (pend++[e]) :=
  { h with
    settled := by simp
    empty := by simp
    unfolded := by
      intro e' he' _
      obtain rfl : e = e' := by simpa using he'
      rfl }

theorem Knows.append {published recs : List (PgVersion × Option ι)} {applied : List PgVersion} {k : GroupClock}
    (h : Knows published applied k) : Knows (published++recs) applied k :=
  ⟨h.pos,h.applied_le,h.source.imp_right (Or.imp_left fun ⟨c,hc⟩ => ⟨c,mem_append_left _ hc⟩)⟩

/-- The record of a fold lands above the clock, over a row that has what it says once nothing is
pending. -/
theorem Agrees.land {stamp : Stamp} (h : Agrees me log s (e::rest)) (hme : stamp.origin = me)
    (hlt : s.clock.version < e.version s.clock stamp) {row : Option ι}
    (hrow : ∀ e',(e::rest).getLast? = some e' → row = e'.content) :
    Agrees me log { s with
      row := row
      published := s.published++e.records s.clock stamp
      clock := s.clock.putRowState (ofLex (e.version s.clock stamp)).1 (ofLex (e.version s.clock stamp)).2
      stash := none } rest := by
  have hversion : (s.clock.putRowState (ofLex (e.version s.clock stamp)).1
      (ofLex (e.version s.clock stamp)).2).version = e.version s.clock stamp := by
    rw [version_putRowState,max_eq_right hlt.le]
  have hmem : (e.version s.clock stamp,e.content) ∈ e.records s.clock stamp := by simp [PgEffect.records]
  have hnew : ∀ c,Holds log { s with published := s.published++e.records s.clock stamp }
      (e.version s.clock stamp) c → c = e.content := by
    rintro c (hc | ⟨hc,-⟩)
    · obtain hc | hc := mem_append.mp hc
      · exact absurd (h.own _ hc).2.2 (not_le.mpr hlt)
      · exact (records_spec hlt hc).2.2.2 rfl
    · exact absurd (by rw [version_stamp,hme]) (h.peer _ hc).1
  have hbelow : ∀ v,v ≤ s.clock.version → v ≤ (s.clock.putRowState (ofLex (e.version s.clock stamp)).1
      (ofLex (e.version s.clock stamp)).2).version := fun v hv => hversion.symm ▸ hv.trans hlt.le
  refine ⟨⟨hbelow _ h.live.pos,fun v hv => hbelow _ (h.live.applied_le v hv),.inr (.inl ⟨e.content,?_⟩)⟩,
    h.saved.append,hbelow _ h.saved_le,fun r hr => ?_,h.peer,h.applied_seen,h.saved_seen,?_,?_,?_,?_⟩
  · rw [hversion]
    exact mem_append_right _ hmem
  · obtain hr | hr := mem_append.mp hr
    · obtain ⟨ho,hpos,hle⟩ := h.own r hr
      exact ⟨ho,hpos,hbelow _ hle⟩
    · obtain ⟨hgt,hle,hst,-⟩ := records_spec hlt hr
      exact ⟨by rw [hst,hme],h.live.pos.trans_lt hgt,hversion.symm ▸ hle⟩
  · exact fun w hw => absurd hw (by simp)
  · rintro rfl _ c hc
    rw [hnew c (hversion ▸ hc)]
    exact hrow e rfl
  · exact fun _ hnil => absurd hnil (ne_nil_of_mem (mem_append_right _ hmem))
  · exact fun e' he' _ => hrow e' (by rw [getLast?_cons,he']; rfl)

theorem Agrees.fold {stamp : Stamp} (h : Agrees me log s (e::rest)) (hme : stamp.origin = me)
    (hadmits : if s.stash = none then s.clock.version < e.version s.clock stamp
      else s.clock.version < e.version s.clock stamp → rest = []) :
    Agrees me log (s.fold stamp e) rest := by
  unfold PgSide.fold
  cases hst : s.stash with
  | none =>
    rw [if_pos hst] at hadmits
    exact h.land hme hadmits fun e' he' => h.unfolded e' he' hst
  | some w =>
    rw [if_neg (by simp [hst])] at hadmits
    obtain ⟨hw,hseen,hlog⟩ := h.stash w hst
    have hne : e.version s.clock stamp ≠ w.1 := fun heq =>
      (h.peer w.1 hseen).1 (by rw [← heq,version_stamp,hme])
    by_cases hlost : e.version s.clock stamp < w.1
    · -- A recreate is always above the clock, so only the other shapes can lose.
      have hshape : e.isRecreate = false := by
        cases e with
        | put | remove => rfl
        | recreate v =>
          have htomb := s.clock.tombCL_gt
          refine absurd hlost (not_lt.mpr (hw ▸ ?_))
          exact (Prod.Lex.toLex_lt_toLex.mpr (.inl (by simp only; omega))).le
      simp only [hshape,hlost,decide_true,Bool.not_true,Bool.or_false,Bool.false_eq_true,if_false]
      refine { h with
        stash := fun w' hw' => h.stash w' (hst.trans hw')
        settled := ?_
        empty := ?_
        unfolded := ?_ }
      · rintro - - c (hc | ⟨-,hc⟩)
        · exact absurd (h.own _ hc).1 (hw ▸ (h.peer w.1 hseen).1)
        · rw [hc,hlog,hw]
      · exact fun _ _ hnil => absurd hseen (by simp only at hnil; simp [hnil])
      · exact fun _ _ hnone => absurd hnone (by simp)
    · have hlt : s.clock.version < e.version s.clock stamp :=
        hw ▸ lt_of_le_of_ne (not_lt.mp hlost) hne.symm
      simp only [hlost,decide_false,Bool.not_false,Bool.or_true,if_true]
      obtain rfl := hadmits hlt
      exact h.land hme hlt fun e' he' => by
        obtain rfl : e = e' := by simpa using he'
        rfl

theorem Agrees.deliver (h : Agrees me log s pend) (hpeer : (ofLex v).2.origin ≠ me) (hpos : bottom < v) :
    Agrees me log (s.deliver v (log v)) pend := by
  unfold PgSide.deliver
  by_cases happ : v ∈ s.applied
  · rwa [if_pos happ]
  rw [if_neg happ]
  have hseen : ∀ u ∈ v::s.seen,(ofLex u).2.origin ≠ me ∧ bottom < u := by
    intro u hu
    obtain rfl | hu := mem_cons.mp hu
    · exact ⟨hpeer,hpos⟩
    · exact h.peer u hu
  have hboth : ∀ u ∈ v::s.applied,u ∈ v::s.seen := by
    intro u hu
    obtain rfl | hu := mem_cons.mp hu
    · exact mem_cons_self
    · exact mem_cons_of_mem _ (h.applied_seen u hu)
  have hsaved : ∀ u ∈ s.savedApplied,u ∈ v::s.seen := fun u hu => mem_cons_of_mem _ (h.saved_seen u hu)
  by_cases hd : s.clock.dominatedBy (ofLex v).1 (ofLex v).2 = true
  · have hlt := dominatedBy_iff_lt.mp hd
    have hversion : (s.clock.putRowState (ofLex v).1 (ofLex v).2).version = v := by
      rw [version_putRowState,max_eq_right hlt.le]
    rw [if_pos hd]
    refine ⟨⟨?_,fun u hu => ?_,.inr (.inr ?_)⟩,h.saved,?_,fun r hr => ?_,hseen,hboth,hsaved,?_,?_,?_,?_⟩
    · exact hversion.symm ▸ hpos.le
    · rw [hversion]
      obtain rfl | hu := mem_cons.mp hu
      · exact le_rfl
      · exact (h.live.applied_le u hu).trans hlt.le
    · rw [hversion]
      exact mem_cons_self
    · exact hversion.symm ▸ h.saved_le.trans hlt.le
    · obtain ⟨ho,hp,hle⟩ := h.own r hr
      exact ⟨ho,hp,hversion.symm ▸ hle.trans hlt.le⟩
    · rintro w ⟨⟩
      exact ⟨hversion.symm,mem_cons_self,rfl⟩
    · rintro - - c (hc | ⟨-,hc⟩)
      · exact absurd (h.own _ hc).1 (by rw [hversion]; exact hpeer)
      · rw [hc,hversion]
    · exact fun _ _ hnil => absurd hnil (by simp)
    · exact fun e _ hnone => absurd hnone (by simp)
  · have hle : v ≤ s.clock.version := not_lt.mp fun hlt => hd (dominatedBy_iff_lt.mpr hlt)
    rw [if_neg hd]
    refine ⟨⟨h.live.pos,fun u hu => ?_,?_⟩,h.saved,h.saved_le,h.own,hseen,hboth,hsaved,
      fun w hw => ⟨(h.stash w hw).1,mem_cons_of_mem _ (h.stash w hw).2.1,(h.stash w hw).2.2⟩,?_,?_,
      h.unfolded⟩
    · obtain rfl | hu := mem_cons.mp hu
      · exact hle
      · exact h.live.applied_le u hu
    · exact h.live.source.imp_right (Or.imp_right fun hin => mem_cons_of_mem _ hin)
    · rintro hnil hall c (hc | ⟨hin,hc⟩)
      · exact h.settled hnil (fun u hu => hall u (mem_cons_of_mem _ hu)) c (.inl hc)
      · obtain heq | hin := mem_cons.mp hin
        · obtain hbot | ⟨c',hc'⟩ | hin := h.live.source
          · exact absurd (heq.symm.trans hbot) hpos.ne'
          · exact absurd (h.own _ hc').1 (by rw [heq]; exact hpeer)
          · exact absurd (heq ▸ hin) happ
        · exact h.settled hnil (fun u hu => hall u (mem_cons_of_mem _ hu)) c (.inr ⟨hin,hc⟩)
    · exact fun _ _ hnil => absurd hnil (by simp)

theorem Agrees.checkpoint (h : Agrees me log s pend) : Agrees me log s.checkpoint pend :=
  { h with
    saved := h.live
    saved_le := le_rfl
    saved_seen := h.applied_seen }

/-- The recovered clock is the greatest of the saved one and the published records. -/
theorem recover_spec (recs : List (PgVersion × Option ι)) (k : GroupClock) :
    k.version ≤ (recs.foldl (fun k r => k.putRowState (ofLex r.1).1 (ofLex r.1).2) k).version ∧
      (∀ r ∈ recs,r.1 ≤ (recs.foldl (fun k r => k.putRowState (ofLex r.1).1 (ofLex r.1).2) k).version) ∧
      ((recs.foldl (fun k r => k.putRowState (ofLex r.1).1 (ofLex r.1).2) k).version = k.version ∨
        ∃ c,((recs.foldl (fun k r => k.putRowState (ofLex r.1).1 (ofLex r.1).2) k).version,c) ∈ recs) := by
  induction recs generalizing k with
  | nil => exact ⟨le_rfl,by simp,.inl rfl⟩
  | cons r recs ih =>
    obtain ⟨hge,hrecs,hsource⟩ := ih (k.putRowState (ofLex r.1).1 (ofLex r.1).2)
    rw [version_putRowState] at hge hsource
    refine ⟨(le_max_left _ _).trans hge,fun r' hr' => ?_,?_⟩
    · obtain rfl | hr' := mem_cons.mp hr'
      · exact (le_max_right _ _).trans hge
      · exact hrecs r' hr'
    · obtain hsame | ⟨c,hc⟩ := hsource
      · obtain hmax | hmax := max_choice k.version r.1
        · exact .inl (hsame.trans hmax)
        · exact .inr ⟨r.2,by rw [foldl_cons,hsame,hmax]; exact mem_cons_self⟩
      · exact .inr ⟨c,mem_cons_of_mem _ hc⟩

theorem Agrees.restart (h : Agrees me log s pend) (hrow : ∀ e,pend.getLast? = some e → s.row = e.content) :
    Agrees me log s.restart pend := by
  obtain ⟨hge,hrecs,hsource⟩ := recover_spec s.published s.savedClock
  have hknows : Knows s.published s.savedApplied s.restart.clock := by
    refine ⟨h.saved.pos.trans hge,fun v hv => (h.saved.applied_le v hv).trans hge,?_⟩
    obtain hsame | hpub := hsource
    · have hclock : s.restart.clock.version = s.savedClock.version := hsame
      rw [hclock]
      exact h.saved.source
    · exact .inr (.inl hpub)
  refine ⟨hknows,h.saved,hge,fun r hr => ⟨(h.own r hr).1,(h.own r hr).2.1,hrecs r hr⟩,h.peer,h.saved_seen,
    h.saved_seen,fun w hw => (by cases hw),?_,h.empty,fun e he _ => hrow e he⟩
  intro hnil hall c hc
  -- Everything that the lost clock knew is published or was delivered.
  have hup : s.clock.version ≤ s.restart.clock.version := by
    obtain hbot | ⟨c',hc'⟩ | hin := h.live.source
    · exact hbot ▸ hknows.pos
    · exact hrecs _ hc'
    · exact hall _ (h.applied_seen _ hin)
  have hdown : s.restart.clock.version ≤ s.clock.version := by
    obtain hsame | ⟨c',hc'⟩ := hsource
    · exact hsame.le.trans h.saved_le
    · exact (h.own _ hc').2.2
  have hsame := le_antisymm hup hdown
  exact h.settled hnil (fun v hv => hsame ▸ hall v hv) c (hsame ▸ hc)

end PgSide

namespace WinnerNode

variable [DecidableEq π] {me : Origin} {log : π → PgVersion → Option ι} {n : WinnerNode π ι}

theorem agrees_step {a : WinnerAction π ι} (ha : n.Admits me a)
    (h : ∀ k,PgSide.Agrees me (log k) (n.rows k) (n.pendingAt k)) (k : π) :
    PgSide.Agrees me (log k) ((n.run log a).rows k) ((n.run log a).pendingAt k) := by
  cases a with
  | commit effects =>
    have hpend : (n.run log (.commit effects)).pendingAt k = n.pendingAt k++(effects k).toList := by
      cases he : effects k <;> simp [run,pendingAt,he]
    rw [hpend]
    cases he : effects k with
    | none => simpa [run,he] using h k
    | some e => simpa [run,he] using (h k).commit e
  | fold stamp =>
    rw [run]
    cases hp : n.pending with
    | nil => exact h k
    | cons effects rest =>
      obtain ⟨hme,hfold⟩ := ha
      have hk := h k
      cases he : effects k with
      | none =>
        have hpend : n.pendingAt k = rest.filterMap fun effects => effects k := by simp [pendingAt,hp,he]
        rw [hpend] at hk
        simpa [he,pendingAt] using hk
      | some e =>
        have hpend : n.pendingAt k = e::rest.filterMap fun effects => effects k := by simp [pendingAt,hp,he]
        have hadmits := hfold effects rest hp k e he
        rw [hpend] at hk hadmits
        simp only [cons.injEq,true_and] at hadmits
        simpa [he,pendingAt] using hk.fold hme hadmits
  | deliver k' v =>
    have hpos : PgSide.bottom < v := Prod.Lex.toLex_lt_toLex.mpr (.inl ha.2)
    by_cases hk : k = k'
    · subst hk
      simpa [run,pendingAt] using (h k).deliver ha.1 hpos
    · simpa [run,pendingAt,hk] using h k
  | checkpoint => exact (h k).checkpoint
  | restart => exact (h k).restart (ha k)

end WinnerNode

namespace WinnerSample

open WinnerNode PgSide

def versionAt (cl : ℕ) (wall : ℤ) (origin : Origin) : PgVersion := toLex (cl,⟨⟨wall,0⟩,origin⟩)

def stampAt (wall : ℤ) : Stamp := ⟨⟨wall,0⟩,1⟩

def peer : Unit → PgVersion → Option ℕ := fun _ _ => some 7

def put (v : ℕ) : WinnerAction Unit ℕ := .commit fun _ => some (.put v)

def final (acts : List (WinnerAction Unit ℕ)) : PgSide ℕ := (acts.foldl (run peer) init).rows ()

/-- The peer's record lands over a commit that is not folded yet, and the fold writes the commit again;
then a record from a fast clock beats a commit, and the fold puts it back. -/
def contended : List (WinnerAction Unit ℕ) :=
  [put 5,.deliver () (versionAt 1 10 2),.fold (stampAt 20),.checkpoint,.restart,
    .deliver () (versionAt 1 100 2),put 6,.fold (stampAt 30)]

end WinnerSample

end Syzy.Pg
