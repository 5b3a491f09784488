import Syzy.SchemaCatchup

/-!
Runs of the catch-up loop: whatever ticks are cut off, the positions are reached one after the other,
and with each of them the schema of the events up to it.
-/

namespace Syzy

open Machine List

open CatalogRows Naming

namespace CatchupNode

variable {log : List SchemaEvent} {s s₀ : CatchupNode}

/-- The schema of the first `n` events of the log, executed from a node's start. -/
def schemaAt (log : List SchemaEvent) (s₀ : CatchupNode) (n : ℕ) : IdSchema :=
  ((log.take n).drop s₀.rows.schemaSeq).foldl (fun S ev => ev.ops.foldl IdSchema.exec S) s₀.rows.schema

structure Starts (s : CatchupNode) : Prop where
  sound : s.rows.Sound
  represents : s.rows.schema.Represents s.app
  healthy : s.unhealthy = false
  commits : s.commits = []

/-- `k` ticks were completed, each position with its schema. -/
structure CaughtUp (log : List SchemaEvent) (s₀ : CatchupNode) (k : ℕ) (s : CatchupNode) : Prop where
  healthy : s.unhealthy = false
  positions : s.commits.map Prod.fst = range' (s₀.rows.schemaSeq+1) k
  schemaSeq : s.rows.schemaSeq = s₀.rows.schemaSeq+k
  schemas : ∀ p ∈ s.commits,(schemaAt log s₀ p.1).Represents p.2

def rowsAt (log : List SchemaEvent) (s₀ : CatchupNode) (k : ℕ) : CatalogRows :=
  ((log.drop s₀.rows.schemaSeq).take k).foldl applyEvent s₀.rows

/-- Between two ticks app.db stands at the position, or already behind the next event. -/
structure Tracks (log : List SchemaEvent) (s₀ : CatchupNode) (k : ℕ) (s : CatchupNode) : Prop
    extends CaughtUp log s₀ k s where
  rows : s.rows = rowsAt log s₀ k
  app : (rowsAt log s₀ k).schema.Represents s.app ∨
    ∃ ev,log[s₀.rows.schemaSeq+k]? = some ev ∧ ((rowsAt log s₀ k).applyEvent ev).schema.Represents s.app

section Chain

variable (hs : s₀.Starts) (hlog : Permitted applyEvent (fun r ev => r.AdmitsEvent ev ∧ CalmEvent r ev)
  s₀.rows (log.drop s₀.rows.schemaSeq))

include hs hlog in
theorem rowsAt_sound (k : ℕ) : (rowsAt log s₀ k).Sound ∧ (rowsAt log s₀ k).schema =
    schemaAt log s₀ (s₀.rows.schemaSeq+k) := by
  have hpre := hlog.of_initial ( take_prefix k _)
  rw [schemaAt,rowsAt,drop_take,Nat.add_sub_cancel_left]
  generalize (log.drop s₀.rows.schemaSeq).take k = evs at hpre
  have hgen : ∀ (evs : List SchemaEvent) (r : CatalogRows),r.Sound →
      Permitted applyEvent (fun r ev => r.AdmitsEvent ev ∧ CalmEvent r ev) r evs →
      (evs.foldl applyEvent r).Sound ∧ (evs.foldl applyEvent r).schema =
        evs.foldl (fun S ev => ev.ops.foldl IdSchema.exec S) r.schema := by
    intro evs
    induction evs with
    | nil => exact fun r hr _ => ⟨hr,rfl⟩
    | cons ev evs ih =>
      intro r hr hp
      obtain ⟨hsound,hschema⟩ := ih _ (hr.applyEvent hp.1.1) hp.2
      rw [schema_applyEvent hr hp.1.1] at hschema
      exact ⟨hsound,hschema⟩
  exact hgen evs s₀.rows hs.sound hpre

theorem rowsAt_succ {k : ℕ} {ev : SchemaEvent} (hev : log[s₀.rows.schemaSeq+k]? = some ev) :
    rowsAt log s₀ (k+1) = (rowsAt log s₀ k).applyEvent ev := by
  have hev' : (log.drop s₀.rows.schemaSeq)[k]? = some ev := by rw [getElem?_drop,hev]
  rw [rowsAt,take_add_one,hev',Option.toList_some,foldl_concat]
  rfl

include hlog in
theorem rowsAt_admits {k : ℕ} {ev : SchemaEvent} (hev : log[s₀.rows.schemaSeq+k]? = some ev) :
    (rowsAt log s₀ k).AdmitsEvent ev ∧ CalmEvent (rowsAt log s₀ k) ev := by
  have hev' : (log.drop s₀.rows.schemaSeq)[k]? = some ev := by rw [getElem?_drop,hev]
  have hpre := hlog.of_initial ( take_prefix (k+1) _)
  rw [take_add_one,hev',Option.toList_some,permitted_append] at hpre
  exact hpre.2.1

include hs hlog in
theorem Tracks.step {k : ℕ} (h : Tracks log s₀ k s) (a : CatchupAction) :
    Tracks log s₀ (if a = .tick ∧ s₀.rows.schemaSeq+k < log.length then k+1 else k) (s.step log a) := by
  have hseq := h.schemaSeq
  cases hev : log[s₀.rows.schemaSeq+k]? with
  | none =>
    have hsame : s.step log a = s := by
      cases a <;> simp [CatchupNode.step,hseq,hev]
    rw [hsame,if_neg fun hlt => absurd hlt.2 (Nat.not_lt.mpr (getElem?_eq_none_iff.mp hev))]
    exact h
  | some ev =>
    have hlt : s₀.rows.schemaSeq+k < log.length := (List.getElem?_eq_some_iff.mp hev).1
    obtain ⟨hsound,-⟩ := rowsAt_sound hs hlog k
    obtain ⟨hallowed,hcalm⟩ := rowsAt_admits hlog hev
    obtain ⟨hfresh,hreplay⟩ := applyCatalogStructural_once s.app hsound hallowed hcalm
    -- Whether or not the event is already in app.db, the attempt ends behind it.
    obtain ⟨app,hok,hr⟩ : ∃ app,applyCatalogStructural s.rows s.app ev = .ok app ∧
        ((rowsAt log s₀ k).applyEvent ev).schema.Represents app := by
      rw [h.rows]
      obtain happ | ⟨ev',hev',happ⟩ := h.app
      · exact hfresh happ
      · obtain rfl := Option.mem_unique hev hev'
        exact ⟨s.app,hreplay happ,happ⟩
    cases a with
    | busy => exact h
    | crash =>
      have hstep : s.step log .crash = { s with app } := by
        simp [CatchupNode.step,h.healthy,hseq,hev,hok]
      rw [hstep]
      exact ⟨⟨h.healthy,h.positions,hseq,h.schemas⟩,h.rows,.inr ⟨ev,hev,hr⟩⟩
    | tick =>
      have hstep : s.step log .tick =
          ⟨s.rows.applyEvent ev,app,false,s.commits++[(s₀.rows.schemaSeq+k+1,app)]⟩ := by
        simp [CatchupNode.step,h.healthy,hseq,hev,hok]
      rw [hstep,if_pos ⟨rfl,hlt⟩]
      have hrows : s.rows.applyEvent ev = rowsAt log s₀ (k+1) := by rw [rowsAt_succ hev,h.rows]
      rw [← rowsAt_succ hev] at hr
      refine ⟨⟨rfl,?_,?_,fun p hp => ?_⟩,hrows,.inl hr⟩
      · rw [map_append,h.positions,range'_1_concat]
        show _++[s₀.rows.schemaSeq+k+1] = _
        rw [Nat.add_right_comm]
      · show s.rows.schemaSeq+1 = _
        rw [hseq,Nat.add_assoc]
      · obtain hp | rfl := mem_concat.mp hp
        · exact h.schemas p hp
        · rw [Nat.add_assoc,← (rowsAt_sound hs hlog (k+1)).2]
          exact hr

end Chain

/-- Over a log whose bundles are calm, whatever the ticks and crashes, every tick completes one
position, with the schema of the events up to it, until the log is exhausted. -/
theorem caughtUp_of_calm (hs : s₀.Starts)
    (hlog : Permitted applyEvent (fun r ev => r.AdmitsEvent ev ∧ CalmEvent r ev) s₀.rows
      (log.drop s₀.rows.schemaSeq)) (hle : s₀.rows.schemaSeq ≤ log.length) (as : List CatchupAction) :
    CaughtUp log s₀ (min (as.count .tick) (log.length-s₀.rows.schemaSeq)) (as.foldl (step log) s₀) := by
  have hgen : ∀ (as : List CatchupAction) (k : ℕ) (s : CatchupNode),Tracks log s₀ k s →
      k ≤ log.length-s₀.rows.schemaSeq →
      CaughtUp log s₀ (min (k+as.count .tick) (log.length-s₀.rows.schemaSeq)) (as.foldl (step log) s) := by
    intro as
    induction as with
    | nil =>
      intro k s h hk
      rw [count_nil,Nat.add_zero,Nat.min_eq_left hk]
      exact h.toCaughtUp
    | cons a as ih =>
      intro k s h hk
      have hstep := h.step hs hlog a
      by_cases ha : a = .tick
      · subst ha
        rw [count_cons_self]
        by_cases hlt : s₀.rows.schemaSeq+k < log.length
        · rw [if_pos ⟨rfl,hlt⟩] at hstep
          rw [← Nat.add_assoc,Nat.add_right_comm]
          exact ih (k+1) _ hstep (by omega)
        · rw [if_neg fun h => hlt h.2] at hstep
          have hmin := ih k _ hstep hk
          rw [Nat.min_eq_right (by omega)] at hmin ⊢
          exact hmin
      · rw [if_neg fun h => ha h.1] at hstep
        rw [count_cons_of_ne ha]
        exact ih k _ hstep hk
  have hstart : Tracks log s₀ 0 s₀ := by
    refine ⟨⟨hs.healthy,by simp [hs.commits],rfl,by simp [hs.commits]⟩,by simp [rowsAt],.inl ?_⟩
    simpa [rowsAt] using hs.represents
  simpa using hgen as 0 s₀ hstart (Nat.zero_le _)

end CatchupNode

namespace CatchupSample

open CatchupNode

def empty : CatchupNode := ⟨⟨[],[],0⟩,fun _ => none,false,[]⟩

theorem empty_starts : empty.Starts :=
  ⟨⟨nodup_nil,by simp [empty],nodup_nil,by simp [empty],by simp [empty]⟩,
    ⟨by simp [empty],by simp [empty],fun h => absurd h (by simp [empty,schema])⟩,rfl,rfl⟩

/-- Two tables, and a bundle that renames one of them and moves columns of the other. -/
def calmLog : List SchemaEvent :=
  [.single (.createTable 1 10 [⟨0,5,0⟩]),.single (.createTable 2 11 [⟨0,5,0⟩,⟨1,6,1⟩]),
    .bundle [.renameTable 1 12,.addColumn 1 ⟨1,7,1⟩,.dropColumn 2 1,.renameColumn 2 0 8]]

def interrupted : List CatchupAction := [.crash,.tick,.tick,.crash,.busy,.crash,.tick,.tick]

theorem calmLog_caughtUp :
    Permitted applyEvent (fun r ev => r.AdmitsEvent ev ∧ CalmEvent r ev) empty.rows calmLog ∧
      (((interrupted.foldl (step calmLog) empty).app 12).map AppTable.table,
        ((interrupted.foldl (step calmLog) empty).app 11).bind fun o => o.columns 8) = (some 1,some 0) ∧
      CaughtUp calmLog empty 3 (interrupted.foldl (step calmLog) empty) := by
  have hlog : Permitted applyEvent (fun r ev => r.AdmitsEvent ev ∧ CalmEvent r ev) empty.rows
      calmLog := by decide
  exact ⟨hlog,by decide,caughtUp_of_calm empty_starts hlog (Nat.zero_le _) interrupted⟩

def swapLog : List SchemaEvent :=
  [.single (.createTable 1 10 [⟨0,5,0⟩]),.single (.createTable 2 11 [⟨0,5,0⟩]),
    .bundle [.renameTable 1 12,.renameTable 2 10,.renameTable 1 11]]

theorem swapLog_swapsBack :
    Permitted applyEvent (fun r ev => r.AdmitsEvent ev) empty.rows swapLog ∧
      ([CatchupAction.tick,.tick,.crash,.tick].foldl (step swapLog) empty).rows.schemaSeq = 3 ∧
      ¬CaughtUp swapLog empty 3 ([CatchupAction.tick,.tick,.crash,.tick].foldl (step swapLog) empty) := by
  refine ⟨by decide,by decide,fun h => ?_⟩
  -- After the replay the name 10 stands for table 1 again, while the catalog gives it to table 2.
  have hlast : ∃ p ∈ ([CatchupAction.tick,.tick,.crash,.tick].foldl (step swapLog) empty).commits,
      p.1 = 3 ∧ (p.2 10).map AppTable.table = some 1 := by decide
  obtain ⟨p,hp,h3,h10⟩ := hlast
  obtain ⟨o,ho,h1⟩ := Option.map_eq_some_iff.mp h10
  have hrep := (h.schemas p hp).tables ho
  rw [h1,h3] at hrep
  exact absurd hrep (by decide)

end CatchupSample

end Syzy
