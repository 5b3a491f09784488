import Syzy.SchemaRows

/-!
Changes captured under the name of their table and drained after further schema events. Every change
reaches its own table when no table is renamed or dropped, and no name given away, while changes
captured under it wait for the drain.
-/

namespace Syzy

open Machine List

/-- A captured row change; `table` is the table whose row it was. -/
structure CapturedChange (α : Type*) where
  name : SqlName
  table : TableID
  change : α
deriving DecidableEq

structure JournalCommit (α : Type*) where
  epoch : ℕ
  changes : List (CapturedChange α)

/-- A change and the table it was emitted under, if it was emitted. -/
structure DrainedChange (α : Type*) where
  source : CapturedChange α
  emitted : Option TableID
deriving DecidableEq

structure CaptureNode (α : Type*) where
  rows : CatalogRows
  pending : List (JournalCommit α)
  drained : List (DrainedChange α)

inductive CaptureAction (α : Type*)
  | event (ev : SchemaEvent)
  | commit (changes : List (SqlName × α))
  | drain

namespace CaptureNode

open CatalogRows

variable {α : Type*} {r : CatalogRows} {seq : ℕ} {c : CapturedChange α} {s : CaptureNode α}

def capture (r : CatalogRows) (p : SqlName × α) : CapturedChange α :=
  ⟨p.1,((r.tableBytes p.1).map SchemaTable.id).getD 0,p.2⟩

def drainChange (r : CatalogRows) (epoch : ℕ) (c : CapturedChange α) : DrainedChange α :=
  ⟨c,(r.captureTable c.name epoch).map SchemaTable.id⟩

def step (s : CaptureNode α) : CaptureAction α → CaptureNode α
  | .event ev => { s with rows := s.rows.applyEvent ev }
  | .commit changes =>
    { s with pending := s.pending++[⟨s.rows.schemaSeq+1,changes.map (capture s.rows)⟩] }
  | .drain =>
    match s.pending with
    | [] => s
    | j::js => { s with
        pending := js
        drained := s.drained++j.changes.map (drainChange s.rows j.epoch) }

/-- Events are admitted ones, and a commit changes rows of tables that exist. -/
def Sqlite (s : CaptureNode α) : CaptureAction α → Prop
  | .event ev => s.rows.AdmitsEvent ev
  | .commit changes => ∀ p ∈ changes,(s.rows.tableEntryByName p.1).isSome
  | .drain => True

instance (s : CaptureNode α) : DecidablePred s.Sqlite
  | .event ev => inferInstanceAs (Decidable (s.rows.AdmitsEvent ev))
  | .commit changes => inferInstanceAs (Decidable (∀ p ∈ changes,_))
  | .drain => inferInstanceAs (Decidable True)

/-- The op neither renames nor drops the change's table and gives its name to no table. -/
def Spares (c : CapturedChange α) : CatalogOp → Prop
  | .createTable _ name _ => c.name ≠ name
  | .renameTable table name => c.table ≠ table ∧ c.name ≠ name
  | .dropTable table => c.table ≠ table
  | _ => True

instance (c : CapturedChange α) : DecidablePred (Spares c)
  | .createTable _ _ _ => inferInstanceAs (Decidable (_ ≠ _))
  | .renameTable _ _ => inferInstanceAs (Decidable (_ ∧ _))
  | .dropTable _ => inferInstanceAs (Decidable (_ ≠ _))
  | .addColumn _ _ => inferInstanceAs (Decidable True)
  | .dropColumn _ _ => inferInstanceAs (Decidable True)
  | .renameColumn _ _ _ => inferInstanceAs (Decidable True)

/-- A schema event spares every change that waits for the drain. -/
def Calm (s : CaptureNode α) : CaptureAction α → Prop
  | .event ev => ∀ j ∈ s.pending,∀ c ∈ j.changes,∀ op ∈ ev.ops,Spares c op
  | _ => True

instance (s : CaptureNode α) : DecidablePred s.Calm
  | .event ev => inferInstanceAs (Decidable (∀ j ∈ s.pending,∀ c ∈ j.changes,∀ op ∈ ev.ops,Spares c op))
  | .commit _ => inferInstanceAs (Decidable True)
  | .drain => inferInstanceAs (Decidable True)

/-- Every change was emitted under its own table. -/
def KeepsTables (s : CaptureNode α) : Prop :=
  ∀ d ∈ s.drained,d.emitted = some d.source.table

instance (s : CaptureNode α) : Decidable s.KeepsTables :=
  inferInstanceAs (Decidable (∀ d ∈ s.drained,_ = _))

def Resolves (r : CatalogRows) (c : CapturedChange α) : Prop :=
  (⟨c.table,c.name,false⟩ : TableEntry) ∈ r.tables

section

variable (h : Resolves r c)
include h

theorem Resolves.apply {op : CatalogOp} (ha : r.Admits op) (hs : Spares c op) :
    Resolves (r.applyCatalogOp seq op) c := by
  cases op with
  | createTable table name columns =>
    rw [Resolves,tables_createTable ha]
    exact mem_append_left _ h
  | dropTable table => exact (Keyed.mem_upsert _).mpr (.inr ⟨h,hs⟩)
  | renameTable table name => exact (Keyed.mem_modify _).mpr ⟨_,h,(if_neg hs.1).symm⟩
  | addColumn table column => exact h
  | dropColumn table column =>
    rw [Resolves,applyCatalogOp,tables_dropColumn column]
    exact h
  | renameColumn table column name => exact h

theorem Resolves.applyOps {ops : List CatalogOp}
    (ha : Permitted (applyCatalogOp seq) Admits r ops) (hs : ∀ op ∈ ops,Spares c op) :
    Resolves (ops.foldl (applyCatalogOp seq) r) c := by
  induction ops generalizing r with
  | nil => exact h
  | cons op ops ih =>
    exact ih (h.apply ha.1 (hs op mem_cons_self)) ha.2
      fun o ho => hs o (mem_cons_of_mem _ ho)

end

theorem tableAtSeq_id {t t' : SchemaTable} (h : t' ∈ r.tableAtSeq t seq) : t'.id = t.id := by
  simp only [tableAtSeq,Option.mem_def] at h
  split_ifs at h
  · rw [Option.some.inj h]
  · rw [Option.some.inj h]
  · rw [← Option.some.inj h]

theorem captureTable_id (r : CatalogRows) (name : SqlName) (epoch : ℕ) :
    (r.captureTable name epoch).map SchemaTable.id = (r.tableEntryByName name).map TableEntry.id := by
  rw [captureTable,tableBytes,Option.map_map,Option.map_map]
  congr 1
  funext e
  show (if epoch = 0 then r.load e else (r.tableAtSeq (r.load e) (epoch-1)).getD (r.load e)).id = e.id
  by_cases h0 : epoch = 0
  · rw [if_pos h0]
    rfl
  · rw [if_neg h0]
    cases hseq : r.tableAtSeq (r.load e) (epoch-1) with
    | none => rfl
    | some t => exact tableAtSeq_id hseq

theorem Resolves.capture (hr : r.Sound) {p : SqlName × α} (h : (r.tableEntryByName p.1).isSome) :
    Resolves r (capture r p) := by
  obtain ⟨e,he⟩ := Option.isSome_iff_exists.mp h
  obtain ⟨hmem,hd,hname⟩ := hr.tableEntryByName_eq_some.mp he
  have heq : (⟨(CaptureNode.capture r p).table,p.1,false⟩ : TableEntry) = e := by
    rw [CaptureNode.capture,tableBytes,he,← hname,← hd]
    rfl
  rw [← heq] at hmem
  exact hmem

theorem Resolves.drainChange (h : Resolves r c) (hr : r.Sound) (epoch : ℕ) :
    (drainChange r epoch c).emitted = some c.table := by
  rw [CaptureNode.drainChange,captureTable_id,hr.tableEntryByName_eq_some.mpr ⟨h,rfl,rfl⟩]
  rfl

structure Resolving (s : CaptureNode α) : Prop where
  sound : s.rows.Sound
  pending : ∀ j ∈ s.pending,∀ c ∈ j.changes,Resolves s.rows c
  keeps : s.KeepsTables

theorem Resolving.step (h : s.Resolving) {a : CaptureAction α} (ha : s.Sqlite a) (hcalm : s.Calm a) :
    (s.step a).Resolving := by
  cases a with
  | event ev =>
    exact ⟨h.sound.applyEvent ha,fun j hj c hc =>
      (h.pending j hj c hc).applyOps ha (hcalm j hj c hc),h.keeps⟩
  | commit changes =>
    refine ⟨h.sound,fun j hj c hc => ?_,h.keeps⟩
    obtain hj | rfl := mem_concat.mp hj
    · exact h.pending j hj c hc
    · obtain ⟨p,hp,rfl⟩ := mem_map.mp hc
      exact .capture h.sound (ha p hp)
  | drain =>
    rw [CaptureNode.step]
    cases hp : s.pending with
    | nil => exact h
    | cons j js =>
      refine ⟨h.sound,fun j' hj' => h.pending j' (hp ▸ mem_cons_of_mem _ hj'),fun d hd => ?_⟩
      obtain hd | hd := mem_append.mp hd
      · exact h.keeps d hd
      · obtain ⟨c,hc,rfl⟩ := mem_map.mp hd
        exact (h.pending j (hp ▸ mem_cons_self) c hc).drainChange h.sound j.epoch

end CaptureNode

namespace CaptureSample

open CaptureNode

def empty : CaptureNode ℕ := ⟨⟨[],[],0⟩,[],[]⟩

theorem sound_empty : empty.rows.Sound :=
  ⟨nodup_nil,by simp [empty],nodup_nil,by simp [empty],by simp [empty]⟩

/-- Table 1 is drained before it gives its name away, and again before it is dropped. -/
def calmActions : List (CaptureAction ℕ) :=
  [.event (.single (.createTable 1 10 [⟨0,5,0⟩])),.commit [(10,7)],
    .event (.single (.addColumn 1 ⟨1,6,1⟩)),.drain,
    .event (.bundle [.renameTable 1 11,.createTable 2 10 [⟨0,5,0⟩]]),.commit [(11,8),(10,9)],
    .drain,.commit [(10,6)],.event (.single (.dropTable 1)),.drain]

/-- Table 1 is renamed, and its name taken by table 2, while a change of table 1 waits. -/
def reusedActions : List (CaptureAction ℕ) :=
  [.event (.single (.createTable 1 10 [⟨0,5,0⟩])),.commit [(10,7)],
    .event (.single (.renameTable 1 11)),.event (.single (.createTable 2 10 [⟨0,5,0⟩])),.drain]

end CaptureSample

end Syzy
