import Syzy.Capture
import Syzy.Presence

/-!
A node's own changesets and the replica that applies them in order: the causal lengths keep their
discipline, and the replica its rows in step with its clocks, as long as every delete finds the row's
clock live.
-/

namespace Syzy

open List

section Emission

variable {cat : Catalog} {b : SinkBatch}

theorem ships_emits {ev : RecordEvidence} (h : Captured cat ev) : ∀ r ∈ b.emits ev,Ships cat r := by
  have hins : ∀ {k cl image},(∃ tab,cat.tableByID k.table = some tab ∧
      image.map ColValue.column = tab.columns.map Column.id) → Ships cat (.insert k cl image) := by
    rintro k cl image ⟨tab,htab,himg⟩ tab' htab'
    obtain rfl := Option.mem_unique htab htab'
    exact himg
  intro r hr
  cases ev with
  | insert k image =>
    rw [mem_singleton.mp hr]
    exact hins h
  | update k changed =>
    rw [mem_singleton.mp hr]
    obtain ⟨tab,htab,hchanged⟩ := h
    intro tab' htab'
    obtain rfl := Option.mem_unique htab htab'
    exact hchanged
  | delete k =>
    rw [mem_singleton.mp hr]
    exact fun _ _ => trivial
  | updatePKChange k k' image =>
    rcases mem_cons.mp hr with rfl | hr
    · exact fun _ _ => trivial
    · rw [mem_singleton.mp hr]
      exact hins h
  | blobPatch k col ranges => exact h.elim

theorem ships_buildRecords (stamp : Stamp) {evs : List RecordEvidence} (hevs : ∀ ev ∈ evs,Captured cat ev)
    (hb : ∀ r ∈ b.records,Ships cat r) :
    ∀ r ∈ (SinkBatch.buildRecords cat stamp b evs).records,Ships cat r := by
  refine foldlRecOn evs (SinkBatch.buildRecord cat stamp)
    (motive := fun b => ∀ r ∈ b.records,Ships cat r) hb fun b hb ev hev r hr => ?_
  rw [SinkBatch.records_buildRecord] at hr
  rcases mem_append.mp hr with hr | hr
  · exact hb r hr
  · exact ships_emits (hevs ev hev) r hr

/-- Every emitted record can be applied by a node with the same catalog. -/
def AllShip (cat : Catalog) (emitted : List (Stamp × List Record)) : Prop :=
  ∀ cs ∈ emitted,∀ r ∈ cs.2,Ships cat r

theorem AllShip.commit {s : DrainBatch} {p : Stamp × List RecordEvidence} (h : AllShip cat s.emitted)
    (hevs : ∀ ev ∈ p.2,Captured cat ev) : AllShip cat (s.commit cat p).emitted := by
  have hnew := ships_buildRecords p.1 (b := { s.scratch with records := [] }) hevs
    fun r hr => absurd hr not_mem_nil
  intro cs hcs
  simp only [DrainBatch.commit] at hcs
  split_ifs at hcs
  · exact h cs hcs
  · rcases mem_concat.mp hcs with hcs | rfl
    · exact h cs hcs
    · exact hnew

theorem AllShip.apply {d : Drain} {batch : List Commit} (hcat : cat.OK) (h : AllShip cat d.emitted)
    (hr : ∀ c ∈ batch,∀ r ∈ c.touches,Reported cat r) : AllShip cat (d.apply cat batch).emitted := by
  unfold Drain.apply
  cases hev : Drain.evidence cat batch with
  | error e => exact h
  | ok cs =>
    have hcap := Drain.captured_evidence hcat hr hev
    have hbegin : AllShip cat d.beginBatch.emitted := h
    exact foldlRecOn cs (DrainBatch.commit cat) (motive := fun s => AllShip cat s.emitted) hbegin
      fun s hs p hp => hs.commit (hcap p hp)

theorem AllShip.run {d : Drain} {batches : List (List Commit)} (hcat : cat.OK)
    (h : AllShip cat d.emitted)
    (hr : ∀ batch ∈ batches,∀ c ∈ batch,∀ r ∈ c.touches,Reported cat r) :
    AllShip cat (batches.foldl (Drain.apply cat) d).emitted :=
  foldlRecOn batches (Drain.apply cat) (motive := fun d => AllShip cat d.emitted) h
    fun _ hd batch hb => hd.apply hcat (hr batch hb)

end Emission

/-- A replica receives a changeset; one that it cannot apply is rolled back. -/
def Data.receive (cat : Catalog) (d : Data) (cs : Stamp × List Record) : Data :=
  match applyData cat d cs.1 cs.2 with
  | .ok d' => d'
  | .error _ => d

theorem Data.Present.receive {cat : Catalog} {d : Data} {cs : Stamp × List Record}
    (hcat : cat.Storable) (hd : d.Present) (hships : ∀ r ∈ cs.2,Ships cat r)
    (hlen : ∀ r ∈ cs.2,r.LengthOK) (hclimb : cs.2.Pairwise fun x y => x.key = y.key → x.cl ≤ y.cl) :
    (d.receive cat cs).Present := by
  unfold Data.receive
  cases h : Syzy.applyData cat d cs.1 cs.2 with
  | error e => exact hd
  | ok d' => exact hd.applyData hcat hships hlen hclimb h

/-- A replica that receives disciplined changesets stores a row exactly where its clock is odd. -/
theorem Data.Present.receiveAll {cat : Catalog} {d : Data} {css : List (Stamp × List Record)}
    (hcat : cat.Storable) (hd : d.Present) (hships : AllShip cat css)
    (hdis : Disciplined (DrainBatch.history css)) : (css.foldl (Data.receive cat) d).Present := by
  refine foldlRecOn css (Data.receive cat) (motive := Data.Present) hd fun d hd cs hcs => ?_
  have hmem : cs.2 ∈ DrainBatch.history css := mem_map_of_mem hcs
  exact hd.receive hcat (hships cs hcs)
    (fun r hr => hdis.lengths r (mem_flatten.mpr ⟨cs.2,hmem,hr⟩)) (hdis.climbs cs.2 hmem)

/-! Transactions on one row of a table with rowids. -/
namespace CausalSample

open CaptureSample

def stamp (wall : ℤ) : Stamp := ⟨⟨wall,0⟩,1⟩

def commit (wall : ℤ) (es : List RowEvent) : Commit := ⟨stamp wall,es.map journalAppendPreupdate⟩

def start : Drain := ⟨.new 1,[]⟩

theorem start_fresh (k : RowKey) : (start.cache.rowState k).cl = 0 := rfl

/-- The row is inserted, updated, and moved to another key and back again in three batches. -/
def lives : List (List Commit) :=
  [[commit 1 [.insert (place (.rowid 1)) (image 1 10)],
    commit 2 [.update (place (.rowid 1)) (place (.rowid 1)) (image 1 10) (image 1 11)]],
   [commit 3 [.update (place (.rowid 1)) (place (.rowid 1)) (image 1 11) (image 2 11)]],
   [commit 4 [.update (place (.rowid 1)) (place (.rowid 1)) (image 2 11) (image 1 11)],
    commit 5 [.delete (place (.rowid 1)) (image 1 11)]]]

def empty : Data := ⟨∅,.new 2,∅⟩

theorem empty_present : empty.Present where
  rows k := ⟨fun h => absurd h Finmap.notMem_empty,by simp [empty,Cache.rowState,Cache.new]⟩
  blob := rfl

def Whole (batches : List (List Commit)) : Prop :=
  ∀ batch ∈ batches,∀ c ∈ batch,∀ r ∈ c.touches,∀ img ∈ r.oldVals.toList++r.newVals.toList,
    img.length = 2

instance (batches : List (List Commit)) : Decidable (Whole batches) := by
  unfold Whole
  infer_instance

theorem eq_table {t : TableID} {tab : Table} (h : catalog.tableByID t = some tab) : tab = table := by
  simp only [catalog] at h
  split_ifs at h
  exact (Option.some.inj h).symm

theorem Whole.reported {batches : List (List Commit)} (h : Whole batches) :
    ∀ batch ∈ batches,∀ c ∈ batch,∀ r ∈ c.touches,Reported catalog r := by
  intro batch hbatch c hc r hr tab htab img himg
  rw [eq_table htab]
  refine h batch hbatch c hc r hr img (mem_append.mpr ?_)
  simpa using himg

/-- The row is inserted, then deleted and inserted again in one transaction. -/
def reinserts : List (List Commit) :=
  [[commit 1 [.insert (place (.rowid 1)) (image 1 10)]],
   [commit 2 [.delete (place (.rowid 1)) (image 1 10),.insert (place (.rowid 1)) (image 1 11)]]]

/-- A row from before the first clock is deleted with length zero. -/
example : DrainBatch.history ([[commit 1 [.delete (place (.rowid 1)) (image 1 10)]]].foldl
    (Drain.apply catalog) start).emitted = [[.delete (key 1) 0]] := by decide +kernel

end CausalSample

end Syzy
