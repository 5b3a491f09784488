import Syzy.Evidence
import Syzy.ExceptFold

/-!
What the drain makes of a transaction, against what the transaction did. The records replay it when no
slot takes up a second row and the slots' net changes are possible in the order of their first events.
-/

namespace Syzy

open List

open RowEvents

/-- Every row the journal would capture has a key of its own. -/
structure Keyable (cat : Catalog) (S : RowPlace → Option Image) : Prop where
  row : ∀ x : RowPlace × Image,S x.1 = some x.2 → captured cat x.1 = true → RowOK cat x
  distinct : Distinct (rowAt cat) S

/-- The row events of one transaction, as SQLite lets them happen. -/
structure Transaction (cat : Catalog) (pre : RowPlace → Option Image) (es : List RowEvent) : Prop where
  consistent : Consistent pre es
  stays : ∀ e ∈ es,∀ q,e.targetPlace = some q → q.db = e.place.db ∧ q.table = e.place.table
  keyable : ∀ t,t <+: es → Keyable cat (after pre t)

def capturedEvents (cat : Catalog) (es : List RowEvent) : List RowEvent :=
  es.filter fun e => captured cat e.place

def netSlots (cat : Catalog) (es : List RowEvent) : List RowSlot := slots slotOf (capturedEvents cat es)

/-- The records of the drain, replayed in order on the rows before, leave the rows after, whatever
the sink's row states. -/
def Faithful (cat : Catalog) (K : KeyedRows) (post : RowPlace → Option Image) (es : List RowEvent) :
    Prop :=
  ∃ evs,buildRecordEvidence cat (es.map journalAppendPreupdate) = .ok evs ∧ ∀ rowState stamp,
    Viewed (rowAt cat) post
      (((SinkBatch.new rowState).buildRecords cat stamp evs).records.foldl (replayKeyed cat) K)

structure Nets (cat : Catalog) (K : KeyedRows) (es : List RowEvent) : Prop where
  oneRow : OneRow slotOf (capturedEvents cat es)
  possible : Machine.Permitted Change.exec Change.Fits K
    ((netSlots cat es).map fun s => s.change.bind (rowAt cat))
  counters : ∀ s ∈ netSlots cat es,SlotFits cat s

section Events

variable (cat : Catalog) (s : RowSlot)

def evidenceOf : Option RecordEvidence :=
  (slotEvidence cat (toDedup cat s)).toOption.join

def replaySlot (K : KeyedRows) : KeyedRows :=
  (evidenceOf cat s).elim K (replayEvidence cat K)

theorem evidenceOf_ok {cat : Catalog} {s : RowSlot} {ev : Option RecordEvidence}
    (h : slotEvidence cat (toDedup cat s) = .ok ev) : evidenceOf cat s = ev := by
  rw [evidenceOf,h]
  rfl

theorem replay_evidence (L : List RowSlot) (K : KeyedRows) :
    (L.map (evidenceOf cat)).reduceOption.foldl (replayEvidence cat) K =
      L.foldl (fun K s => replaySlot cat s K) K := by
  induction L generalizing K with
  | nil => rfl
  | cons s L ih =>
    rw [map_cons,foldl_cons,replaySlot]
    cases hev : evidenceOf cat s with
    | none => exact ih K
    | some ev => exact ih _

theorem buildRecordEvidence_eq {cat : Catalog} {es : List RowEvent}
    (h : ∀ s ∈ netSlots cat es,slotEvidence cat (toDedup cat s) = .ok (evidenceOf cat s)) :
    buildRecordEvidence cat (es.map journalAppendPreupdate) =
      .ok ((netSlots cat es).map (evidenceOf cat)).reduceOption := by
  have hmap : ((netSlots cat es).map (toDedup cat)).mapM (slotEvidence cat) =
      .ok ((netSlots cat es).map (evidenceOf cat)) := by
    rw [mapM_map]
    exact ExceptFold.mapM_ok h
  unfold buildRecordEvidence
  rw [dedup_eq]
  change ((netSlots cat es).map (toDedup cat)).mapM (slotEvidence cat) >>= _ = _
  rw [hmap]
  rfl

theorem slotEvidence_of_build {cat : Catalog} {es : List RowEvent} {evs : List RecordEvidence}
    (h : buildRecordEvidence cat (es.map journalAppendPreupdate) = .ok evs) :
    ∀ s ∈ netSlots cat es,∃ ev,slotEvidence cat (toDedup cat s) = .ok ev := by
  unfold buildRecordEvidence at h
  rw [dedup_eq] at h
  change ((netSlots cat es).map (toDedup cat)).mapM (slotEvidence cat) >>= _ = _ at h
  cases hmap : ((netSlots cat es).map (toDedup cat)).mapM (slotEvidence cat) with
  | error e =>
    rw [hmap] at h
    exact absurd h (by simp [bind,Except.bind])
  | ok bs =>
    intro s hs
    obtain ⟨o,-,ho⟩ := (ExceptFold.mapM_spec hmap).1 _ (mem_map_of_mem hs)
    exact ⟨o,ho⟩

end Events

section Transactions

variable {cat : Catalog} {pre : RowPlace → Option Image} {es : List RowEvent}

theorem captured_of_rowAt (x : RowPlace × Image) (r : RowKey × Cells) (h : rowAt cat x = some r) :
    captured cat x.1 = true := by
  unfold rowAt at h
  split_ifs at h with hdb
  obtain ⟨tab,htab,-⟩ := Option.bind_eq_some_iff.mp h
  simp [captured,hdb,htab]

namespace Transaction

variable (h : Transaction cat pre es)
include h

theorem capturedStays : ∀ e ∈ es,e.Stays (captured cat) := by
  refine fun e he => ⟨fun q hq => ?_,fun q hq => ?_⟩
  · obtain ⟨x,hx,rfl⟩ := Option.map_eq_some_iff.mp hq
    rw [sourcePlace_eq hx]
  · obtain ⟨hdb,htable⟩ := h.stays e he q hq
    simp [captured,hdb,htable]

theorem of_initial {t : List RowEvent} (ht : t <+: es) :
    Transaction cat pre t where
  consistent := h.consistent.of_initial ht
  stays := fun e he => h.stays e (ht.subset he)
  keyable := fun u hu => h.keyable u (hu.trans ht)

/-- The captured events alone are a run of their own with the same captured rows. -/
theorem filter : Consistent pre (capturedEvents cat es) ∧
    ∀ q,captured cat q = true → after pre es q = after pre (capturedEvents cat es) q :=
  consistent_filter h.capturedStays (fun _ _ => rfl) h.consistent

theorem distinct : ∀ t,t <+: capturedEvents cat es → Distinct (rowAt cat) (after pre t) := by
  intro t ht
  obtain ⟨u,hu,rfl⟩ := prefix_filter_iff.mp ht
  exact (h.keyable u hu).distinct.congr captured_of_rowAt (h.of_initial hu).filter.2

theorem row_source {e : RowEvent} (he : e ∈ es) (hcap : captured cat e.place = true)
    {x : RowPlace × Image} (hx : e.source = some x) : RowOK cat x := by
  obtain ⟨t,ht,hS⟩ := h.consistent.source_held he hx
  refine (h.keyable t ht).row x hS ?_
  rw [sourcePlace_eq hx]
  exact hcap

theorem row_target {e : RowEvent} (he : e ∈ es) (hcap : captured cat e.place = true)
    {x : RowPlace × Image} (hx : e.target = some x) : x.1.table = e.place.table ∧ RowOK cat x := by
  obtain ⟨t,ht,hS⟩ := target_held (S := pre) he hx
  obtain ⟨hdb,htable⟩ := h.stays e he x.1 (congrArg (Option.map Prod.fst) hx)
  refine ⟨htable,(h.keyable t ht).row x hS ?_⟩
  simpa [captured,hdb,htable] using hcap

theorem slotOK {s : RowSlot} (hs : s ∈ netSlots cat es) :
    SlotOK cat s ∧ ∃ tab,cat.tableByID s.key.1 = some tab := by
  obtain ⟨hfirst,hlast,hkey,hkey'⟩ := mem_slots hs
  obtain ⟨hf,hfcap⟩ := mem_filter.mp hfirst
  obtain ⟨hl,hlcap⟩ := mem_filter.mp hlast
  refine ⟨⟨fun x hx => ⟨?_,h.row_source hf hfcap hx⟩,fun x hx => ?_⟩,?_⟩
  · rw [hkey,sourcePlace_eq hx]
    rfl
  · obtain ⟨htable,hrow⟩ := h.row_target hl hlcap hx
    refine ⟨?_,hrow⟩
    rw [hkey',htable]
    rfl
  · rw [hkey]
    have hsome := (Bool.and_eq_true_iff.mp hfcap).2
    exact Option.isSome_iff_exists.mp hsome

theorem effect (hcat : cat.OK) (hfit : ∀ s ∈ netSlots cat es,SlotFits cat s) :
    ∀ s ∈ netSlots cat es,slotEvidence cat (toDedup cat s) = .ok (evidenceOf cat s) ∧
      Effect (replaySlot cat s) (s.change.bind (rowAt cat)) := by
  intro s hs
  obtain ⟨hok,tab,htab⟩ := h.slotOK hs
  obtain ⟨ev,hev,heff⟩ := slotEvidence_effect hcat htab hok (hfit s hs)
  have heq := evidenceOf_ok hev
  refine ⟨by rw [heq,hev],?_⟩
  unfold replaySlot
  rw [heq]
  exact heff

end Transaction

end Transactions

/-- A transaction whose slots stand for it is captured faithfully. When every event lands in the slot
that holds its row, no other is. -/
theorem capture_faithful {cat : Catalog} (hcat : cat.OK) {pre : RowPlace → Option Image}
    {es : List RowEvent} (htx : Transaction cat pre es) {K : KeyedRows}
    (hK : Viewed (rowAt cat) pre K) :
    (Nets cat K es → Faithful cat K (after pre es) es) ∧
      (Followed slotOf (capturedEvents cat es) → Faithful cat K (after pre es) es → Nets cat K es) := by
  obtain ⟨hcons,hagree⟩ := htx.filter
  have hreplay : ∀ rowState stamp evs,((SinkBatch.new rowState).buildRecords cat stamp evs).records.foldl
      (replayKeyed cat) K = evs.foldl (replayEvidence cat) K := fun rowState stamp evs =>
    replay_buildRecords cat stamp (SinkBatch.new rowState) evs K
  constructor
  · intro hnets
    have heff := htx.effect hcat hnets.counters
    refine ⟨_,buildRecordEvidence_eq fun s hs => (heff s hs).1,fun rowState stamp => ?_⟩
    rw [hreplay,replay_evidence,Effect.run_eq (fun s hs => (heff s hs).2) hnets.possible]
    exact (hK.slots hcons htx.distinct hnets.oneRow hnets.possible).congr captured_of_rowAt
      fun q hq => (hagree q hq).symm
  · rintro hfol ⟨evs,hevs,hview⟩
    have hfit : ∀ s ∈ netSlots cat es,SlotFits cat s := by
      intro s hs
      obtain ⟨ev,hev⟩ := slotEvidence_of_build hevs s hs
      exact slotFits_of_slotEvidence hcat (htx.slotOK hs).1 hev
    have heff := htx.effect hcat hfit
    rw [buildRecordEvidence_eq fun s hs => (heff s hs).1] at hevs
    cases hevs
    have hnet := net_slots hcons hfol
    have hd := htx.distinct _ (prefix_refl _)
    have hpost := (hview (fun _ => .ofBase 0 Stamp.zero) Stamp.zero).congr captured_of_rowAt hagree
    rw [hreplay,replay_evidence] at hpost
    have hord := hnet.ordered hd (fun s hs => (heff s hs).2) hpost
    exact ⟨oneRow_of_followed hcons hfol,
      hnet.permitted hK (htx.distinct [] nil_prefix) hd hord,hfit⟩

/-! Two rows of one table, first with rowids and then without. -/
namespace CaptureSample

def table : Table where
  id := 1
  columns := [⟨1,1,false,true,false,.null,.binary⟩,⟨2,0,false,false,false,.null,.binary⟩]
  uniqueKeys := []
  cellGroup := false
  dropped := false

def catalog : Catalog := ⟨fun id => if id = 1 then some table else none⟩

def image (id v : ℤ) : Image := [⟨1,colInt,.text,encodeInt64 id⟩,⟨2,colInt,.text,encodeInt64 v⟩]
def place (a : RowAddress) : RowPlace := ⟨"main",1,a⟩
def key (id : ℤ) : RowKey := ⟨1,((table.encodePKFromSlice (image id 0)).getD [])⟩

def keyed (l : List (ℤ × ℤ)) : KeyedRows := fun k =>
  (l.map fun r => (key r.1,[((2 : ColumnID),SqlValue.int r.2)])).lookup k

theorem catalog_ok : catalog.OK where
  id_eq t tab h := by
    simp only [catalog] at h
    split_ifs at h with ht
    rw [← Option.some.inj h,ht]
    rfl
  columns_nodup t tab h := by
    simp only [catalog] at h
    split_ifs at h with ht
    rw [← Option.some.inj h]
    decide

def Holdable (x : RowPlace × Image) : Prop :=
  x.1.table = 1 ∧ x.2.map ColValue.column = table.columns.map Column.id ∧
    (∀ v ∈ x.2,v.format ≠ .delta) ∧ (rowAt catalog x).isSome = true

instance (x : RowPlace × Image) : Decidable (Holdable x) := by
  unfold Holdable
  infer_instance

theorem Holdable.ok {x : RowPlace × Image} (h : Holdable x) : RowOK catalog x := by
  obtain ⟨htable,haligned,hplain,hkeyed⟩ := h
  refine ⟨fun tab htab => ?_,hkeyed⟩
  rw [htable] at htab
  obtain rfl : table = tab := Option.some.inj htab
  exact ⟨haligned,hplain⟩

/-- In each state of the run the rows among the candidates have keys of their own. -/
def Separate (l : List (RowPlace × Image)) (es : List RowEvent) : Prop :=
  ∀ t ∈ es.inits,∀ x ∈ l++es.filterMap Event.target,∀ y ∈ l++es.filterMap Event.target,
    after (ofList l) t x.1 = some x.2 → after (ofList l) t y.1 = some y.2 →
    (rowAt catalog x).map Prod.fst = (rowAt catalog y).map Prod.fst → x = y

instance (l : List (RowPlace × Image)) (es : List RowEvent) : Decidable (Separate l es) := by
  unfold Separate
  infer_instance

theorem transaction {l : List (RowPlace × Image)} {es : List RowEvent} (hcons : Consistent (ofList l) es)
    (hstay : ∀ e ∈ es,∀ q ∈ e.targetPlace,q.db = e.place.db ∧ q.table = e.place.table)
    (hok : ∀ x ∈ l++es.filterMap Event.target,Holdable x) (hsep : Separate l es) :
    Transaction catalog (ofList l) es where
  consistent := hcons
  stays := hstay
  keyable t ht := by
    refine ⟨fun x hx _ => (hok x (mem_of_initial ht hx)).ok,fun x y hx hy k v w hgx hgy => ?_⟩
    refine hsep t ((mem_inits t es).mpr ht) x (mem_of_initial ht hx) y (mem_of_initial ht hy) hx hy ?_
    rw [hgx,hgy]
    rfl

theorem viewed {l : List (RowPlace × Image)} {r : List (ℤ × ℤ)}
    (h : ∀ x ∈ l,ofList l x.1 = some x.2 → ∀ y ∈ rowAt catalog x,keyed r y.1 = some y.2)
    (h' : ∀ y ∈ r.map fun r => (key r.1,[((2 : ColumnID),SqlValue.int r.2)]),
      ∃ x ∈ l,ofList l x.1 = some x.2 ∧ rowAt catalog x = some y) :
    Viewed (rowAt catalog) (ofList l) (keyed r) := by
  intro k v
  constructor
  · intro hk
    obtain ⟨x,-,hx,hgx⟩ := h' (k,v) (mem_of_lookup hk)
    exact ⟨x,hx,hgx⟩
  · rintro ⟨x,hx,hgx⟩
    exact h x (mem_of_lookup hx) hx (k,v) hgx

/-- Rows with rowids: one is updated, moved to another rowid and updated there, one is deleted and
inserted again. -/
def before : List (RowPlace × Image) :=
  [(place (.rowid 1),image 1 10),(place (.rowid 2),image 2 20)]
def moves : List RowEvent :=
  [.update (place (.rowid 1)) (place (.rowid 1)) (image 1 10) (image 1 11),
    .update (place (.rowid 1)) (place (.rowid 3)) (image 1 11) (image 3 11),
    .update (place (.rowid 3)) (place (.rowid 3)) (image 3 11) (image 3 12),
    .delete (place (.rowid 2)) (image 2 20),.insert (place (.rowid 2)) (image 2 21)]

theorem moves_faithful : Faithful catalog (keyed [(1,10),(2,20)]) (after (ofList before) moves) moves := by
  refine (capture_faithful catalog_ok (transaction (l := before) (by decide) (by decide)
    (by decide) (by decide +kernel)) (viewed (by decide +kernel) (by decide +kernel))).1
    ⟨by decide,by decide +kernel,fun s hs tab htab hgroup => ?_⟩
  simp only [catalog] at htab
  split_ifs at htab
  rw [← Option.some.inj htab] at hgroup
  exact absurd hgroup (by decide)

/-- Rows of a table without rowids are all reported at rowid 0. -/
def withoutRowid : List (RowPlace × Image) :=
  [(place (.key [1]),image 1 10),(place (.key [2]),image 2 20)]
def updates : List RowEvent :=
  [.update (place (.key [1])) (place (.key [1])) (image 1 10) (image 1 11),
    .update (place (.key [2])) (place (.key [2])) (image 2 20) (image 2 21)]

/-- Two updates of two rows come out as a deletion of the first and an insertion of the second. -/
theorem withoutRowid_loses_row : Transaction catalog (ofList withoutRowid) updates ∧
    Viewed (rowAt catalog) (ofList withoutRowid) (keyed [(1,10),(2,20)]) ∧
    ¬Faithful catalog (keyed [(1,10),(2,20)]) (after (ofList withoutRowid) updates) updates := by
  refine ⟨transaction (by decide) (by decide) (by decide) (by decide +kernel),
    viewed (by decide +kernel) (by decide +kernel),?_⟩
  rintro ⟨evs,hevs,hview⟩
  have hbuild : buildRecordEvidence catalog (updates.map journalAppendPreupdate) =
      .ok [.updatePKChange (key 1) (key 2) (image 2 21)] := by decide +kernel
  obtain rfl := Except.ok.inj (hbuild.symm.trans hevs)
  have hrow := (hview (fun _ => .ofBase 1 Stamp.zero) Stamp.zero (key 1) [(2,.int 11)]).mpr
    ⟨(place (.key [1]),image 1 11),by decide,by decide +kernel⟩
  revert hrow
  decide +kernel

end CaptureSample

end Syzy
