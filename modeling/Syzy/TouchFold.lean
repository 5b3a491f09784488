import Syzy.RowView
import Syzy.Touch

/-!
The drain's fold of a transaction's reports as slots of row events: a slot for each table and rowid,
with the first and the last event recorded there.
-/

namespace Syzy

open List

open RowEvents

variable (cat : Catalog) (q : RowPlace) (s : RowSlot)

def captured : Bool := q.db = "main" && (cat.tableByID q.table).isSome

def slotOf : TableID × ℤ := (q.table,q.reportedRowid)

abbrev RowSlot := Slot RowPlace (TableID × ℤ) Image

def opOf : RowEvent → TouchOp
  | .insert _ _ => .insert
  | .update _ _ _ _ => .update
  | .delete _ _ => .delete

def columnsOf (t : TableID) : List Column := ((cat.tableByID t).map Table.columns).getD []

def toDedup : DedupSlot where
  table := s.key.1
  rowid := s.key.2
  t := {
    firstOp := opOf s.first
    firstOld := s.old.map fun x => assignColumnIDs (columnsOf cat s.key.1) x.2
    lastOp := opOf s.last
    lastNew := s.new.map fun x => assignColumnIDs (columnsOf cat s.key.1) x.2 }

section Preupdate

variable (e : RowEvent)

@[simp] theorem dbName_journalAppend : (journalAppendPreupdate e).dbName = e.place.db := by
  cases e <;> rfl
@[simp] theorem table_journalAppend : (journalAppendPreupdate e).table = e.place.table := by
  cases e <;> rfl
@[simp] theorem op_journalAppend : (journalAppendPreupdate e).op = opOf e := by cases e <;> rfl
@[simp] theorem rowid_journalAppend : (journalAppendPreupdate e).rowid = e.place.reportedRowid := by
  cases e <;> rfl
@[simp] theorem oldVals_journalAppend :
    (journalAppendPreupdate e).oldVals = e.source.map Prod.snd := by
  cases e <;> rfl
@[simp] theorem newVals_journalAppend :
    (journalAppendPreupdate e).newVals = e.target.map Prod.snd := by
  cases e <;> rfl

end Preupdate

theorem sourcePlace_eq {e : RowEvent} {x : RowPlace × Image} (h : e.source = some x) :
    x.1 = e.place := by
  cases e with
  | insert q n => exact absurd h (by simp [Event.source])
  | update | delete => exact congrArg Prod.fst (Option.some.inj h).symm

theorem toDedup_matches (e : RowEvent) : ((toDedup cat s).rowid = (journalAppendPreupdate e).rowid ∧
      (toDedup cat s).table = (journalAppendPreupdate e).table) ↔ s.key = slotOf e.place := by
  rw [rowid_journalAppend,table_journalAppend,slotOf,Prod.ext_iff]
  exact And.comm

theorem again_toDedup {cat : Catalog} {tab : Table} {e : RowEvent}
    (htab : cat.tableByID e.place.table = some tab) (s : RowSlot) :
    (toDedup cat s).again tab (journalAppendPreupdate e) =
      toDedup cat (setLast (slotOf e.place) e s) := by
  unfold DedupSlot.again
  by_cases hk : s.key = slotOf e.place
  · have hcols : columnsOf cat s.key.1 = tab.columns := by
      rw [hk]
      simp [columnsOf,slotOf,htab]
    rw [if_pos ((toDedup_matches cat s e).mpr hk),setLast_self e hk]
    simp only [toDedup,Slot.new,op_journalAppend,newVals_journalAppend,Option.map_map,hcols]
    rfl
  · rw [if_neg (mt (toDedup_matches cat s e).mp hk),setLast_other e hk]

theorem dedupTouch_toDedup (L : List RowSlot) (e : RowEvent) :
    dedupTouch cat (L.map (toDedup cat)) (journalAppendPreupdate e) =
      (if captured cat e.place then touch slotOf L e else L).map (toDedup cat) := by
  unfold dedupTouch
  rw [dbName_journalAppend,table_journalAppend]
  by_cases hdb : e.place.db = "main"
  · rw [if_neg (not_not.mpr hdb)]
    cases htab : cat.tableByID e.place.table with
    | none => simp [captured,htab]
    | some tab =>
      have hcap : captured cat e.place = true := by simp [captured,hdb,htab]
      have hcols : columnsOf cat e.place.table = tab.columns := by simp [columnsOf,htab]
      have hany : (∃ s ∈ L.map (toDedup cat),s.rowid = (journalAppendPreupdate e).rowid ∧
          s.table = e.place.table) ↔ ∃ s ∈ L,s.key = slotOf e.place := by
        rw [← table_journalAppend e]
        simp only [mem_map,exists_exists_and_eq_and,toDedup_matches]
      dsimp only
      rw [if_pos hcap,touch]
      by_cases hmem : ∃ s ∈ L,s.key = slotOf e.place
      · rw [if_pos (hany.mpr hmem),if_pos hmem,map_map,map_map]
        exact map_congr_left fun s _ => again_toDedup htab s
      · rw [if_neg (mt hany.mp hmem),if_neg hmem,map_append]
        simp [toDedup,touchedOf,slotOf,Slot.old,Slot.new,hcols,Function.comp_def]
  · simp [captured,hdb]

theorem dedup_eq (es : List RowEvent) : (es.map journalAppendPreupdate).foldl (dedupTouch cat) [] =
      (slots slotOf (es.filter fun e => captured cat e.place)).map (toDedup cat) := by
  induction es using reverseRecOn with
  | nil => rfl
  | append_singleton es e ih =>
    rw [map_append,foldl_append,ih,filter_append]
    change dedupTouch cat ((slots slotOf _).map (toDedup cat)) (journalAppendPreupdate e) = _
    rw [dedupTouch_toDedup]
    cases hcap : captured cat e.place with
    | false => simp [hcap]
    | true => simp [hcap,slots,foldl_append]

end Syzy
