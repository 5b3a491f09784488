import Syzy.RowState

/-!
Changesets as they travel between nodes: one transaction's records under one dot and one stamp,
each record with the causal length its writer saw.
-/

namespace Syzy

def colNull : ℕ := 0
def colInt : ℕ := 1
def colReal : ℕ := 2
def colText : ℕ := 3
def colBlob : ℕ := 4

/-- How the bytes of a value are meant: an external form, or a contribution to add. -/
inductive Format where
  | text
  | binary
  | delta
deriving DecidableEq

structure ColValue where
  column : ColumnID
  typeTag : ℕ
  format : Format
  bytes : Bytes
deriving DecidableEq

def ColValue.null (col : ColumnID) : ColValue := ⟨col,colNull,.text,[]⟩

structure PatchRange where
  offset : ℕ
  bytes : Bytes
deriving DecidableEq

def PatchRange.stop (r : PatchRange) : ℕ := r.offset+r.bytes.length

inductive Record where
  | insert (key : RowKey) (cl : ℕ) (image : List ColValue)
  | update (key : RowKey) (cl : ℕ) (changed : List ColValue)
  | delete (key : RowKey) (cl : ℕ)
  | blobPatch (key : RowKey) (cl : ℕ) (col : ColumnID) (ranges : List PatchRange)
deriving DecidableEq

namespace Record

def key : Record → RowKey
  | insert k _ _ | update k _ _ | delete k _ | blobPatch k _ _ _ => k
def cl : Record → ℕ
  | insert _ c _ | update _ c _ | delete _ c | blobPatch _ c _ _ => c

section

variable (k : RowKey) (c : ℕ)

variable (v : List ColValue) (col : ColumnID) (r : List PatchRange)

@[simp] theorem key_insert : (insert k c v).key = k := rfl
@[simp] theorem key_update : (update k c v).key = k := rfl
@[simp] theorem key_delete : (delete k c).key = k := rfl
@[simp] theorem key_blobPatch : (blobPatch k c col r).key = k := rfl
@[simp] theorem cl_insert : (insert k c v).cl = c := rfl
@[simp] theorem cl_update : (update k c v).cl = c := rfl
@[simp] theorem cl_delete : (delete k c).cl = c := rfl
@[simp] theorem cl_blobPatch : (blobPatch k c col r).cl = c := rfl

end

def atKey (r : Record) (k : RowKey) : Record :=
  match r with
  | insert _ c v => insert k c v
  | update _ c v => update k c v
  | delete _ c => delete k c
  | blobPatch _ c col r => blobPatch k c col r

@[simp] theorem atKey_key (r : Record) : r.atKey r.key = r := by
  cases r <;> rfl

def values : Record → List ColValue
  | insert _ _ vs | update _ _ vs => vs
  | _ => []

@[simp] theorem values_insert (k : RowKey) (c : ℕ) (v : List ColValue) :
    (insert k c v).values = v := rfl
@[simp] theorem values_update (k : RowKey) (c : ℕ) (v : List ColValue) :
    (update k c v).values = v := rfl

def isUpdate : Record → Bool
  | update _ _ _ => true
  | _ => false
def isBlobPatch : Record → Bool
  | blobPatch _ _ _ _ => true
  | _ => false

/-- What a record's producer puts in `cl`: the writer's live generation, or the tombstone after
it for a delete. -/
def ParityOK : Record → Prop
  | insert _ c _ | update _ c _ | blobPatch _ c _ _ => c%2 = 1
  | delete _ c => c%2 = 0

end Record

def Carries (r : Record) (col : ColumnID) : Prop := ∃ v ∈ r.values,v.column = col

instance (r : Record) (col : ColumnID) : Decidable (Carries r col) :=
  inferInstanceAs (Decidable (∃ v ∈ r.values,v.column = col))

structure Changeset where
  dot : Dot
  stamp : Stamp
  records : List Record
  requiredSchemaSeq : ℕ
deriving DecidableEq

/-- What the producing sink and its allocators promise of every changeset: sequence numbers start
at one, stamps come after the zero clock, and the records of one row climb through its
generations. -/
structure Changeset.WellFormed (cs : Changeset) : Prop where
  seq_ne_zero : cs.dot.seq ≠ 0
  stamp_pos : Stamp.zero < cs.stamp
  parity : ∀ r ∈ cs.records,r.ParityOK
  climbs : cs.records.Pairwise fun r r' => r.key = r'.key → r.cl < r'.cl

instance : DecidablePred Record.ParityOK
  | .insert _ c _ | .update _ c _ | .blobPatch _ c _ _ => inferInstanceAs (Decidable (c%2 = 1))
  | .delete _ c => inferInstanceAs (Decidable (c%2 = 0))

instance : DecidablePred Changeset.WellFormed := fun cs =>
  decidable_of_iff (cs.dot.seq ≠ 0 ∧ Stamp.zero < cs.stamp ∧ (∀ r ∈ cs.records,r.ParityOK) ∧
    cs.records.Pairwise fun r r' => r.key = r'.key → r.cl < r'.cl)
    ⟨fun h => ⟨h.1,h.2.1,h.2.2.1,h.2.2.2⟩,fun h => ⟨h.1,h.2,h.3,h.4⟩⟩

/-- The records of some changesets with the stamps they were made at. -/
def writes (applied : List Changeset) : List (Stamp × Record) :=
  applied.flatMap fun cs => cs.records.map fun r => (cs.stamp,r)

theorem writes_concat (applied : List Changeset) (cs : Changeset) :
    writes (applied++[cs]) = writes applied++cs.records.map fun r => (cs.stamp,r) := by
  simp [writes]

theorem mem_writes {applied : List Changeset} {w : Stamp × Record} :
    w ∈ writes applied ↔ ∃ cs ∈ applied,cs.stamp = w.1 ∧ w.2 ∈ cs.records := by
  obtain ⟨s,r⟩ := w
  simp only [writes,List.mem_flatMap,List.mem_map,Prod.mk.injEq]
  constructor
  · rintro ⟨cs,hcs,r',hr',hs,rfl⟩
    exact ⟨cs,hcs,hs,hr'⟩
  · rintro ⟨cs,hcs,hs,hr⟩
    exact ⟨cs,hcs,r,hr,hs,rfl⟩

theorem mem_filter_map_writes {β : Type} {applied : List Changeset} {p : Stamp × Record → Prop}
    [DecidablePred p] {f : Stamp × Record → β} {x : β} : x ∈ ((writes applied).filter p).map f ↔
      ∃ cs ∈ applied,∃ r ∈ cs.records,p (cs.stamp,r) ∧ f (cs.stamp,r) = x := by
  simp only [List.mem_map,List.mem_filter,mem_writes,decide_eq_true_eq]
  constructor
  · rintro ⟨⟨s,r⟩,⟨⟨cs,hcs,rfl,hr⟩,hp⟩,rfl⟩
    exact ⟨cs,hcs,r,hr,hp,rfl⟩
  · rintro ⟨cs,hcs,r,hr,hp,rfl⟩
    exact ⟨(cs.stamp,r),⟨⟨cs,hcs,rfl,hr⟩,hp⟩,rfl⟩

end Syzy
