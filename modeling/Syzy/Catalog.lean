import Syzy.Changeset

/-! The replicated schema as the apply path consults it, and the canonical key tuples. -/

namespace Syzy

inductive SqlValue where
  | null
  | int (n : ℤ)
  | real (bits : ℕ)
  | text (b : Bytes)
  | blob (b : Bytes)
deriving DecidableEq

/-- The collating sequences a replicated column may declare. -/
inductive Collation where
  | binary
  | nocase
  | rtrim
deriving DecidableEq

/-- What SQLite compares of a text: `NOCASE` folds the ASCII capitals, `RTRIM` drops the spaces at
the end. -/
def Collation.fold : Collation → Bytes → Bytes
  | .binary,b => b
  | .nocase,b => b.map fun x => if 65 ≤ x ∧ x ≤ 90 then x+32 else x
  | .rtrim,b => (b.reverse.dropWhile fun x => x = 32).reverse

structure Column where
  id : ColumnID
  pkPos : ℕ
  counter : Bool
  notNull : Bool
  /-- The declared type contains `BLOB`. -/
  isBlob : Bool
  /-- The declared default. -/
  dflt : SqlValue
  collation : Collation
deriving DecidableEq

structure UniqueKey where
  keyID : KeyID
  columns : List ColumnID
  coordinated : Bool
deriving DecidableEq

structure Table where
  id : TableID
  columns : List Column
  uniqueKeys : List UniqueKey
  cellGroup : Bool
  dropped : Bool
deriving DecidableEq

namespace Table

variable (t : Table) (id : ColumnID)

def columnByID : Option Column := t.columns.find? fun c => c.id = id

def hasCounters : Bool := t.columns.any fun c => c.counter

/-- Whether an active column belongs to the primary key, and whether it is a counter. -/
def columnRole : Bool × Bool :=
  match t.columnByID id with
  | some c => (0 < c.pkPos,c.counter)
  | none => (false,false)

def nonPKColumns : List ColumnID :=
  (t.columns.filter fun c => c.pkPos = 0).map Column.id

def isValueColumn : Bool := (t.columnByID id).any fun c => c.pkPos = 0

def isCounterColumn : Bool := (t.columnByID id).any Column.counter

/-- Every key column compares by bytes. Only the members of a `UNIQUE` key are held to it. -/
def BinaryKey : Prop := ∀ c ∈ t.columns,0 < c.pkPos → c.collation = .binary

instance : Decidable t.BinaryKey := inferInstanceAs (Decidable (∀ c ∈ t.columns,_))

/-- A key member as the collation of its column compares it. -/
def foldMember (v : ColValue) : ColValue :=
  match t.columnByID v.column with
  | some c => if v.typeTag = colText then { v with bytes := c.collation.fold v.bytes } else v
  | none => v

theorem columnRole_snd : (t.columnRole id).2 = t.isCounterColumn id := by
  unfold columnRole isCounterColumn
  cases t.columnByID id <;> rfl

theorem isCounterColumn_of_noCounters {t : Table} (h : t.hasCounters = false) (id : ColumnID) :
    t.isCounterColumn id = false := by
  unfold isCounterColumn
  cases hcol : t.columnByID id with
  | none => rfl
  | some col =>
    have := List.any_eq_false.mp h col (List.mem_of_find?_eq_some hcol)
    simpa using this

end Table

structure Catalog where
  tableByID : TableID → Option Table

def beNat (b : Bytes) : ℕ := b.foldl (fun n x => 256*n+x.val) 0

/-- The low `n` bytes of a number, most significant first. -/
def beBytes : ℕ → ℕ → Bytes
  | 0,_ => []
  | n+1,x => beBytes n (x/256)++[Fin.ofNat 256 x]

def int64OfBytes (b : Bytes) : ℤ := (beNat b : ℤ).bmod (2^64)
def encodeInt64 (n : ℤ) : Bytes := beBytes 8 (n%2^64).toNat

theorem beNat_concat (b : Bytes) (x : Byte) : beNat (b++[x]) = 256*beNat b+x.val := by
  simp [beNat]

theorem beNat_beBytes (n x : ℕ) : beNat (beBytes n x) = x%256^n := by
  induction n generalizing x with
  | zero => simp [beNat,beBytes,Nat.mod_one]
  | succ n ih =>
    rw [beBytes,beNat_concat,ih,Nat.pow_succ',Nat.mod_mul,Fin.val_ofNat]
    omega

@[simp] theorem length_beBytes (n x : ℕ) : (beBytes n x).length = n := by
  induction n generalizing x with
  | zero => rfl
  | succ n ih => simp [beBytes,ih]

@[simp] theorem length_encodeInt64 (n : ℤ) : (encodeInt64 n).length = 8 := by
  exact length_beBytes 8 _

def InInt64 (n : ℤ) : Prop := -2^63 ≤ n ∧ n < 2^63

theorem bmod_of_inInt64 {n : ℤ} (h : InInt64 n) : n.bmod (2^64) = n := by
  obtain ⟨h₁,h₂⟩ := h
  refine Int.bmod_eq_of_le ?_ ?_ <;> omega

theorem int64OfBytes_encodeInt64 {n : ℤ} (h : InInt64 n) : int64OfBytes (encodeInt64 n) = n := by
  have hnonneg : 0 ≤ n%2^64 := Int.emod_nonneg n (by omega)
  have hmod : (n%2^64).toNat%256^8 = (n%2^64).toNat := Nat.mod_eq_of_lt (by omega)
  unfold int64OfBytes encodeInt64
  rw [beNat_beBytes,hmod,Int.toNat_of_nonneg hnonneg]
  obtain ⟨h₁,h₂⟩ := h
  simp only [Int.bmod]
  split_ifs <;> omega

/-- Unsigned LEB128 in at most `n` bytes, of which the last one holds a single bit. -/
def uvarintIn : ℕ → Bytes → Option (ℕ × Bytes)
  | n+1,b::bs =>
    if b.val < 128 then if n = 0 ∧ 1 < b.val then none else some (b.val,bs)
    else (uvarintIn n bs).map fun r => (b.val-128+128*r.1,r.2)
  | _,_ => none

/-- A 64-bit varint: the value and the bytes that follow it. -/
def uvarint (bs : Bytes) : Option (ℕ × Bytes) := uvarintIn 10 bs

/-- One member of a key tuple: column id, type tag, length and bytes. -/
def decodeMember (tuple : Bytes) : Option (ColValue × Bytes) :=
  match tuple.drop 16 with
  | [] => none
  | tag::rest =>
    (uvarint rest).bind fun r =>
      if r.1 ≤ r.2.length
      then some (⟨beNat (tuple.take 16),tag.val,.text,r.2.take r.1⟩,r.2.drop r.1)
      else none

/-- Visit the members of a key tuple; each takes at least one byte, so the length is fuel. -/
def rangeTupleFuel : ℕ → Bytes → Option (List ColValue)
  | _,[] => some []
  | 0,_::_ => none
  | n+1,b::bs => (decodeMember (b::bs)).bind fun r => (rangeTupleFuel n r.2).map (r.1::·)

def rangeTuple (tuple : Bytes) : Option (List ColValue) := rangeTupleFuel tuple.length tuple

end Syzy
