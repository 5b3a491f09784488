import Syzy.Touch

/-! The canonical encoding of key tuples: members are told apart by their length prefixes. -/

namespace Syzy

open List

variable {n k : ℕ} {b t rest : Bytes} {v : ColValue} {vs ws : List ColValue} {r : ℕ × Bytes}

theorem uvarintIn_appendUvarint (h : n < 2*128^k) :
    uvarintIn (k+1) (appendUvarint n++rest) = some (n,rest) := by
  induction k generalizing n with
  | zero =>
    rw [appendUvarint,if_pos (by omega)]
    simp [uvarintIn,Nat.mod_eq_of_lt (show n < 256 by omega)]
    omega
  | succ k ih =>
    rw [appendUvarint]
    split_ifs with hn
    · simp [uvarintIn,Nat.mod_eq_of_lt (show n < 256 by omega),hn]
    · have hval : (Fin.ofNat 256 (n%128+128)).val = n%128+128 := Nat.mod_eq_of_lt (by omega)
      rw [Nat.pow_succ] at h
      rw [cons_append,uvarintIn,hval,if_neg (by omega),ih (by omega)]
      simp
      omega

theorem uvarintIn_spec (h : uvarintIn (k+1) b = some r) :
    r.1 < 2*128^k ∧ r.2.length < b.length := by
  induction b generalizing k r with
  | nil => simp [uvarintIn] at h
  | cons x b ih =>
    rw [uvarintIn] at h
    split_ifs at h with hx hx'
    · cases h
      refine ⟨?_,by simp⟩
      rcases k with - | k
      · simp at hx' ⊢
        omega
      · have := Nat.pow_pos (n := k) (show 0 < 128 by decide)
        rw [Nat.pow_succ]
        omega
    · obtain ⟨s,hs,rfl⟩ := Option.map_eq_some_iff.mp h
      rcases k with - | k
      · simp [uvarintIn] at hs
      · obtain ⟨hlt,hlen⟩ := ih hs
        rw [Nat.pow_succ]
        simp
        omega

theorem beNat_lt (b : Bytes) : beNat b < 256^b.length := by
  induction b using reverseRecOn with
  | nil => simp [beNat]
  | append_singleton b x ih =>
    rw [beNat_concat,length_append,length_singleton,Nat.pow_succ]
    omega

theorem uvarintIn_split (h : uvarintIn k b = some r) :
    ∃ p,b = p++r.2 ∧ ∀ rest,uvarintIn k (p++rest) = some (r.1,rest) := by
  induction k generalizing b r with
  | zero => cases b <;> cases h
  | succ k ih =>
    rcases b with - | ⟨x,b⟩
    · cases h
    · rw [uvarintIn] at h
      split_ifs at h with hx hx'
      · cases h
        exact ⟨[x],rfl,fun rest => by simp [uvarintIn,hx,hx']⟩
      · obtain ⟨s,hs,rfl⟩ := Option.map_eq_some_iff.mp h
        obtain ⟨p,rfl,hp⟩ := ih hs
        exact ⟨x::p,rfl,fun rest => by simp [uvarintIn,hx,hp]⟩

/-- A member as it stands in a tuple. Its length may be spelled in more bytes than it needs. -/
structure TupleMember where
  id : Bytes
  tag : Byte
  size : Bytes
  data : Bytes

namespace TupleMember

variable {m : TupleMember} {ms : List TupleMember}

def bytes (m : TupleMember) : Bytes := m.id++m.tag::(m.size++m.data)

def value (m : TupleMember) : ColValue := ⟨beNat m.id,m.tag.val,.text,m.data⟩

structure Valid (m : TupleMember) : Prop where
  id : m.id.length = 16
  size : ∀ rest,uvarint (m.size++rest) = some (m.data.length,rest)

theorem decodeMember_iff :
    decodeMember t = some (v,rest) ↔ ∃ m : TupleMember,m.Valid ∧ t = m.bytes++rest ∧ v = m.value := by
  constructor
  · intro h
    unfold decodeMember at h
    split at h
    · cases h
    · next tag tail htail =>
      obtain ⟨r,hr,h⟩ := Option.bind_eq_some_iff.mp h
      split_ifs at h with hle
      cases h
      obtain ⟨p,rfl,hp⟩ := uvarintIn_split hr
      have hlong := congrArg length htail
      simp at hlong
      refine ⟨⟨t.take 16,tag,p,r.2.take r.1⟩,⟨by simp; omega,fun rest => ?_⟩,?_,rfl⟩
      · rw [length_take,min_eq_left hle]
        exact hp rest
      · rw [bytes,append_assoc,cons_append,append_assoc,take_append_drop,← htail,take_append_drop]
  · rintro ⟨m,hm,rfl,rfl⟩
    have hsize := hm.size (m.data++rest)
    rw [decodeMember,bytes,append_assoc,drop_left' hm.id,take_left' hm.id,cons_append,append_assoc]
    simp only [hsize,Option.bind_some,length_append,Nat.le_add_right,if_true,take_left,drop_left]
    rfl

theorem length_lt (h : decodeMember t = some (v,rest)) : rest.length < t.length := by
  obtain ⟨m,-,rfl,-⟩ := decodeMember_iff.mp h
  simp [bytes]
  omega

def Spells (ms : List TupleMember) (t : Bytes) : Prop := (∀ m ∈ ms,m.Valid) ∧ t = ms.flatMap bytes

theorem spells_nil_iff : Spells ms [] ↔ ms = [] := by
  refine ⟨fun h => ?_,fun h => h ▸ ⟨by simp,rfl⟩⟩
  rcases ms with - | ⟨m,ms⟩
  · rfl
  · simp [Spells,bytes] at h

theorem Spells.cons (hm : m.Valid) (h : Spells ms t) : Spells (m::ms) (m.bytes++t) :=
  ⟨forall_mem_cons.mpr ⟨hm,h.1⟩,by rw [h.2,flatMap_cons]⟩

/-- A tuple is read as the members it spells; its length is fuel enough for the loop. -/
theorem rangeTupleFuel_iff (hn : t.length ≤ n) :
    rangeTupleFuel n t = some vs ↔ ∃ ms,Spells ms t ∧ vs = ms.map value := by
  induction n generalizing t vs with
  | zero =>
    obtain rfl := length_eq_zero_iff.mp (Nat.le_zero.mp hn)
    simp [rangeTupleFuel,spells_nil_iff,eq_comm]
  | succ n ih =>
    rcases t with - | ⟨x,t⟩
    · simp [rangeTupleFuel,spells_nil_iff,eq_comm]
    · rw [rangeTupleFuel,Option.bind_eq_some_iff]
      constructor
      · rintro ⟨⟨v,rest⟩,hr,h⟩
        obtain ⟨us,hus,rfl⟩ := Option.map_eq_some_iff.mp h
        have hlt := length_lt hr
        obtain ⟨ms,hms,rfl⟩ := (ih (Nat.le_of_lt_succ (hlt.trans_le hn))).mp hus
        obtain ⟨m,hm,heq,rfl⟩ := decodeMember_iff.mp hr
        exact ⟨m::ms,heq ▸ hms.cons hm,rfl⟩
      · rintro ⟨ms,hms,rfl⟩
        rcases ms with - | ⟨m,ms⟩
        · cases hms.2
        · obtain ⟨hm,hvalid⟩ := forall_mem_cons.mp hms.1
          have hr : decodeMember (x::t) = some (m.value,ms.flatMap bytes) :=
            decodeMember_iff.mpr ⟨m,hm,hms.2,rfl⟩
          have hus := (@ih _ (ms.map value) (Nat.le_of_lt_succ ((length_lt hr).trans_le hn))).mpr
            ⟨ms,⟨hvalid,rfl⟩,rfl⟩
          exact ⟨_,hr,Option.map_eq_some_iff.mpr ⟨_,hus,rfl⟩⟩

end TupleMember

open TupleMember

/-- A key member within the source's types; `NULL` has no place in a key. -/
structure KeyMember (v : ColValue) : Prop where
  column : v.column < 256^16
  notNull : v.typeTag ≠ colNull
  tag : v.typeTag ≤ 255
  bytes : v.bytes.length < 2^64

namespace ColValue

/-- What the encoding has of a value: all but its format. -/
def asText (v : ColValue) : ColValue := { v with format := .text }

def member (v : ColValue) : TupleMember :=
  ⟨beBytes 16 v.column,Fin.ofNat 256 v.typeTag,appendUvarint v.bytes.length,v.bytes⟩

end ColValue

theorem KeyMember.member (hv : KeyMember v) :
    v.member.Valid ∧ v.member.value = v.asText ∧ appendValue v = some v.member.bytes := by
  have htag : ¬(v.typeTag = colNull ∨ 255 < v.typeTag) := by
    have := hv.tag
    exact fun h => h.elim hv.notNull (by omega)
  refine ⟨⟨length_beBytes 16 _,fun rest => uvarintIn_appendUvarint hv.bytes⟩,?_,if_neg htag⟩
  have hval : (Fin.ofNat 256 v.typeTag).val = v.typeTag :=
    Nat.mod_eq_of_lt (Nat.lt_succ_of_le hv.tag)
  simp only [value,ColValue.member,ColValue.asText,hval,beNat_beBytes,Nat.mod_eq_of_lt hv.column]

theorem TupleMember.Valid.keyMember {m : TupleMember} (hm : m.Valid) (htag : m.tag ≠ 0) :
    KeyMember m.value := by
  refine ⟨?_,fun h => htag (Fin.ext h),Nat.le_of_lt_succ m.tag.isLt,(uvarintIn_spec (hm.size [])).1⟩
  have hcol := beNat_lt m.id
  rwa [hm.id] at hcol

def encodeTuple (vs : List ColValue) : Option Bytes := (vs.mapM appendValue).map flatten

theorem encodeTuple_eq (hvs : ∀ v ∈ vs,KeyMember v) :
    encodeTuple vs = some ((vs.map ColValue.member).flatMap bytes) := by
  have hmap : vs.mapM appendValue = some (vs.map fun v => v.member.bytes) := by
    induction vs with
    | nil => rfl
    | cons v vs ih =>
      obtain ⟨hv,hvs⟩ := forall_mem_cons.mp hvs
      simp [hv.member.2.2,ih hvs]
  rw [encodeTuple,hmap,Option.map_some,flatMap_map]
  rfl

theorem rangeTuple_encodeTuple (hvs : ∀ v ∈ vs,KeyMember v) :
    ∃ b,encodeTuple vs = some b ∧ rangeTuple b = some (vs.map ColValue.asText) := by
  refine ⟨_,encodeTuple_eq hvs,(rangeTupleFuel_iff le_rfl).mpr ⟨_,⟨?_,rfl⟩,?_⟩⟩
  · simpa using fun v hv => (hvs v hv).member.1
  · rw [map_map]
    exact map_congr_left fun v hv => (hvs v hv).member.2.1.symm

theorem encodeTuple_none (hv : v ∈ vs) (hnull : v.typeTag = colNull) : encodeTuple vs = none := by
  induction vs with
  | nil => cases hv
  | cons w vs ih =>
    rw [encodeTuple,mapM_cons]
    rcases mem_cons.mp hv with rfl | hv
    · simp [appendValue,hnull]
    · have hrest : vs.mapM appendValue = none := Option.map_eq_none_iff.mp (ih hv)
      simp [hrest]

/-- Key members are told apart by their encoding up to their format, and read back in order. Any bytes
are refused, or they spell members, which have an encoding unless one of them is tagged `NULL`. -/
theorem key_tuples_canonical (hvs : ∀ v ∈ vs,KeyMember v) (hws : ∀ v ∈ ws,KeyMember v) :
    (∃ b,encodeTuple vs = some b ∧ rangeTuple b = some (vs.map ColValue.asText)) ∧
      (encodeTuple vs = encodeTuple ws ↔ vs.map ColValue.asText = ws.map ColValue.asText) ∧
      ∀ t,(rangeTuple t = none ∧ ∀ ms,¬Spells ms t) ∨
        ∃ ms,Spells ms t ∧ rangeTuple t = some (ms.map value) ∧
          ((∃ b,encodeTuple (ms.map value) = some b ∧ rangeTuple b = some (ms.map value)) ↔
            ∀ m ∈ ms,m.tag ≠ 0) := by
  obtain ⟨b,hb,hrange⟩ := rangeTuple_encodeTuple hvs
  refine ⟨⟨b,hb,hrange⟩,⟨fun heq => ?_,fun heq => ?_⟩,fun t => ?_⟩
  · obtain ⟨c,hc,hrange'⟩ := rangeTuple_encodeTuple hws
    cases hb.symm.trans (heq.trans hc)
    exact Option.some.inj (hrange.symm.trans hrange')
  · have hmember : ∀ us : List ColValue,
        us.map ColValue.member = (us.map ColValue.asText).map ColValue.member := fun us => by
      rw [map_map]
      rfl
    rw [encodeTuple_eq hvs,encodeTuple_eq hws,hmember,heq,← hmember]
  · cases ht : rangeTuple t with
    | none =>
      refine .inl ⟨rfl,fun ms hms => ?_⟩
      cases ht.symm.trans ((rangeTupleFuel_iff le_rfl).mpr ⟨ms,hms,rfl⟩)
    | some us =>
      obtain ⟨ms,hms,rfl⟩ := (rangeTupleFuel_iff le_rfl).mp ht
      refine .inr ⟨ms,hms,rfl,fun ⟨b,hb,_⟩ m hm hzero => ?_,fun htags => ?_⟩
      · have hnull : m.value.typeTag = colNull := congrArg Fin.val hzero
        cases hb.symm.trans (encodeTuple_none (mem_map_of_mem hm) hnull)
      · obtain ⟨b,hb,hrange⟩ := @rangeTuple_encodeTuple (ms.map value) (by
          simpa using fun m hm => (hms.1 m hm).keyMember (htags m hm))
        have htext : (ms.map value).map ColValue.asText = ms.map value := map_map ..
        exact ⟨b,hb,htext ▸ hrange⟩

namespace TupleSample

theorem two_members : ∃ b,encodeTuple [⟨1,3,.text,[7]⟩,⟨2,4,.text,[]⟩] = some b ∧
    rangeTuple b = some [⟨1,3,.text,[7]⟩,⟨2,4,.text,[]⟩] ∧
    encodeTuple [⟨1,3,.text,[7]⟩,⟨2,4,.text,[]⟩] ≠ encodeTuple [⟨1,3,.text,[7,0]⟩] := by
  have hall := @key_tuples_canonical [⟨1,3,.text,[7]⟩,⟨2,4,.text,[]⟩] [⟨1,3,.text,[7,0]⟩] (by
    simp only [mem_cons,not_mem_nil,or_false,forall_eq_or_imp,forall_eq]
    exact ⟨⟨by decide,by decide,by decide,by decide⟩,by decide,by decide,by decide,by decide⟩) (by
    simp only [mem_singleton,forall_eq]
    exact ⟨by decide,by decide,by decide,by decide⟩)
  obtain ⟨b,hb,hrange⟩ := hall.1
  exact ⟨b,hb,hrange,fun h => absurd (hall.2.1.mp h) (by decide)⟩

/-- A member under the `NULL` tag is visited and has no encoding; the format of a value is not
encoded. -/
theorem null_member_visited :
    rangeTuple (replicate 18 0) = some [⟨0,colNull,.text,[]⟩] ∧
      encodeTuple [⟨0,colNull,.text,[]⟩] = none ∧
      encodeTuple [⟨1,3,.binary,[7]⟩] = encodeTuple [⟨1,3,.text,[7]⟩] := by
  refine ⟨by decide,by simp [encodeTuple,appendValue],by simp [encodeTuple,appendValue]⟩

end TupleSample

end Syzy
