import Syzy.Journal

/-!
A segment whose writer crashed inside an append, reopened and appended to again. The reopened head
is where the published records end; what the interrupted append left behind it is read as a header
once the later records stop short of it.
-/

namespace Syzy

open List

open ByteMem

theorem recordTotalLen_ge (n : ℕ) : n+48 ≤ recordTotalLen n := by
  unfold recordTotalLen recordHeaderLen recordTrailerLen recordAlign
  omega

namespace JournalRecord

variable {r : JournalRecord}

@[simp] theorem length_header (r : JournalRecord) (w : ℕ) : (r.header w).length = recordHeaderLen := by
  simp [header,recordHeaderLen]

def body (r : JournalRecord) : Bytes :=
  (r.header 0).drop 4++(r.payload++(leBytes crcLen (recordCRC (r.header 0) r.payload)++
    replicate (r.total-recordHeaderLen-r.payload.length-crcLen) 0))

def published (r : JournalRecord) : Bytes := leBytes 4 r.kind.toNat++r.body

theorem header_eq (r : JournalRecord) (w : ℕ) : r.header w = leBytes 4 w++(r.header 0).drop 4 := by
  simp [header]

theorem image_eq (r : JournalRecord) : r.image = leBytes 4 0++r.body := by
  rw [image,body,← append_assoc (leBytes 4 0),← header_eq]

theorem published_eq (r : JournalRecord) : r.published = r.header r.kind.toNat++(r.payload++
    (leBytes crcLen (recordCRC (r.header 0) r.payload)++
      replicate (r.total-recordHeaderLen-r.payload.length-crcLen) 0)) := by
  rw [published,body,← append_assoc (leBytes 4 r.kind.toNat),← header_eq]

theorem length_published (r : JournalRecord) : r.published.length = r.total := by
  have h := recordTotalLen_ge r.payload.length
  change r.payload.length+48 ≤ r.total at h
  rw [published_eq]
  simp only [length_append,length_header,length_leBytes,length_replicate,recordHeaderLen,crcLen]
  omega

theorem recordCRC_header (r : JournalRecord) (w : ℕ) :
    recordCRC (r.header w) r.payload = recordCRC (r.header 0) r.payload := by
  unfold recordCRC
  rw [header_eq r w,header_eq r 0]
  simp [drop_append]

theorem field_header (r : JournalRecord) (w : ℕ) (hr : r.payload.length < 2^32) :
    field (r.header w) 0 4 = w % 2^32 ∧ field (r.header w) 4 4 = r.flags.toNat ∧
      field (r.header w) 8 4 = r.payload.length ∧ field (r.header w) 12 4 = r.schemaSeq.toNat ∧
      field (r.header w) 16 8 = r.seq.toNat ∧ field (r.header w) 24 8 = r.hlc.toNat ∧
      field (r.header w) 32 8 = r.origin.toNat := by
  have hflags : r.flags.toNat < 256^4 := lt_trans r.flags.toNat_lt (by decide)
  have hlen : r.payload.length < 256^4 := hr
  refine ⟨?_,?_,?_,?_,?_,?_,?_⟩
  · simp [field,header,leNat_leBytes]
  · simp [field,header,leNat_leBytes_of_lt hflags]
  · simp [field,header,drop_append,leNat_leBytes_of_lt hlen]
  · simp [field,header,drop_append,leNat_leBytes_of_lt (show _ < 256^4 from r.schemaSeq.toNat_lt)]
  · simp [field,header,drop_append,leNat_leBytes_of_lt (show _ < 256^8 from r.seq.toNat_lt)]
  · simp [field,header,drop_append,leNat_leBytes_of_lt (show _ < 256^8 from r.hlc.toNat_lt)]
  · simp [field,header,drop_append,leNat_leBytes_of_lt (show _ < 256^8 from r.origin.toNat_lt)]

theorem Valid.toNat_kind_ne_zero (hr : r.Valid) : r.kind.toNat ≠ 0 := fun h =>
  hr.kind_ne_zero (UInt8.toNat_inj.mp h)

end JournalRecord

theorem parseRecordAt_published {data : ℕ → Byte} {off limit : ℕ} {r : JournalRecord} (hr : r.Valid)
    (hdata : read data off r.total = r.published) (hlimit : off+r.total ≤ limit) :
    parseRecordAt data off limit = .ok (r,off+r.total) := by
  have htotal : r.total = recordHeaderLen+(r.payload.length+(crcLen+
      (r.total-recordHeaderLen-r.payload.length-crcLen))) := by
    have h : r.payload.length+48 ≤ r.total := recordTotalLen_ge r.payload.length
    simp only [recordHeaderLen,crcLen]
    omega
  rw [htotal,r.published_eq,read_add,read_add,read_add] at hdata
  obtain ⟨hhdr,hrest⟩ := append_inj hdata (by simp)
  obtain ⟨hpayload,hrest⟩ := append_inj hrest (by simp)
  obtain ⟨hcrc,-⟩ := append_inj hrest (by simp)
  obtain ⟨hkind,hflags,hlen,hschema,hseq,hhlc,horigin⟩ :=
    r.field_header r.kind.toNat hr.payload_lt
  have hword : r.kind.toNat % 2^32 = r.kind.toNat :=
    Nat.mod_eq_of_lt (lt_trans r.kind.toNat_lt (by decide))
  have hlow : r.kind.toNat % 256 = r.kind.toNat := Nat.mod_eq_of_lt r.kind.toNat_lt
  have hseal : ¬(r.kind.toNat = kindSeal.toNat ∧ r.payload ≠ []) := fun h =>
    h.2 (hr.seal_empty (UInt8.toNat_inj.mp h.1))
  have hsum : leNat (leBytes crcLen (recordCRC (r.header 0) r.payload)) =
      recordCRC (r.header r.kind.toNat) r.payload := by
    rw [r.recordCRC_header r.kind.toNat]
    exact leNat_leBytes_of_lt (UInt32.toNat_lt _)
  have hstop : off+recordTotalLen r.payload.length = off+r.total := rfl
  have hroom : ¬limit < off+recordHeaderLen+crcLen := by
    rw [htotal] at hlimit
    omega
  rw [parseRecordAt,if_neg hroom]
  simp only [hhdr,hkind,hword,hlow,hlen,hpayload,hcrc,hsum,hstop,if_neg hr.toNat_kind_ne_zero,
    if_neg (not_lt.mpr hlimit),if_neg hseal,ne_eq,not_true_eq_false,if_false,hflags,hschema,hseq,
    hhlc,horigin,UInt8.ofNat_toNat,UInt16.ofNat_toNat,UInt32.ofNat_toNat,UInt64.ofNat_toNat]

/-- A header that a reader takes for the end of the data. -/
def QuietHeader (off limit word payloadLen : ℕ) : Prop :=
  limit < off+recordHeaderLen+crcLen ∨ word = 0 ∨
    word % 256 ≠ 0 ∧ limit < off+recordTotalLen payloadLen

instance (off limit word payloadLen : ℕ) : Decidable (QuietHeader off limit word payloadLen) := by
  unfold QuietHeader
  infer_instance

theorem parseRecordAt_quiet_iff (data : ℕ → Byte) (off limit : ℕ) :
    (parseRecordAt data off limit = .error .pending ∨
      parseRecordAt data off limit = .error .endOfData) ↔
      QuietHeader off limit (field (read data off recordHeaderLen) 0 4)
        (field (read data off recordHeaderLen) 8 4) := by
  unfold parseRecordAt QuietHeader
  dsimp only
  split_ifs <;> simp_all

namespace Segment

/-- The record run `rs` lies in the file from `off` on. -/
def Written (data : ℕ → Byte) : ℕ → List JournalRecord → Prop
  | _,[] => True
  | off,r::rs => read data off r.total = r.published ∧ Written data (off+r.total) rs

def span (rs : List JournalRecord) : ℕ := (rs.map JournalRecord.total).sum

@[simp] theorem span_nil : span [] = 0 := rfl

@[simp] theorem span_cons (r : JournalRecord) (rs : List JournalRecord) :
    span (r::rs) = r.total+span rs := rfl

@[simp] theorem span_append (rs qs : List JournalRecord) : span (rs++qs) = span rs+span qs := by
  simp [span]

theorem length_le_span (rs : List JournalRecord) : 48*rs.length ≤ span rs := by
  induction rs with
  | nil => simp
  | cons r rs ih =>
    have h : r.payload.length+48 ≤ r.total := recordTotalLen_ge r.payload.length
    rw [span_cons,length_cons]
    omega

variable {data : ℕ → Byte} {off size : ℕ} {qs rs : List JournalRecord} {s s' : Segment}

theorem Written.congr {data' : ℕ → Byte} (h : Written data off rs)
    (heq : ∀ a,off ≤ a → a < off+span rs → data' a = data a) :
    Written data' off rs := by
  induction rs generalizing off with
  | nil => trivial
  | cons r rs ih =>
    rw [span_cons] at heq
    refine ⟨?_,ih h.2 fun a hlo hhi => heq a (by omega) (by omega)⟩
    rw [← h.1]
    exact read_congr fun a hlo hhi => heq a hlo (by omega)

theorem Written.append (h : Written data off rs) (hq : Written data (off+span rs) qs) :
    Written data off (rs++qs) := by
  induction rs generalizing off with
  | nil => simpa using hq
  | cons r rs ih =>
    refine ⟨h.1,ih h.2 ?_⟩
    rwa [span_cons,← Nat.add_assoc] at hq

theorem Written.left (h : Written data off (rs++qs)) :
    Written data off rs ∧ Written data (off+span rs) qs := by
  induction rs generalizing off with
  | nil => exact ⟨trivial,by simpa using h⟩
  | cons r rs ih =>
    obtain ⟨hleft,hright⟩ := ih h.2
    refine ⟨⟨h.1,hleft⟩,?_⟩
    rwa [span_cons,← Nat.add_assoc]

/-- What the segment's readers find: these records, the head behind them, nothing behind a seal. -/
structure Holds (s : Segment) (rs : List JournalRecord) : Prop where
  written : Written s.data fileHeaderSize rs
  head_eq : s.head = fileHeaderSize+span rs
  head_le : s.head ≤ s.segmentSize
  valid : ∀ r ∈ rs,r.Valid
  unsealed : s.sealed = false → ∀ r ∈ rs,r.kind ≠ kindSeal
  sealed : s.sealed = true →
    ∃ init last,rs = init++[last] ∧ last.kind = kindSeal ∧ ∀ r ∈ init,r.kind ≠ kindSeal

theorem holds_create (h : fileHeaderSize ≤ size) : (create size).Holds [] where
  written := trivial
  head_eq := rfl
  head_le := h
  valid := fun r hr => absurd hr (not_mem_nil)
  unsealed := fun _ r hr => absurd hr (not_mem_nil)
  sealed := fun h => by simp [create] at h

theorem Holds.sealed_iff (h : s.Holds rs) :
    s.sealed = true ↔ ∃ r ∈ rs,r.kind = kindSeal := by
  constructor
  · intro hs
    obtain ⟨init,last,rfl,hlast,-⟩ := h.sealed hs
    exact ⟨last,by simp,hlast⟩
  · rintro ⟨r,hr,hkind⟩
    by_contra hs
    exact h.unsealed (by simpa using hs) r hr hkind

theorem Holds.of_data (h : s.Holds rs) (heq : ∀ a,a < s.head → data a = s.data a) :
    ({ s with data := data } : Segment).Holds rs where
  written := h.written.congr fun a _ hhi => heq a (by rw [h.head_eq]; exact hhi)
  head_eq := h.head_eq
  head_le := h.head_le
  valid := h.valid
  unsealed := h.unsealed
  sealed := h.sealed

theorem data_append {r : JournalRecord} (h : s.append r = some s') :
    s' = ⟨store s.data s.head r.published,s.segmentSize,s.head+r.total,r.kind = kindSeal⟩ ∧
      s.sealed = false ∧ s.head+r.total ≤ s.segmentSize := by
  unfold append at h
  split_ifs at h with hacc
  have hacc' : s.sealed = false ∧ s.head+r.total ≤ s.segmentSize := by
    simpa [accepts] using hacc
  refine ⟨?_,hacc'⟩
  rw [← Option.some.inj h,r.image_eq,JournalRecord.published,store_overwrite _ _ _ (by simp)]

theorem Holds.append {r : JournalRecord} (h : s.Holds rs) (hr : r.Valid)
    (happ : s.append r = some s') : s'.Holds (rs++[r]) := by
  obtain ⟨rfl,hsealed,hfit⟩ := data_append happ
  have hlen : r.published.length = r.total := r.length_published
  refine ⟨?_,?_,hfit,?_,?_,?_⟩
  · refine Written.append (h.written.congr fun a _ hhi => ?_) ⟨?_,trivial⟩
    · exact store_of_lt _ _ (by rw [h.head_eq]; exact hhi)
    · rw [← h.head_eq,← hlen]
      exact read_store_self _ _ _
  · simp only [h.head_eq,span_append,span_cons,span_nil]
    omega
  · intro q hq
    rcases mem_append.mp hq with hq | hq
    · exact h.valid q hq
    · rwa [mem_singleton.mp hq]
  · intro hkind q hq
    rcases mem_concat.mp hq with hq | rfl
    · exact h.unsealed hsealed q hq
    · simpa using hkind
  · intro hkind
    exact ⟨rs,r,rfl,by simpa using hkind,h.unsealed hsealed⟩

/-- Appends publish what they take, and leave the bytes behind the new head alone. -/
theorem Holds.appendAll (h : s.Holds rs) (hqs : ∀ q ∈ qs,q.Valid) :
    (s.appendAll qs).1.Holds (rs++(s.appendAll qs).2) ∧
      (s.appendAll qs).1.segmentSize = s.segmentSize ∧
      (s.appendAll qs).1.head = s.head+span (s.appendAll qs).2 ∧
      ∀ a,(s.appendAll qs).1.head ≤ a → (s.appendAll qs).1.data a = s.data a := by
  induction qs generalizing s rs with
  | nil => exact ⟨by simpa [Segment.appendAll] using h,rfl,rfl,fun _ _ => rfl⟩
  | cons q qs ih =>
    have hrest : ∀ q ∈ qs,q.Valid := fun x hx => hqs x (mem_cons_of_mem _ hx)
    unfold Segment.appendAll
    cases happ : s.append q with
    | none => exact ih h hrest
    | some s' =>
      obtain ⟨hholds,hsize,hhead,hframe⟩ := ih (h.append (hqs q mem_cons_self) happ) hrest
      obtain ⟨hs',-,-⟩ := data_append happ
      refine ⟨?_,?_,?_,fun a ha => ?_⟩
      · simpa using hholds
      · rw [hsize,hs']
      · rw [hhead,hs',span_cons]
        exact Nat.add_assoc _ _ _
      · dsimp only at ha ⊢
        rw [hframe a ha,hs']
        refine store_of_ge _ _ ?_
        rw [q.length_published]
        rw [hhead,hs'] at ha
        dsimp only at ha
        omega

theorem iterate_congr (fuel off : ℕ) {t : Segment} (hdata : t.data = s.data)
    (hsize : t.segmentSize = s.segmentSize) : t.iterate fuel off = s.iterate fuel off := by
  induction fuel generalizing s t off with
  | zero => rfl
  | succ fuel ih =>
    unfold iterate next
    rw [hsize,hdata]
    split_ifs with hoff
    · rfl
    · cases parseRecordAt s.data off s.segmentSize with
      | error e => cases e <;> rfl
      | ok p =>
        have hnext := ih p.2
          (s := ⟨s.data,s.segmentSize,max s.head p.2,s.sealed || p.1.kind = kindSeal⟩)
          (t := ⟨s.data,s.segmentSize,max t.head p.2,t.sealed || p.1.kind = kindSeal⟩) rfl rfl
        dsimp only
        rw [hnext]

theorem iterate_record {r : JournalRecord} {fuel : ℕ} (hr : r.Valid)
    (hdata : read s.data off r.total = r.published) (hfit : off+r.total ≤ s.segmentSize) :
    s.iterate (fuel+1) off = if r.kind = kindSeal then ([r],.sealed)
      else (r::(s.iterate fuel (off+r.total)).1,(s.iterate fuel (off+r.total)).2) := by
  have htotal : r.payload.length+48 ≤ r.total := recordTotalLen_ge r.payload.length
  have hparse := parseRecordAt_published hr hdata hfit
  have hnext := iterate_congr fuel (off+r.total) (s := s)
    (t := ⟨s.data,s.segmentSize,max s.head (off+r.total),s.sealed || r.kind = kindSeal⟩) rfl rfl
  rw [iterate,next,if_neg (by omega),hparse]
  dsimp only
  rw [hnext]

theorem iterate_written (fuel : ℕ) (hw : Written s.data off rs) (hvalid : ∀ r ∈ rs,r.Valid)
    (hfit : off+span rs ≤ s.segmentSize) (hseal : ∀ r ∈ rs,r.kind ≠ kindSeal) :
    s.iterate (rs.length+fuel) off =
      (rs++(s.iterate fuel (off+span rs)).1,(s.iterate fuel (off+span rs)).2) := by
  induction rs generalizing off with
  | nil => simp
  | cons r rs ih =>
    rw [span_cons] at hfit
    have hfuel : (r::rs).length+fuel = rs.length+fuel+1 := by
      rw [length_cons]
      omega
    rw [hfuel,iterate_record (hvalid r mem_cons_self) hw.1 (by omega),
      if_neg (hseal r mem_cons_self),
      ih hw.2 (fun q hq => hvalid q (mem_cons_of_mem _ hq)) (by omega)
        (fun q hq => hseal q (mem_cons_of_mem _ hq)),span_cons,Nat.add_assoc,cons_append]

theorem scanFrom_record {r : JournalRecord} {fuel : ℕ} (last : UInt64) (hr : r.Valid)
    (hdata : read data off r.total = r.published) (hfit : off+r.total ≤ size) :
    scanFrom data size (fuel+1) off last =
      if r.kind = kindSeal then ⟨off+r.total,if last < r.seq then r.seq else last,true,none⟩
      else scanFrom data size fuel (off+r.total) (if last < r.seq then r.seq else last) := by
  rw [scanFrom,parseRecordAt_published hr hdata hfit]

/-- The greatest seq of some records and one before them. -/
def latestSeq (last : UInt64) (rs : List JournalRecord) : UInt64 :=
  rs.foldl (fun l r => if l < r.seq then r.seq else l) last

theorem scanFrom_written (fuel : ℕ) (last : UInt64) (hw : Written data off rs)
    (hvalid : ∀ r ∈ rs,r.Valid) (hfit : off+span rs ≤ size) (hseal : ∀ r ∈ rs,r.kind ≠ kindSeal) :
    scanFrom data size (rs.length+fuel) off last =
      scanFrom data size fuel (off+span rs) (latestSeq last rs) := by
  induction rs generalizing off last with
  | nil => simp [latestSeq]
  | cons r rs ih =>
    rw [span_cons] at hfit
    have hlast := ih (if last < r.seq then r.seq else last) hw.2
      (fun q hq => hvalid q (mem_cons_of_mem _ hq)) (by omega)
      (fun q hq => hseal q (mem_cons_of_mem _ hq))
    have hfuel : (r::rs).length+fuel = rs.length+fuel+1 := by
      rw [length_cons]
      omega
    rw [hfuel,scanFrom_record last (hvalid r mem_cons_self) hw.1 (by omega),
      if_neg (hseal r mem_cons_self),hlast,span_cons,Nat.add_assoc]
    rfl

theorem Holds.fuel (h : s.Holds rs) :
    ∃ fuel,s.segmentSize+1 = rs.length+(fuel+1) := by
  have hlen := length_le_span rs
  have hle := h.head_le
  rw [h.head_eq] at hle
  exact ⟨s.segmentSize-rs.length,by omega⟩

theorem Holds.scanRecords (h : s.Holds rs) :
    (s.sealed = true → scanRecords s.data s.segmentSize = ⟨s.head,latestSeq 0 rs,true,none⟩) ∧
      (s.sealed = false → ∀ e,parseRecordAt s.data s.head s.segmentSize = .error e →
        scanRecords s.data s.segmentSize = ⟨s.head,latestSeq 0 rs,false,some e⟩) := by
  obtain ⟨fuel,hfuel⟩ := h.fuel
  have hle := h.head_le
  rw [h.head_eq] at hle
  refine ⟨fun hs => ?_,fun hs e he => ?_⟩
  · obtain ⟨init,r,rfl,hr,hinit⟩ := h.sealed hs
    obtain ⟨hw,hlast⟩ := h.written.left
    rw [span_append,span_cons,span_nil] at hle
    have hfit : fileHeaderSize+span init ≤ s.segmentSize := by omega
    have hscan := scanFrom_written (fuel+2) 0 hw (fun q hq => h.valid q (by simp [hq])) hfit hinit
    have hfuel' : s.segmentSize+1 = init.length+(fuel+2) := by
      rw [hfuel,length_append]
      simp only [length_cons,length_nil]
      omega
    rw [Syzy.scanRecords,hfuel',hscan,scanFrom_record _ (h.valid r (by simp)) hlast.1 (by omega),
      if_pos hr,h.head_eq,span_append,span_cons,span_nil,Nat.add_zero,Nat.add_assoc]
    have hlatest : latestSeq 0 (init++[r]) =
        if latestSeq 0 init < r.seq then r.seq else latestSeq 0 init := by
      rw [latestSeq,foldl_append]
      rfl
    rw [hlatest]
  · have hscan := scanFrom_written (fuel+1) 0 h.written h.valid hle (h.unsealed hs)
    rw [h.head_eq] at he ⊢
    rw [Syzy.scanRecords,hfuel,hscan,scanFrom,he]

def residue (s : Segment) (r : JournalRecord) (k : ℕ) : Bytes :=
  if s.accepts r then r.image.take k else []

theorem interrupted_eq (s : Segment) (r : JournalRecord) (k : ℕ) :
    s.interrupted r k = store s.data s.head (s.residue r k) := by
  unfold interrupted residue
  split_ifs
  · rfl
  · funext a
    simp [store]

theorem field_residue (s : Segment) (r : JournalRecord) (k : ℕ) : field (s.residue r k) 0 4 = 0 := by
  have hzero : leNat ((replicate 4 (0 : Byte)).take k) = 0 := by
    refine (leNat_congr fun i => ?_ : _ = leNat [])
    simp only [take_replicate,getElem?_replicate]
    split_ifs <;> rfl
  unfold residue field
  split_ifs
  · have himage : r.image.take 4 = replicate 4 0 := by
      rw [r.image_eq,take_append_of_le_length (by simp)]
      rfl
    rw [drop_zero,take_take,Nat.min_comm,← take_take,himage,hzero]
  · rfl

theorem field_read {m : ℕ → Byte} {bs : Bytes} (h : ∀ i,m (off+i) = (bs[i]?).getD 0) {i w : ℕ}
    (hw : i+w ≤ recordHeaderLen) :
    field (read m off recordHeaderLen) i w = field bs i w := by
  refine leNat_congr fun j => ?_
  rw [getElem?_take,getElem?_take]
  split_ifs with hj
  · rw [getElem?_drop,getElem?_drop,getElem?_read,if_pos (by omega),h]
    rfl
  · rfl

theorem field_interrupted (hzero : ∀ a,s.head ≤ a → s.data a = 0) (r : JournalRecord) (k : ℕ) :
    field (read (s.interrupted r k) s.head recordHeaderLen) 0 4 = 0 := by
  have hread : ∀ i,s.interrupted r k (s.head+i) = ((s.residue r k)[i]?).getD 0 := by
    intro i
    rw [interrupted_eq,store_add,hzero _ (by omega)]
  rw [field_read hread (by decide),field_residue]

theorem Holds.openSegmentFile (h : s.Holds rs) (hzero : ∀ a,s.head ≤ a → s.data a = 0)
    (r : JournalRecord) (k : ℕ) :
    openSegmentFile (s.interrupted r k) s.segmentSize = some { s with data := s.interrupted r k } ∧
      ({ s with data := s.interrupted r k } : Segment).Holds rs := by
  have hholds : ({ s with data := s.interrupted r k } : Segment).Holds rs := h.of_data fun a ha => by
    rw [interrupted_eq,store_of_lt _ _ ha]
  refine ⟨?_,hholds⟩
  obtain ⟨hsealed,hopen⟩ := hholds.scanRecords
  cases hs : s.sealed with
  | true =>
    rw [Syzy.openSegmentFile,hsealed hs]
    rfl
  | false =>
    rcases (parseRecordAt_quiet_iff _ _ s.segmentSize).mpr
      (.inr (.inl (field_interrupted hzero r k))) with he | he <;>
    · rw [Syzy.openSegmentFile,hopen hs _ he]
      rfl

theorem appendAll_taken_congr (hsize : s'.segmentSize = s.segmentSize) (hhead : s'.head = s.head)
    (hsealed : s'.sealed = s.sealed) (qs : List JournalRecord) :
    (s'.appendAll qs).2 = (s.appendAll qs).2 := by
  induction qs generalizing s s' with
  | nil => rfl
  | cons q qs ih =>
    have hacc : s'.accepts q = s.accepts q := by
      unfold accepts
      rw [hsize,hhead,hsealed]
    unfold appendAll append
    rw [hacc]
    cases s.accepts q with
    | false => exact ih hsize hhead hsealed
    | true =>
      simp only [if_true]
      congr 1
      exact ih hsize (congrArg (·+q.total) hhead) rfl

/-- Reading on from the head stops there, in order, exactly at a quiet header. -/
theorem iterate_head_iff (s : Segment) (off fuel : ℕ) :
    (∃ stop,s.iterate (fuel+1) off = ([],stop) ∧ stop ≠ .crcMismatch) ↔
      QuietHeader off s.segmentSize (field (read s.data off recordHeaderLen) 0 4)
        (field (read s.data off recordHeaderLen) 8 4) := by
  rw [← parseRecordAt_quiet_iff]
  unfold iterate next
  split_ifs with hoff
  · have hend : parseRecordAt s.data off s.segmentSize = .error .endOfData := by
      rw [parseRecordAt,if_pos]
      simp only [recordHeaderLen,crcLen]
      omega
    simp [hend]
  · cases hparse : parseRecordAt s.data off s.segmentSize with
    | error e => cases e <;> simp
    | ok p =>
      dsimp only
      split_ifs <;> simp

theorem Holds.iterate_iff (h : s.Holds rs) :
    (∃ stop,s.iterate (s.segmentSize+1) fileHeaderSize = (rs,stop) ∧ stop ≠ .crcMismatch) ↔
      s.sealed = true ∨
        QuietHeader s.head s.segmentSize (field (read s.data s.head recordHeaderLen) 0 4)
          (field (read s.data s.head recordHeaderLen) 8 4) := by
  obtain ⟨fuel,hfuel⟩ := h.fuel
  have hle := h.head_le
  rw [h.head_eq] at hle
  cases hs : s.sealed with
  | true =>
    obtain ⟨init,r,rfl,hr,hinit⟩ := h.sealed hs
    obtain ⟨hw,hlast⟩ := h.written.left
    rw [span_append,span_cons,span_nil] at hle
    have hfuel' : s.segmentSize+1 = init.length+(fuel+1+1) := by
      rw [hfuel,length_append]
      simp only [length_cons,length_nil]
      omega
    rw [hfuel',iterate_written _ hw (fun q hq => h.valid q (by simp [hq])) (by omega) hinit,
      iterate_record (h.valid r (by simp)) hlast.1 (by omega),if_pos hr]
    simp
  | false =>
    rw [hfuel,iterate_written _ h.written h.valid hle (h.unsealed hs),← h.head_eq,
      ← iterate_head_iff s s.head fuel]
    simp [Prod.ext_iff]

theorem Holds.reopened_iff (h : s.Holds rs) (hzero : ∀ a,s.head ≤ a → s.data a = 0)
    (r : JournalRecord) (k : ℕ) {post : List JournalRecord} (hpost : ∀ q ∈ post,q.Valid)
    (hs' : s' = { s with data := s.interrupted r k }) :
    (∃ stop,(s'.appendAll post).1.iterate (s.segmentSize+1) fileHeaderSize =
        (rs++(s'.appendAll post).2,stop) ∧ stop ≠ .crcMismatch) ↔
      (∃ q ∈ rs++(s.appendAll post).2,q.kind = kindSeal) ∨
        QuietHeader (s.head+span (s.appendAll post).2) s.segmentSize
          (field ((s.residue r k).drop (span (s.appendAll post).2)) 0 4)
          (field ((s.residue r k).drop (span (s.appendAll post).2)) 8 4) := by
  have hholds : s'.Holds rs := hs' ▸ (h.openSegmentFile hzero r k).2
  have hsize : s'.segmentSize = s.segmentSize := by rw [hs']
  have hhead : s'.head = s.head := by rw [hs']
  have hsealed : s'.sealed = s.sealed := by rw [hs']
  have htaken := appendAll_taken_congr hsize hhead hsealed post
  obtain ⟨hafter,hsizeAfter,hheadAfter,hframe⟩ := hholds.appendAll hpost
  have htail : ∀ i,(s'.appendAll post).1.data ((s'.appendAll post).1.head+i) =
      (((s.residue r k).drop (span (s.appendAll post).2))[i]?).getD 0 := by
    intro i
    rw [hframe _ (by omega),hheadAfter,htaken,hhead,getElem?_drop,Nat.add_assoc,hs']
    dsimp only
    rw [interrupted_eq,store_add,hzero _ (by omega)]
  have hiter := hafter.iterate_iff
  rw [hafter.sealed_iff,field_read htail (by decide),field_read htail (by decide),hsizeAfter,
    hheadAfter,hsize,hhead] at hiter
  rw [hiter,htaken]

/-- The crash happened inside the append of `r`, `k` bytes in, after the appends of `pre`; the
reopened segment then took the appends of `post`. Reading it returns what was published. -/
def Recovers (size : ℕ) (pre : List JournalRecord) (r : JournalRecord) (k : ℕ)
    (post : List JournalRecord) : Prop :=
  let s := (create size).appendAll pre
  ∃ s',openSegmentFile (s.1.interrupted r k) size = some s' ∧
    ∃ stop,(s'.appendAll post).1.iterate (size+1) fileHeaderSize = (s.2++(s'.appendAll post).2,stop) ∧
      stop ≠ .crcMismatch

/-- What the interrupted append left behind the later records reads as the end of the data. -/
def QuietTail (size : ℕ) (pre : List JournalRecord) (r : JournalRecord) (k : ℕ)
    (post : List JournalRecord) : Prop :=
  let s := (create size).appendAll pre
  let taken := (s.1.appendAll post).2
  let tail := (s.1.residue r k).drop (span taken)
  (∃ q ∈ s.2++taken,q.kind = kindSeal) ∨
    QuietHeader (s.1.head+span taken) size (field tail 0 4) (field tail 8 4)

theorem recovers_iff_quietTail {size : ℕ} (hsize : minSegmentSize ≤ size)
    {pre : List JournalRecord} (hpre : ∀ q ∈ pre,q.Valid) (r : JournalRecord) (k : ℕ)
    {post : List JournalRecord} (hpost : ∀ q ∈ post,q.Valid) :
    Recovers size pre r k post ↔ QuietTail size pre r k post := by
  have hheader : fileHeaderSize ≤ size := le_trans (by decide) hsize
  obtain ⟨hholds,hsegment,-,hzero⟩ := (holds_create hheader).appendAll hpre
  rw [nil_append] at hholds
  change _ = size at hsegment
  obtain ⟨hopen,-⟩ := hholds.openSegmentFile hzero r k
  have hiff := hholds.reopened_iff hzero r k hpost rfl
  rw [hsegment] at hopen hiff
  unfold Recovers QuietTail
  rw [← hiff]
  constructor
  · intro ⟨s',hs',hread⟩
    rw [hopen] at hs'
    rwa [← Option.some.inj hs'] at hread
  · intro hread
    exact ⟨_,hopen,hread⟩

namespace RecoverySample

def plain (payload : Bytes) : JournalRecord := ⟨1,0,7,0,1,0,payload⟩

/-- A payload whose bytes 8 to 12 read as a publish word. -/
def torn : JournalRecord := plain (replicate 8 0++1::replicate 47 0)

theorem plain_valid {payload : Bytes} (h : payload.length < 2^32) : (plain payload).Valid :=
  ⟨show (1 : UInt8) ≠ 0 by decide,h,fun hk => absurd hk (show (1 : UInt8) ≠ kindSeal by decide)⟩

/-- The later record covers all that the crash left. -/
theorem recovers_of_longer_record :
    QuietTail 1088 [plain [5]] torn 60 [plain (replicate 20 9)] ∧
      Recovers 1088 [plain [5]] torn 60 [plain (replicate 20 9)] := by
  have hquiet : QuietTail 1088 [plain [5]] torn 60 [plain (replicate 20 9)] := by
    refine .inr ?_
    decide
  refine ⟨hquiet,(recovers_iff_quietTail (by decide) ?_ torn 60 ?_).mpr hquiet⟩
  · intro q hq
    rw [mem_singleton.mp hq]
    exact plain_valid (by decide)
  · intro q hq
    rw [mem_singleton.mp hq]
    exact plain_valid (by decide)

/-- The later record stops short of what the crash left. -/
theorem shorter_record_exposes_residue :
    ((openSegmentFile ((create 1088).interrupted torn 104) 1088).map fun s =>
      (s.appendAll [plain []]).1.iterate 1089 fileHeaderSize) = some ([plain []],.crcMismatch) ∧
      ¬Recovers 1088 [] torn 104 [plain []] := by
  have hread : ((openSegmentFile ((create 1088).interrupted torn 104) 1088).map fun s =>
      (s.appendAll [plain []]).1.iterate 1089 fileHeaderSize) = some ([plain []],.crcMismatch) := by
    decide +kernel
  refine ⟨hread,?_⟩
  intro ⟨s,hopen,stop,hiter,hstop⟩
  change openSegmentFile ((create 1088).interrupted torn 104) 1088 = some s at hopen
  rw [hopen,Option.map_some,hiter] at hread
  exact hstop (Prod.ext_iff.mp (Option.some.inj hread)).2

end RecoverySample

end Segment

end Syzy
