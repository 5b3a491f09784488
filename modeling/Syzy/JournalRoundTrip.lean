import Syzy.JournalSegments
import Syzy.ExceptFold

/-!
A journal holds a chain of segments with a live one at its end, which keeps room for its own seal.
Appending, rotating and reopening keep the chain; an iterator reads it back from the start where all but
the last are sealed and nothing that was interrupted shows behind the last record.
-/

namespace Syzy

open UInt64 List Journal

open ByteMem

namespace Segment

variable {s : Segment} {rs : List JournalRecord} {r : JournalRecord}

variable (a : UInt64)

theorem append_of_room (hs : s.sealed = false) (hfit : s.head+r.total ≤ s.segmentSize) :
    s.append r =
      some ⟨store s.data s.head r.published,s.segmentSize,s.head+r.total,r.kind = kindSeal⟩ := by
  have hacc : s.accepts r = true := by simp [accepts,hs,hfit]
  obtain ⟨s',hs'⟩ : ∃ s',s.append r = some s' := by
    unfold append
    rw [if_pos hacc]
    exact ⟨_,rfl⟩
  rw [hs',(data_append hs').1]

theorem zero_append (hzero : ∀ a,s.head ≤ a → s.data a = 0) {a : ℕ} (ha : s.head+r.total ≤ a) :
    store s.data s.head r.published a = 0 := by
  rw [store_of_ge _ _ (by rw [r.length_published]; exact ha)]
  exact hzero a (by omega)

theorem Holds.parse {pre post : List JournalRecord} (h : s.Holds (pre++r::post)) :
    parseRecordAt s.data (fileHeaderSize+span pre) s.segmentSize =
      .ok (r,fileHeaderSize+span (pre++[r])) := by
  have hle := h.head_le
  rw [h.head_eq] at hle
  simp only [span_append,span_cons] at hle
  rw [parseRecordAt_published (h.valid r (by simp)) h.written.left.2.1 (by omega)]
  rw [span_append,span_cons,span_nil,Nat.add_zero,Nat.add_assoc]

theorem Holds.next {pre post : List JournalRecord} (h : s.Holds (pre++r::post)) :
    s.next (fileHeaderSize+span pre) = (s,.record r (fileHeaderSize+span (pre++[r]))) := by
  have htotal : r.payload.length+48 ≤ r.total := recordTotalLen_ge r.payload.length
  have hle := h.head_le
  have hhead := h.head_eq
  rw [h.head_eq] at hle
  simp only [span_append,span_cons] at hle hhead
  have hmax : max s.head (fileHeaderSize+span (pre++[r])) = s.head := by
    rw [hhead,span_append,span_cons,span_nil]
    omega
  have hsealed : (s.sealed || decide (r.kind = kindSeal)) = s.sealed := by
    by_cases hk : r.kind = kindSeal
    · rw [h.sealed_iff.mpr ⟨r,by simp,hk⟩,Bool.true_or]
    · simp [hk]
  rw [Segment.next,if_neg (by omega),h.parse]
  dsimp only
  rw [hmax,hsealed]

/-- The publish word behind the head is zero. -/
def Idle (s : Segment) : Prop := field (read s.data s.head recordHeaderLen) 0 4 = 0

/-- The file is all zeros behind the head. -/
def Blank (s : Segment) : Prop := ∀ a,s.head ≤ a → s.data a = 0

theorem Blank.idle (h : s.Blank) : s.Idle := by
  have hread : ∀ i,s.data (s.head+i) = (([] : Bytes)[i]?).getD 0 := fun i => h _ (by omega)
  rw [Idle,field_read hread (by decide)]
  rfl

theorem Idle.stops (h : s.Idle) : ∃ e,e ≠ .invalid ∧
    parseRecordAt s.data s.head s.segmentSize = .error e := by
  rcases (parseRecordAt_quiet_iff _ _ s.segmentSize).mpr (.inr (.inl h)) with he | he
  · exact ⟨_,by decide,he⟩
  · exact ⟨_,by decide,he⟩

theorem Holds.reopens (h : s.Holds rs) (hidle : s.sealed = false → s.Idle) :
    Syzy.openSegmentFile s.data s.segmentSize = some s ∧
      (Syzy.scanRecords s.data s.segmentSize).lastSeq = latestSeq 0 rs := by
  unfold Syzy.openSegmentFile
  cases hs : s.sealed with
  | true =>
    rw [h.scanRecords.1 hs,← hs]
    exact ⟨rfl,rfl⟩
  | false =>
    obtain ⟨e,hne,he⟩ := (hidle hs).stops
    rw [h.scanRecords.2 hs e he,← hs]
    exact ⟨if_neg (by simpa using hne),rfl⟩

/-- An unsealed segment with room for the seal. -/
structure Live (s : Segment) (rs : List JournalRecord) : Prop where
  holds : s.Holds rs
  unsealed : s.sealed = false
  room : s.head+recordTotalLen 0 ≤ s.segmentSize
  size_ge : minSegmentSize ≤ s.segmentSize
  size_lt : s.segmentSize < 2^32

structure Closed (s : Segment) (rs : List JournalRecord) : Prop where
  holds : s.Holds (rs++[sealRecord])
  sealed : s.sealed = true
  size_lt : s.segmentSize < 2^32

theorem live_create {size : ℕ} (hmin : minSegmentSize ≤ size) (hlt : size < 2^32) :
    (create size).Live [] where
  holds := holds_create (le_trans (by decide) hmin)
  unsealed := rfl
  room := le_trans (show fileHeaderSize+recordTotalLen 0 ≤ minSegmentSize by decide) hmin
  size_ge := hmin
  size_lt := hlt

theorem Live.append (h : s.Live rs) (hr : r.Valid) (hkind : r.kind ≠ kindSeal)
    (hfit : s.head+r.total+recordTotalLen 0 ≤ s.segmentSize) :
    ∃ s',s.append r = some s' ∧ s'.Live (rs++[r]) ∧ (s.Blank → s'.Blank) := by
  have happ := append_of_room h.unsealed (r := r) (by omega)
  exact ⟨_,happ,⟨h.holds.append hr happ,by simp [hkind],hfit,h.size_ge,h.size_lt⟩,
    fun hblank a ha => zero_append hblank ha⟩

theorem sealRecord_valid : sealRecord.Valid :=
  ⟨show kindSeal ≠ 0 by decide,show 0 < 2^32 by decide,fun _ => rfl⟩

theorem Live.seal (h : s.Live rs) : ∃ s',s.append Journal.sealRecord = some s' ∧ s'.Closed rs := by
  have happ := append_of_room h.unsealed (r := sealRecord) h.room
  exact ⟨_,happ,h.holds.append sealRecord_valid happ,by simp [sealRecord],h.size_lt⟩

theorem Closed.kind_ne (h : s.Closed rs) : ∀ r ∈ rs,r.kind ≠ kindSeal := by
  obtain ⟨init,last,heq,-,hinit⟩ := h.holds.sealed h.sealed
  rwa [(append_inj' heq rfl).1]

theorem Live.next (h : s.Live rs) (hidle : s.Idle) : s.next s.head = (s,.pending) := by
  have hroom := h.room
  have hlen : recordTotalLen 0 = 48 := by decide
  have hparse : parseRecordAt s.data s.head s.segmentSize = .error .pending := by
    rw [parseRecordAt,if_neg (by simp only [recordHeaderLen,crcLen]; omega)]
    exact if_pos hidle
  rw [Segment.next,if_neg (by omega),hparse]

theorem Holds.span_lt (h : s.Holds rs) (hlt : s.segmentSize < 2^32) :
    fileHeaderSize+span rs < 2^32 := by
  have hle := h.head_le
  rw [h.head_eq] at hle
  exact hle.trans_lt hlt

theorem toNat_latestSeq (rs : List JournalRecord) :
    (latestSeq a rs).toNat = max a.toNat (latestSeq 0 rs).toNat := by
  have hmax : ∀ a b : UInt64,(if a < b then b else a).toNat = max a.toNat b.toNat := by
    intro a b
    split_ifs with h
    · rw [lt_iff_toNat_lt] at h
      omega
    · rw [lt_iff_toNat_lt] at h
      omega
  induction rs generalizing a with
  | nil => simp [latestSeq]
  | cons r rs ih =>
    have ha := ih (if a < r.seq then r.seq else a)
    have h0 := ih (if 0 < r.seq then r.seq else 0)
    rw [hmax] at ha h0
    change (latestSeq (if a < r.seq then r.seq else a) rs).toNat =
      max a.toNat (latestSeq (if 0 < r.seq then r.seq else 0) rs).toNat
    rw [ha,h0]
    simp only [UInt64.toNat_zero]
    omega

theorem latestSeq_append (rs qs : List JournalRecord) :
    latestSeq a (rs++qs) = latestSeq (latestSeq a rs) qs := foldl_append

theorem latestSeq_eq (rs : List JournalRecord) :
    (if a < latestSeq 0 rs then latestSeq 0 rs else a) = latestSeq a rs := by
  rw [← UInt64.toNat_inj,toNat_latestSeq a rs]
  split_ifs with h
  · rw [lt_iff_toNat_lt] at h
    omega
  · rw [lt_iff_toNat_lt] at h
    omega

theorem latestSeq_seal (rs : List JournalRecord) :
    latestSeq 0 (rs++[sealRecord]) = latestSeq 0 rs := by
  rw [latestSeq_append,latestSeq,foldl_cons,foldl_nil,if_neg]
  rw [lt_iff_toNat_lt]
  exact Nat.not_lt_zero _

end Segment

open Segment

theorem offsetSeg_makeOffset (seg byteOff : ℕ) : offsetSeg (makeOffset seg byteOff) = seg := by
  unfold offsetSeg makeOffset
  omega

theorem offsetByte_makeOffset (seg : ℕ) {byteOff : ℕ} (h : byteOff < 2^32) :
    offsetByte (makeOffset seg byteOff) = byteOff := by
  unfold offsetByte makeOffset
  omega

namespace Journal

def entriesAt (num : ℕ) : ℕ → List JournalRecord → List (JournalRecord × ℕ)
  | _,[] => []
  | off,r::rs => (r,makeOffset num off)::entriesAt num (off+r.total) rs

@[simp] theorem length_entriesAt (num off : ℕ) (rs : List JournalRecord) :
    (entriesAt num off rs).length = rs.length := by
  induction rs generalizing off with
  | nil => rfl
  | cons r rs ih => rw [entriesAt,length_cons,length_cons,ih]

@[simp] theorem map_fst_entriesAt (num off : ℕ) (rs : List JournalRecord) :
    (entriesAt num off rs).map Prod.fst = rs := by
  induction rs generalizing off with
  | nil => rfl
  | cons r rs ih => rw [entriesAt,map_cons,ih]

theorem entriesAt_append (num off : ℕ) (rs qs : List JournalRecord) :
    entriesAt num off (rs++qs) = entriesAt num off rs++entriesAt num (off+span rs) qs := by
  induction rs generalizing off with
  | nil => rfl
  | cons r rs ih => rw [cons_append,entriesAt,entriesAt,ih,span_cons,Nat.add_assoc]; rfl

theorem offset_entriesAt (num off : ℕ) (rs : List JournalRecord) (h : off+span rs < 2^32) :
    (∀ e ∈ entriesAt num off rs,num*2^32+off ≤ e.2 ∧ e.2 < (num+1)*2^32) ∧
      (entriesAt num off rs).Pairwise fun a b => a.2 < b.2 := by
  induction rs generalizing off with
  | nil => exact ⟨fun e he => absurd he not_mem_nil,Pairwise.nil⟩
  | cons r rs ih =>
    have htotal : r.payload.length+48 ≤ r.total := recordTotalLen_ge r.payload.length
    rw [span_cons] at h
    obtain ⟨hbound,hpair⟩ := ih (off+r.total) (by omega)
    have hoff : makeOffset num off = num*2^32+off := by
      unfold makeOffset
      rw [Nat.mod_eq_of_lt (by omega)]
    refine ⟨fun e he => ?_,pairwise_cons.mpr ⟨fun e he => ?_,hpair⟩⟩
    · rcases mem_cons.mp he with rfl | he
      · simp only [hoff]
        omega
      · have hbounds := hbound e he
        omega
    · have hbounds := (hbound e he).1
      simp only [hoff]
      omega

/-- A segment that is sealed, or one that a crash has left unsealed. -/
def Link (s : Segment) (rs : List JournalRecord) : Prop := s.Closed rs ∨ s.Live rs

theorem Link.span_lt {s : Segment} {rs : List JournalRecord} (h : Link s rs) :
    fileHeaderSize+span rs < 2^32 := by
  rcases h with h | h
  · have hlt := h.holds.span_lt h.size_lt
    rw [span_append] at hlt
    omega
  · exact h.holds.span_lt h.size_lt

theorem Link.closed {s : Segment} {rs : List JournalRecord} (h : Link s rs) (hs : s.sealed = true) :
    s.Closed rs :=
  h.resolve_right fun hlive => by simp [hlive.unsealed] at hs

/-- Segments, numbered from `num` on, and a live one behind them. -/
inductive Chain : ℕ → List (ℕ × Segment) → List (JournalRecord × ℕ) → Prop
  | live {num : ℕ} {s : Segment} {rs : List JournalRecord} (h : s.Live rs) :
      Chain num [(num,s)] (entriesAt num fileHeaderSize rs)
  | link {num : ℕ} {s : Segment} {rs : List JournalRecord} {segs : List (ℕ × Segment)}
      {es : List (JournalRecord × ℕ)} (h : Link s rs) (hrest : Chain (num+1) segs es) :
      Chain num ((num,s)::segs) (entriesAt num fileHeaderSize rs++es)

/-- All segments but the last are sealed, and the last one ends as `P` says. -/
def Ended (P : Segment → Prop) (segs : List (ℕ × Segment)) : Prop :=
  (∀ p ∈ segs.dropLast,p.2.sealed = true) ∧ ∀ p ∈ segs.getLast?,P p.2

variable {num : ℕ} {segs : List (ℕ × Segment)} {es : List (JournalRecord × ℕ)} {j : Journal}

theorem ended_concat {P : Segment → Prop} {pre : List (ℕ × Segment)} {p : ℕ × Segment} :
    Ended P (pre++[p]) ↔ (∀ q ∈ pre,q.2.sealed = true) ∧ P p.2 := by
  simp [Ended]

section

variable (h : Chain num segs es)
include h

theorem Chain.le : ∀ p ∈ segs,num ≤ p.1 := by
  induction h with
  | live h => simp
  | link h hrest ih =>
    intro p hp
    rcases mem_cons.mp hp with rfl | hp
    · exact le_rfl
    · exact le_trans (Nat.le_succ _) (ih p hp)

theorem Chain.head? : ∃ s,segs.head? = some (num,s) := by
  cases h with
  | live | link => exact ⟨_,rfl⟩

theorem Chain.pairwise : (∀ e ∈ es,num*2^32 ≤ e.2) ∧ es.Pairwise fun a b => a.2 < b.2 := by
  induction h with
  | live h =>
    obtain ⟨hbound,hpair⟩ := offset_entriesAt _ _ _ (h.holds.span_lt h.size_lt)
    exact ⟨fun e he => le_trans (Nat.le_add_right _ _) (hbound e he).1,hpair⟩
  | @link num s rs segs es h hrest ih =>
    obtain ⟨hbound,hpair⟩ := offset_entriesAt num fileHeaderSize rs h.span_lt
    refine ⟨fun e he => ?_,pairwise_append.mpr ⟨hpair,ih.2,fun a ha b hb => ?_⟩⟩
    · rcases mem_append.mp he with he | he
      · exact le_trans (Nat.le_add_right _ _) (hbound e he).1
      · exact le_trans (Nat.mul_le_mul_right _ (Nat.le_succ _)) (ih.1 e he)
    · exact lt_of_lt_of_le (hbound a ha).2 (ih.1 b hb)

theorem Chain.split : ∃ pre last s rs es',segs = pre++[(last,s)] ∧
    s.Live rs ∧ es = es'++entriesAt last fileHeaderSize rs ∧ (∀ p ∈ pre,p.1 < last) ∧
    ∀ {segs' es''},Chain last segs' es'' → Chain num (pre++segs') (es'++es'') := by
  induction h with
  | @live num s rs h =>
    exact ⟨[],num,s,rs,[],rfl,h,rfl,by simp,fun h => h⟩
  | @link num s rs segs es h hrest ih =>
    obtain ⟨pre,last,s',rs',es',rfl,hlive,rfl,hlt,hput⟩ := ih
    have hle : num+1 ≤ last := hrest.le (last,s') (by simp)
    refine ⟨(num,s)::pre,last,s',rs',entriesAt num fileHeaderSize rs++es',rfl,hlive,
      (append_assoc _ _ _).symm,fun p hp => ?_,fun hc => ?_⟩
    · rcases mem_cons.mp hp with rfl | hp
      · exact hle
      · exact hlt p hp
    · rw [append_assoc]
      exact .link h (hput hc)

theorem Chain.ended_cons {P : Segment → Prop} {p : ℕ × Segment} (hend : Ended P (p::segs)) :
    p.2.sealed = true ∧ Ended P segs := by
  obtain ⟨pre,last,s,-,-,rfl,-⟩ := h.split
  rw [← cons_append,ended_concat] at hend
  exact ⟨hend.1 p mem_cons_self,ended_concat.mpr ⟨fun q hq => hend.1 q (mem_cons_of_mem _ hq),hend.2⟩⟩

end

section Lookup

variable {s : Segment} {pre post : List (ℕ × Segment)}

section

variable (hj : j.segments = pre++(num,s)::post) (hpre : ∀ p ∈ pre,p.1 < num)
include hj hpre

theorem findSegment_eq : j.findSegment num = some s := by
  have hnone : pre.find? (fun p => decide (p.1 = num)) = none :=
    find?_eq_none.mpr fun p hp => by simpa using (hpre p hp).ne
  unfold findSegment
  rw [hj,find?_append,hnone]
  simp

theorem segments_putSegment (hpost : ∀ p ∈ post,num < p.1) (s' : Segment) :
    (j.putSegment num s').segments = pre++(num,s')::post := by
  have hkeep : ∀ l : List (ℕ × Segment),(∀ p ∈ l,p.1 ≠ num) →
      l.map (fun p => if p.1 = num then (p.1,s') else p) = l := by
    intro l hl
    conv_rhs => rw [← map_id l]
    exact map_congr_left fun p hp => if_neg (hl p hp)
  unfold putSegment
  rw [hj,map_append,map_cons,hkeep pre fun p hp => (hpre p hp).ne,
    hkeep post fun p hp => (hpost p hp).ne',if_pos rfl]

theorem putSegment_self (hpost : ∀ p ∈ post,num < p.1) : j.putSegment num s = j := by
  have hsegs := segments_putSegment hj hpre hpost s
  rw [← hj] at hsegs
  obtain ⟨size,segments,nextSeq⟩ := j
  unfold putSegment at hsegs ⊢
  dsimp only at hsegs ⊢
  rw [hsegs]

end

theorem next_record (fuel : ℕ) (qs : List JournalRecord) {rs : List JournalRecord}
    {r : JournalRecord}
    (hj : j.segments = pre++(num,s)::post) (hpre : ∀ p ∈ pre,p.1 < num)
    (hpost : ∀ p ∈ post,num < p.1) (h : s.Holds (qs++r::rs)) (hlt : s.segmentSize < 2^32)
    (hkind : r.kind ≠ kindSeal) :
    next (fuel+1) j (makeOffset num (fileHeaderSize+span qs)) =
      (j,.record r (makeOffset num (fileHeaderSize+span qs))
        (makeOffset num (fileHeaderSize+span (qs++[r])))) := by
  have hspan := h.span_lt hlt
  rw [span_append] at hspan
  unfold next
  simp only [offsetSeg_makeOffset,offsetByte_makeOffset num (show fileHeaderSize+span qs < 2^32 by
    omega),findSegment_eq hj hpre,h.next,putSegment_self hj hpre hpost,if_neg hkind]

section

variable (fuel : ℕ) (hj : j.segments = pre++(num,s)::post) (hpre : ∀ p ∈ pre,p.1 < num)
include fuel hj hpre

theorem next_seal {qs : List JournalRecord} (hpost : ∀ p ∈ post,num < p.1) (h : s.Closed qs)
    {s' : Segment} (hnext : j.findSegment (num+1) = some s') :
    next (fuel+1) j (makeOffset num (fileHeaderSize+span qs)) =
      next fuel j (makeOffset (num+1) fileHeaderSize) := by
  have hspan := h.holds.span_lt h.size_lt
  rw [span_append] at hspan
  have hkind : sealRecord.kind = kindSeal := rfl
  rw [next]
  simp only [offsetSeg_makeOffset,offsetByte_makeOffset num (show fileHeaderSize+span qs < 2^32 by
    omega),findSegment_eq hj hpre,h.holds.next,putSegment_self hj hpre hpost,if_pos hkind,hnext,
    Option.isSome_some,if_true]

theorem next_pending {rs : List JournalRecord} (h : s.Live rs) (hidle : s.Idle) :
    next (fuel+1) j (makeOffset num (fileHeaderSize+span rs)) =
      (j,.pending (makeOffset num (fileHeaderSize+span rs))) := by
  have hspan := h.holds.span_lt h.size_lt
  have hnext := h.next hidle
  rw [h.holds.head_eq] at hnext
  rw [next]
  simp only [offsetSeg_makeOffset,offsetByte_makeOffset num hspan,findSegment_eq hj hpre,hnext]

end

theorem iterate_entries (fuel : ℕ) (qs : List JournalRecord) {rs tail : List JournalRecord}
    (hj : j.segments = pre++(num,s)::post) (hpre : ∀ p ∈ pre,p.1 < num)
    (hpost : ∀ p ∈ post,num < p.1) (h : s.Holds (qs++(rs++tail))) (hlt : s.segmentSize < 2^32)
    (hkind : ∀ r ∈ rs,r.kind ≠ kindSeal) :
    iterate (rs.length+fuel) j (makeOffset num (fileHeaderSize+span qs)) =
      (entriesAt num (fileHeaderSize+span qs) rs++
        (iterate fuel j (makeOffset num (fileHeaderSize+span (qs++rs)))).1,
        (iterate fuel j (makeOffset num (fileHeaderSize+span (qs++rs)))).2) := by
  induction rs generalizing qs with
  | nil => simp [entriesAt]
  | cons r rs ih =>
    have hrest := ih (qs++[r]) (by simpa using h) fun q hq => hkind q (mem_cons_of_mem _ hq)
    have hnext := next_record j.segments.length qs hj hpre hpost h hlt (hkind r mem_cons_self)
    have hfuel : (r::rs).length+fuel = rs.length+fuel+1 := by
      rw [length_cons]
      omega
    have hoff : fileHeaderSize+span (qs++[r]) = fileHeaderSize+span qs+r.total := by
      simp [Nat.add_assoc]
    rw [hfuel,iterate,hnext]
    simp only [hrest]
    rw [entriesAt,← hoff,append_assoc qs,singleton_append,cons_append]

end Lookup

theorem lt_succ_of_pre {pre : List (ℕ × Segment)} {s : Segment} (hpre : ∀ p ∈ pre,p.1 < num) :
    ∀ p ∈ pre++[(num,s)],p.1 < num+1 := by
  intro p hp
  rcases mem_concat.mp hp with hp | rfl
  · exact lt_trans (hpre p hp) (Nat.lt_succ_self _)
  · exact Nat.lt_succ_self _

theorem Chain.find_next (h : Chain (num+1) segs es) {pre : List (ℕ × Segment)} {s : Segment}
    (hj : j.segments = pre++(num,s)::segs) (hpre : ∀ p ∈ pre,p.1 < num) :
    ∃ s',j.findSegment (num+1) = some s' := by
  obtain ⟨s',hs'⟩ := h.head?
  obtain ⟨rest,rfl⟩ := head?_eq_some_iff.mp hs'
  have hj' : j.segments = (pre++[(num,s)])++(num+1,s')::rest := by simpa using hj
  exact ⟨s',findSegment_eq hj' (lt_succ_of_pre hpre)⟩

theorem iterate_congr (fuel : ℕ) {off off' : ℕ}
    (h : next (j.segments.length+1) j off = next (j.segments.length+1) j off') :
    iterate (fuel+1) j off = iterate (fuel+1) j off' := by
  rw [iterate,iterate,h]

/-- One turn for each segment is enough to get from one to the next record. -/
theorem Chain.next_fuel (h : Chain num segs es) (hend : Ended Idle segs) {pre : List (ℕ × Segment)}
    (hj : j.segments = pre++segs) (hpre : ∀ p ∈ pre,p.1 < num) {fuel fuel' : ℕ}
    (hfuel : segs.length ≤ fuel) (hfuel' : segs.length ≤ fuel') :
    next fuel j (makeOffset num fileHeaderSize) = next fuel' j (makeOffset num fileHeaderSize) := by
  induction h generalizing pre fuel fuel' with
  | @live num s rs h =>
    obtain ⟨f,rfl⟩ := Nat.exists_eq_add_of_le' hfuel
    obtain ⟨f',rfl⟩ := Nat.exists_eq_add_of_le' hfuel'
    have hnil : ∀ p ∈ ([] : List (ℕ × Segment)),num < p.1 := by simp
    cases rs with
    | nil =>
      have hnext := fun f => next_pending f hj hpre h (hend.2 _ rfl)
      rw [span_nil,Nat.add_zero] at hnext
      exact (hnext f).trans (hnext f').symm
    | cons r rs =>
      have hkind := h.holds.unsealed h.unsealed r mem_cons_self
      have hnext := fun f => next_record f [] hj hpre hnil h.holds h.size_lt hkind
      exact (hnext f).trans (hnext f').symm
  | @link num s rs segs es h hrest ih =>
    obtain ⟨hs,hend⟩ := hrest.ended_cons hend
    have h := h.closed hs
    rw [length_cons] at hfuel hfuel'
    obtain ⟨f,rfl⟩ := Nat.exists_eq_add_of_le' hfuel
    obtain ⟨f',rfl⟩ := Nat.exists_eq_add_of_le' hfuel'
    cases rs with
    | nil =>
      obtain ⟨s',hs'⟩ := hrest.find_next hj hpre
      have hnext := fun f => next_seal f hj hpre hrest.le h hs'
      rw [span_nil,Nat.add_zero] at hnext
      refine (hnext (f+segs.length)).trans (Eq.trans ?_ (hnext (f'+segs.length)).symm)
      have hj' : j.segments = (pre++[(num,s)])++segs := by simpa using hj
      exact ih hend hj' (lt_succ_of_pre hpre) (by omega) (by omega)
    | cons r rs =>
      have hkind := h.kind_ne r mem_cons_self
      have hnext := fun f => next_record f [] hj hpre hrest.le h.holds h.size_lt hkind
      exact (hnext _).trans (hnext _).symm

section Resume

variable {s : Segment} {pre : List (ℕ × Segment)} {rs : List JournalRecord}

variable (qs : List JournalRecord)

theorem iterate_live (hj : j.segments = pre++[(num,s)])
    (hpre : ∀ p ∈ pre,p.1 < num) (h : s.Live (qs++rs)) (hidle : s.Idle) :
    iterate (rs.length+1) j (makeOffset num (fileHeaderSize+span qs)) =
      (entriesAt num (fileHeaderSize+span qs) rs,
        .pending (makeOffset num (fileHeaderSize+span (qs++rs)))) := by
  have hnil : ∀ p ∈ ([] : List (ℕ × Segment)),num < p.1 := by simp
  have hholds : s.Holds (qs++(rs++[])) := by rw [append_nil]; exact h.holds
  have hread := iterate_entries 1 qs hj hpre hnil hholds h.size_lt
    fun r hr => h.holds.unsealed h.unsealed r (mem_append_right _ hr)
  rw [hread,iterate,next_pending _ hj hpre h hidle]
  simp

theorem iterate_closed (hj : j.segments = pre++(num,s)::segs)
    (hpre : ∀ p ∈ pre,p.1 < num) (h : s.Closed (qs++rs)) (hrest : Chain (num+1) segs es)
    (hend : Ended Idle segs) {off : ℕ}
    (hoff : iterate (es.length+1) j (makeOffset (num+1) fileHeaderSize) = (es,.pending off)) :
    iterate (rs.length+(es.length+1)) j (makeOffset num (fileHeaderSize+span qs)) =
      (entriesAt num (fileHeaderSize+span qs) rs++es,.pending off) := by
  obtain ⟨s',hs'⟩ := hrest.find_next hj hpre
  have hj' : j.segments = (pre++[(num,s)])++segs := by simpa using hj
  have hlen : segs.length ≤ j.segments.length := by
    rw [hj',length_append]
    exact Nat.le_add_left _ _
  have hseal := (next_seal j.segments.length hj hpre hrest.le h hs').trans
    (hrest.next_fuel hend hj' (lt_succ_of_pre hpre) hlen (Nat.le_succ_of_le hlen))
  have hholds : s.Holds (qs++(rs++[sealRecord])) := by
    rw [← append_assoc]
    exact h.holds
  rw [iterate_entries (es.length+1) qs hj hpre hrest.le hholds h.size_lt
    fun r hr => h.kind_ne r (mem_append_right _ hr),iterate_congr _ hseal,hoff]

end Resume

theorem Chain.iterate (h : Chain num segs es) (hend : Ended Idle segs) {pre : List (ℕ × Segment)}
    (hj : j.segments = pre++segs) (hpre : ∀ p ∈ pre,p.1 < num) :
    ∃ off,iterate (es.length+1) j (makeOffset num fileHeaderSize) = (es,.pending off) := by
  induction h generalizing pre with
  | @live num s rs h =>
    have hread := iterate_live [] hj hpre h (hend.2 _ rfl)
    rw [span_nil,Nat.add_zero] at hread
    exact ⟨_,by rw [length_entriesAt]; exact hread⟩
  | @link num s rs segs es h hrest ih =>
    obtain ⟨hs,hend⟩ := hrest.ended_cons hend
    have hj' : j.segments = (pre++[(num,s)])++segs := by simpa using hj
    obtain ⟨off,hoff⟩ := ih hend hj' (lt_succ_of_pre hpre)
    have hread := iterate_closed [] hj hpre (h.closed hs) hrest hend hoff
    rw [span_nil,Nat.add_zero] at hread
    exact ⟨off,by rw [length_append,length_entriesAt,Nat.add_assoc]; exact hread⟩

/-- The journal holds these entries, its oldest segment being `num`. -/
structure Keeps (j : Journal) (num : ℕ) (es : List (JournalRecord × ℕ)) : Prop where
  chain : Chain num j.segments es
  size_ge : minSegmentSize ≤ j.segmentSize
  size_lt : j.segmentSize < 2^32

theorem Keeps.iterate (h : j.Keeps num es) (hend : Ended Idle j.segments) :
    ∃ off,iterate (es.length+1) j j.iterateStart = (es,.pending off) := by
  obtain ⟨s,hs⟩ := h.chain.head?
  have hstart : j.iterateStart = makeOffset num fileHeaderSize := by
    unfold iterateStart
    rw [hs]
  rw [hstart]
  exact h.chain.iterate hend (nil_append _).symm fun p hp => absurd hp not_mem_nil

theorem Ended.idle (h : Ended Blank segs) : Ended Idle segs := ⟨h.1,fun p hp => (h.2 p hp).idle⟩

/-- The journal holds these entries, numbered without a gap, and no trace of a crash. -/
structure Holds (j : Journal) (es : List (JournalRecord × ℕ)) : Prop where
  chain : Chain 0 j.segments es
  ended : Ended Blank j.segments
  size_ge : minSegmentSize ≤ j.segmentSize
  size_lt : j.segmentSize < 2^32
  nextSeq_eq : j.nextSeq = UInt64.ofNat (es.length+1)
  latest_eq : latestSeq 0 (es.map Prod.fst) = UInt64.ofNat es.length

theorem holds_open {size : ℕ} (hmin : minSegmentSize ≤ size) (hlt : size < 2^32) :
    ∃ j,openDir [] size = .ok j ∧ j.Holds [] := by
  have hne : size ≠ 0 := fun h => absurd hmin (by rw [h]; decide)
  refine ⟨⟨size,[(0,.create size)],1⟩,?_,?_⟩
  · rw [openDir,if_pos rfl,if_neg hne,createSegment,if_neg (not_lt.mpr hmin)]
    rfl
  · exact ⟨.live (live_create hmin hlt),⟨by simp,by rintro p ⟨⟩ _ _; rfl⟩,hmin,hlt,rfl,rfl⟩

theorem Holds.keeps (h : j.Holds es) : j.Keeps 0 es := ⟨h.chain,h.size_ge,h.size_lt⟩

section Append

variable {r : JournalRecord} {last : ℕ} {s : Segment}

section

variable (h : Chain num j.segments es) (hlast : j.segments.getLast? = some (last,s))
include h hlast

theorem Chain.append (hr : r.Valid) (hkind : r.kind ≠ kindSeal)
    (hfit : s.head+r.total+recordTotalLen 0 ≤ s.segmentSize) :
    ∃ s',s.append r = some s' ∧
      Chain num (j.putSegment last s').segments (es++[(r,makeOffset last s.head)]) ∧
      (Ended Blank j.segments → Ended Blank (j.putSegment last s').segments) := by
  obtain ⟨pre,last',s₀,rs,es',hj,hlive,rfl,hpre,hput⟩ := h.split
  rw [hj,getLast?_concat] at hlast
  obtain ⟨rfl,rfl⟩ := Prod.mk.inj (Option.some.inj hlast)
  obtain ⟨s',happ,hlive',hblank⟩ := hlive.append hr hkind hfit
  have hsegs := segments_putSegment hj hpre (by simp) s'
  refine ⟨s',happ,?_,?_⟩
  have hentry : entriesAt last' fileHeaderSize (rs++[r]) =
      entriesAt last' fileHeaderSize rs++[(r,makeOffset last' s₀.head)] := by
    rw [entriesAt_append,hlive.holds.head_eq]
    rfl
  · rw [hsegs,append_assoc,← hentry]
    exact hput (.live hlive')
  · rw [hsegs,hj,ended_concat,ended_concat]
    exact And.imp_right hblank

theorem Chain.rotate {size : ℕ} (hmin : minSegmentSize ≤ size) (hlt : size < 2^32) :
    s.sealed = false ∧ s.head+recordTotalLen 0 ≤ s.segmentSize ∧
      ∃ s',s.append sealRecord = some s' ∧
        Chain num ((j.putSegment last s').segments++[(last+1,.create size)]) es ∧
        (Ended Blank j.segments →
          Ended Blank ((j.putSegment last s').segments++[(last+1,.create size)])) := by
  obtain ⟨pre,last',s₀,rs,es',hj,hlive,rfl,hpre,hput⟩ := h.split
  rw [hj,getLast?_concat] at hlast
  obtain ⟨rfl,rfl⟩ := Prod.mk.inj (Option.some.inj hlast)
  obtain ⟨s',happ,hclosed⟩ := hlive.seal
  have hsegs := segments_putSegment hj hpre (by simp) s'
  refine ⟨hlive.unsealed,hlive.room,s',happ,?_,fun hend => ?_⟩
  · have hchain := hput (.link (.inl hclosed) (.live (live_create hmin hlt)))
    rw [hsegs,append_assoc]
    simpa [entriesAt] using hchain
  · rw [hj,ended_concat] at hend
    rw [hsegs,ended_concat]
    refine ⟨fun q hq => ?_,fun _ _ => rfl⟩
    rcases mem_concat.mp hq with hq | rfl
    · exact hend.1 q hq
    · exact hclosed.sealed

end

variable {need : ℕ}

theorem Keeps.appendLoop_of_room (h : j.Keeps num es) (hr : r.Valid) (hkind : r.kind ≠ kindSeal)
    (hlast : j.segments.getLast? = some (last,s)) (hs : s.sealed = false)
    (hneed : need ≤ s.segmentSize) (hfit : s.head+r.total+recordTotalLen 0 ≤ s.segmentSize)
    (fuel : ℕ) :
    ∃ j' off,appendLoop r need (fuel+1) j = .ok (j',off,j.nextSeq) ∧
      j'.Keeps num (es++[({ r with seq := j.nextSeq },off)]) ∧ j'.nextSeq = j.nextSeq+1 ∧
      (Ended Blank j.segments → Ended Blank j'.segments) := by
  have hr' : ({ r with seq := j.nextSeq } : JournalRecord).Valid :=
    ⟨hr.kind_ne_zero,hr.payload_lt,hr.seal_empty⟩
  obtain ⟨s',happ,hchain,hend⟩ := h.chain.append hlast hr' hkind hfit
  refine ⟨{ j.putSegment last s' with nextSeq := j.nextSeq+1 },makeOffset last s.head,?_,
    ⟨hchain,h.size_ge,h.size_lt⟩,rfl,hend⟩
  rw [appendLoop,hlast]
  dsimp only
  rw [if_neg (by simp [hs,hneed,hfit]),happ]

theorem Keeps.rotate (h : j.Keeps num es) (hneed : need < 2^32) :
    ∃ j' last,j.rotate need = .ok j' ∧ j'.Keeps num es ∧ j'.nextSeq = j.nextSeq ∧
      j'.segments.getLast? = some (last,.create (max j.segmentSize need)) ∧
      (Ended Blank j.segments → Ended Blank j'.segments) := by
  obtain ⟨pre,last,s,rs,es',hj,-⟩ := h.chain.split
  have hlast : j.segments.getLast? = some (last,s) := by rw [hj,getLast?_concat]
  have hmin : minSegmentSize ≤ max j.segmentSize need := le_trans h.size_ge (le_max_left _ _)
  obtain ⟨hs,hroom,s',happ,hchain,hend⟩ := h.chain.rotate hlast hmin (max_lt h.size_lt hneed)
  refine ⟨{ j with segments := (j.putSegment last s').segments++
      [(last+1,.create (max j.segmentSize need))] },last+1,?_,⟨hchain,h.size_ge,h.size_lt⟩,rfl,
    getLast?_concat,hend⟩
  rw [Journal.rotate,hlast]
  simp only [createSegment,if_neg (not_lt.mpr hmin),hs,if_neg (not_lt.mpr hroom),happ]
  rfl

theorem Keeps.appendWithSchemaSeq (h : j.Keeps num es) {kind : UInt8}
    (hlc origin : UInt64) (schemaSeq : UInt32) {payload : Bytes} (hzero : kind ≠ 0)
    (hkind : kind ≠ kindSeal)
    (hsize : fileHeaderSize+recordTotalLen payload.length+recordTotalLen 0 < 2^32) :
    ∃ j' off,j.appendWithSchemaSeq kind hlc origin schemaSeq payload = .ok (j',off,j.nextSeq) ∧
      j'.Keeps num (es++[(⟨kind,0,j.nextSeq,hlc,origin,schemaSeq,payload⟩,off)]) ∧
      j'.nextSeq = j.nextSeq+1 ∧ (Ended Blank j.segments → Ended Blank j'.segments) := by
  have hpayload : payload.length < 2^32 := by
    have hge := recordTotalLen_ge payload.length
    omega
  have hr : (⟨kind,0,0,hlc,origin,schemaSeq,payload⟩ : JournalRecord).Valid :=
    ⟨hzero,hpayload,fun hk => absurd hk hkind⟩
  obtain ⟨pre,last,s,rs,es',hj,hlive,-⟩ := h.chain.split
  have hlast : j.segments.getLast? = some (last,s) := by rw [hj,getLast?_concat]
  rw [Journal.appendWithSchemaSeq,if_neg (by simp [hzero,hkind]),if_neg (by omega),
    requiredSegmentSize,if_neg (by omega)]
  change ∃ j' off,appendLoop _ _ 2 j = _ ∧ _
  by_cases hfull : s.segmentSize < fileHeaderSize+recordTotalLen payload.length+recordTotalLen 0 ∨
      s.segmentSize < s.head+recordTotalLen payload.length+recordTotalLen 0
  · obtain ⟨j₁,last',hrot,hj₁,hseq,hlast',hend⟩ := h.rotate hsize
    obtain ⟨j',off,hloop,hj',hnext,hend'⟩ :=
      hj₁.appendLoop_of_room hr hkind hlast' rfl (le_max_right _ _) (le_max_right _ _) 0
    rw [hseq] at hloop hj' hnext
    refine ⟨j',off,?_,hj',hnext,fun h => hend' (hend h)⟩
    rw [appendLoop,hlast]
    dsimp only
    rw [if_pos (.inr hfull),hrot]
    exact hloop
  · rw [not_or,not_lt,not_lt] at hfull
    exact h.appendLoop_of_room hr hkind hlast hlive.unsealed hfull.1 hfull.2 1

theorem Holds.appendWithSchemaSeq (h : j.Holds es) (hlen : es.length+1 < 2^64) {kind : UInt8}
    (hlc origin : UInt64) (schemaSeq : UInt32) {payload : Bytes} (hzero : kind ≠ 0)
    (hkind : kind ≠ kindSeal)
    (hsize : fileHeaderSize+recordTotalLen payload.length+recordTotalLen 0 < 2^32) :
    ∃ j' off,j.appendWithSchemaSeq kind hlc origin schemaSeq payload =
        .ok (j',off,UInt64.ofNat (es.length+1)) ∧
      j'.Holds (es++[(⟨kind,0,UInt64.ofNat (es.length+1),hlc,origin,schemaSeq,payload⟩,off)]) := by
  obtain ⟨j',off,happ,hkeeps,hseq,hend⟩ :=
    h.keeps.appendWithSchemaSeq hlc origin schemaSeq hzero hkind hsize
  rw [h.nextSeq_eq] at happ hkeeps hseq
  refine ⟨j',off,happ,hkeeps.chain,hend h.ended,hkeeps.size_ge,hkeeps.size_lt,?_,?_⟩
  · rw [hseq,length_append,length_singleton]
    exact (ofNat_add _ _).symm
  · have hlt : latestSeq 0 (es.map Prod.fst) < UInt64.ofNat (es.length+1) := by
      rw [h.latest_eq,lt_iff_toNat_lt,toNat_ofNat_of_lt' (show es.length < 2^64 by omega),
        toNat_ofNat_of_lt' (show es.length+1 < 2^64 from hlen)]
      omega
    rw [map_append,latestSeq_append,length_append]
    exact if_pos hlt

end Append

section Reopen

/-- Every unsealed segment is idle: a reopen finds the records as they were. -/
def AllIdle (j : Journal) : Prop := ∀ p ∈ j.segments,p.2.sealed = false → p.2.Idle

theorem Chain.openFile (h : Chain num segs es) (hidle : ∀ p ∈ segs,p.2.sealed = false → p.2.Idle) :
    ∃ opened,(segs.map fun p => (p.1,p.2.data,p.2.segmentSize)).mapM openFile = .ok opened ∧
      opened.map (fun p => (p.1,p.2.1)) = segs ∧
      ∀ a,opened.foldl (fun l p => if l < p.2.2 then p.2.2 else l) a =
        latestSeq a (es.map Prod.fst) := by
  have hfile : ∀ {num s rs},Segment.Holds s rs → (s.sealed = false → s.Idle) →
      Journal.openFile (num,s.data,s.segmentSize) = .ok (num,s,latestSeq 0 rs) := by
    intro num s rs hs hidle
    simp only [Journal.openFile,(hs.reopens hidle).1,(hs.reopens hidle).2]
  induction h with
  | @live num s rs h =>
    refine ⟨[(num,s,latestSeq 0 rs)],?_,rfl,fun a => ?_⟩
    · simp [hfile h.holds (hidle _ mem_cons_self)]
    · rw [map_fst_entriesAt]
      exact latestSeq_eq a rs
  | @link num s rs segs es h hrest ih =>
    obtain ⟨opened,hopen,hsegs,hseq⟩ := ih fun p hp => hidle p (mem_cons_of_mem _ hp)
    have hs : Journal.openFile (num,s.data,s.segmentSize) = .ok (num,s,latestSeq 0 rs) := by
      rcases h with h | h
      · rw [hfile h.holds (hidle _ mem_cons_self),latestSeq_seal]
      · exact hfile h.holds (hidle _ mem_cons_self)
    refine ⟨(num,s,latestSeq 0 rs)::opened,?_,?_,fun a => ?_⟩
    · rw [map_cons,mapM_cons,hs,hopen]
      rfl
    · rw [map_cons,hsegs]
    · rw [foldl_cons,hseq,map_append,map_fst_entriesAt,latestSeq_append a rs]
      rw [latestSeq_eq]

theorem Keeps.reopen (h : j.Keeps num es) (hidle : j.AllIdle) {size : ℕ}
    (hsize : size = 0 ∨ minSegmentSize ≤ size ∧ size < 2^32) :
    ∃ j',openDir j.files size = .ok j' ∧ j'.Keeps num es ∧
      j'.nextSeq = latestSeq 0 (es.map Prod.fst)+1 ∧ j'.segments = j.segments := by
  obtain ⟨opened,hopen,hsegs,hseq⟩ := h.chain.openFile hidle
  obtain ⟨pre,last,s,rs,es',hj,hlive,-⟩ := h.chain.split
  have hne : j.files ≠ [] := by
    unfold files
    rw [hj]
    simp
  have hmap : (opened.getLast?.map fun p => (p.1,p.2.1)) = some (last,s) := by
    rw [← getLast?_map,hsegs,hj,getLast?_concat]
  obtain ⟨⟨num',s',q⟩,hlast,heq⟩ := Option.map_eq_some_iff.mp hmap
  obtain ⟨rfl,rfl⟩ := Prod.mk.inj heq
  refine ⟨⟨if size = 0 then s'.segmentSize else size,j.segments,latestSeq 0 (es.map Prod.fst)+1⟩,
    ?_,⟨h.chain,?_,?_⟩,rfl,rfl⟩
  · rw [openDir,if_neg hne]
    change (mapM openFile (j.segments.map _) >>= _) = _
    rw [hopen]
    simp only [bind,Except.bind,hlast,hsegs,maxSeq,hseq]
    exact if_neg (by rw [hlive.unsealed]; decide)
  · dsimp only
    split_ifs with hzero
    · exact hlive.size_ge
    · exact (hsize.resolve_left hzero).1
  · dsimp only
    split_ifs with hzero
    · exact hlive.size_lt
    · exact (hsize.resolve_left hzero).2

theorem Ended.allIdle (h : Ended Segment.Idle j.segments) : j.AllIdle := by
  intro p hp hs
  obtain ⟨pre,q,hj⟩ := (eq_nil_or_concat j.segments).resolve_left (ne_nil_of_mem hp)
  rw [concat_eq_append] at hj
  rw [hj,ended_concat] at h
  rw [hj] at hp
  rcases mem_concat.mp hp with hp | rfl
  · simp [h.1 p hp] at hs
  · exact h.2

theorem Holds.reopen (h : j.Holds es) {size : ℕ}
    (hsize : size = 0 ∨ minSegmentSize ≤ size ∧ size < 2^32) :
    ∃ j',openDir j.files size = .ok j' ∧ j'.Holds es := by
  obtain ⟨j',hopen,hkeeps,hseq,hsegs⟩ := h.keeps.reopen h.ended.idle.allIdle hsize
  refine ⟨j',hopen,hkeeps.chain,hsegs ▸ h.ended,hkeeps.size_ge,hkeeps.size_lt,?_,h.latest_eq⟩
  rw [hseq,h.latest_eq]
  exact (ofNat_add _ _).symm

end Reopen

/-- A run from a journal that holds `es` returns where it put its own records. -/
theorem Holds.run (h : j.Holds es) {ops : List JournalOp} (hops : ∀ o ∈ ops,o.Accepted)
    (hlen : es.length+ops.length < 2^64) :
    ∃ j' es',j.run ops = .ok (j',es'.map fun e => (e.2,e.1.seq)) ∧ j'.Holds (es++es') ∧
      es'.map Prod.fst = JournalOp.records es.length ops := by
  induction ops generalizing j es with
  | nil => exact ⟨j,[],rfl,by rwa [append_nil],rfl⟩
  | cons o ops ih =>
    have hrest : ∀ o ∈ ops,o.Accepted := fun o ho => hops o (mem_cons_of_mem _ ho)
    rw [length_cons] at hlen
    cases o with
    | append kind hlc origin schemaSeq payload =>
      obtain ⟨hzero,hkind,hsize⟩ := hops _ mem_cons_self
      obtain ⟨j₁,off,happ,hj₁⟩ := h.appendWithSchemaSeq (by omega) hlc origin schemaSeq hzero hkind hsize
      obtain ⟨j',es',hrun,hj',hes'⟩ := ih hj₁ hrest (by
        rw [length_append,length_singleton]
        omega)
      rw [append_assoc] at hj'
      refine ⟨j',_::es',?_,hj',?_⟩
      · simp only [run,op,happ]
        change (run j₁ ops >>= _) = _
        rw [hrun]
        rfl
      · rw [map_cons,hes',length_append]
        rfl
    | reopen size =>
      obtain ⟨j₁,hopen,hj₁⟩ := h.reopen (hops _ mem_cons_self)
      obtain ⟨j',es',hrun,hj',hes'⟩ := ih hj₁ hrest (by omega)
      refine ⟨j',es',?_,hj',hes'⟩
      simp only [run,op,hopen]
      change (run j₁ ops >>= _) = _
      rw [hrun]
      rfl

end Journal

theorem JournalOp.seq_records {n : ℕ} {ops : List JournalOp} (hlen : n+ops.length < 2^64) {i : ℕ}
    {r : JournalRecord} (hr : (records n ops)[i]? = some r) : r.seq.toNat = n+i+1 := by
  induction ops generalizing n i with
  | nil => simp [records] at hr
  | cons o ops ih =>
    rw [length_cons] at hlen
    cases o with
    | append kind hlc origin schemaSeq payload =>
      cases i with
      | zero =>
        rw [← Option.some.inj hr]
        exact toNat_ofNat_of_lt' (show n+1 < 2^64 by omega)
      | succ i =>
        rw [ih (n := n+1) (by omega) hr]
        omega
    | reopen size => exact ih (by omega) hr

namespace Journal

/-- The journal of a run over rotations and reopens is read back from offset zero: each record, with
the next seq, where its append said. -/
theorem append_iterate_roundTrip {size : ℕ} (hmin : minSegmentSize ≤ size) (hlt : size < 2^32)
    {ops : List JournalOp} (hops : ∀ o ∈ ops,o.Accepted) (hlen : ops.length < 2^64) :
    ∃ j₀ j es off,openDir [] size = .ok j₀ ∧ j₀.run ops = .ok (j,es.map fun e => (e.2,e.1.seq)) ∧
      iterate (es.length+1) j j.iterateStart = (es,.pending off) ∧
      es.map Prod.fst = JournalOp.records 0 ops ∧
      (∀ i e,es[i]? = some e → e.1.seq.toNat = i+1) ∧ es.Pairwise fun a b => a.2 < b.2 := by
  obtain ⟨j₀,hopen,hj₀⟩ := holds_open hmin hlt
  obtain ⟨j,es,hrun,hj,hes⟩ := hj₀.run hops (by rwa [length_nil,Nat.zero_add])
  rw [nil_append] at hj
  obtain ⟨off,hiter⟩ := hj.keeps.iterate hj.ended.idle
  refine ⟨j₀,j,es,off,hopen,hrun,hiter,hes,fun i e he => ?_,hj.chain.pairwise.2⟩
  have hr : (JournalOp.records 0 ops)[i]? = some e.1 := by
    rw [← length_nil,← hes,getElem?_map,he]
    rfl
  rw [JournalOp.seq_records (by rwa [Nat.zero_add]) hr,Nat.zero_add]

/-- A record that does not fit behind the first, a reopen, and one more. -/
def sampleOps : List JournalOp :=
  [.append 1 5 1 0 (replicate 900 7),.append 4 6 2 3 (replicate 300 1),.reopen 0,
    .append 1 7 1 3 []]

theorem sampleOps_roundTrip : (∀ o ∈ sampleOps,o.Accepted) ∧
    ∃ j₀ j es off,openDir [] 1088 = .ok j₀ ∧
      j₀.run sampleOps = .ok (j,es.map fun e => (e.2,e.1.seq)) ∧
      iterate (es.length+1) j j.iterateStart = (es,.pending off) ∧
      es.map Prod.fst = JournalOp.records 0 sampleOps ∧
      (∀ i e,es[i]? = some e → e.1.seq.toNat = i+1) ∧ es.Pairwise fun a b => a.2 < b.2 := by
  have hops : ∀ o ∈ sampleOps,o.Accepted := by
    intro o ho
    simp only [sampleOps,mem_cons,not_mem_nil,or_false] at ho
    rcases ho with rfl | rfl | rfl | rfl
    · exact ⟨by decide,by decide,by rw [length_replicate]; decide⟩
    · exact ⟨by decide,by decide,by rw [length_replicate]; decide⟩
    · exact .inl rfl
    · exact ⟨by decide,by decide,by decide⟩
  exact ⟨hops,append_iterate_roundTrip (by decide) (by decide) hops (by decide)⟩

end Journal

end Syzy
