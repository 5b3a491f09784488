import Syzy.JournalRoundTrip

/-!
Retention and resumption. Retention drops the segments before a marker, and those younger than the age
floor stay; a marker that was stored for any generation of the journal is aligned to a record boundary
before an iterator starts from it.
-/

namespace Syzy

open List

open Segment

def JournalOp.record : JournalOp → Option JournalRecord
  | .append kind hlc origin schemaSeq payload => some ⟨kind,0,0,hlc,origin,schemaSeq,payload⟩
  | .reopen _ => none

namespace Journal

/-- The age floor: `mtime` of a segment's file, where it can be read, and the oldest time to keep. -/
structure AgeFloor where
  mtime : ℕ → Option ℤ
  olderThan : ℤ

def AgeFloor.young (f : AgeFloor) (num : ℕ) : Bool := (f.mtime num).all (f.olderThan ≤ ·)

/-- The cutoff, pulled back to the first segment below it that is too young. -/
def agedCutoff (f : AgeFloor) (cutoff : ℕ) : List (ℕ × Segment) → ℕ
  | [] => cutoff
  | p::segs => if cutoff ≤ p.1 then cutoff else if f.young p.1 then p.1 else agedCutoff f cutoff segs

def dropBefore (j : Journal) (cutoff : ℕ) : Journal :=
  { j with segments := j.segments.filter fun p => ¬p.1 < cutoff }

def retainAfter (j : Journal) (off : ℕ) : Journal := j.dropBefore (offsetSeg off)

def retainAfterAged (j : Journal) (off : ℕ) (floor : Option AgeFloor) : Journal :=
  j.dropBefore <| match floor with
    | none => offsetSeg off
    | some f => agedCutoff f (offsetSeg off) j.segments

/-- The ends of the records of a segment, one after another. -/
inductive Boundary (s : Segment) : ℕ → Prop
  | start : Boundary s fileHeaderSize
  | record {off stop : ℕ} {r : JournalRecord} (h : Boundary s off)
      (hr : parseRecordAt s.data off s.segmentSize = .ok (r,stop)) : Boundary s stop

/-- Walk on from a record boundary while the next one is not behind the target. -/
def alignWalk (s : Segment) (target : ℕ) : ℕ → ℕ → ℕ
  | 0,boundary => boundary
  | fuel+1,boundary =>
    if boundary < target then
      match parseRecordAt s.data boundary s.segmentSize with
      | .ok (_,stop) => if target < stop then boundary else alignWalk s target fuel stop
      | .error _ => boundary
    else boundary

/-- The boundary a resume starts from in a segment. Every turn of the walk passes a byte at least. -/
def alignByte (s : Segment) (target : ℕ) : ℕ :=
  if target < fileHeaderSize then fileHeaderSize else alignWalk s target target fileHeaderSize

def alignResume (j : Journal) (off : ℕ) : ℕ :=
  match j.segments.head? with
  | none => 0
  | some (oldest,_) =>
    if off = 0 then makeOffset oldest fileHeaderSize
    else match j.findSegment (offsetSeg off) with
      | none => makeOffset oldest fileHeaderSize
      | some s => makeOffset (offsetSeg off) (alignByte s (offsetByte off))

/-- The journal in the middle of an append to its active segment, `k` byte stores in. -/
def torn (j : Journal) (r : JournalRecord) (k : ℕ) : Journal :=
  { j with segments := j.segments.dropLast++j.segments.getLast?.toList.map fun p =>
      (p.1,{ p.2 with data := p.2.interrupted r k }) }

/-- The journal in the middle of a rotation: the next segment is there and its predecessor not yet
sealed. -/
def rotating (j : Journal) (size : ℕ) : Journal :=
  { j with segments := j.segments++j.segments.getLast?.toList.map fun p => (p.1+1,.create size) }

/-- The journals of a writer that appends, reopens and retains, and that may stop in the middle of an
append or a rotation and be reopened; a reopen finds zero publish words behind the records. -/
inductive Reached : Journal → Prop
  | opened {size : ℕ} {j : Journal} (hmin : minSegmentSize ≤ size) (hlt : size < 2^32)
      (h : openDir [] size = .ok j) : Reached j
  | op {j j' : Journal} {o : JournalOp} {r : Option (ℕ × UInt64)} (h : Reached j) (ho : o.Accepted)
      (hidle : o.record = none → j.AllIdle) (hop : j.op o = .ok (j',r)) : Reached j'
  | torn {j : Journal} (h : Reached j) (r : JournalRecord) (k : ℕ) : Reached (j.torn r k)
  | rotating {j : Journal} (h : Reached j) {size : ℕ} (hmin : minSegmentSize ≤ size)
      (hlt : size < 2^32) : Reached (j.rotating size)
  | retain {j : Journal} (h : Reached j) (off : ℕ) : Reached (j.retainAfter off)
  | retainAged {j : Journal} (h : Reached j) (off : ℕ) (floor : Option AgeFloor) :
      Reached (j.retainAfterAged off floor)

variable {j : Journal} {num cutoff : ℕ} {segs : List (ℕ × Segment)}
  {es : List (JournalRecord × ℕ)}

/-- What is below the cutoff is a prefix of the chain, and the records above it stay. -/
theorem Chain.dropBefore (h : Chain num segs es) (hlast : ∃ p ∈ segs.getLast?,cutoff ≤ p.1) :
    ∃ num' es',Chain num' (segs.filter fun p => ¬p.1 < cutoff) es' ∧
      (segs.filter fun p => ¬p.1 < cutoff) <:+ segs ∧
      (segs.filter fun p => ¬p.1 < cutoff).getLast? = segs.getLast? ∧ es' <:+ es ∧
      ∀ e ∈ es,cutoff*2^32 ≤ e.2 → e ∈ es' := by
  induction h with
  | @live num s rs h =>
    have hle : cutoff ≤ num := by simpa using hlast
    have hkeep : ([(num,s)].filter fun p => ¬p.1 < cutoff) = [(num,s)] := by simp [hle]
    rw [hkeep]
    exact ⟨num,_,.live h,suffix_rfl,rfl,suffix_rfl,fun e he _ => he⟩
  | @link num s rs segs es h hrest ih =>
    obtain ⟨s',hs'⟩ := hrest.head?
    obtain ⟨rest,rfl⟩ := head?_eq_some_iff.mp hs'
    rw [getLast?_cons_cons] at hlast ⊢
    by_cases hnum : num < cutoff
    · obtain ⟨num',es',hchain,hsuf,hlast',hes,hkeep⟩ := ih hlast
      rw [filter_cons_of_neg (by simp [hnum])]
      refine ⟨num',es',hchain,hsuf.trans (suffix_cons _ _),hlast',
        hes.trans (suffix_append _ _),fun e he hle => ?_⟩
      rcases mem_append.mp he with he | he
      · have hbound := ((offset_entriesAt num fileHeaderSize rs h.span_lt).1 e he).2
        omega
      · exact hkeep e he hle
    · have hall : ((num,s)::(num+1,s')::rest).filter (fun p => ¬p.1 < cutoff) =
          (num,s)::(num+1,s')::rest := by
        refine filter_eq_self.mpr fun p hp => ?_
        have hge : num ≤ p.1 := (Chain.link h hrest).le p hp
        simp only [decide_eq_true_eq]
        omega
      rw [hall]
      exact ⟨num,_,.link h hrest,suffix_rfl,getLast?_cons_cons,suffix_rfl,fun e he _ => he⟩

theorem agedCutoff_le (f : AgeFloor) (cutoff : ℕ) (segs : List (ℕ × Segment)) :
    agedCutoff f cutoff segs ≤ cutoff := by
  induction segs with
  | nil => exact le_rfl
  | cons p segs ih =>
    unfold agedCutoff
    split_ifs with hp hy
    · exact le_rfl
    · omega
    · exact ih

section

variable (h : j.Keeps num es)
include h

theorem Keeps.dropBefore (hlast : ∃ p ∈ j.segments.getLast?,cutoff ≤ p.1) :
    ∃ num' es',(j.dropBefore cutoff).Keeps num' es' ∧
      (j.dropBefore cutoff).segments <:+ j.segments ∧
      (j.dropBefore cutoff).segments.getLast? = j.segments.getLast? ∧ es' <:+ es ∧
      ∀ e ∈ es,cutoff*2^32 ≤ e.2 → e ∈ es' := by
  obtain ⟨num',es',hchain,hrest⟩ := h.chain.dropBefore hlast
  exact ⟨num',es',⟨hchain,h.size_ge,h.size_lt⟩,hrest⟩

theorem Keeps.dropBefore_or (cutoff : ℕ) :
    (j.dropBefore cutoff).segments = [] ∨ ∃ num' es',(j.dropBefore cutoff).Keeps num' es' := by
  obtain ⟨pre,last,s,rs,es',hj,-,-,hpre,-⟩ := h.chain.split
  by_cases hle : cutoff ≤ last
  · obtain ⟨num',es',hkeeps,-⟩ := h.dropBefore ⟨(last,s),by rw [hj]; simp,hle⟩
    exact .inr ⟨num',es',hkeeps⟩
  · left
    refine filter_eq_nil_iff.mpr fun p hp => ?_
    rw [hj] at hp
    rcases mem_concat.mp hp with hp | rfl
    · have hlt := hpre p hp
      simp only [decide_eq_true_eq]
      omega
    · simp only [decide_eq_true_eq]
      omega

theorem Keeps.op {o : JournalOp} (ho : o.Accepted) (hidle : o.record = none → j.AllIdle) :
    ∃ j' r new,j.op o = .ok (j',r) ∧ r.toList = new.map (fun e => (e.2,e.1.seq)) ∧
      j'.Keeps num (es++new) ∧ new.map (fun e => { e.1 with seq := 0 }) = o.record.toList ∧
      (Ended Blank j.segments → Ended Blank j'.segments) := by
  cases o with
  | append kind hlc origin schemaSeq payload =>
    obtain ⟨hzero,hkind,hsize⟩ := ho
    obtain ⟨j',off,happ,hj',-,hend⟩ := h.appendWithSchemaSeq hlc origin schemaSeq hzero hkind hsize
    exact ⟨j',some (off,j.nextSeq),[_],by simp only [Journal.op,happ]; rfl,rfl,hj',rfl,hend⟩
  | reopen size =>
    obtain ⟨j',hopen,hj',-,hsegs⟩ := h.reopen (hidle rfl) ho
    exact ⟨j',none,[],by simp only [Journal.op,hopen]; rfl,rfl,by rwa [append_nil],rfl,
      fun hend => hsegs ▸ hend⟩

theorem Keeps.run (hend : Ended Blank j.segments) {ops : List JournalOp}
    (hops : ∀ o ∈ ops,o.Accepted) :
    ∃ j' new,j.run ops = .ok (j',new.map fun e => (e.2,e.1.seq)) ∧ j'.Keeps num (es++new) ∧
      new.map (fun e => { e.1 with seq := 0 }) = ops.filterMap JournalOp.record ∧
      Ended Blank j'.segments := by
  induction ops generalizing j es with
  | nil => exact ⟨j,[],rfl,by rwa [append_nil],rfl,hend⟩
  | cons o ops ih =>
    obtain ⟨j₁,r,first,hop,hr,hj₁,hfirst,hend₁⟩ :=
      h.op (hops o mem_cons_self) fun _ => hend.idle.allIdle
    obtain ⟨j',new,hrun,hj',hnew,hend'⟩ :=
      ih hj₁ (hend₁ hend) fun o ho => hops o (mem_cons_of_mem _ ho)
    refine ⟨j',first++new,?_,by rwa [← append_assoc],?_,hend'⟩
    · rw [Journal.run,hop]
      change (Journal.run j₁ ops >>= _) = _
      rw [hrun,map_append,← hr]
      rfl
    · rw [map_append,hfirst,hnew]
      cases ho : o.record <;> simp [ho]

theorem Keeps.torn (r : JournalRecord) (k : ℕ) : (j.torn r k).Keeps num es := by
  obtain ⟨pre,last,s,rs,es',hj,hlive,rfl,-,hput⟩ := h.chain.split
  have hholds : ({ s with data := s.interrupted r k } : Segment).Holds rs :=
    hlive.holds.of_data fun a ha => by rw [interrupted_eq,ByteMem.store_of_lt _ _ ha]
  have hsegs : (j.torn r k).segments = pre++[(last,{ s with data := s.interrupted r k })] := by
    simp [Journal.torn,hj]
  refine ⟨?_,h.size_ge,h.size_lt⟩
  rw [hsegs]
  exact hput (.live ⟨hholds,hlive.unsealed,hlive.room,hlive.size_ge,hlive.size_lt⟩)

theorem Keeps.rotating {size : ℕ} (hmin : minSegmentSize ≤ size) (hlt : size < 2^32) :
    (j.rotating size).Keeps num es := by
  obtain ⟨pre,last,s,rs,es',hj,hlive,rfl,-,hput⟩ := h.chain.split
  have hsegs : (j.rotating size).segments = pre++[(last,s),(last+1,.create size)] := by
    simp [Journal.rotating,hj]
  have hchain := hput (.link (.inr hlive) (.live (live_create hmin hlt)))
  refine ⟨?_,h.size_ge,h.size_lt⟩
  rw [hsegs]
  simpa [entriesAt] using hchain

end

theorem append_of_nil (hnil : j.segments = []) (kind : UInt8) (hlc origin : UInt64)
    (schemaSeq : UInt32) (payload : Bytes) :
    ∃ e,j.appendWithSchemaSeq kind hlc origin schemaSeq payload = .error e := by
  unfold appendWithSchemaSeq requiredSegmentSize
  split_ifs
  · exact ⟨_,rfl⟩
  · exact ⟨_,rfl⟩
  · exact ⟨_,rfl⟩
  · refine ⟨.closed,?_⟩
    change appendLoop _ _ 2 j = _
    rw [appendLoop,hnil]
    rfl

theorem Reached.keeps (h : Reached j) : j.segments = [] ∨ ∃ num es,j.Keeps num es := by
  induction h with
  | opened hmin hlt h =>
    obtain ⟨j',hj',hholds⟩ := holds_open hmin hlt
    obtain rfl := Except.ok.inj (h.symm.trans hj')
    exact .inr ⟨0,[],hholds.keeps⟩
  | @op j j' o r _ ho hidle hop ih =>
    rcases ih with hnil | ⟨num,es,hkeeps⟩
    · cases o with
      | append kind hlc origin schemaSeq payload =>
        obtain ⟨e,he⟩ := append_of_nil hnil kind hlc origin schemaSeq payload
        rw [Journal.op,he] at hop
        cases hop
      | reopen size =>
        have hfiles : j.files = [] := by simp [files,hnil]
        rw [Journal.op,hfiles] at hop
        rcases ho with rfl | ⟨hmin,hlt⟩
        · cases hop
        · obtain ⟨j₁,hj₁,hholds⟩ := holds_open hmin hlt
          rw [hj₁] at hop
          obtain ⟨rfl,-⟩ := Prod.mk.inj (Except.ok.inj hop)
          exact .inr ⟨0,[],hholds.keeps⟩
    · obtain ⟨j₁,r',es',hop',-,hj₁,-⟩ := hkeeps.op ho hidle
      obtain ⟨rfl,-⟩ := Prod.mk.inj (Except.ok.inj (hop.symm.trans hop'))
      exact .inr ⟨num,_,hj₁⟩
  | torn _ r k ih =>
    rcases ih with hnil | ⟨num,es,hkeeps⟩
    · exact .inl (by simp [Journal.torn,hnil])
    · exact .inr ⟨num,es,hkeeps.torn r k⟩
  | rotating _ hmin hlt ih =>
    rcases ih with hnil | ⟨num,es,hkeeps⟩
    · exact .inl (by simp [Journal.rotating,hnil])
    · exact .inr ⟨num,es,hkeeps.rotating hmin hlt⟩
  | retain _ off ih | retainAged _ off floor ih =>
    rcases ih with hnil | ⟨num,es,hkeeps⟩
    · exact .inl (by simp [retainAfter,retainAfterAged,dropBefore,hnil])
    · exact hkeeps.dropBefore_or _

theorem Ended.suffix {P : Segment → Prop} {segs' : List (ℕ × Segment)} (h : Ended P segs)
    (hsuf : segs' <:+ segs) (hlast : segs'.getLast? = segs.getLast?) : Ended P segs' := by
  refine ⟨fun p hp => h.1 p ?_,fun p hp => h.2 p (hlast ▸ hp)⟩
  obtain ⟨pre,rfl⟩ := hsuf
  rw [dropLast_append_of_ne_nil fun hnil => by simp [hnil] at hp]
  exact mem_append_right _ hp

section Resume

variable {s : Segment} {rs qs : List JournalRecord} {target marker : ℕ}

theorem lt_of_mem_entriesAt {off : ℕ} (h : off+span rs < 2^32) :
    ∀ e ∈ entriesAt num off rs,e.2 < num*2^32+(off+span rs) := by
  induction rs generalizing off with
  | nil => exact fun e he => absurd he not_mem_nil
  | cons r rs ih =>
    have htotal : r.payload.length+48 ≤ r.total := recordTotalLen_ge r.payload.length
    rw [span_cons] at h ⊢
    intro e he
    rcases mem_cons.mp he with rfl | he
    · simp only [makeOffset]
      rw [Nat.mod_eq_of_lt (by omega)]
      omega
    · have hlt := @ih (off+r.total) (by omega) e he
      omega

theorem boundary_alignByte (s : Segment) (target : ℕ) : Boundary s (alignByte s target) := by
  have hwalk : ∀ fuel b,Boundary s b → Boundary s (alignWalk s target fuel b) := by
    intro fuel
    induction fuel with
    | zero => exact fun b hb => hb
    | succ fuel ih =>
      intro b hb
      unfold alignWalk
      split_ifs
      · cases hparse : parseRecordAt s.data b s.segmentSize with
        | error e => exact hb
        | ok p =>
          dsimp only
          split_ifs
          · exact hb
          · exact ih _ (.record hb hparse)
      · exact hb
  unfold alignByte
  split_ifs
  · exact .start
  · exact hwalk _ _ .start

theorem alignWalk_split (h : s.Holds (qs++rs)) (hend : s.head < target → s.Idle) (fuel : ℕ)
    (hle : fileHeaderSize+span qs ≤ target) :
    ∃ rs₁ rs₂,rs = rs₁++rs₂ ∧
      alignWalk s target fuel (fileHeaderSize+span qs) = fileHeaderSize+span (qs++rs₁) ∧
      fileHeaderSize+span (qs++rs₁) ≤ target := by
  have hstay : ∃ rs₁ rs₂,rs = rs₁++rs₂ ∧ fileHeaderSize+span qs = fileHeaderSize+span (qs++rs₁) ∧
      fileHeaderSize+span (qs++rs₁) ≤ target := ⟨[],rs,rfl,by simp,by simpa using hle⟩
  induction fuel generalizing qs rs with
  | zero => exact hstay
  | succ fuel ih =>
    unfold alignWalk
    split_ifs with hlt
    · cases rs with
      | nil =>
        rw [append_nil] at h
        rw [← h.head_eq] at hlt ⊢
        obtain ⟨e,-,he⟩ := (hend hlt).stops
        rw [he,h.head_eq]
        exact hstay
      | cons r rs =>
        rw [h.parse]
        dsimp only
        split_ifs with hstop
        · exact hstay
        · have hnext : s.Holds ((qs++[r])++rs) := by simpa using h
          obtain ⟨rs₁,rs₂,rfl,hwalk,hbound⟩ := ih hnext (not_lt.mp hstop)
            ⟨[],rs,rfl,by simp,by simpa using hstop⟩
          exact ⟨r::rs₁,rs₂,rfl,by simpa using hwalk,by simpa using hbound⟩
    · exact hstay

theorem alignByte_split (h : s.Holds rs) {target : ℕ} (hend : s.head < target → s.Idle) :
    ∃ rs₁ rs₂,rs = rs₁++rs₂ ∧ alignByte s target = fileHeaderSize+span rs₁ ∧
      (rs₁ = [] ∨ fileHeaderSize+span rs₁ ≤ target) := by
  unfold alignByte
  split_ifs with htarget
  · exact ⟨[],rs,rfl,rfl,.inl rfl⟩
  · obtain ⟨rs₁,rs₂,hrs,hwalk,hle⟩ := @alignWalk_split s rs [] target h hend target (not_lt.mp htarget)
    exact ⟨rs₁,rs₂,hrs,hwalk,.inr hle⟩

theorem mem_resumed {rs₁ rs₂ : List JournalRecord} {e : JournalRecord × ℕ}
    (hlt : fileHeaderSize+span (rs₁++rs₂) < 2^32)
    (hle : rs₁ = [] ∨ fileHeaderSize+span rs₁ ≤ offsetByte marker)
    (he : e ∈ entriesAt (offsetSeg marker) fileHeaderSize (rs₁++rs₂)) (hmarker : marker ≤ e.2) :
    e ∈ entriesAt (offsetSeg marker) (fileHeaderSize+span rs₁) rs₂ := by
  rw [entriesAt_append] at he
  rcases mem_append.mp he with he | he
  · rw [span_append] at hlt
    have hbefore := lt_of_mem_entriesAt (by omega) e he
    rcases hle with rfl | hle
    · cases he
    · unfold offsetSeg at hbefore
      unfold offsetByte at hle
      omega
  · exact he

theorem Chain.resume (h : Chain num segs es) (hend : Ended Idle segs) {pre : List (ℕ × Segment)}
    (hj : j.segments = pre++segs) (hpre : ∀ p ∈ pre,p.1 < num)
    (hs : (offsetSeg marker,s) ∈ segs) (hseal : s.sealed = true → offsetByte marker < s.head) :
    ∃ es' stop,Journal.iterate (es'.length+1) j
        (makeOffset (offsetSeg marker) (alignByte s (offsetByte marker))) = (es',.pending stop) ∧
      es' <:+ es ∧ ∀ e ∈ es,marker ≤ e.2 → e ∈ es' := by
  induction h generalizing pre with
  | @live num s' rs h =>
    obtain ⟨rfl,rfl⟩ := Prod.mk.inj (mem_singleton.mp hs)
    have hidle := hend.2 _ rfl
    obtain ⟨rs₁,rs₂,rfl,halign,hle⟩ := @alignByte_split s rs h.holds (offsetByte marker) fun _ => hidle
    refine ⟨_,_,by rw [halign,length_entriesAt]; exact iterate_live rs₁ hj hpre h hidle,?_,?_⟩
    · rw [entriesAt_append]
      exact suffix_append _ _
    · exact fun e he => mem_resumed (h.holds.span_lt h.size_lt) hle he
  | @link num s' rs segs es h hrest ih =>
    obtain ⟨hsealed,hrestEnd⟩ := hrest.ended_cons hend
    have h := h.closed hsealed
    have hj' : j.segments = (pre++[(num,s')])++segs := by simpa using hj
    have hspan := h.holds.span_lt h.size_lt
    rcases mem_cons.mp hs with heq | hs
    · obtain ⟨rfl,rfl⟩ := Prod.mk.inj heq
      have hlt := hseal hsealed
      obtain ⟨off,hoff⟩ := hrest.iterate hrestEnd hj' (lt_succ_of_pre hpre)
      obtain ⟨rs₁,rs₂,hrs,halign,hle⟩ :=
        @alignByte_split s _ h.holds (offsetByte marker) fun hgt => absurd hgt (by omega)
      have hahead : rs₂ ≠ [] := by
        rintro rfl
        rw [append_nil] at hrs
        rw [h.holds.head_eq,hrs] at hlt
        rcases hle with rfl | hle
        · simp at hrs
        · omega
      obtain ⟨rs₂,r,rfl⟩ := (eq_nil_or_concat rs₂).resolve_left hahead
      rw [concat_eq_append,← append_assoc] at hrs
      obtain ⟨rfl,-⟩ := append_inj' hrs rfl
      have hiter := iterate_closed rs₁ hj hpre h hrest hrestEnd hoff
      refine ⟨entriesAt (offsetSeg marker) (fileHeaderSize+span rs₁) rs₂++es,off,?_,?_,?_⟩
      · rw [halign,length_append,length_entriesAt]
        exact hiter
      · rw [entriesAt_append,append_assoc]
        exact suffix_append _ _
      · intro e he hmarker
        rcases mem_append.mp he with he | he
        · rw [span_append] at hspan
          exact mem_append_left _ (mem_resumed (by omega) hle he hmarker)
        · exact mem_append_right _ he
    · obtain ⟨es',stop,hiter,hsuf,hkept⟩ := ih hrestEnd hj' (lt_succ_of_pre hpre) hs
      refine ⟨es',stop,hiter,hsuf.trans (suffix_append _ _),fun e he hmarker => ?_⟩
      rcases mem_append.mp he with he | he
      · have hge : num+1 ≤ offsetSeg marker := hrest.le _ hs
        rw [span_append] at hspan
        have hbound := ((offset_entriesAt num fileHeaderSize rs (by omega)).1 e he).2
        unfold offsetSeg at hge
        omega
      · exact hkept e he hmarker

/-- A start on a record boundary from which all of `es` at or behind the marker is read. -/
structure Resumes (j : Journal) (es : List (JournalRecord × ℕ)) (marker off : ℕ) : Prop where
  boundary : ∃ p ∈ j.segments,∃ b,off = makeOffset p.1 b ∧ Boundary p.2 b
  reads : ∃ es' stop,iterate (es'.length+1) j off = (es',.pending stop) ∧ es' <:+ es ∧
    ∀ e ∈ es,marker ≤ e.2 → e ∈ es'

theorem Keeps.resumes (h : j.Keeps num es) (hend : Ended Idle j.segments)
    (hseal : ∀ s ∈ j.findSegment (offsetSeg marker),s.sealed = true → offsetByte marker < s.head) :
    j.Resumes es marker (j.alignResume marker) := by
  obtain ⟨s₀,hs₀⟩ := h.chain.head?
  have hnil : ∀ p ∈ ([] : List (ℕ × Segment)),p.1 < num := by simp
  obtain ⟨stop,hstart⟩ := h.chain.iterate hend (nil_append _).symm hnil
  have holdest : j.Resumes es marker (makeOffset num fileHeaderSize) :=
    ⟨⟨(num,s₀),mem_of_head? hs₀,fileHeaderSize,rfl,.start⟩,
      ⟨es,stop,hstart,suffix_rfl,fun e he _ => he⟩⟩
  simp only [alignResume,hs₀]
  split_ifs with hzero
  · exact holdest
  · cases hfind : j.findSegment (offsetSeg marker) with
    | none => exact holdest
    | some s =>
      obtain ⟨p,hp,rfl⟩ := Option.map_eq_some_iff.mp hfind
      have hnum : p.1 = offsetSeg marker := by simpa using find?_some hp
      have hmem : (offsetSeg marker,p.2) ∈ j.segments := by
        rw [← hnum]
        exact mem_of_find?_eq_some hp
      exact ⟨⟨_,hmem,_,rfl,boundary_alignByte _ _⟩,
        h.chain.resume hend (nil_append _).symm hnil hmem (hseal p.2 hfind)⟩

end Resume

namespace RetentionSample

def empty : Journal := ⟨1088,[(0,.create 1088)],1⟩

theorem empty_reached : Reached empty :=
  .opened (show minSegmentSize ≤ 1088 by decide) (by decide) rfl

def bulky : JournalOp := .append 1 5 1 0 (replicate 1000 7)

def sealed : Segment := ((Segment.create 1088).append sealRecord).getD (.create 0)

def filled : Segment :=
  ((Segment.create 1160).append ⟨1,0,1,5,1,0,replicate 1000 7⟩).getD (.create 0)

/-- The first record does not fit into the first segment. -/
def rolled : Journal := ⟨1088,[(0,sealed),(1,filled)],2⟩

set_option maxRecDepth 8000 in
theorem rolled_reached : Reached rolled :=
  .op empty_reached (o := bulky) (r := some (makeOffset 1 64,1))
    ⟨by decide,by decide,by rw [length_replicate]; decide⟩ (fun h => by cases h) rfl

theorem sealed_closed : sealed.Closed [] := by
  obtain ⟨s,hs,hclosed⟩ := (live_create (show minSegmentSize ≤ 1088 by decide) (by decide)).seal
  rwa [sealed,hs]

set_option maxRecDepth 8000 in
theorem filled_live : filled.Live [⟨1,0,1,5,1,0,replicate 1000 7⟩] ∧ filled.Blank := by
  obtain ⟨s,hs,hlive,hblank⟩ := (live_create (show minSegmentSize ≤ 1160 by decide) (by decide)).append
    (r := ⟨1,0,1,5,1,0,replicate 1000 7⟩)
    ⟨by decide,by rw [length_replicate]; decide,fun _ => by contradiction⟩ (by decide) (by decide)
  rw [filled,hs]
  exact ⟨hlive,hblank fun _ _ => rfl⟩

set_option maxRecDepth 8000 in
theorem rolled_ended : Ended Blank rolled.segments := by
  have hend : Ended Blank ([(0,sealed)]++[(1,filled)]) := by
    refine ended_concat.mpr ⟨fun q hq => ?_,filled_live.2⟩
    rw [mem_singleton.mp hq]
    exact sealed_closed.sealed
  exact hend

def kept : List (JournalRecord × ℕ) := [(⟨1,0,1,5,1,0,replicate 1000 7⟩,makeOffset 1 64)]

theorem rolled_chain : Chain 0 rolled.segments kept := .link (.inl sealed_closed) (.live filled_live.1)

theorem sealed_next : sealed.next 112 = (sealed,.pending) := by
  have hparse : parseRecordAt sealed.data 112 1088 = .error .pending := by
    have happ : (Segment.create 1088).append sealRecord = _ := append_of_room rfl (by decide)
    have hblank : sealed.Blank := by
      rw [sealed,happ]
      exact fun a ha => zero_append (fun _ _ => rfl) ha
    rw [parseRecordAt,if_neg (by decide)]
    exact if_pos hblank.idle
  exact (if_neg (by decide)).trans (by rw [show sealed.segmentSize = 1088 from rfl,hparse])

theorem find_rolled : rolled.findSegment 0 = some sealed := rfl

theorem alignResume_rolled : rolled.alignResume (makeOffset 0 112) = makeOffset 0 112 := by
  have hparse : parseRecordAt sealed.data 64 1088 = .ok (sealRecord,112) :=
    @Segment.Holds.parse _ _ [] [] sealed_closed.holds
  have halign : alignByte sealed 112 = 112 := by
    rw [alignByte,if_neg (by decide),alignWalk,if_pos (by decide)]
    simp only [fileHeaderSize,show sealed.segmentSize = 1088 from rfl,hparse,lt_irrefl,if_false]
    exact if_neg (by decide)
  have hhead : rolled.segments.head? = some (0,sealed) := rfl
  simp only [alignResume,hhead,offsetSeg_makeOffset,find_rolled,
    offsetByte_makeOffset 0 (show 112 < 2^32 by decide),halign]
  exact if_neg (by decide)

end RetentionSample

end Journal

end Syzy
