import Mathlib.Data.List.Nodup
import Syzy.ExceptFold
import Syzy.Identity
import Syzy.PagedImage
import Syzy.XorSum

/-!
Transaction files of a page stream and the checksum of a database image that they carry: the
exclusive or of one checksum for each page, kept page by page on the emitting side.
-/

namespace Syzy

open Function List

open Paged XorSum

abbrev Checksum := UInt64

abbrev ChecksumPage := ℕ → Bytes → Checksum

def lockPgno (pageSize : ℕ) : ℕ := 1073741824/pageSize+1

structure LtxHeader where
  pageSize : ℕ
  commit : ℕ
  minTXID : ℕ
  maxTXID : ℕ
  noChecksum : Bool
  preApplyChecksum : Checksum

namespace LtxHeader

def IsSnapshot (hdr : LtxHeader) : Prop := hdr.minTXID = 1

instance (hdr : LtxHeader) : Decidable hdr.IsSnapshot := inferInstanceAs (Decidable (_ = _))

end LtxHeader

structure LtxFile where
  header : LtxHeader
  pages : List (ℕ × Bytes)
  postApplyChecksum : Checksum

def LtxFile.patch (f : LtxFile) : Patch Bytes := ⟨f.pages,f.header.commit⟩

inductive EncodeError where
  | emptyPageMap
  | inconsistentChecksum
  | pageLength (pgno : ℕ)
  | outOfBounds (pgno : ℕ)
  | lockPage (pgno : ℕ)

def encodePage (hdr : LtxHeader) (e : ℕ × Bytes) : Except EncodeError Unit :=
  if e.2.length ≠ hdr.pageSize then .error (.pageLength e.1)
  else if hdr.commit < e.1 ∨ e.1 = 0 then .error (.outOfBounds e.1)
  else if e.1 = lockPgno hdr.pageSize then .error (.lockPage e.1)
  else .ok ()

def encodeIncremental (pageMap : List (ℕ × Bytes)) (hdr : LtxHeader) (postApply : Checksum) :
    Except EncodeError LtxFile := do
  if pageMap = [] then throw .emptyPageMap
  if hdr.noChecksum ≠ (postApply == 0) then throw .inconsistentChecksum
  pageMap.forM (encodePage hdr)
  return ⟨hdr,pageMap,postApply⟩

theorem encodeIncremental_ok {pageMap : List (ℕ × Bytes)} {hdr : LtxHeader} {postApply : Checksum}
    {f : LtxFile} (h : encodeIncremental pageMap hdr postApply = .ok f) :
    f = ⟨hdr,pageMap,postApply⟩ ∧ ∀ e ∈ pageMap,Present (lockPgno hdr.pageSize) hdr.commit e.1 := by
  rw [encodeIncremental] at h
  simp only [bind,Except.bind,pure,Except.pure,throw,throwThe,MonadExceptOf.throw] at h
  split_ifs at h
  cases hforM : pageMap.forM (encodePage hdr) with
  | error e =>
    rw [hforM] at h
    exact absurd h (by simp)
  | ok u =>
    rw [hforM] at h
    refine ⟨(Except.ok.inj h).symm,fun e he => ?_⟩
    have hpage := ExceptFold.of_forM_ok hforM e he
    rw [encodePage] at hpage
    split_ifs at hpage with hlen hbounds hlock
    exact ⟨by omega,by omega,hlock⟩

section Rolling

variable (word : ChecksumPage) {lock : ℕ}

def pageSlot (img : Paged.Image lock Bytes) (p : ℕ) : Checksum := (img.page p).elim 0 (word p)

def rolling (img : Paged.Image lock Bytes) : Checksum := flag ||| XorSum.upTo (pageSlot word img) img.commit

end Rolling

structure ChecksumState where
  pages : List Checksum
  pageSize : ℕ
  chksum : Checksum

structure StagedChecksums where
  pre : Checksum
  post : Checksum
  commit : ℕ
  updates : List (ℕ × Checksum)

namespace ChecksumState

variable (word : ChecksumPage)

def slot (s : ChecksumState) (p : ℕ) : Checksum := s.pages.getD (p-1) 0

def stage (s : ChecksumState) (pageMap : List (ℕ × Bytes)) (commit : ℕ) : StagedChecksums :=
  let kept := pageMap.filter fun e => e.1 ≠ lockPgno s.pageSize ∧ e.1 ≤ commit
  let updates := kept.map fun e => (e.1,word e.1 e.2)
  let post := updates.foldl (fun post u => flag ||| (post ^^^ s.slot u.1 ^^^ u.2)) s.chksum
  -- a batch that shrinks the database drops the pages behind its end
  let post := (range' (commit+1) (s.pages.length-commit)).foldl
    (fun post p => flag ||| (post ^^^ s.slot p)) post
  ⟨s.chksum,post,commit,updates⟩

end ChecksumState

def StagedChecksums.commitTo (st : StagedChecksums) (s : ChecksumState) : ChecksumState :=
  let pages := if st.commit ≤ s.pages.length then s.pages.take st.commit
    else s.pages++replicate (st.commit-s.pages.length) 0
  { s with
    pages := st.updates.foldl (fun pages u => pages.set (u.1-1) u.2) pages
    chksum := st.post }

section Tracks

variable {word : ChecksumPage} {pageSize : ℕ}

structure ChecksumState.Tracks (word : ChecksumPage) {pageSize : ℕ} (s : ChecksumState)
    (img : Paged.Image (lockPgno pageSize) Bytes) : Prop where
  pageSize_eq : s.pageSize = pageSize
  length_pages : s.pages.length = img.commit
  slot_eq : ∀ p,0 < p → s.slot p = pageSlot word img p
  chksum_eq : s.chksum = rolling word img

structure PageMapOK (pageSize commit : ℕ) (pageMap : List (ℕ × Bytes)) : Prop where
  ascending : Ascending pageMap
  present : ∀ e ∈ pageMap,Present (lockPgno pageSize) commit e.1

theorem pageSlot_of_lt {img : Paged.Image (lockPgno pageSize) Bytes} {p : ℕ} (h : img.commit < p) :
    pageSlot word img p = 0 := by
  rw [pageSlot,img.outside p fun hp => Nat.not_le_of_lt h hp.2.1]
  rfl

/-- The words after a batch are the old ones with those of its pages exchanged. -/
theorem overwrite_pageSlot {f : ℕ → Checksum} {img : Paged.Image (lockPgno pageSize) Bytes}
    {pageMap : List (ℕ × Bytes)} {commit p : ℕ} (hmap : PageMapOK pageSize commit pageMap)
    (hf : ∀ p,0 < p → f p = pageSlot word img p) (hpos : 0 < p) (hle : p ≤ commit) :
    overwrite f (pageMap.map fun e => (e.1,word e.1 e.2)) p =
      pageSlot word (img.apply ⟨pageMap,commit⟩) p := by
  have hnd : ((pageMap.map fun e => (e.1,word e.1 e.2)).map Prod.fst).Nodup := by
    rw [map_map]
    exact pairwise_map.mpr (hmap.ascending.imp Nat.ne_of_lt)
  cases hl : lastWrite pageMap p with
  | some d =>
    have hmem := lastWrite_mem hl
    have hpage : (img.apply ⟨pageMap,commit⟩).page p = _ := Paged.Image.page_apply (hmap.present _ hmem)
    rw [pageSlot,hpage,hl]
    exact overwrite_of_mem hnd (mem_map_of_mem hmem)
  | none =>
    rw [overwrite_of_notMem,hf p hpos]
    · by_cases hp : Present (lockPgno pageSize) commit p
      · rw [pageSlot,pageSlot,Paged.Image.page_apply (w := ⟨pageMap,commit⟩) hp,hl,Option.none_or]
      · rw [pageSlot,pageSlot,(img.apply ⟨pageMap,commit⟩).outside p hp,img.outside p]
        exact fun hq => hp ⟨hpos,hle,hq.2.2⟩
    · intro u hu heq
      obtain ⟨e,he,rfl⟩ := mem_map.mp hu
      exact lastWrite_ne_none_iff.mpr ⟨e,he,heq⟩ hl

/-- Exchanging the words of a batch's pages and dropping those behind its end gives the checksum of
the image after it. -/
theorem rolling_apply {f : ℕ → Checksum} {img : Paged.Image (lockPgno pageSize) Bytes}
    {pageMap : List (ℕ × Bytes)} {commit : ℕ} (hmap : PageMapOK pageSize commit pageMap)
    (hf : ∀ p,0 < p → f p = pageSlot word img p) :
    (range' (commit+1) (img.commit-commit)).foldl (fun post p => flag ||| (post ^^^ f p))
      ((pageMap.map fun e => (e.1,word e.1 e.2)).foldl
        (fun post u => flag ||| (post ^^^ f u.1 ^^^ u.2)) (rolling word img)) =
      rolling word (img.apply ⟨pageMap,commit⟩) := by
  generalize hus : pageMap.map (fun e => (e.1,word e.1 e.2)) = us
  have hkeys : ∀ u ∈ us,0 < u.1 ∧ u.1 ≤ commit := by
    intro u hu
    obtain ⟨e,he,rfl⟩ := mem_map.mp (hus ▸ hu)
    exact ⟨(hmap.present e he).1,(hmap.present e he).2.1⟩
  have hnd : (us.map Prod.fst).Nodup := by
    rw [← hus,map_map]
    exact pairwise_map.mpr (hmap.ascending.imp Nat.ne_of_lt)
  generalize hds : (range' (commit+1) (img.commit-commit)).map (fun p => (p,(0 : Checksum))) = ds
  have hdrop : ∀ d ∈ ds,commit < d.1 ∧ d.1 ≤ img.commit := by
    intro d hd
    obtain ⟨p,hp,rfl⟩ := mem_map.mp (hds ▸ hd)
    rw [mem_range'_1] at hp
    omega
  have hdnd : (ds.map Prod.fst).Nodup := by
    rw [← hds,map_map]
    simpa [comp_def] using nodup_range'
  have hstart : rolling word img = flag ||| XorSum.upTo f (max img.commit commit) := by
    rw [rolling,upTo_of_zero (Nat.le_max_left img.commit commit) fun p hlt _ => ?_]
    · exact congrArg (flag ||| ·) (upTo_congr fun p hpos _ => (hf p hpos).symm)
    · rw [hf p (Nat.zero_lt_of_lt hlt),pageSlot_of_lt hlt]
  have hdrops : ∀ x,(range' (commit+1) (img.commit-commit)).foldl
      (fun post p => flag ||| (post ^^^ f p)) x =
      ds.foldl (fun post d => flag ||| (post ^^^ f d.1 ^^^ d.2)) x := by
    intro x
    rw [← hds,foldl_map]
    simp only [UInt64.xor_zero]
  rw [hdrops,hstart,← foldl_append,foldl_exchange]
  · rw [rolling,overwrite,foldl_append,upTo_of_zero (c := commit) (Nat.le_max_right _ _)]
    · refine congrArg (flag ||| ·) (upTo_congr fun p hpos hle => ?_)
      refine (overwrite_of_notMem fun d hd heq => ?_).trans ?_
      · exact absurd (hdrop d hd).1 (by omega)
      · rw [← hus]
        exact overwrite_pageSlot hmap hf hpos hle
    · intro p hlt hle
      have hmem : (p,(0 : Checksum)) ∈ ds := by
        rw [← hds]
        exact mem_map_of_mem (mem_range'_1.mpr (by omega))
      exact overwrite_of_mem hdnd hmem
  · rw [map_append]
    refine Nodup.append hnd hdnd fun p hu hd => ?_
    obtain ⟨u,hmem,rfl⟩ := mem_map.mp hu
    obtain ⟨d,hd,heq⟩ := mem_map.mp hd
    have h1 := (hkeys u hmem).2
    have h2 := (hdrop d hd).1
    omega
  · intro u hu
    rcases mem_append.mp hu with hu | hu
    · have := hkeys u hu
      omega
    · have := hdrop u hu
      omega

namespace ChecksumState

variable {s : ChecksumState} {img : Paged.Image (lockPgno pageSize) Bytes} {pageMap : List (ℕ × Bytes)}
  {commit : ℕ}

theorem stage_updates (hmap : PageMapOK pageSize commit pageMap) (hps : s.pageSize = pageSize) :
    (s.stage word pageMap commit).updates = pageMap.map fun e => (e.1,word e.1 e.2) := by
  refine congrArg (map _) (filter_eq_self.mpr fun e he => ?_)
  have := hmap.present e he
  simp [hps,this.2.1,this.2.2]

theorem Tracks.stage_post (h : s.Tracks word img) (hmap : PageMapOK pageSize commit pageMap) :
    (s.stage word pageMap commit).post = rolling word (img.apply ⟨pageMap,commit⟩) := by
  rw [← rolling_apply hmap h.slot_eq,← stage_updates hmap h.pageSize_eq,← h.chksum_eq,← h.length_pages]
  rfl

theorem getD_foldl_set {us : List (ℕ × Checksum)} {pages : List Checksum}
    (hin : ∀ u ∈ us,0 < u.1 ∧ u.1 ≤ pages.length) {p : ℕ} (hp : 0 < p) :
    (us.foldl (fun pages u => pages.set (u.1-1) u.2) pages).getD (p-1) 0 =
      overwrite (fun q => pages.getD (q-1) 0) us p := by
  induction us generalizing pages with
  | nil => rfl
  | cons u us ih =>
    obtain ⟨hpos,hle⟩ := hin u mem_cons_self
    rw [foldl_cons,ih fun v hv => by simpa using hin v (mem_cons_of_mem _ hv)]
    refine overwrite_congr (g := Function.update (fun q => pages.getD (q-1) 0) u.1 u.2) ?_
    by_cases hpu : p = u.1
    · subst hpu
      rw [update_self,getD_eq_getElem?_getD,getElem?_set_self (by omega)]
      rfl
    · rw [update_of_ne hpu,getD_eq_getElem?_getD,getElem?_set_ne (by omega),getD_eq_getElem?_getD]

theorem length_foldl_set (us : List (ℕ × Checksum)) (pages : List Checksum) :
    (us.foldl (fun pages u => pages.set (u.1-1) u.2) pages).length = pages.length := by
  induction us generalizing pages with
  | nil => rfl
  | cons u us ih => rw [foldl_cons,ih,length_set]

theorem Tracks.commitTo (h : s.Tracks word img) (hmap : PageMapOK pageSize commit pageMap) :
    ((s.stage word pageMap commit).commitTo s).Tracks word
      (img.apply ⟨pageMap,commit⟩) := by
  have hpost := h.stage_post hmap
  have hupd : (s.stage word pageMap commit).updates = _ := stage_updates hmap h.pageSize_eq
  generalize hst : s.stage word pageMap commit = st at hpost hupd ⊢
  have hcommit : st.commit = commit := by rw [← hst]; rfl
  generalize hbase : (if st.commit ≤ s.pages.length then s.pages.take st.commit
    else s.pages++replicate (st.commit-s.pages.length) 0) = base
  have hlen : base.length = commit := by
    rw [← hbase,hcommit]
    split_ifs with hle
    · exact length_take_of_le hle
    · rw [length_append,length_replicate]
      omega
  have hget : ∀ p,0 < p → p ≤ commit → base.getD (p-1) 0 = s.slot p := by
    intro p hpos hle
    rw [← hbase,hcommit,slot,getD_eq_getElem?_getD,getD_eq_getElem?_getD]
    split_ifs with hc
    · rw [getElem?_take_of_lt (by omega)]
    · rw [getElem?_append]
      split_ifs with hlt
      · rfl
      · rw [getElem?_replicate,getElem?_eq_none (by omega)]
        split_ifs <;> rfl
  have hpages : (st.commitTo s).pages =
      st.updates.foldl (fun pages u => pages.set (u.1-1) u.2) base := by rw [← hbase]; rfl
  have hkeys : ∀ u ∈ st.updates,0 < u.1 ∧ u.1 ≤ base.length := by
    intro u hu
    obtain ⟨e,he,rfl⟩ := mem_map.mp (hupd ▸ hu)
    rw [hlen]
    exact ⟨(hmap.present e he).1,(hmap.present e he).2.1⟩
  refine ⟨h.pageSize_eq,?_,fun p hpos => ?_,hpost⟩
  · rw [hpages,length_foldl_set,hlen]
    rfl
  · rw [slot,hpages]
    rcases Nat.lt_or_ge commit p with hlt | hle
    · have hzero : pageSlot word (img.apply ⟨pageMap,commit⟩) p = 0 := pageSlot_of_lt hlt
      rw [hzero,getD_eq_getElem?_getD,getElem?_eq_none (by rw [length_foldl_set,hlen]; omega)]
      rfl
    · rw [getD_foldl_set hkeys hpos,hupd]
      refine (overwrite_congr (g := s.slot) ?_).trans (overwrite_pageSlot hmap h.slot_eq hpos hle)
      exact hget p hpos hle

end ChecksumState

section Baseline

variable (img : Paged.Image (lockPgno pageSize) Bytes)

def imagePages : List (ℕ × Bytes) := (range' 1 img.commit).filterMap fun p => (img.page p).map (p,·)

/-- A snapshot of an image, with the state that its checksums start from. -/
def encodeBaseline (word : ChecksumPage) (img : Paged.Image (lockPgno pageSize) Bytes) (txid : ℕ) :
    LtxFile × ChecksumState :=
  let chksum := (imagePages img).foldl (fun sum e => flag ||| (sum ^^^ word e.1 e.2)) flag
  (⟨⟨pageSize,img.commit,1,txid,false,0⟩,imagePages img,chksum⟩,
    ⟨(range' 1 img.commit).map (pageSlot word img),pageSize,chksum⟩)

variable {img}

theorem mem_imagePages {e : ℕ × Bytes} : e ∈ imagePages img ↔ img.page e.1 = some e.2 := by
  constructor
  · intro h
    obtain ⟨p,-,hp⟩ := mem_filterMap.mp h
    obtain ⟨d,hd,rfl⟩ := Option.map_eq_some_iff.mp hp
    exact hd
  · intro h
    have hp : Present (lockPgno pageSize) img.commit e.1 := by
      by_contra hp
      exact absurd ((img.outside e.1 hp).symm.trans h) (Option.some_ne_none e.2).symm
    refine mem_filterMap.mpr ⟨e.1,mem_range'_1.mpr ⟨hp.1,?_⟩,by rw [h]; rfl⟩
    have := hp.2.1
    omega

theorem imagePages_ok : PageMapOK pageSize img.commit (imagePages img) where
  ascending := by
    refine pairwise_filterMap.mpr ((pairwise_lt_range' 1).imp fun hlt v hv w hw => ?_)
    obtain ⟨_,-,rfl⟩ := Option.map_eq_some_iff.mp hv
    obtain ⟨_,-,rfl⟩ := Option.map_eq_some_iff.mp hw
    exact hlt
  present := by
    intro e he
    by_contra hp
    exact Option.some_ne_none _ ((mem_imagePages.mp he).symm.trans (img.outside e.1 hp))

theorem apply_imagePages : Paged.Image.empty.apply ⟨imagePages img,img.commit⟩ = img := by
  refine Paged.Image.ext rfl (funext fun p => ?_)
  by_cases hp : Present (lockPgno pageSize) img.commit p
  · rw [Paged.Image.page_apply (w := ⟨imagePages img,img.commit⟩) hp]
    cases himg : img.page p with
    | some d => rw [imagePages_ok.ascending.lastWrite_eq_some (mem_imagePages (e := (p,d)).mpr himg)]; rfl
    | none =>
      cases hl : lastWrite (imagePages img) p with
      | none => rfl
      | some d => exact absurd ((mem_imagePages.mp (lastWrite_mem hl)).symm.trans himg) (Option.some_ne_none d)
  · exact (if_neg hp).trans (img.outside p hp).symm

theorem baseline_chksum (txid : ℕ) :
    (encodeBaseline word img txid).1.postApplyChecksum = rolling word img := by
  have h : _ = rolling word (Paged.Image.empty.apply ⟨imagePages img,img.commit⟩) :=
    rolling_apply (f := fun _ => 0) imagePages_ok fun _ _ => rfl
  rw [apply_imagePages,foldl_map] at h
  rw [← h]
  simp [encodeBaseline,rolling,Paged.Image.empty,XorSum.upTo]

theorem baseline_tracks (txid : ℕ) : (encodeBaseline word img txid).2.Tracks word img where
  pageSize_eq := rfl
  length_pages := by simp [encodeBaseline]
  slot_eq := by
    intro p hpos
    rw [ChecksumState.slot,getD_eq_getElem?_getD]
    rcases Nat.lt_or_ge img.commit p with hlt | hle
    · rw [pageSlot_of_lt hlt,getElem?_eq_none (by simp [encodeBaseline]; omega)]
      rfl
    · rw [encodeBaseline,getElem?_map,getElem?_range' (by omega)]
      exact congrArg (pageSlot word img) (by omega)
  chksum_eq := baseline_chksum txid

end Baseline

end Tracks

end Syzy
