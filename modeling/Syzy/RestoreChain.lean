import Syzy.ExceptFold
import Syzy.PhysicalRestore

/-!
A chain of files whose attestations are those of the images they lead to is restored to the last of
these images.
-/

namespace Syzy

open Function List

open Paged XorSum

section Materialized

variable {word : ChecksumPage} {pageSize : ℕ} {img : Paged.Image (lockPgno pageSize) Bytes}
  {dst : DbFile} {v : ChainVerifier}

/-- The file holds the image, and the verifier knows its checksum. -/
structure Materialized (word : ChecksumPage) (img : Paged.Image (lockPgno pageSize) Bytes)
    (st : DbFile × ChainVerifier) : Prop where
  full : img.Full
  pos : pageSize ≠ 0
  file_pageSize : st.1.pageSize = pageSize
  size : img.commit ≤ st.1.size
  page : ∀ p d,img.page p = some d → st.1.page p = d
  pageSize_eq : st.2.pageSize = pageSize
  commit : st.2.commit = img.commit
  running : st.2.running = rolling word img
  valid : st.2.valid = true

theorem Materialized.readPageAt (h : Materialized word img (dst,v)) {p : ℕ}
    (hp : Present (lockPgno pageSize) img.commit p) :
    ∃ d,dst.readPageAt p = some d ∧ pageSlot word img p = word p d := by
  obtain ⟨d,hd⟩ := Paged.Image.Full.exists_page h.full hp
  refine ⟨d,?_,by rw [pageSlot,hd]; rfl⟩
  rw [DbFile.readPageAt,if_pos (hp.2.1.trans h.size),h.page p d hd]

theorem xor_exchange (x a b : Checksum) : x ^^^ (b ^^^ a) = x ^^^ a ^^^ b := by
  rw [UInt64.xor_comm b,UInt64.xor_assoc]

theorem readPageAt_writeAt {p q : ℕ} {d : Bytes} (hlt : p < q) :
    (dst.writeAt p d).readPageAt q = dst.readPageAt q := by
  have hpage : (dst.writeAt p d).page q = dst.page q := update_of_ne (Nat.ne_of_gt hlt) _ _
  have hsize : q ≤ (dst.writeAt p d).size ↔ q ≤ dst.size := by
    show q ≤ max dst.size p ↔ q ≤ dst.size
    omega
  simp only [DbFile.readPageAt,hpage,hsize]

theorem foldl_writeAt (dst : DbFile) (pages : List (ℕ × Bytes)) :
    (∀ p,(pages.foldl (fun dst e => dst.writeAt e.1 e.2) dst).page p =
      (lastWrite pages p).getD (dst.page p)) ∧
    dst.size ≤ (pages.foldl (fun dst e => dst.writeAt e.1 e.2) dst).size ∧
    (∀ e ∈ pages,e.1 ≤ (pages.foldl (fun dst e => dst.writeAt e.1 e.2) dst).size) ∧
    (pages.foldl (fun dst e => dst.writeAt e.1 e.2) dst).pageSize = dst.pageSize := by
  induction pages generalizing dst with
  | nil => exact ⟨fun _ => rfl,Nat.le_refl _,by simp,rfl⟩
  | cons e pages ih =>
    obtain ⟨hpage,hsize,hmem,hps⟩ := ih (dst.writeAt e.1 e.2)
    refine ⟨fun p => ?_,Nat.le_trans (Nat.le_max_left _ _) hsize,fun e' he' => ?_,hps⟩
    · rw [foldl_cons,hpage,lastWrite]
      cases hl : lastWrite pages p with
      | some d => rfl
      | none =>
        by_cases hp : e.1 = p
        · rw [if_pos hp,← hp]
          exact update_self ..
        · rw [if_neg hp]
          exact update_of_ne (Ne.symm hp) _ _
    · rcases mem_cons.mp he' with rfl | he'
      · exact Nat.le_trans (Nat.le_max_right _ _) hsize
      · exact hmem e' he'

variable {entries : List LtxFile} {f : ℕ → Checksum} {skips : Bool}

theorem decodePages_eq (dst : DbFile) (v : ChainVerifier) {pages : List (ℕ × Bytes)}
    (hasc : Ascending pages) (hlock : ∀ e ∈ pages,e.1 ≠ lockPgno v.pageSize)
    (hvalid : v.valid = true) (hold : ∀ e ∈ pages,f e.1 =
      if e.1 ≤ v.commit then (dst.readPageAt e.1).elim 0 (word e.1) else 0) :
    decodePages word pages (dst,v) = (pages.foldl (fun dst e => dst.writeAt e.1 e.2) dst,
        v.setRunning ((pages.map fun e => (e.1,word e.1 e.2)).foldl
          (fun x u => flag ||| (x ^^^ f u.1 ^^^ u.2)) v.running)) := by
  induction pages generalizing dst v with
  | nil => rfl
  | cons e pages ih =>
    obtain ⟨he,hpages⟩ := pairwise_cons.mp hasc
    have hobs : v.observePage word dst e.1 e.2 =
        v.setRunning (flag ||| (v.running ^^^ f e.1 ^^^ word e.1 e.2)) := by
      have hne := hlock e mem_cons_self
      have hf := hold e mem_cons_self
      unfold ChainVerifier.observePage
      rw [if_neg (by simp [hvalid,hne])]
      dsimp only
      congr 2
      by_cases hle : e.1 ≤ v.commit
      · rw [if_pos hle] at hf ⊢
        cases hread : dst.readPageAt e.1 with
        | none =>
          rw [hread] at hf
          rw [hf]
          exact (congrArg (· ^^^ _) (UInt64.xor_zero)).symm
        | some old =>
          rw [hread] at hf
          rw [hf]
          exact xor_exchange _ _ _
      · rw [if_neg hle] at hf ⊢
        rw [hf,UInt64.xor_zero]
    rw [decodePages,foldl_cons,hobs]
    refine (ih (dst.writeAt e.1 e.2)
      (v.setRunning (flag ||| (v.running ^^^ f e.1 ^^^ word e.1 e.2))) hpages
      (fun e' he' => hlock e' (mem_cons_of_mem _ he')) hvalid fun e' he' => ?_).trans rfl
    rw [hold e' (mem_cons_of_mem _ he')]
    rw [readPageAt_writeAt (he e' he')]
    rfl

theorem dropPages_eq {commit : ℕ} {x : Checksum} (hrun : v.running = flag ||| x)
    (hold : ∀ p,commit < p → p ≤ v.commit → f p =
      if p = lockPgno v.pageSize then 0 else (dst.readPageAt p).elim 0 (word p)) :
    v.dropPages word dst commit = v.setRunning ((range' (commit+1) (v.commit-commit)).foldl
        (fun post p => flag ||| (post ^^^ f p)) v.running) := by
  have hmem : ∀ p ∈ range' (commit+1) (v.commit-commit),commit < p ∧ p ≤ v.commit := by
    intro p hp
    rw [mem_range'_1] at hp
    omega
  unfold ChainVerifier.dropPages
  generalize range' (commit+1) (v.commit-commit) = ps at hmem ⊢
  induction ps generalizing v x with
  | nil => rfl
  | cons p ps ih =>
    obtain ⟨hlt,hle⟩ := hmem p mem_cons_self
    have hf := hold p hlt hle
    have hstep : (if p = lockPgno v.pageSize then v
        else (dst.readPageAt p).elim v fun old =>
          v.setRunning (flag ||| (v.running ^^^ word p old))) =
        v.setRunning (flag ||| (v.running ^^^ f p)) := by
      have hzero : v = v.setRunning (flag ||| (v.running ^^^ 0)) := by
        rw [hrun,flag_xor,UInt64.xor_zero,← hrun]
        rfl
      by_cases hp : p = lockPgno v.pageSize
      · rw [if_pos hp] at hf ⊢
        rwa [hf]
      · rw [if_neg hp] at hf ⊢
        rw [hf]
        cases dst.readPageAt p with
        | none => exact hzero
        | some old => rfl
    rw [foldl_cons,hstep,foldl_cons]
    exact ih (v := v.setRunning (flag ||| (v.running ^^^ f p))) rfl hold
      fun q hq => hmem q (mem_cons_of_mem _ hq)

/-- The file attests the image that it leads to. -/
structure Attests (word : ChecksumPage) (skips : Bool) (img : Paged.Image (lockPgno pageSize) Bytes)
    (f : LtxFile) : Prop where
  pageSize_eq : f.header.pageSize = pageSize
  checksums : f.header.noChecksum = false
  pages : PageMapOK pageSize f.header.commit f.pages
  complete : f.patch.Complete skips img
  post : f.postApplyChecksum = rolling word (img.apply f.patch)

/-- The verifier has just seen the attestation of its own state. -/
structure Settled (st : DbFile × ChainVerifier) : Prop where
  hasFinal : st.2.hasFinal = true
  finalPost : st.2.finalPost = st.2.running
  enforced : st.2.aligned = true ∨ st.2.finalIsSelf = true

section

variable (h : Materialized word img (dst,v))
include h

theorem Materialized.checkPreApply (hdr : LtxHeader) :
    Materialized word img (dst,v.checkPreApply hdr) := by
  unfold ChainVerifier.checkPreApply
  split_ifs
  · exact ⟨h.full,h.pos,h.file_pageSize,h.size,h.page,h.pageSize_eq,h.commit,h.running,h.valid⟩
  · exact h

theorem Materialized.writePages {f : LtxFile} (hf : Attests word skips img f) :
    ∃ dst' r,decodePages word f.pages (dst,v) = (dst',v.setRunning r) ∧
      (v.setRunning r).dropPages word dst' f.header.commit =
        v.setRunning (rolling word (img.apply f.patch)) ∧
      dst'.pageSize = pageSize ∧ f.header.commit ≤ dst'.size ∧
      ∀ p d,(img.apply f.patch).page p = some d → dst'.page p = d := by
  obtain ⟨hpage,hsize,hmem,hps⟩ := foldl_writeAt dst f.pages
  refine ⟨_,_,decodePages_eq dst v (f := pageSlot word img) hf.pages.ascending ?_ h.valid ?_,?_,
    hps.trans h.file_pageSize,?_,?_⟩
  · intro e he
    rw [show v.pageSize = pageSize from h.pageSize_eq]
    exact (hf.pages.present e he).2.2
  · intro e he
    obtain ⟨hpos,-,hlock⟩ := hf.pages.present e he
    rw [show v.commit = img.commit from h.commit]
    split_ifs with hle
    · obtain ⟨d,hd,hs⟩ := h.readPageAt ⟨hpos,hle,hlock⟩
      rw [hd,hs]
      rfl
    · exact pageSlot_of_lt (not_le.mp hle)
  · obtain ⟨x,hx⟩ := foldl_flagged (g := fun x u => x ^^^ pageSlot word img u.1 ^^^ u.2)
      (XorSum.upTo (pageSlot word img) img.commit) (f.pages.map fun e => (e.1,word e.1 e.2))
    have hrun : v.running = rolling word img := h.running
    rw [dropPages_eq (f := pageSlot word img) (x := x) (by rw [hrun]; exact hx)]
    · have hcommit : (v.setRunning ((f.pages.map fun e => (e.1,word e.1 e.2)).foldl
          (fun x u => flag ||| (x ^^^ pageSlot word img u.1 ^^^ u.2)) v.running)).commit =
          img.commit := h.commit
      have hroll : _ = rolling word (img.apply f.patch) :=
        rolling_apply hf.pages (f := pageSlot word img) fun _ _ => rfl
      rw [hcommit]
      refine congrArg v.setRunning (Eq.trans ?_ hroll)
      rw [← hrun]
      rfl
    · intro p hlt hle
      have hle' : p ≤ img.commit := h.commit ▸ hle
      have hlock : lockPgno pageSize = lockPgno v.pageSize := by rw [← h.pageSize_eq]
      split_ifs with hp
      · rw [pageSlot,img.outside p fun hq => hq.2.2 (hp.trans hlock.symm)]
        rfl
      · have hpres : Present (lockPgno pageSize) img.commit p :=
          ⟨Nat.zero_lt_of_lt hlt,hle',fun hq => hp (hq.trans hlock)⟩
        obtain ⟨d,hd⟩ := Paged.Image.Full.exists_page h.full hpres
        have hnone : lastWrite f.pages p = none := by
          by_contra hne
          obtain ⟨e,he,rfl⟩ := lastWrite_ne_none_iff.mp hne
          exact absurd (hf.pages.present e he).2.1 (Nat.not_le_of_lt hlt)
        rw [DbFile.readPageAt,if_pos (Nat.le_trans hle' (h.size.trans hsize)),hpage,hnone,
          pageSlot,hd]
        exact (congrArg (word p) (h.page p d hd)).symm
  · rcases Nat.lt_or_ge img.commit f.header.commit with hlt | hge
    · obtain ⟨e,he,hcommit⟩ := lastWrite_ne_none_iff.mp (hf.complete.last_written hlt)
      exact Nat.le_trans (Nat.le_of_eq hcommit.symm) (hmem e he)
    · exact Nat.le_trans hge (h.size.trans hsize)
  · intro p d hd
    have hp : Present (lockPgno pageSize) f.patch.commit p := by
      by_contra hp
      exact Option.some_ne_none d (hd.symm.trans ((img.apply f.patch).outside p hp))
    rw [Paged.Image.page_apply hp,Option.or_eq_some_iff] at hd
    rw [hpage]
    rcases hd with hd | ⟨hnone,hd⟩
    · rw [show lastWrite f.pages p = some d from hd]
      rfl
    · rw [show lastWrite f.pages p = none from hnone]
      exact h.page p d hd

theorem Materialized.decodeIncrement {f : LtxFile} (hf : Attests word skips img f) :
    ∃ st,decodeIncrement word (dst,v) f = .ok st ∧
      Materialized word (img.apply f.patch) st ∧ Settled st := by
  have hbegin : v.beginFile f.header = .ok v := by
    have hps : v.pageSize = pageSize := h.pageSize_eq
    rw [ChainVerifier.beginFile,hps,if_neg h.pos,hf.pageSize_eq,if_neg (fun hne => hne rfl)]
  have hseed : v.ensureSeeded word dst = .ok v := if_pos h.valid
  have hw := h.checkPreApply f.header
  obtain ⟨dst',r,hpages,hdrop,hps,hsize,hpage⟩ := hw.writePages hf
  generalize hv : v.checkPreApply f.header = w at hw hpages hdrop
  have hend : ∃ v',(w.setRunning r).endFile word dst' f true = .ok v' ∧
      v'.pageSize = w.pageSize ∧ v'.commit = f.header.commit ∧
      v'.running = rolling word (img.apply f.patch) ∧ v'.valid = true ∧
      v'.aligned = true ∧ v'.hasFinal = true ∧ v'.finalPost = f.postApplyChecksum := by
    have hvalid : (w.setRunning r).valid = true := hw.valid
    have hvalid' : w.valid = true := hw.valid
    rw [ChainVerifier.endFile,if_pos hvalid,hdrop]
    simp [ChainVerifier.setRunning,hvalid',hf.post]
  obtain ⟨v',hend,hvps,hcommit,hrun,hvalid,haligned,hfinal,hpost⟩ := hend
  refine ⟨(dst',v'),?_,⟨hf.complete.full h.full,h.pos,hps,hsize,hpage,hvps.trans hw.pageSize_eq,hcommit,
    hrun,hvalid⟩,⟨hfinal,hpost.trans (hf.post.trans hrun.symm),.inl haligned⟩⟩
  have hseed' : (v.ensureSeeded word dst).map (·.checkPreApply f.header) = .ok w := by
    rw [hseed,← hv]
    rfl
  rw [Syzy.decodeIncrement,hbegin,hf.checksums]
  simp [bind,Except.bind,pure,Except.pure,hseed',hpages,hend]

end

theorem decodeSnapshot_baseline (word : ChecksumPage) (hpos : pageSize ≠ 0) (hfull : img.Full)
    (txid : ℕ) :
    ∃ st,decodeSnapshot word (encodeBaseline word img txid).1 .start = .ok st ∧
      Materialized word img st ∧ Settled st := by
  obtain ⟨hpage,-,-,hps⟩ := foldl_writeAt (.create pageSize) (imagePages img)
  have hpost : (encodeBaseline word img txid).1.postApplyChecksum = _ := baseline_chksum txid
  generalize hdst : (imagePages img).foldl (fun dst e => dst.writeAt e.1 e.2) (DbFile.create pageSize) =
    dst at hpage hps
  refine ⟨(dst.truncate img.commit,
    ({ ChainVerifier.start with pageSize }).adoptSnapshot (encodeBaseline word img txid).1 true),
    ?_,⟨hfull,hpos,hps,Nat.le_refl _,fun p d hd => ?_,rfl,rfl,hpost,rfl⟩,⟨rfl,rfl,.inr rfl⟩⟩
  · simp [decodeSnapshot,ChainVerifier.beginFile,ChainVerifier.start,encodeBaseline,
      LtxHeader.IsSnapshot,bind,Except.bind,pure,Except.pure,hdst]
  · have hp : Present (lockPgno pageSize) img.commit p := by
      by_contra hp
      exact Option.some_ne_none d (hd.symm.trans (img.outside p hp))
    refine (if_pos hp.2.1).trans ?_
    rw [hpage,imagePages_ok.ascending.lastWrite_eq_some (mem_imagePages (e := (p,d)).mpr hd)]
    rfl

theorem Materialized.checksumFilePages (h : Materialized word img (dst,v)) :
    dst.checksumFilePages word img.commit = .ok (rolling word img) := by
  have hps : dst.pageSize = pageSize := h.file_pageSize
  have hstart : flag = flag ||| XorSum.upTo (pageSlot word img) 0 := UInt64.or_zero.symm
  rw [DbFile.checksumFilePages,rolling]
  nth_rewrite 2 [hstart]
  refine ExceptFold.foldlM_range_ok (g := fun n => flag ||| XorSum.upTo (pageSlot word img) n)
    img.commit fun n hn => ?_
  by_cases hl : n+1 = lockPgno pageSize
  · have hslot : pageSlot word img (n+1) = 0 := by
      rw [pageSlot,img.outside _ fun hp => hp.2.2 hl]
      rfl
    rw [XorSum.upTo,hslot,UInt64.xor_zero]
    simp [hps,hl]
  · obtain ⟨d,hd,hs⟩ := h.readPageAt ⟨Nat.succ_pos n,hn,hl⟩
    simp [hps,hl,hd,XorSum.upTo,hs,flag_xor]

/-- Every file of the chain attests the image that it leads to. -/
abbrev AttestedChain (word : ChecksumPage) (skips : Bool) :
    Paged.Image (lockPgno pageSize) Bytes → List LtxFile → Prop :=
  Machine.Permitted (fun img f => img.apply f.patch) (Attests word skips)

theorem Materialized.applyEntries {st : DbFile × ChainVerifier}
    (hchain : AttestedChain word skips img entries) (h : Materialized word img st)
    (hs : Settled st) :
    ∃ st',entries.foldlM (Syzy.decodeIncrement word) st = .ok st' ∧
      Materialized word (entries.foldl (fun img f => img.apply f.patch) img) st' ∧
      Settled st' := by
  induction entries generalizing img st with
  | nil => exact ⟨st,rfl,h,hs⟩
  | cons f entries ih =>
    obtain ⟨hf,hchain⟩ := hchain
    obtain ⟨st₁,hst₁,h₁,hs₁⟩ := Materialized.decodeIncrement h hf
    obtain ⟨st₂,hst₂,h₂⟩ := ih hchain h₁ hs₁
    refine ⟨st₂,?_,h₂⟩
    rw [foldlM_cons,hst₁]
    exact hst₂

theorem Materialized.image_eq (h : Materialized word img (dst,v)) (hsize : dst.size = img.commit) :
    dst.image pageSize = img := by
  refine Paged.Image.ext hsize (funext fun p => ?_)
  by_cases hp : Present (lockPgno pageSize) img.commit p
  · obtain ⟨d,hd⟩ := Paged.Image.Full.exists_page h.full hp
    rw [hd,← h.page p d hd]
    exact if_pos (hsize ▸ hp)
  · rw [img.outside p hp]
    exact if_neg (hsize ▸ hp)

theorem Materialized.verifySize (h : Materialized word img (dst,v)) (hcommit : 0 < img.commit)
    {hdr : LtxHeader} (hhdr : hdr.commit = img.commit) (hps : hdr.pageSize = pageSize) :
    ∃ dst',verifyMaterializedSize dst hdr = .ok dst' ∧ Materialized word img (dst',v) ∧
      dst'.image pageSize = img := by
  have hsize : img.commit ≤ dst.size := h.size
  have hpos := h.pos
  rw [verifyMaterializedSize,if_neg (by rw [hhdr,hps]; omega),if_neg (by omega),hhdr]
  split_ifs with hlt
  · have htrunc : Materialized word img (dst.truncate img.commit,v) := by
      refine ⟨h.full,h.pos,h.file_pageSize,Nat.le_refl _,fun p d hd => ?_,h.pageSize_eq,h.commit,
        h.running,h.valid⟩
      refine (if_pos ?_).trans (h.page p d hd)
      by_contra hle
      exact Option.some_ne_none d (hd.symm.trans (img.outside p fun hp => hle hp.2.1))
    exact ⟨_,rfl,htrunc,htrunc.image_eq rfl⟩
  · exact ⟨_,rfl,h,h.image_eq (by omega)⟩

theorem AttestedChain.last_header (txid : ℕ) (hcommit : 0 < img.commit)
    (hchain : AttestedChain word skips img entries) :
    let last := (entries.getLast?).getD (encodeBaseline word img txid).1
    let final := entries.foldl (fun img f => img.apply f.patch) img
    last.header.commit = final.commit ∧ last.header.pageSize = pageSize ∧ 0 < final.commit := by
  induction entries using reverseRecOn with
  | nil => exact ⟨rfl,rfl,hcommit⟩
  | append_singleton entries f _ =>
    obtain ⟨-,hf,-⟩ := Machine.permitted_append.mp hchain
    rw [getLast?_append,foldl_append]
    exact ⟨rfl,hf.pageSize_eq,hf.complete.pos⟩

theorem materializeChain_ok (hpos : pageSize ≠ 0) (hfull : img.Full) (hcommit : 0 < img.commit)
    (txid : ℕ) (hchain : AttestedChain word skips img entries)
    (htxids : verifyChainTXIDs none entries = .ok ()) :
    ∃ dst,materializeChain word (encodeBaseline word img txid).1 entries = .ok dst ∧
      dst.image pageSize = entries.foldl (fun img f => img.apply f.patch) img := by
  obtain ⟨st,hst,h,hs⟩ := decodeSnapshot_baseline word hpos hfull txid
  obtain ⟨st',hst',h',hs'⟩ := h.applyEntries hchain hs
  obtain ⟨hhdr,hps,hcommit'⟩ := AttestedChain.last_header txid hcommit hchain
  obtain ⟨dst,hdst,hm,himage⟩ := Materialized.verifySize h' hcommit' hhdr hps
  have hfinal : st'.2.verifyFinal word dst = .ok () := by
    have hsum := hm.checksumFilePages
    have hcommit : st'.2.commit = _ := hm.commit
    have hrun : st'.2.running = _ := hm.running
    rw [ChainVerifier.verifyFinal,if_neg,hcommit,hsum]
    · exact if_pos (hrun.symm.trans hs'.finalPost.symm)
    · rintro (hf | ⟨ha,hi⟩)
      · exact Bool.noConfusion (hf.symm.trans hs'.hasFinal)
      · rcases hs'.enforced with he | he
        · exact Bool.noConfusion (ha.symm.trans he)
        · exact Bool.noConfusion (hi.symm.trans he)
  refine ⟨dst,?_,himage⟩
  rw [materializeChain,hst]
  simp only [bind,Except.bind,htxids,hst',hdst,hfinal]
  rfl

end Materialized

end Syzy
