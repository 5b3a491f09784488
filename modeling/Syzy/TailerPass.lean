import Syzy.Tailer

/-!
What a pass makes of the transactions behind its position: one patch, the merge of all of them.
-/

namespace Syzy

open List

open Paged

/-- The frames of a transaction; the last one carries the size. -/
def commitWrites (commit : ℕ) : List (ℕ × Bytes) → List WalWrite
  | [] => []
  | [e] => [(e.1,commit,e.2)]
  | e::e'::es => (e.1,0,e.2)::commitWrites commit (e'::es)

def walWrites (txns : List (Patch Bytes)) : List WalWrite :=
  txns.flatMap fun w => commitWrites w.commit w.pages

@[simp] theorem length_commitWrites (commit : ℕ) (pages : List (ℕ × Bytes)) :
    (commitWrites commit pages).length = pages.length := by
  induction pages using commitWrites.induct with
  | case1 | case2 => rfl
  | case3 e e' es ih => exact congrArg (·+1) ih

@[simp] theorem walWrites_append (xs ys : List (Patch Bytes)) :
    walWrites (xs++ys) = walWrites xs++walWrites ys := flatMap_append

@[simp] theorem length_walWrites (txns : List (Patch Bytes)) :
    (walWrites txns).length = (merge txns).pages.length := by
  simp [walWrites,length_flatMap]

section FrameScan

variable {h : WalHeader} {c : UInt32 × UInt32} {s : FrameScan}

theorem FrameScan.frame_of_uncommitted {f : WalFrame} (hf : f.commit = 0) :
    s.frame h f = { s with frameN := s.frameN+1,staged := s.staged++[(f.pgno,f.data)] } := by
  rw [FrameScan.frame]
  exact if_pos hf

theorem FrameScan.frame_of_commit {f : WalFrame} (hf : f.commit ≠ 0) :
    s.frame h f = ⟨s.frameN+1,s.staged++[(f.pgno,f.data)],s.commits+1,
      (s.staged++[(f.pgno,f.data)]).length,f.commit,walHeaderSize+(s.frameN+1)*h.frameSize,f.chksum⟩ := by
  rw [FrameScan.frame]
  exact if_neg hf

theorem scan_commitWrites {commit : ℕ} {pages : List (ℕ × Bytes)} (hc : commit ≠ 0) (hne : pages ≠ []) :
    (h.appendFrames c (commitWrites commit pages)).foldl (FrameScan.frame h) s =
      ⟨s.frameN+pages.length,s.staged++pages,s.commits+1,(s.staged++pages).length,commit,
        walHeaderSize+(s.frameN+pages.length)*h.frameSize,h.endChecksum c (commitWrites commit pages)⟩ := by
  induction pages using commitWrites.induct generalizing c s with
  | case1 => exact absurd rfl hne
  | case2 e =>
    exact FrameScan.frame_of_commit (f := h.frame c (e.1,commit,e.2)) hc
  | case3 e e' es ih =>
    have hframe : s.frame h (h.frame c (e.1,0,e.2)) =
        { s with frameN := s.frameN+1,staged := s.staged++[e] } := FrameScan.frame_of_uncommitted rfl
    have hlen : s.frameN+1+(e'::es).length = s.frameN+(e::e'::es).length := by
      rw [length_cons,length_cons,length_cons]
      omega
    rw [commitWrites,WalHeader.appendFrames,foldl_cons,hframe,ih (cons_ne_nil _ _)]
    rw [hlen,append_assoc]
    rfl

theorem scan_walWrites {txns : List (Patch Bytes)} {n : ℕ} (hne : txns ≠ [])
    (htx : ∀ w ∈ txns,w.commit ≠ 0 ∧ w.pages ≠ []) :
    (h.appendFrames c (walWrites txns)).foldl (FrameScan.frame h) (.start n) =
      ⟨n+(merge txns).pages.length,(merge txns).pages,txns.length,(merge txns).pages.length,
        (merge txns).commit,walHeaderSize+(n+(merge txns).pages.length)*h.frameSize,
        h.endChecksum c (walWrites txns)⟩ := by
  induction txns using reverseRecOn with
  | nil => exact absurd rfl hne
  | append_singleton txns w ih =>
    obtain ⟨hw,hp⟩ := htx w (mem_append_right _ mem_cons_self)
    have hsingle : walWrites [w] = commitWrites w.commit w.pages := append_nil _
    rw [walWrites_append,WalHeader.appendFrames_append,foldl_append,WalHeader.endChecksum_append,
      hsingle,scan_commitWrites hw hp,merge_append (cons_ne_nil w []),merge_singleton]
    by_cases hnil : txns = []
    · subst hnil
      simp [walWrites,WalHeader.appendFrames,FrameScan.start,Paged.merge,Patch.andThen]
    · rw [ih hnil fun v hv => htx v (mem_append_left _ hv)]
      simp [Patch.andThen,Nat.add_assoc]

theorem scan_uncommitted {fs : List WalFrame} (hfs : ∀ f ∈ fs,f.commit = 0) :
    ∃ n extra,fs.foldl (FrameScan.frame h) s = { s with frameN := n,staged := s.staged++extra } := by
  induction fs generalizing s with
  | nil => exact ⟨s.frameN,[],by simp⟩
  | cons f fs ih =>
    have hf := FrameScan.frame_of_uncommitted (h := h) (s := s) (hfs f mem_cons_self)
    obtain ⟨n,extra,heq⟩ := ih (s := s.frame h f) fun g hg => hfs g (mem_cons_of_mem _ hg)
    refine ⟨n,(f.pgno,f.data)::extra,?_⟩
    rw [foldl_cons,heq,hf]
    simp

end FrameScan

structure Position.At (h : WalHeader) (ws : List WalWrite) (pos : Position) : Prop where
  frameN : pos.frameN = ws.length
  zero : ws = [] → pos.IsZero
  salts : ws ≠ [] → pos.salt1 = h.salt1 ∧ pos.salt2 = h.salt2
  offset : ws ≠ [] → pos.offset = walHeaderSize+ws.length*h.frameSize

section Pass

variable {h : WalHeader} {ws vs : List WalWrite} {pos : Position} {tail : List WalFrame}

theorem WalHeader.frameSize_pos : 0 < h.frameSize := Nat.succ_pos _

theorem Position.At.not_isZero (hat : pos.At h ws) (hne : ws ≠ []) : ¬pos.IsZero := by
  intro hz
  have := hat.offset hne
  rw [hz.1,walHeaderSize] at this
  omega

theorem appendFrames_concat (c : UInt32 × UInt32) (w : WalWrite) :
    h.appendFrames c (ws++[w]) = h.appendFrames c ws++[h.frame (h.endChecksum c ws) w] :=
  WalHeader.appendFrames_append ws [w]

theorem newWALReaderWithOffset_at (hat : pos.At h ws) (hne : ws ≠ []) :
    newWALReaderWithOffset ⟨some h,h.appendFrames h.chksum (ws++vs)++tail⟩ pos.offset pos.salt1 pos.salt2 =
      .ok ⟨h,ws.length,h.endChecksum h.chksum ws,
        h.appendFrames (h.endChecksum h.chksum ws) vs++tail⟩ := by
  obtain ⟨hs1,hs2⟩ := hat.salts hne
  obtain ⟨us,w,rfl⟩ := eq_nil_or_concat' ws |>.resolve_left hne
  have hpos := h.frameSize_pos
  have hoff := hat.offset hne
  have hlen : (us++[w]).length = us.length+1 := by simp
  rw [hlen] at hoff
  have hsub : pos.offset-walHeaderSize = (us.length+1)*h.frameSize := by omega
  have hgt : ¬pos.offset ≤ walHeaderSize := by
    have : 0 < (us.length+1)*h.frameSize := Nat.mul_pos (Nat.succ_pos _) hpos
    omega
  have hdrop : (h.appendFrames h.chksum (us++[w]++vs)++tail).drop us.length =
      h.frame (h.endChecksum h.chksum us) w::(h.appendFrames (h.endChecksum h.chksum (us++[w])) vs++tail) := by
    rw [WalHeader.appendFrames_append,appendFrames_concat,append_assoc,append_assoc,
      drop_append_of_le_length (by simp),drop_of_length_le (by simp)]
    rfl
  rw [newWALReaderWithOffset,if_neg hgt]
  dsimp only
  rw [hs1,hs2,if_neg (by simp),hsub,Nat.mul_mod_left,if_neg (fun hz => hz rfl),
    Nat.mul_div_cancel _ hpos,Nat.add_sub_cancel,hdrop]
  have hread : (⟨h,us.length,h.chksum,h.frame (h.endChecksum h.chksum us) w::
      (h.appendFrames (h.endChecksum h.chksum (us++[w])) vs++tail)⟩ : WALReader).readFrame false =
      some (h.frame (h.endChecksum h.chksum us) w,⟨h,us.length+1,
        (h.frame (h.endChecksum h.chksum us) w).chksum,
        h.appendFrames (h.endChecksum h.chksum (us++[w])) vs++tail⟩) := by
    rw [WALReader.readFrame]
    exact (if_neg fun hsalt => hsalt ⟨rfl,rfl⟩).trans (if_neg fun hv => Bool.noConfusion hv.1)
  rw [hread,WalHeader.endChecksum_append,hlen]
  rfl

theorem Tailer.openReader_at (vs : List WalWrite) (tail : List WalFrame) (hat : pos.At h ws) :
    Tailer.openReader ⟨some h,h.appendFrames h.chksum (ws++vs)++tail⟩ pos =
      .ok (some (⟨h,ws.length,h.endChecksum h.chksum ws,
        h.appendFrames (h.endChecksum h.chksum ws) vs++tail⟩,
        { pos with salt1 := h.salt1,salt2 := h.salt2 })) := by
  rw [Tailer.openReader]
  by_cases hne : ws = []
  · subst hne
    rw [if_pos (hat.zero rfl)]
    rfl
  · rw [if_neg (hat.not_isZero hne),newWALReaderWithOffset_at hat hne,← (hat.salts hne).1,
      ← (hat.salts hne).2]

/-- What stands in the log behind the transactions has no commit. -/
def Uncommitted (h : WalHeader) (txns : List (Patch Bytes)) (tail : List WalFrame) : Prop :=
  ∀ f ∈ readFrames h (h.endChecksum h.chksum (walWrites txns)) tail,f.commit = 0

instance (h : WalHeader) (txns : List (Patch Bytes)) (tail : List WalFrame) :
    Decidable (Uncommitted h txns tail) := inferInstanceAs (Decidable (∀ f ∈ _,_))

variable {xs ys : List (Patch Bytes)}

/-- The log with the transactions and what stands behind them. -/
def walFile (h : WalHeader) (txns : List (Patch Bytes)) (tail : List WalFrame) : WalFile :=
  ⟨some h,h.appendFrames h.chksum (walWrites txns)++tail⟩

theorem scan_at (xs ys : List (Patch Bytes)) (tail : List WalFrame)
    (htail : Uncommitted h (xs++ys) tail) (htx : ∀ w ∈ ys,w.commit ≠ 0 ∧ w.pages ≠ []) :
    let S := (⟨h,(walWrites xs).length,h.endChecksum h.chksum (walWrites xs),
      h.appendFrames (h.endChecksum h.chksum (walWrites xs)) (walWrites ys)++tail⟩ : WALReader).scan
    S.commits = ys.length ∧ (ys ≠ [] → S.pageMap = (merge ys).trim.pages ∧
      S.lastCommit = (merge ys).commit ∧ S.committedFrames = (walWrites ys).length ∧
      S.lastNextOffset = walHeaderSize+(walWrites (xs++ys)).length*h.frameSize) := by
  intro S
  have hS : S = _ := congrArg (foldl (FrameScan.frame h) (.start (walWrites xs).length))
    (WalHeader.readFrames_appendFrames (walWrites ys) tail)
  rw [Uncommitted,walWrites_append,WalHeader.endChecksum_append] at htail
  rw [foldl_append] at hS
  obtain ⟨n,extra,htl⟩ := scan_uncommitted (h := h) (s := (h.appendFrames
    (h.endChecksum h.chksum (walWrites xs)) (walWrites ys)).foldl (FrameScan.frame h)
      (.start (walWrites xs).length)) htail
  rw [htl] at hS
  by_cases hne : ys = []
  · subst hne
    exact ⟨by rw [hS]; rfl,fun hne => absurd rfl hne⟩
  · rw [scan_walWrites hne htx] at hS
    refine ⟨by rw [hS],fun _ => ⟨?_,by rw [hS],by rw [hS,length_walWrites ys],?_⟩⟩
    · rw [hS]
      simp only [FrameScan.pageMap,take_left]
      rfl
    · rw [hS,walWrites_append,length_append,length_walWrites ys]

theorem Position.At.setTxid (hat : pos.At h ws) (txid : ℕ) : ({ pos with txid } : Position).At h ws :=
  ⟨hat.frameN,hat.zero,hat.salts,hat.offset⟩

section SyncFrom

variable {word : ChecksumPage} {t : Tailer} {expect : Option (UInt32 × UInt32)}

theorem expected {h : WalHeader} (hexp : ∀ e ∈ expect,e = (h.salt1,h.salt2)) :
    ¬(expect.isSome = true ∧ expect ≠ some (h.salt1,h.salt2)) := by
  cases expect with
  | none => exact fun hn => Bool.noConfusion hn.1
  | some e => exact fun hn => hn.2 (congrArg some (hexp e rfl))

/-- What a pass makes of the transactions `ys` behind its position, which ends at `pos`. -/
def Tailer.shipping (word : ChecksumPage) (t : Tailer) (pageSize : ℕ) (ys : List (Patch Bytes))
    (pos : Position) (draw : ℕ → ℕ) : SyncPass :=
  if (merge ys).trim.pages = [] then .skip ⟨pos,(attest word t.ck [] (merge ys).commit).2.2⟩
  else
    let ck := t.ck.filter fun ck => ck.pageSize = pageSize
    let att := attest word ck (merge ys).trim.pages (merge ys).commit
    match encodeIncremental (merge ys).trim.pages
        ⟨pageSize,(merge ys).commit,draw 0,draw (ys.length-1),ck.isNone,att.1⟩ att.2.1 with
    | .error e => .failed (.encode e) ys.length ⟨t.pos,ck⟩
    | .ok f => .ship f ys.length ⟨t.pos,ck⟩ ⟨{ pos with txid := draw (ys.length-1) },att.2.2⟩

theorem Tailer.syncFrom_idle (draw : ℕ → ℕ) (hat : pos.At h (walWrites xs))
    (htail : Uncommitted h xs tail) (hexp : ∀ e ∈ expect,e = (h.salt1,h.salt2)) :
    t.syncFrom word (some (walFile h xs tail)) pos expect draw = .idle := by
  obtain ⟨hcommits,-⟩ := scan_at (h := h) xs [] tail (by rwa [append_nil])
    fun _ hw => absurd hw not_mem_nil
  have hopen := Tailer.openReader_at [] tail hat
  rw [append_nil] at hopen
  rw [Tailer.syncFrom,walFile,hopen]
  dsimp only
  rw [if_neg (expected hexp)]
  split_ifs
  · rfl
  · exact if_pos hcommits

variable (word t) in
theorem Tailer.syncFrom_at (draw : ℕ → ℕ) (hps : h.pageSize ≠ 0) (hat : pos.At h (walWrites xs))
    (htail : Uncommitted h (xs++ys) tail) (hne : ys ≠ []) (htx : ∀ w ∈ ys,w.commit ≠ 0 ∧ w.pages ≠ [])
    (hexp : ∀ e ∈ expect,e = (h.salt1,h.salt2)) :
    ∃ pos' : Position,pos'.At h (walWrites (xs++ys)) ∧
      t.syncFrom word (some (walFile h (xs++ys) tail)) pos expect draw =
        t.shipping word h.pageSize ys pos' draw := by
  obtain ⟨hcommits,hmap⟩ := scan_at xs ys tail htail htx
  obtain ⟨hmap,hlast,hframes,hnext⟩ := hmap hne
  generalize hS : (⟨h,(walWrites xs).length,h.endChecksum h.chksum (walWrites xs),
    h.appendFrames (h.endChecksum h.chksum (walWrites xs)) (walWrites ys)++tail⟩ : WALReader).scan = S
    at hcommits hmap hlast hframes hnext
  have hwne : walWrites (xs++ys) ≠ [] := by
    obtain ⟨w,hw⟩ := exists_mem_of_ne_nil ys hne
    intro hnil
    rw [walWrites_append,append_eq_nil_iff] at hnil
    have hw' := flatMap_eq_nil_iff.mp hnil.2 w hw
    have hlen := congrArg length hw'
    rw [length_commitWrites] at hlen
    exact (htx w hw).2 (length_eq_zero_iff.mp hlen)
  refine ⟨advance { pos with salt1 := h.salt1,salt2 := h.salt2 } S,
    ⟨?_,fun hnil => absurd hnil hwne,fun _ => ⟨rfl,rfl⟩,fun _ => hnext⟩,?_⟩
  · show pos.frameN+S.committedFrames = _
    rw [hat.frameN,hframes,walWrites_append,length_append]
  · have hopen := Tailer.openReader_at (walWrites ys) tail hat
    rw [← walWrites_append] at hopen
    rw [Tailer.syncFrom,walFile,hopen]
    dsimp only
    rw [if_neg (expected hexp),if_neg hps,hS,Tailer.emit]
    rw [if_neg (by rw [hcommits]; exact fun hz => hne (length_eq_zero_iff.mp hz)),hmap,hlast,
      hcommits]
    rfl

end SyncFrom

theorem Tailer.sync_idle {word : ChecksumPage} {t : Tailer} {draw : ℕ → ℕ}
    (hat : t.pos.At h (walWrites xs)) (htail : Uncommitted h xs tail) :
    t.sync word (some (walFile h xs tail)) draw = .idle :=
  syncFrom_idle draw hat htail fun _ he => absurd he (by simp)

theorem Tailer.sync_at (word : ChecksumPage) {t : Tailer} (draw : ℕ → ℕ) (hps : h.pageSize ≠ 0)
    (hat : t.pos.At h (walWrites xs)) (htail : Uncommitted h (xs++ys) tail) (hne : ys ≠ [])
    (htx : ∀ w ∈ ys,w.commit ≠ 0 ∧ w.pages ≠ []) :
    ∃ pos : Position,pos.At h (walWrites (xs++ys)) ∧
      t.sync word (some (walFile h (xs++ys) tail)) draw = t.shipping word h.pageSize ys pos draw :=
  syncFrom_at _ _ draw hps hat htail hne htx fun _ he => absurd he (by simp)

end Pass

end Syzy
