import Syzy.TailedLog

/-!
A tailer at a position loses no transaction, however the steps of a recycle and those of other
connections are mixed.
-/

namespace Syzy

open List WalLog Tailer

open Paged Machine

theorem ShippedBatch.Contains.extends {b : ShippedBatch} {l l' : WalLog} {k i : ℕ}
    (h : b.Contains l k i) (hl : l.Extends l') : b.Contains l' k i := by
  obtain ⟨hk,G,xs,ys,zs,hG,htx,hfrom,hto,hlo,hhi,hpatch⟩ := h
  obtain ⟨G',hG',-,⟨vs,hvs⟩,-⟩ := hl.kept hG
  refine ⟨hk,G',xs,ys,zs++vs,hG',?_,hfrom,hto,hlo,hhi,hpatch⟩
  rw [← hvs,htx,append_assoc _ zs]

namespace TailedLog

variable {word : ChecksumPage} {first : UInt32} {due : ℕ → ℕ → Prop} {s : TailedLog}
  {pos : Position} {expect : Option (UInt32 × UInt32)} {r : Reading} {xs ys : List (Patch Bytes)}

section Pass

theorem pass_frame : (s.pass word pos expect r).2.log = s.log ∧
    (s.pass word pos expect r).2.stage = s.stage := by
  rw [pass]
  cases s.tailer.syncFrom word (s.log.file r.missing r.tail) pos expect r.nextTXID with
  | ship f draws rejected accepted =>
    split_ifs
    · exact ⟨rfl,rfl⟩
    · exact ⟨rfl,rfl⟩
  | _ => exact ⟨rfl,rfl⟩

theorem sound_pass (hs : s.log.Sound first) : (s.pass word pos expect r).2.log.Sound first := by
  rw [pass_frame.1]
  exact hs

theorem pass_eq_self {p : SyncPass}
    (hp : s.tailer.syncFrom word (s.log.file r.missing r.tail) pos expect r.nextTXID = p)
    (h : p = .idle ∨ ∃ e,p = .failed e 0 s.tailer) : (s.pass word pos expect r).2 = s := by
  rw [pass,hp]
  obtain rfl | ⟨e,rfl⟩ := h
  · rfl
  · rfl

theorem pass_unwritten (hw : s.log.written = false) : (s.pass word pos expect r).2 = s := by
  refine pass_eq_self rfl ?_
  rw [file,hw]
  cases r.missing with
  | true => exact .inl rfl
  | false =>
    by_cases hz : pos.IsZero
    · refine .inl ?_
      simp [syncFrom,openReader,hz,newWALReader]
    · refine .inr ?_
      by_cases hoff : pos.offset ≤ walHeaderSize
      · simp [syncFrom,openReader,hz,newWALReaderWithOffset,hoff]
      · simp [syncFrom,openReader,hz,newWALReaderWithOffset,hoff]

variable (word) in
theorem sync_refused {G h : WalHeader} {ws : List WalWrite} (hat : s.tailer.pos.At G ws) (hne : ws ≠ [])
    (hsalt : h.salt1 ≠ G.salt1) (frames : List WalFrame) (nextTXID : ℕ → ℕ) :
    s.tailer.sync word (some ⟨some h,frames⟩) nextTXID = .failed .prevFrameMismatch 0 s.tailer := by
  have hoff := hat.offset hne
  have hpos : 0 < ws.length*G.frameSize := Nat.mul_pos (length_pos_of_ne_nil hne) G.frameSize_pos
  have hread : newWALReaderWithOffset ⟨some h,frames⟩ s.tailer.pos.offset s.tailer.pos.salt1
      s.tailer.pos.salt2 = .error .prevFrameMismatch := by
    rw [newWALReaderWithOffset,if_neg (by omega)]
    exact if_pos (.inl (by rwa [(hat.salts hne).1]))
  rw [sync,syncFrom,openReader,if_neg (hat.not_isZero hne),hread]

theorem pass_otherwise {e : UInt32 × UInt32} (hw : s.log.written = true)
    (he : e ≠ (s.log.live.header.salt1,s.log.live.header.salt2)) :
    (s.pass word .zero (some e) r).2 = s := by
  refine pass_eq_self ?_ (.inr ⟨.generation,rfl⟩)
  rw [file,hw,if_pos rfl,walFile,syncFrom,openReader,if_pos ⟨rfl,rfl,rfl⟩]
  exact if_pos ⟨rfl,fun h => he (Option.some.inj h)⟩

variable (word expect) in
/-- A pass over the live generation keeps the position, or moves it over transactions that were
accepted. -/
theorem pass_at (hs : s.log.Sound first) (hw : s.log.written = true) (htx : s.log.live.txns = xs++ys)
    (hat : pos.At s.log.live.header (walWrites xs))
    (htail : Uncommitted s.log.live.header s.log.live.txns r.tail)
    (hexp : ∀ e ∈ expect,e = (s.log.live.header.salt1,s.log.live.header.salt2)) :
    let p := s.pass word pos expect r
    p.2.tailer.pos = s.tailer.pos ∧ p.2.shipped = s.shipped ∧ (p.1 = true → ys = []) ∨
    p.2.tailer.pos.At s.log.live.header (walWrites s.log.live.txns) ∧ ys ≠ [] ∧
      ∃ f : LtxFile,f.patch = (merge ys).trim ∧ p.2.shipped = s.shipped++
        [⟨s.log.past.length,(walWrites xs).length,(walWrites (xs++ys)).length,f⟩] := by
  intro p
  have hfile : s.log.file r.missing r.tail = some (walFile s.log.live.header (xs++ys) r.tail) := by
    rw [file,hw,if_pos rfl,htx]
  rw [htx] at htail ⊢
  have hp : p = s.pass word pos expect r := rfl
  rw [pass,hfile] at hp
  by_cases hne : ys = []
  · subst hne
    rw [append_nil] at htail hp
    rw [syncFrom_idle _ hat htail hexp] at hp
    refine .inl ?_
    rw [hp]
    exact ⟨rfl,rfl,fun _ => rfl⟩
  · have hys : ∀ w ∈ ys,SqliteCommit w := fun w hmem =>
      hs.committed generations_live w (htx ▸ mem_append_right _ hmem)
    obtain ⟨pos',hat',hsync⟩ := syncFrom_at word s.tailer
      r.nextTXID hs.pageSize hat htail hne (SqliteCommit.frames hys) hexp
    rw [hsync,shipping,if_neg (trim_pages_ne_nil hne hys)] at hp
    dsimp only at hp
    generalize henc : encodeIncremental _ _ _ = enc at hp
    cases enc with
    | error e =>
      refine .inl ?_
      rw [hp]
      exact ⟨rfl,rfl,fun hf => Bool.noConfusion hf⟩
    | ok f =>
      obtain ⟨rfl,-⟩ := encodeIncremental_ok henc
      dsimp only at hp
      cases hacc : r.accepted with
      | false =>
        refine .inl ?_
        rw [hp,hacc,if_neg (Bool.false_ne_true)]
        exact ⟨rfl,rfl,fun hf => Bool.noConfusion hf⟩
      | true =>
        refine .inr ?_
        rw [hp,hacc,if_pos rfl]
        exact ⟨hat'.setTxid _,hne,_,rfl,by rw [hat.frameN,hat'.frameN]⟩

end Pass

/-- The tailer stands in generation `k` behind its transactions `xs`, and what was due before that is
accepted. -/
structure Placed (due : ℕ → ℕ → Prop) (s : TailedLog) (k : ℕ) (xs ys : List (Patch Bytes)) : Prop where
  stands : ∃ G,s.log.generations[k]? = some G ∧ G.txns = xs++ys ∧ s.tailer.pos.At G.header (walWrites xs)
  ne : walWrites xs ≠ []
  before : ∀ {j G},j < k → s.log.generations[j]? = some G → ∀ i < G.txns.length,due j i → s.Shipped j i
  read : ∀ i < xs.length,due k i → s.Shipped k i

theorem Shipped.extends {k i : ℕ} {l : WalLog} (h : s.Shipped k i) (hl : s.log.Extends l) :
    (s.setLog l).Shipped k i := by
  obtain ⟨b,hb,hc⟩ := h
  exact ⟨b,hb,hc.extends hl⟩

namespace Placed

variable {k : ℕ}

theorem congr {s' : TailedLog} (h : Placed due s k xs ys) (hlog : s'.log = s.log)
    (hpos : s'.tailer.pos = s.tailer.pos) (hship : s'.shipped = s.shipped) : Placed due s' k xs ys := by
  obtain ⟨⟨G,hG⟩,hne,hbefore,hread⟩ := h
  have hshipped : ∀ {j i},s.Shipped j i → s'.Shipped j i := by
    rintro j i ⟨b,hb,hc⟩
    exact ⟨b,hship ▸ hb,hlog ▸ hc⟩
  refine ⟨⟨G,by rwa [hlog,hpos]⟩,hne,fun hj hG i hi hd => ?_,fun i hi hd => hshipped (hread i hi hd)⟩
  exact hshipped (hbefore hj (hlog ▸ hG) i hi hd)

theorem le (h : Placed due s k xs ys) : k ≤ s.log.past.length := by
  obtain ⟨⟨G,hG,-⟩,-⟩ := h
  exact le_of_generations hG

theorem extend {l : WalLog} (h : Placed due s k xs ys) (hl : s.log.Extends l) :
    ∃ ys',Placed due (s.setLog l) k xs ys' ∧ (k < s.log.past.length → ys' = ys) := by
  have hle := h.le
  obtain ⟨⟨G,hG,htx,hat⟩,hne,hbefore,hread⟩ := h
  obtain ⟨G',hG',hh,⟨zs,hzs⟩,heq⟩ := hl.kept hG
  refine ⟨ys++zs,⟨⟨G',hG',?_,hh ▸ hat⟩,hne,fun {j H} hj hH i hi hd => ?_,
    fun i hi hd => (hread i hi hd).extends hl⟩,fun hk => ?_⟩
  · rw [← hzs,htx,append_assoc]
  · have hjlt : j < s.log.past.length := hj.trans_le hle
    have hex : s.log.generations[j]? = some s.log.past[j] := by
      rw [generations_past hjlt,getElem?_eq_getElem hjlt]
    obtain ⟨H',hH',-,-,hsame⟩ := hl.kept hex
    obtain rfl := Option.mem_unique hH hH'
    exact (hbefore hj (hsame hjlt ▸ hex) i hi hd).extends hl
  · rw [heq hk,htx] at hzs
    have := congrArg length hzs
    rw [length_append] at this
    rw [length_eq_zero_iff.mp (Nat.eq_zero_of_not_pos (by omega : ¬0 < zs.length)),append_nil]

theorem of_accepted {s' : TailedLog} {f : LtxFile} (hs : s.log.Sound first) (hlog : s'.log = s.log)
    (htx : s.log.live.txns = xs++ys) (hys : ys ≠ [])
    (hat : s'.tailer.pos.At s.log.live.header (walWrites s.log.live.txns))
    (hpatch : f.patch = (merge ys).trim) (hship : s'.shipped = s.shipped++
      [⟨s.log.past.length,(walWrites xs).length,(walWrites (xs++ys)).length,f⟩])
    (hbefore : ∀ {j G},j < s.log.past.length → s.log.generations[j]? = some G →
      ∀ i < G.txns.length,due j i → s.Shipped j i)
    (hread : ∀ i < xs.length,due s.log.past.length i → s.Shipped s.log.past.length i) :
    Placed due s' s.log.past.length s.log.live.txns [] := by
  have hshipped : ∀ {j i},s.Shipped j i → s'.Shipped j i := by
    rintro j i ⟨b,hb,hc⟩
    exact ⟨b,hship ▸ mem_append_left _ hb,hlog ▸ hc⟩
  refine ⟨⟨s.log.live,by rw [hlog]; exact generations_live,(append_nil _).symm,hat⟩,?_,
    fun hj hG i hi hd => hshipped (hbefore hj (hlog ▸ hG) i hi hd),fun i hi hd => ?_⟩
  · rw [htx]
    have := length_walWrites_lt xs hys fun w hw =>
      hs.committed generations_live w (htx ▸ mem_append_right _ hw)
    exact ne_nil_of_length_pos (by omega)
  · by_cases hlt : i < xs.length
    · exact hshipped (hread i hlt hd)
    · refine ⟨_,hship ▸ mem_append_right _ mem_cons_self,rfl,s.log.live,xs,ys,[],?_,
        by rw [append_nil,htx],rfl,rfl,by omega,?_,hpatch⟩
      · rw [hlog]
        exact generations_live
      · rwa [htx,length_append] at hi

variable (word) in
theorem pass (h : Placed due s k xs ys) (hs : s.log.Sound first)
    (htail : Uncommitted s.log.live.header s.log.live.txns r.tail) :
    ∃ xs' ys',Placed due (s.pass word s.tailer.pos none r).2 k xs' ys' := by
  cases hw : s.log.written with
  | false => exact ⟨xs,ys,(pass_unwritten hw).symm ▸ h⟩
  | true =>
    obtain ⟨⟨G,hG,htx,hat⟩,hne,hbefore,hread⟩ := id h
    by_cases hk : s.log.live.header.salt1 = G.header.salt1
    · obtain rfl := hs.eq_live hG hk
      obtain rfl := Option.mem_unique generations_live hG
      obtain ⟨hpos,hship,-⟩ | ⟨hat',hys,f,hpatch,hship⟩ := pass_at word none
        hs hw htx hat htail fun _ he => absurd he (by simp)
      · exact ⟨xs,ys,h.congr pass_frame.1 hpos hship⟩
      · exact ⟨_,_,of_accepted hs pass_frame.1 htx hys hat' hpatch hship hbefore hread⟩
    · have hself : (s.pass word s.tailer.pos none r).2 = s := by
        refine pass_eq_self ?_ (.inr ⟨.prevFrameMismatch,rfl⟩)
        rw [file,hw,if_pos rfl]
        exact sync_refused word hat hne hk _ _
      exact ⟨xs,ys,hself.symm ▸ h⟩

variable (word) in
theorem adopt {salt1 : UInt32} (salt2 : UInt32) (h : Placed due s k xs []) (hs : s.log.Sound first)
    (htail : Uncommitted s.log.live.header s.log.live.txns r.tail)
    (hsalt : salt1 = s.tailer.pos.salt1+1) :
    ∃ k' xs' ys',Placed due (s.pass word .zero (some (salt1,salt2)) r).2 k' xs' ys' := by
  cases hw : s.log.written with
  | false => exact ⟨k,xs,[],(pass_unwritten hw).symm ▸ h⟩
  | true =>
    by_cases hexp : (salt1,salt2) = (s.log.live.header.salt1,s.log.live.header.salt2)
    · obtain ⟨⟨G,hG,htx,hat⟩,hne,hbefore,hread⟩ := id h
      have hnext : s.log.past.length = k+1 := hs.eq_next hG <| by
        rw [← (hat.salts hne).1,← hsalt]
        exact (Prod.mk.inj hexp).1.symm
      have hzero : Position.zero.At s.log.live.header (walWrites []) :=
        ⟨rfl,fun _ => ⟨rfl,rfl,rfl⟩,fun hn => absurd rfl hn,fun hn => absurd rfl hn⟩
      obtain ⟨hpos,hship,-⟩ | ⟨hat',hys,f,hpatch,hship⟩ := pass_at word
        (some (salt1,salt2)) hs hw (nil_append _).symm hzero htail
        (fun e he => (Option.some.inj he).symm.trans hexp)
      · exact ⟨k,xs,[],h.congr pass_frame.1 hpos hship⟩
      · refine ⟨_,_,_,of_accepted hs pass_frame.1 rfl hys hat' hpatch hship ?_
          fun i hi => absurd hi (Nat.not_lt_zero i)⟩
        intro j H hj hH i hi hd
        rcases Nat.lt_or_eq_of_le (by omega : j ≤ k) with hlt | rfl
        · exact hbefore hlt hH i hi hd
        · obtain rfl := Option.mem_unique hH hG
          rw [htx,append_nil] at hi
          exact hread i hi hd
    · exact ⟨k,xs,[],(pass_otherwise hw hexp).symm ▸ h⟩

end Placed

section Recycle

variable {k : ℕ}

def StageOK (s : TailedLog) (k : ℕ) (ys : List (Patch Bytes)) : Prop :=
  match s.stage with
  | .recycle _ nLog => nLog = s.tailer.pos.frameN
  | .sample nLog frames => frames ≤ nLog → k < s.log.past.length ∧ ys = []
  | .adopt salt1 _ => salt1 = s.tailer.pos.salt1+1 ∧ k < s.log.past.length ∧ ys = []
  | _ => True

structure Tails (first : UInt32) (due : ℕ → ℕ → Prop) (s : TailedLog) : Prop where
  sound : s.log.Sound first
  placed : ∃ k xs ys,Placed due s k xs ys ∧ StageOK s k ys

theorem Tails.of_placed (hs : s.log.Sound first) (h : Placed due s k xs ys)
    (hstage : StageOK s k ys) : Tails first due s := ⟨hs,k,xs,ys,h,hstage⟩

theorem stageOK_retry (attempts : ℕ) : StageOK (s.atStage (.retry attempts)) k ys := by
  cases attempts with
  | zero | succ => trivial

theorem Tails.other (h : Tails first due s) {a : WalStep} (ha : a.Ok s.log) :
    Tails first due (s.setLog (a.run s.log)) := by
  obtain ⟨hs,k,xs,ys,hp,hstage⟩ := h
  have hext := extends_run s.log a
  obtain ⟨ys',hp',hys⟩ := hp.extend hext
  refine ⟨hs.run ha,k,xs,ys',hp',?_⟩
  have hlt : k < s.log.past.length → k < (a.run s.log).past.length := fun hk =>
    hk.trans_le hext.le
  revert hstage
  rw [StageOK,StageOK,setLog]
  cases s.stage with
  | sample nLog frames =>
    intro hstage hle
    obtain ⟨hk,hnil⟩ := hstage hle
    exact ⟨hlt hk,(hys hk).trans hnil⟩
  | adopt salt1 salt2 =>
    rintro ⟨hsalt,hk,hnil⟩
    exact ⟨hsalt,hlt hk,(hys hk).trans hnil⟩
  | _ => exact id

theorem Placed.drained {missing : Bool} {tail : List WalFrame} (h : Placed due s k xs ys)
    (hs : s.log.Sound first) (htail : Uncommitted s.log.live.header s.log.live.txns tail)
    (hv : s.tailer.validateDrained (s.log.file missing tail) = .drained) :
    k = s.log.past.length ∧ s.log.live.txns = xs ∧ ys = [] := by
  obtain ⟨⟨G,hG,htx,hat⟩,hne,-,-⟩ := h
  have hw : s.log.written = true := by
    cases hw : s.log.written with
    | true => rfl
    | false =>
      rw [file,hw] at hv
      cases missing with
      | true => exact absurd hv (by simp [validateDrained])
      | false =>
        by_cases hoff : s.tailer.pos.offset ≤ walHeaderSize
        · simp [validateDrained,newWALReaderWithOffset,hoff] at hv
        · simp [validateDrained,newWALReaderWithOffset,hoff] at hv
  rw [file,hw,if_pos rfl] at hv
  have hk : s.log.live.header.salt1 = G.header.salt1 := by
    by_contra hsalt
    have hoff := hat.offset hne
    have hpos : 0 < (walWrites xs).length*G.header.frameSize :=
      Nat.mul_pos (length_pos_of_ne_nil hne) G.header.frameSize_pos
    rw [validateDrained,walFile,newWALReaderWithOffset,if_neg (by omega)] at hv
    dsimp only at hv
    rw [if_pos (.inl (by rwa [(hat.salts hne).1]))] at hv
    exact absurd hv (by simp)
  obtain rfl := hs.eq_live hG hk
  obtain rfl := Option.mem_unique generations_live hG
  rw [htx] at htail hv
  rw [validateDrained,walFile,walWrites_append,newWALReaderWithOffset_at hat hne] at hv
  dsimp only at hv
  have hcommit : ∀ f ∈ readFrames s.log.live.header
      (s.log.live.header.endChecksum s.log.live.header.chksum (walWrites xs))
      (s.log.live.header.appendFrames (s.log.live.header.endChecksum s.log.live.header.chksum
        (walWrites xs)) (walWrites ys)++tail),f.commit = 0 := by
    intro f hf
    by_contra hc
    rw [if_pos ⟨f,hf,hc⟩] at hv
    exact absurd hv (by simp)
  obtain ⟨hcommits,-⟩ := scan_at xs ys tail htail <| SqliteCommit.frames fun w hw =>
    hs.committed generations_live w (htx ▸ mem_append_right _ hw)
  obtain ⟨n,extra,hscan⟩ := scan_uncommitted (h := s.log.live.header)
    (s := .start (walWrites xs).length) hcommit
  have hys : ys = [] := by
    rw [WALReader.scan,hscan] at hcommits
    exact length_eq_zero_iff.mp hcommits.symm
  exact ⟨rfl,by rw [htx,hys,append_nil],hys⟩

theorem Placed.recycleWrite {w : Patch Bytes} {restart : Option WalHeader} {nLog : ℕ}
    (h : Placed due s s.log.past.length xs []) (hs : s.log.Sound first) (htx : s.log.live.txns = xs)
    (hw : SqliteCommit w) (hr : ∀ h ∈ restart,s.log.Restarts h) (hn : nLog = s.tailer.pos.frameN) :
    (recycleWrite s.log w restart).Sound first ∧
    ∃ ys,Placed due (s.setLog (recycleWrite s.log w restart)) s.log.past.length xs ys ∧
      ((recycleWrite s.log w restart).mxFrame ≤ nLog →
        s.log.past.length < (recycleWrite s.log w restart).past.length ∧ ys = []) := by
  cases restart with
  | none =>
    obtain ⟨ys',hp,-⟩ := h.extend (extends_commit s.log w)
    refine ⟨hs.commit hw,ys',hp,fun hle => absurd hle (Nat.not_le_of_lt ?_)⟩
    obtain ⟨⟨G,-,-,hat⟩,-⟩ := h
    rw [hn,hat.frameN,mxFrame]
    show _ < (walWrites (s.log.live.txns++[w])).length
    rw [htx]
    exact length_walWrites_lt _ (cons_ne_nil w []) fun v hv => by
      obtain rfl := mem_singleton.mp hv
      exact hw
  | some hdr =>
    have hres := hr hdr rfl
    obtain ⟨ys',hp,-⟩ := h.extend (extends_restart s.log hdr true)
    have hlen : s.log.past.length < (s.log.restart hdr true).past.length := by simp [restart]
    obtain ⟨ys'',hp',heq⟩ := hp.extend (extends_commit _ w)
    refine ⟨(hs.restart hres true).commit hw,ys'',hp',fun _ => ⟨hlen,(heq hlen).trans ?_⟩⟩
    obtain ⟨⟨G,hG,hG',-⟩,-⟩ := hp
    obtain hG | ⟨hk,-⟩ := generations_restart hG
    · obtain rfl := Option.mem_unique generations_live hG
      rw [htx] at hG'
      exact self_eq_append_right.mp hG'
    · exact absurd hk (Nat.ne_of_lt (Nat.lt_succ_self _))

theorem Tails.step (h : Tails first due s) {a : TailedAction} (ha : s.Sqlite a) :
    Tails first due (s.step word a) := by
  obtain ⟨hs,k,xs,ys,hp,hstage⟩ := id h
  cases a with
  | other a => exact h.other ha
  | sync r =>
    rw [TailedLog.step]
    cases hst : s.stage with
    | idle =>
      obtain ⟨xs',ys',hp'⟩ := hp.pass word hs ha
      refine .of_placed (sound_pass hs) hp' ?_
      rw [StageOK,pass_frame.2,hst]
      trivial
    | _ => exact h
  | checkpointUnderLock =>
    rw [TailedLog.step]
    cases s.stage with
    | idle => exact .of_placed hs (hp.congr rfl rfl rfl) trivial
    | _ => exact h
  | drain r =>
    rw [TailedLog.step]
    cases hst : s.stage with
    | drain attempts =>
      obtain ⟨xs',ys',hp'⟩ := hp.pass word hs ha
      refine .of_placed (s := atStage _ _) (sound_pass hs) (hp'.congr rfl rfl rfl) ?_
      cases (s.pass word s.tailer.pos none r).1 with
      | true | false => trivial
    | inPlace =>
      obtain ⟨xs',ys',hp'⟩ := hp.pass word hs ha
      exact .of_placed (s := atStage _ _) (sound_pass hs) (hp'.congr rfl rfl rfl) trivial
    | adopt salt1 salt2 =>
      rw [StageOK,hst] at hstage
      obtain ⟨hsalt,-,rfl⟩ := hstage
      obtain ⟨k',xs',ys',hp'⟩ := hp.adopt word salt2 hs ha hsalt
      exact .of_placed (s := atStage _ _) (sound_pass hs) (hp'.congr rfl rfl rfl) trivial
    | _ => exact h
  | checkpoint failed busy frames =>
    rw [TailedLog.step]
    cases s.stage with
    | checkpoint attempts =>
      obtain ⟨ys',hp',-⟩ := hp.extend (extends_run s.log (.backfill frames))
      refine .of_placed (s := atStage _ _) (hs.run (a := .backfill frames) ha)
        (hp'.congr rfl rfl rfl) ?_
      split_ifs with hf hb hz hn
      · trivial
      · trivial
      · trivial
      · exact stageOK_retry attempts
      · exact (not_not.mp hn).symm
    | _ => exact h
  | recycle missing tail write =>
    rw [TailedLog.step]
    cases hst : s.stage with
    | recycle attempts nLog =>
      rw [StageOK,hst] at hstage
      cases write with
      | failed => exact .of_placed hs (hp.congr rfl rfl rfl) trivial
      | commit w restart captured =>
        obtain ⟨htail,hw,hr⟩ := ha
        cases hv : s.tailer.validateDrained (s.log.file missing tail) with
        | stale => exact .of_placed hs (hp.congr rfl rfl rfl) trivial
        | commitBehind => exact .of_placed hs (hp.congr rfl rfl rfl) (stageOK_retry attempts)
        | drained =>
          obtain ⟨rfl,htx,rfl⟩ := hp.drained hs htail hv
          obtain ⟨hs',ys',hp',hle⟩ := hp.recycleWrite hs htx hw hr hstage
          refine .of_placed (s := atStage _ _) hs' (hp'.congr rfl rfl rfl) ?_
          cases captured with
          | false => trivial
          | true =>
            rw [if_pos rfl]
            by_cases hz : (TailedLog.recycleWrite s.log w restart).mxFrame = 0
            · rw [if_pos hz]
              trivial
            · rw [if_neg hz]
              exact hle
    | _ => exact h
  | sample missing =>
    rw [TailedLog.step]
    cases hst : s.stage with
    | sample nLog frames =>
      rw [StageOK,hst] at hstage
      dsimp only
      cases readWALHeader (s.log.file missing []) with
      | none => exact .of_placed hs (hp.congr rfl rfl rfl) trivial
      | some salts =>
        refine .of_placed (s := atStage _ _) hs (hp.congr rfl rfl rfl) ?_
        split_ifs with hsame hnext
        · trivial
        · exact ⟨hnext.2,hstage hnext.1⟩
        · trivial
    | _ => exact h

end Recycle

section Run

theorem Starts.tails {n : ℕ} (h : s.Starts n) :
    Tails s.log.live.header.salt1 (fun _ _ => True) s := by
  have hgen : s.log.generations = [s.log.live] := by rw [generations,h.first,nil_append]
  have hlive : ∀ {k G},s.log.generations[k]? = some G → k = 0 ∧ G = s.log.live := by
    intro k G hG
    have hk : k = 0 := by
      have := le_of_generations hG
      rw [h.first,length_nil] at this
      omega
    subst hk
    rw [hgen] at hG
    exact ⟨rfl,(Option.some.inj hG).symm⟩
  have hne : s.log.live.txns.take n ≠ [] := by
    intro hnil
    have := congrArg length hnil
    rw [length_take_of_le h.le,length_nil] at this
    exact absurd this (Nat.ne_of_gt h.pos)
  have hframes := length_walWrites_lt [] hne fun w hw => h.committed w (mem_of_mem_take hw)
  refine ⟨⟨?_,by simp [h.first],h.pageSize,?_,fun hf => absurd (h.written.symm.trans hf) (by simp)⟩,
    0,s.log.live.txns.take n,s.log.live.txns.drop n,
    ⟨⟨s.log.live,by rw [hgen]; rfl,(take_append_drop n _).symm,h.placed⟩,
      ne_nil_of_length_pos (Nat.lt_of_le_of_lt (Nat.zero_le _) hframes),
      fun hj => absurd hj (Nat.not_lt_zero _),fun i hi _ => ?_⟩,?_⟩
  · intro k G hG
    obtain ⟨rfl,rfl⟩ := hlive hG
    exact (UInt32.add_zero _).symm
  · intro k G hG
    obtain ⟨-,rfl⟩ := hlive hG
    exact h.committed
  · rw [length_take_of_le h.le] at hi
    exact h.shipped i hi
  · rw [StageOK,h.idle]
    trivial

theorem length_walWrites_le (xs ys : List (Patch Bytes)) :
    (walWrites xs).length ≤ (walWrites (xs++ys)).length := by
  rw [walWrites_append,length_append]
  omega

variable (word) in
/-- What is due is accepted, lies ahead in the live generation, or the position is refused. -/
theorem Tails.accounted (h : Tails first due s) {j : ℕ} {H : WalGeneration}
    (hH : s.log.generations[j]? = some H) (i : ℕ) (hi : i < H.txns.length) (hd : due j i) :
    s.Shipped j i ∨ s.Ahead j i ∨ s.Refused word := by
  obtain ⟨hs,k,xs,ys,⟨⟨G,hG,htx,hat⟩,hne,hbefore,hread⟩,-⟩ := h
  by_cases hk : s.log.live.header.salt1 = G.header.salt1
  · obtain rfl := hs.eq_live hG hk
    rcases Nat.lt_or_eq_of_le (le_of_generations hH) with hj | rfl
    · exact .inl (hbefore hj hH i hi hd)
    · obtain rfl := Option.mem_unique hH hG
      obtain rfl := Option.mem_unique generations_live hH
      by_cases hlt : i < xs.length
      · exact .inl (hread i hlt hd)
      · obtain ⟨hs1,hs2⟩ := hat.salts hne
        refine .inr (.inl ⟨rfl,hs1,hs2,?_⟩)
        rw [htx,take_append,take_of_length_le (Nat.le_of_not_lt hlt),hat.frameN]
        exact length_walWrites_le _ _
  · exact .inr (.inr fun frames nextTXID => sync_refused _ hat hne hk frames nextTXID)

theorem Tails.passed (h : Tails first due s) {m : ℕ} {M : WalGeneration}
    (hM : s.log.generations[m]? = some M) (hsalt : M.header.salt1 = s.tailer.pos.salt1) {j : ℕ}
    {H : WalGeneration} (hH : s.log.generations[j]? = some H) (i : ℕ) (hi : i < H.txns.length)
    (hpassed : j < m ∨ j = m ∧ (walWrites (H.txns.take (i+1))).length ≤ s.tailer.pos.frameN)
    (hd : due j i) : s.Shipped j i := by
  obtain ⟨hs,k,xs,ys,⟨⟨G,hG,htx,hat⟩,hne,hbefore,hread⟩,-⟩ := h
  rw [(hat.salts hne).1,hs.counted hM,hs.counted hG] at hsalt
  have hle : ∀ {n N},s.log.generations[n]? = some N → n < 2^32 := fun hN =>
    Nat.lt_of_le_of_lt (le_of_generations hN) hs.few
  obtain rfl := salt_inj (hle hM) (hle hG) hsalt
  obtain hj | ⟨rfl,hframes⟩ := hpassed
  · exact hbefore hj hH i hi hd
  · obtain rfl := Option.mem_unique hH hG
    by_cases hlt : i < xs.length
    · exact hread i hlt hd
    · refine absurd hframes (Nat.not_le_of_lt ?_)
      rw [hat.frameN,htx,take_append,take_of_length_le (by omega)]
      rw [htx,length_append] at hi
      refine length_walWrites_lt _ (fun hnil => ?_) fun w hw => hs.committed hH w ?_
      · have := congrArg length hnil
        rw [length_take,length_nil] at this
        omega
      · exact htx ▸ mem_append_right _ (mem_of_mem_take hw)

/-- Whatever other connections do between the steps of passes and of recycles, and whichever files are
accepted, no transaction is lost to the tailer. -/
theorem recycle_neverSkips (word : ChecksumPage) {n : ℕ} {s : TailedLog} (hs : s.Starts n)
    {as : List TailedAction} (h : Permitted (step word) Sqlite s as) :
    (as.foldl (step word) s).NeverSkips word := by
  have htails := h.invariant (I := Tails s.log.live.header.salt1 fun _ _ => True)
    (fun _ _ ht ha => ht.step ha) hs.tails
  exact ⟨fun hG i hi => htails.accounted word hG i hi trivial,
    fun hM hsalt _ _ _ hG i hi hp => htails.passed hM hsalt hG i hi hp trivial⟩

end Run

end TailedLog

namespace RecycleSample

open TailedLog

def header (salt1 : UInt32) : WalHeader := ⟨false,8,salt1,7,(1,2)⟩

def write (b : Byte) : Patch Bytes := ⟨[(1,replicate 8 b)],1⟩

def reading (accepted : Bool) : Reading := ⟨false,[],fun _ => 3,accepted⟩

def start : TailedLog where
  log := ⟨[],⟨header 5,[write 1,write 2]⟩,0,true⟩
  tailer := ⟨⟨5,7,1,64,(header 5).endChecksum (1,2) (walWrites [write 1]),2⟩,none⟩
  stage := .idle
  shipped := [⟨0,0,1,⟨⟨8,1,2,2,true,0⟩,[(1,replicate 8 1)],0⟩⟩]

/-- A recycle restarts the log after its second transaction is drained; before it adopts the new
generation another connection commits to it. -/
def actions : List TailedAction :=
  [.checkpointUnderLock,.drain (reading true),.checkpoint false false 2,
    .recycle false [] (.commit (write 3) (some (header 6)) true),.sample false,.other (.commit (write 4)),
    .drain (reading true)]

theorem start_starts : start.Starts 1 where
  first := rfl
  idle := rfl
  written := rfl
  pageSize := by decide
  committed := by decide
  pos := by decide
  le := by decide
  placed := ⟨rfl,fun h => absurd h (by decide),fun _ => ⟨rfl,rfl⟩,fun _ => rfl⟩
  shipped i hi := ⟨_,mem_cons_self,rfl,_,[],[write 1],[write 2],rfl,rfl,rfl,rfl,Nat.zero_le i,
    by simpa using hi,rfl⟩

def word : ChecksumPage := fun p _ => .ofNat p

theorem actions_neverSkip :
    Machine.Permitted (step word) Sqlite start actions ∧
      (actions.foldl (step word) start).shipped.map
        (fun b => (b.generation,b.fromFrame,b.toFrame)) = [(0,0,1),(0,1,2),(1,0,2)] ∧
      (actions.foldl (step word) start).NeverSkips word := by
  have hrun : Machine.Permitted (step word) Sqlite start actions := by decide
  exact ⟨hrun,by decide,recycle_neverSkips word start_starts hrun⟩

end RecycleSample

end Syzy
