import Syzy.PageStream
import Syzy.RestoreChain

/-!
Whatever is shipped again under fresh TXIDs, the stored files lead through images of the database,
and the last one of any accepted pass is the image at its last commit.
-/

namespace Syzy

open Machine List

open Paged

section Chain

/-- The ranges of the files follow one another above the baseline. -/
structure RangesOK (baselineTXID counter : ℕ) (files : List LtxFile) : Prop where
  above : ∀ f ∈ files,baselineTXID < f.minTXID ∧ f.minTXID ≤ f.maxTXID ∧ f.maxTXID ≤ counter
  ordered : files.Pairwise fun f g => f.maxTXID < g.minTXID

variable {baselineTXID counter : ℕ} {files : List LtxFile}

variable (others : ℕ → ℕ)

section

variable (h : RangesOK baselineTXID counter files)
include h

theorem RangesOK.raise {counter' : ℕ} (hle : counter ≤ counter') :
    RangesOK baselineTXID counter' files :=
  ⟨fun f hf => ⟨(h.above f hf).1,(h.above f hf).2.1,le_trans (h.above f hf).2.2 hle⟩,h.ordered⟩

theorem RangesOK.concat {f : LtxFile} (hlt : counter < f.minTXID) (hle : f.minTXID ≤ f.maxTXID)
    (hb : baselineTXID ≤ counter) :
    RangesOK baselineTXID f.maxTXID (files++[f]) where
  above := by
    intro g hg
    rcases mem_concat.mp hg with hg | rfl
    · obtain ⟨h1,h2,h3⟩ := h.above g hg
      omega
    · omega
  ordered := by
    refine pairwise_append.mpr ⟨h.ordered,pairwise_singleton _ _,fun g hg g' hg' => ?_⟩
    obtain rfl := mem_singleton.mp hg'
    exact Nat.lt_of_le_of_lt (h.above g hg).2.2 hlt

theorem RangesOK.of_initial {xs : List LtxFile} (hp : xs <+: files) :
    RangesOK baselineTXID counter xs :=
  ⟨fun f hf => h.above f (hp.subset hf),h.ordered.sublist hp.sublist⟩

theorem RangesOK.verify {prev : Option ℕ} (hprev : ∀ p ∈ prev,∀ f ∈ files,p < f.minTXID) :
    verifyChainTXIDs prev files = .ok () := by
  induction files generalizing prev with
  | nil => rfl
  | cons f files ih =>
    obtain ⟨hf,hfiles⟩ := pairwise_cons.mp h.ordered
    rw [verifyChainTXIDs,if_neg (Nat.not_lt_of_le (h.above f mem_cons_self).2.1),if_neg]
    · refine ih ⟨fun g hg => h.above g (mem_cons_of_mem _ hg),hfiles⟩ fun p hp g hg => ?_
      rw [← Option.some.inj hp]
      exact hf g hg
    · rintro ⟨p,hp,hle⟩
      exact absurd (hprev p hp f mem_cons_self) (Nat.not_lt_of_le hle)

end

theorem RangesOK.select {f : LtxFile} {pre post : List LtxFile}
    (h : RangesOK baselineTXID counter (pre++f::post)) :
    sortLTXChain (filterLTXRange (pre++f::post) baselineTXID f.maxTXID) = pre++[f] := by
  obtain ⟨hpre,hpost,hcross⟩ := pairwise_append.mp h.ordered
  obtain ⟨hf,-⟩ := pairwise_cons.mp hpost
  have hinit : RangesOK baselineTXID counter (pre++[f]) := h.of_initial ⟨post,by simp⟩
  have hfilter : filterLTXRange (pre++f::post) baselineTXID f.maxTXID = pre++[f] := by
    have hkeep : ∀ g ∈ pre++[f],¬(g.maxTXID ≤ baselineTXID ∨ f.maxTXID < g.minTXID) := by
      intro g hg
      have hgle : g.maxTXID ≤ f.maxTXID := by
        rcases mem_concat.mp hg with hg | rfl
        · have h1 := hcross g hg f mem_cons_self
          have h2 := (h.above f (mem_append_right _ mem_cons_self)).2.1
          omega
        · rfl
      have := hinit.above g hg
      omega
    rw [filterLTXRange,show pre++f::post = (pre++[f])++post by simp,filter_append,
      filter_eq_self.mpr fun g hg => by simpa using hkeep g hg,
      filter_eq_nil_iff.mpr fun g hg => ?_,append_nil]
    have := hf g hg
    simp
    omega
  rw [hfilter]
  refine Pairwise.insertionSort_eq ?_
  refine hinit.ordered.imp_of_mem fun {a b} ha _ hlt => .inl ?_
  exact Nat.lt_of_le_of_lt (hinit.above a ha).2.1 hlt

theorem lt_drawn (i : ℕ) : counter < drawn counter others i := by
  induction i with
  | zero | succ => rw [drawn]; omega

theorem drawn_mono {i j : ℕ} (hij : i ≤ j) :
    drawn counter others i ≤ drawn counter others j := by
  induction hij with
  | refl => exact le_refl _
  | step _ ih => rw [drawn]; omega

theorem le_counterAfter (draws : ℕ) : counter ≤ counterAfter counter others draws := by
  cases draws with
  | zero => exact le_refl _
  | succ draws => exact Nat.le_of_lt (lt_drawn others draws)

end Chain

namespace PageStream

variable {o : StreamOrigin} {skips : Bool} {s : PageStream} {restored : ℕ}

/-- The accepted pass is where the stream says. -/
structure PassOK (o : StreamOrigin) (s : PageStream) (r : AcceptedPass) : Prop where
  before_le : r.before ≤ s.txns.length
  after_le : r.after ≤ s.txns.length
  pre_eq : r.file.header.preApplyChecksum = rolling o.word (s.imageAt o r.before)
  post_eq : r.file.postApplyChecksum = rolling o.word (s.imageAt o r.after)
  split : ∃ pre post,s.stored = pre++r.file::post ∧
    (pre++[r.file]).foldl (fun img f => img.apply f.patch) o.image = s.imageAt o r.after

/-- The stored files lead to the database after `restored` transactions, not before the position. -/
structure Sound (o : StreamOrigin) (skips : Bool) (s : PageStream) (restored : ℕ) : Prop where
  run : Run skips o.image s.txns
  frames : ∀ w ∈ s.txns,w.commit ≠ 0 ∧ w.pages ≠ []
  consumed_le : s.consumed ≤ restored
  restored_le : restored ≤ s.txns.length
  pos : s.tailer.pos.At o.header (walWrites (s.txns.take s.consumed))
  ck : ∃ ck,s.tailer.ck = some ck ∧ ck.Tracks o.word (s.imageAt o s.consumed)
  chain : AttestedChain o.word skips o.image s.stored
  image : s.stored.foldl (fun img f => img.apply f.patch) o.image = s.imageAt o restored
  baseline_le : o.baselineTXID ≤ s.counter
  ranges : RangesOK o.baselineTXID s.counter s.stored
  passes : ∀ r ∈ s.accepted,PassOK o s r

theorem sound_start : Sound o skips (start o) 0 where
  run := trivial
  frames := fun _ hw => absurd hw not_mem_nil
  consumed_le := le_refl _
  restored_le := le_refl _
  pos := ⟨rfl,fun _ => ⟨rfl,rfl,rfl⟩,fun hne => absurd rfl hne,fun hne => absurd rfl hne⟩
  ck := ⟨_,rfl,baseline_tracks o.baselineTXID⟩
  chain := trivial
  image := rfl
  baseline_le := le_refl _
  ranges := ⟨fun _ hf => absurd hf not_mem_nil,Pairwise.nil⟩
  passes := fun _ hr => absurd hr not_mem_nil

variable {ck : ChecksumState} {f : LtxFile} {n : ℕ} {pos : Position} {r : AcceptedPass}

theorem imageAt_commit (w : Patch Bytes) (hn : n ≤ s.txns.length) :
    imageAt o { s with txns := s.txns++[w] } n = s.imageAt o n := by
  rw [imageAt,imageAt,take_append_of_le_length hn]

theorem Sound.commit (h : Sound o skips s restored) {w : Patch Bytes} (hne : w.pages ≠ [])
    (hw : w.Complete skips (s.imageAt o s.txns.length)) :
    Sound o skips { s with txns := s.txns++[w] } restored := by
  have hconsumed : s.consumed ≤ s.txns.length := le_trans h.consumed_le h.restored_le
  rw [imageAt,take_length] at hw
  refine ⟨permitted_append.mpr ⟨h.run,hw,trivial⟩,fun v hv => ?_,h.consumed_le,?_,?_,?_,h.chain,
    ?_,h.baseline_le,h.ranges,fun r hr => ?_⟩
  · rcases mem_append.mp hv with hv | hv
    · exact h.frames v hv
    · exact mem_singleton.mp hv ▸ ⟨Nat.ne_of_gt hw.pos,hne⟩
  · exact le_trans h.restored_le (by simp)
  · show s.tailer.pos.At o.header (walWrites ((s.txns++[w]).take s.consumed))
    rw [take_append_of_le_length hconsumed]
    exact h.pos
  · rw [imageAt_commit w hconsumed]
    exact h.ck
  · rw [imageAt_commit w h.restored_le]
    exact h.image
  · have hp := h.passes r hr
    refine ⟨le_trans hp.before_le (by simp),le_trans hp.after_le (by simp),?_,?_,?_⟩
    · rw [imageAt_commit w hp.before_le]
      exact hp.pre_eq
    · rw [imageAt_commit w hp.after_le]
      exact hp.post_eq
    · rw [imageAt_commit w hp.after_le]
      exact hp.split

def pending (s : PageStream) : List (Patch Bytes) := s.txns.drop s.consumed

theorem take_append_pending : s.txns.take s.consumed++s.pending = s.txns := take_append_drop ..

/-- The merge of what is pending leads from every image since the position to the database. -/
theorem Sound.absorb (h : Sound o skips s restored) (hne : s.pending ≠ []) (hle : s.consumed ≤ n) :
    (s.imageAt o n).apply (merge s.pending) = s.imageAt o s.txns.length ∧
      (merge s.pending).Complete skips (s.imageAt o n) := by
  have hlen : (s.txns.take s.consumed).length = s.consumed :=
    length_take_of_le (le_trans h.consumed_le h.restored_le)
  have htake : s.txns.take n = s.txns.take s.consumed++s.pending.take (n-s.consumed) := by
    conv_lhs => rw [← s.take_append_pending]
    rw [take_append,hlen,take_of_length_le (by omega)]
  have hrun := h.run
  rw [← s.take_append_pending] at hrun
  obtain ⟨-,hrun⟩ := permitted_append.mp hrun
  rw [← take_append_drop (n-s.consumed) s.pending] at hrun hne
  have habs := Run.absorb hrun hne
  rw [take_append_drop] at habs
  rw [imageAt,imageAt,htake,foldl_append,take_length]
  refine ⟨habs.1.trans ?_,habs.2⟩
  conv_rhs => rw [← s.take_append_pending,foldl_append]

/-- The file that a pass ships attests the database at every image since the position. -/
theorem Sound.attests (h : Sound o skips s restored) (hne : s.pending ≠ []) {hdr : LtxHeader}
    {postApply : Checksum}
    (henc : encodeIncremental (merge s.pending).trim.pages hdr postApply = .ok f)
    (hps : hdr.pageSize = o.header.pageSize) (hcommit : hdr.commit = (merge s.pending).commit)
    (hck : hdr.noChecksum = false)
    (hpost : postApply = rolling o.word (s.imageAt o s.txns.length))
    (hle : s.consumed ≤ n) :
    Attests o.word skips (s.imageAt o n) f ∧
      (s.imageAt o n).apply f.patch = s.imageAt o s.txns.length := by
  obtain ⟨rfl,hpages⟩ := encodeIncremental_ok henc
  obtain ⟨happly,hcomplete⟩ := h.absorb hne hle
  have hpatch : (⟨hdr,(merge s.pending).trim.pages,postApply⟩ : LtxFile).patch =
      (merge s.pending).trim := by
    rw [LtxFile.patch,hcommit]
    rfl
  have himage : (s.imageAt o n).apply (merge s.pending).trim = s.imageAt o s.txns.length :=
    Paged.Image.apply_trim.trans happly
  rw [hpatch]
  refine ⟨⟨hps,hck,⟨Patch.trim_ascending,?_⟩,?_,?_⟩,himage⟩
  · rw [hps] at hpages
    exact hpages
  · rw [hpatch]
    exact hcomplete.trim
  · rw [hpatch,himage]
    exact hpost

theorem PassOK.extend (h : PassOK o s r) {s' : PageStream} (htxns : s'.txns = s.txns)
    {more : List LtxFile} (hstored : s'.stored = s.stored++more) : PassOK o s' r := by
  have himage : ∀ n,s'.imageAt o n = s.imageAt o n := fun n => by rw [imageAt,imageAt,htxns]
  obtain ⟨pre,post,hsplit,heq⟩ := h.split
  refine ⟨htxns ▸ h.before_le,htxns ▸ h.after_le,?_,?_,pre,post++more,?_,?_⟩
  · rw [himage]
    exact h.pre_eq
  · rw [himage]
    exact h.post_eq
  · rw [hstored,hsplit,append_assoc]
    rfl
  · rw [himage]
    exact heq

theorem Sound.store (h : Sound o skips s restored) {counter : ℕ}
    (hatt : ∀ n,s.consumed ≤ n → Attests o.word skips (s.imageAt o n) f ∧
      (s.imageAt o n).apply f.patch = s.imageAt o s.txns.length)
    (hmin : s.counter < f.minTXID) (hmax : f.minTXID ≤ f.maxTXID) (hcounter : f.maxTXID = counter) :
    Sound o skips { s with stored := s.stored++[f],counter := counter } s.txns.length := by
  obtain ⟨ha,hi⟩ := hatt restored h.consumed_le
  refine ⟨h.run,h.frames,le_trans h.consumed_le h.restored_le,le_refl _,h.pos,h.ck,?_,?_,?_,?_,
    fun r hr => (h.passes r hr).extend rfl rfl⟩
  · refine permitted_append.mpr ⟨h.chain,?_,trivial⟩
    rw [h.image]
    exact ha
  · show (s.stored++[f]).foldl _ _ = _
    rw [foldl_append,h.image]
    exact hi
  · exact le_trans h.baseline_le (by show s.counter ≤ counter; omega)
  · exact hcounter ▸ h.ranges.concat hmin hmax h.baseline_le

theorem Sound.moveOn (h : Sound o skips s s.txns.length) (hpos : pos.At o.header (walWrites s.txns))
    (hck : ck.Tracks o.word (s.imageAt o s.txns.length)) :
    Sound o skips { s with tailer := ⟨pos,some ck⟩,consumed := s.txns.length } s.txns.length := by
  refine ⟨h.run,h.frames,le_refl _,le_refl _,?_,⟨ck,rfl,hck⟩,h.chain,h.image,h.baseline_le,
    h.ranges,fun r hr => (h.passes r hr).extend rfl (append_nil _).symm⟩
  rwa [take_length]

variable (h : Sound o skips s restored)
include h

theorem Sound.accept (hr : PassOK o s r) :
    Sound o skips { s with accepted := s.accepted++[r] } restored := by
  refine ⟨h.run,h.frames,h.consumed_le,h.restored_le,h.pos,h.ck,h.chain,h.image,h.baseline_le,h.ranges,
    fun q hq => ?_⟩
  have hq' : PassOK o s q := by
    rcases mem_append.mp hq with hq | hq
    · exact h.passes q hq
    · exact mem_singleton.mp hq ▸ hr
  exact hq'.extend rfl (append_nil _).symm

theorem Sound.leak {counter : ℕ} (hle : s.counter ≤ counter) :
    Sound o skips { s with counter } restored :=
  ⟨h.run,h.frames,h.consumed_le,h.restored_le,h.pos,h.ck,h.chain,h.image,le_trans h.baseline_le hle,
    h.ranges.raise hle,fun r hr => (h.passes r hr).extend rfl (append_nil _).symm⟩

theorem Sound.catchUp (hne : s.pending ≠ []) (hnil : (merge s.pending).trim.pages = []) :
    Sound o skips s s.txns.length := by
  obtain ⟨happly,hcomplete⟩ := h.absorb hne h.consumed_le
  rw [hcomplete.apply_of_trim_nil hnil] at happly
  exact { h with
    consumed_le := le_trans h.consumed_le h.restored_le
    restored_le := le_refl _
    image := h.image.trans happly }

theorem Sound.shipped (htracks : ck.Tracks o.word (s.imageAt o s.consumed))
    (hne : s.pending ≠ []) (hpos : pos.At o.header (walWrites s.txns)) (others : ℕ → ℕ)
    (answer : OnLTX)
    (henc : encodeIncremental (merge s.pending).trim.pages ⟨o.header.pageSize,(merge s.pending).commit,drawn s.counter others 0,drawn s.counter others (s.pending.length-1),false,(ck.stage o.word (merge s.pending).trim.pages (merge s.pending).commit).pre⟩ (ck.stage o.word (merge s.pending).trim.pages (merge s.pending).commit).post = .ok f) :
    ∃ restored',Sound o skips
      ({ s with counter := counterAfter s.counter others s.pending.length }.ship f s.tailer
        ⟨{ pos with txid := drawn s.counter others (s.pending.length-1) },
          some ((ck.stage o.word (merge s.pending).trim.pages (merge s.pending).commit).commitTo ck)⟩
        answer) restored' := by
  obtain ⟨hf,hpages⟩ := encodeIncremental_ok henc
  have hmap : PageMapOK o.header.pageSize (merge s.pending).commit (merge s.pending).trim.pages :=
    ⟨Patch.trim_ascending,hpages⟩
  have himage : (s.imageAt o s.consumed).apply (merge s.pending).trim = s.imageAt o s.txns.length :=
    Paged.Image.apply_trim.trans (h.absorb hne (le_refl _)).1
  have hpost := htracks.stage_post hmap
  have hcommit := htracks.commitTo hmap
  rw [show (⟨(merge s.pending).trim.pages,(merge s.pending).commit⟩ : Patch Bytes) =
    (merge s.pending).trim from rfl,himage] at hpost hcommit
  have hlen : counterAfter s.counter others s.pending.length =
      drawn s.counter others (s.pending.length-1) := by
    obtain ⟨n,hn⟩ := Nat.exists_eq_succ_of_ne_zero fun hz => hne (length_eq_zero_iff.mp hz)
    rw [hn]
    rfl
  have hatt : ∀ n,s.consumed ≤ n → Attests o.word skips (s.imageAt o n) f ∧
      (s.imageAt o n).apply f.patch = s.imageAt o s.txns.length :=
    fun n hn => h.attests hne henc rfl rfl rfl hpost hn
  have hstore : Sound o skips { s with
      stored := s.stored++[f]
      counter := counterAfter s.counter others s.pending.length } s.txns.length := h.store hatt
    (by rw [hf]; exact lt_drawn others 0) (by rw [hf]; exact drawn_mono others (Nat.zero_le _))
    (by rw [hf,hlen]; rfl)
  cases answer with
  | rejected stored =>
    cases stored with
    | false => exact ⟨restored,h.leak (le_counterAfter others _)⟩
    | true => exact ⟨s.txns.length,hstore⟩
  | accepted =>
    refine ⟨s.txns.length,(hstore.moveOn (hpos.setTxid _) hcommit).accept ?_⟩
    refine ⟨le_trans h.consumed_le h.restored_le,le_refl _,?_,?_,s.stored,[],rfl,?_⟩
    · rw [hf]
      exact htracks.chksum_eq
    · rw [hf]
      exact hpost
    · exact hstore.image

theorem Sound.sync {tail : List WalFrame} (others : ℕ → ℕ) (answer : OnLTX)
    (htail : Uncommitted o.header s.txns tail) :
    ∃ restored',Sound o skips (step o s (.sync tail others answer)) restored' := by
  obtain ⟨ck,hck,htracks⟩ := h.ck
  have htailer : s.tailer = ⟨s.tailer.pos,some ck⟩ := by rw [← hck]
  by_cases hne : s.pending = []
  · have hall : s.txns.take s.consumed = s.txns := by
      conv_rhs => rw [← s.take_append_pending,hne,append_nil]
    have hidle : s.tailer.sync o.word _ (drawn s.counter others) = _ :=
      Tailer.sync_idle (hall ▸ h.pos) htail
    refine ⟨restored,?_⟩
    rw [step,hidle]
    exact h
  · obtain ⟨pos,hpos,hsync⟩ := Tailer.sync_at o.word (drawn s.counter others)
      o.pageSize_ne_zero h.pos
      (by rwa [s.take_append_pending]) hne fun w hw => h.frames w (mem_of_mem_drop hw)
    rw [s.take_append_pending,Tailer.shipping,hck] at hsync
    rw [s.take_append_pending] at hpos
    have hkeep : (some ck).filter (fun ck => ck.pageSize = o.header.pageSize) = some ck :=
      Option.filter_some_pos (by simpa using htracks.pageSize_eq)
    rw [hkeep] at hsync
    rw [step,hsync]
    by_cases hnil : (merge s.pending).trim.pages = []
    · rw [if_pos hnil]
      have hmap : PageMapOK o.header.pageSize (merge s.pending).commit [] :=
        ⟨Pairwise.nil,fun _ he => absurd he not_mem_nil⟩
      have htrim : (merge s.pending).trim = ⟨[],(merge s.pending).commit⟩ :=
        congrArg (fun ps => Patch.mk ps _) hnil
      refine ⟨s.txns.length,(h.catchUp hne hnil).moveOn hpos ?_⟩
      rw [← (h.absorb hne (le_refl _)).1,← Paged.Image.apply_trim,htrim]
      exact htracks.commitTo hmap
    · rw [if_neg hnil]
      dsimp only [Tailer.attest]
      generalize henc : encodeIncremental _ _ _ = enc
      cases enc with
      | error e =>
        refine ⟨restored,?_⟩
        rw [← htailer]
        exact h.leak (le_counterAfter others s.pending.length)
      | ok f =>
        dsimp only
        rw [← htailer]
        exact h.shipped htracks hne hpos others answer henc

theorem Sound.step {a : StreamAction} (ha : Sqlite o skips s a) :
    ∃ restored',Sound o skips (PageStream.step o s a) restored' := by
  cases a with
  | commit w => exact ⟨restored,h.commit ha.1 ha.2⟩
  | sync tail others answer => exact h.sync others answer ha

theorem Sound.faithful : Faithful o s := by
  intro r hr
  have hp := h.passes r hr
  obtain ⟨pre,post,hsplit,himage⟩ := hp.split
  refine ⟨hp.pre_eq,hp.post_eq,?_⟩
  have hranges := h.ranges
  rw [hsplit] at hranges ⊢
  rw [hranges.select,← himage]
  have hprefix : pre++[r.file] <+: pre++r.file::post := ⟨post,by simp⟩
  exact materializeChain_ok o.pageSize_ne_zero o.full o.nonempty o.baselineTXID
    ((hsplit ▸ h.chain).of_initial hprefix)
    ((hranges.of_initial hprefix).verify fun p hp => absurd hp (by simp))

end PageStream

/-- Over every history of one log generation, with any grouping into passes and any answers to the
files shipped, every accepted file attests the database and its chain is restored to it. -/
theorem stream_faithful (o : StreamOrigin) (skips : Bool) {as : List StreamAction}
    (hrun : Permitted (PageStream.step o) (PageStream.Sqlite o skips) (PageStream.start o) as) :
    PageStream.Faithful o (as.foldl (PageStream.step o) (PageStream.start o)) := by
  obtain ⟨restored,h⟩ := hrun.invariant (I := fun s => ∃ restored,PageStream.Sound o skips s restored)
    (fun _ _ ⟨_,h⟩ ha => h.step ha) ⟨0,PageStream.sound_start⟩
  exact h.faithful

namespace StreamSample

open PageStream

def page (b : Byte) : Bytes := replicate 8 b

def origin : StreamOrigin where
  header := ⟨false,8,5,7,(1,2)⟩
  word p d := XorSum.flag ||| .ofNat (ByteMem.leNat d+p)
  image := Paged.Image.empty.apply ⟨[(1,page 0)],1⟩
  baselineTXID := 1
  pageSize_ne_zero := by decide
  full := by
    rintro p ⟨h1,h2,-⟩
    obtain rfl : p = 1 := Nat.le_antisymm h2 h1
    decide
  nonempty := by decide

def grow : Patch Bytes := ⟨[(2,page 3),(1,page 1)],2⟩
def shrink : Patch Bytes := ⟨[(1,page 2)],1⟩

/-- The first pass is rejected after its file was stored, with a frame of a transaction that did not
commit behind the log's end; the second ships both transactions again. -/
def actions : List StreamAction :=
  [.commit grow,.sync (origin.header.appendFrames
      (origin.header.endChecksum (1,2) (walWrites [grow])) [(2,0,page 9)]) (fun _ => 0) (.rejected true),
    .commit shrink,.sync [] (fun i => i) .accepted]

theorem grow_complete : grow.Complete false origin.image := by
  refine ⟨by decide,fun _ => by decide,fun p h1 h2 => .inl ?_,fun h => Bool.noConfusion h⟩
  obtain rfl : p = 2 := Nat.le_antisymm h2 h1
  decide

theorem shrink_complete : shrink.Complete false (origin.image.apply grow) := by
  refine ⟨by decide,fun _ => by decide,fun p h1 h2 => ?_,fun h => Bool.noConfusion h⟩
  exact absurd (Nat.lt_of_lt_of_le h1 h2) (by decide)

theorem actions_faithful :
    Permitted (step origin) (Sqlite origin false) (start origin) actions ∧
      (actions.foldl (step origin) (start origin)).accepted.map (fun r => (r.before,r.after)) = [(0,2)] ∧
      (actions.foldl (step origin) (start origin)).stored.map (fun f => (f.minTXID,f.maxTXID)) =
        [(2,2),(3,5)] ∧
      PageStream.Faithful origin (actions.foldl (step origin) (start origin)) := by
  have hrun : Permitted (step origin) (Sqlite origin false) (start origin) actions := by
    refine ⟨⟨by decide,grow_complete⟩,?_,⟨by decide,?_⟩,?_,trivial⟩
    · show Uncommitted _ _ _
      decide
    · rw [imageAt,txns_sync]
      exact shrink_complete
    · show Uncommitted _ _ _
      decide
  exact ⟨hrun,by decide,by decide,stream_faithful origin false hrun⟩

end StreamSample

end Syzy
