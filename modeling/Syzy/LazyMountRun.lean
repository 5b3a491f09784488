import Syzy.LazyMount

/-!
While the faults of a page and its writes stay apart, a page that is being faulted in has no completed
write and no write that runs, so the stored image is what the page may hold.
-/

namespace Syzy

open Machine Function List
open Function (update)

open ByteMem

namespace LazyMount

section Allowed

variable {first b : Byte} {a : ℕ} {log : List WriteEntry}

theorem Allowed.push (h : Allowed first a log b) (off : ℕ) (data : Bytes) :
    Allowed first a (⟨off,data,false⟩::log) b := by
  unfold Allowed
  split
  · exact h
  · exact .inr ⟨rfl,h⟩

theorem allowed_first (h : ∀ e ∈ log,e.byteAt a ≠ none → e.completed = false) :
    Allowed first a log first := by
  induction log with
  | nil => rfl
  | cons e log ih =>
    have hrest := ih fun e' he' => h e' (mem_cons_of_mem _ he')
    unfold Allowed
    split
    · exact hrest
    · rename_i v hv
      exact .inr ⟨h e mem_cons_self (by rw [hv]; exact Option.some_ne_none v),hrest⟩

theorem allowed_head {e : WriteEntry} (h : e.byteAt a = some b) : Allowed first a (e::log) b := by
  rw [Allowed,h]
  exact .inl rfl

theorem Allowed.complete {e : WriteEntry} (h : Allowed first a (e::log) b)
    (hb : ∀ v,e.byteAt a = some v → b = v) : Allowed first a (LazyMount.complete (e::log)) b := by
  have hbyte : ({ e with completed := true } : WriteEntry).byteAt a = e.byteAt a := rfl
  rw [LazyMount.complete,Allowed,hbyte]
  rw [Allowed] at h
  cases hv : e.byteAt a with
  | none => rwa [hv] at h
  | some v => exact .inl (hb v hv)

end Allowed

section Pages

variable {m : LazyManifest}

theorem page_iff {a g : ℕ} :
    a/m.pageSize = g ↔ g*m.pageSize ≤ a ∧ a < g*m.pageSize+m.pageSize := by
  have hpos := m.pageSize_pos
  rw [Nat.div_eq_iff hpos]
  omega

theorem covers_of_byteAt {e : WriteEntry} {a : ℕ} (h : e.byteAt a ≠ none) :
    e.off ≤ a ∧ a < e.off+e.data.length ∧ Covers m e.off e.data.length (a/m.pageSize) := by
  unfold WriteEntry.byteAt at h
  split_ifs at h with hle
  · have hlt : a-e.off < e.data.length := by
      by_contra hge
      exact h (getElem?_eq_none (by omega))
    exact ⟨hle,by omega,Nat.div_le_div_right hle,Nat.div_le_div_right (by omega)⟩
  · exact absurd rfl h

theorem byteAt_of_lt {e : WriteEntry} {a : ℕ} (hle : e.off ≤ a) (hlt : a < e.off+e.data.length) :
    e.byteAt a ≠ none := by
  rw [WriteEntry.byteAt,if_pos hle,getElem?_eq_getElem (by omega)]
  exact Option.some_ne_none _

theorem byteAt_of_covers {e : WriteEntry} {a : ℕ} (hoff : m.pageSize ∣ e.off)
    (hlen : m.pageSize ∣ e.data.length) (hne : e.data ≠ [])
    (h : Covers m e.off e.data.length (a/m.pageSize)) : e.byteAt a ≠ none := by
  obtain ⟨q,hq⟩ := hoff
  obtain ⟨r,hr⟩ := hlen
  have hpos := m.pageSize_pos
  have hr0 : 0 < r := by
    rcases Nat.eq_zero_or_pos r with rfl | hr0
    · exact absurd (length_eq_zero_iff.mp (by simpa using hr)) hne
    · exact hr0
  obtain ⟨hlo,hhi⟩ := h
  obtain ⟨h1,h2⟩ := (page_iff (m := m)).mp (rfl : a/m.pageSize = a/m.pageSize)
  generalize hg : a/m.pageSize = g at hlo hhi h1 h2
  rw [hq,Nat.mul_div_cancel_left _ hpos] at hlo
  have hlast : (e.off+e.data.length-1)/m.pageSize < q+r := by
    rw [Nat.div_lt_iff_lt_mul hpos,hq,hr]
    have hmul : (q+r)*m.pageSize = m.pageSize*q+m.pageSize*r := by ring
    have hge : 0 < m.pageSize*r := Nat.mul_pos hpos hr0
    omega
  refine byteAt_of_lt ?_ ?_
  · rw [hq]
    calc m.pageSize*q = q*m.pageSize := Nat.mul_comm _ _
      _ ≤ g*m.pageSize := Nat.mul_le_mul_right _ hlo
      _ ≤ a := h1
  · rw [hq,hr]
    calc a < g*m.pageSize+m.pageSize := h2
      _ = (g+1)*m.pageSize := by ring
      _ ≤ (q+r)*m.pageSize := Nat.mul_le_mul_right _ (by omega)
      _ = m.pageSize*q+m.pageSize*r := by ring

end Pages

variable {m : LazyManifest} {backing : ℕ → Byte} {present : ℕ → Bool}

/-- What the fault of page `g` rests on: no write of it has completed, and none runs. -/
structure Fault (m : LazyManifest) (present : ℕ → Bool) (f : LazyFile) (g : ℕ) : Prop where
  lt : g < m.commitPages
  absent : present g = false
  incomplete : ∀ e ∈ f.log,∀ a,a/m.pageSize = g → e.byteAt a ≠ none → e.completed = false
  unwritten : ∀ e ∈ f.writing,∀ a,a/m.pageSize = g → e.byteAt a = none

/-- Request `i` has the lock for this write of whole pages. -/
structure Writing (m : LazyManifest) (f : LazyFile) (i off : ℕ) (data : Bytes) : Prop where
  writer : f.writer = some i
  head : f.log.head? = some ⟨off,data,false⟩
  ne_nil : data ≠ []
  off_dvd : m.pageSize ∣ off
  len_dvd : m.pageSize ∣ data.length

def Ensured (m : LazyManifest) (f : LazyFile) (off g : ℕ) : Prop :=
  ∀ g',off/m.pageSize ≤ g' → g' < g → g' < m.commitPages → f.bitmap g' = true

def Marked (m : LazyManifest) (bits : ℕ → Bool) (b : Bool) (off len g : ℕ) : Prop :=
  ∀ g',Covers m off len g' → g' < g → g' < m.commitPages → bits g' = b

def Stored (f : LazyFile) (off : ℕ) (data : Bytes) (k : ℕ) : Prop :=
  ∀ i,i < k → i < data.length → data[i]? = some (f.backing (off+i))

def RequestOK (m : LazyManifest) (present : ℕ → Bool) (f : LazyFile) (i : ℕ) : LazyRequest → Prop
  | .read off len phase =>
    match phase with
    | .ensurePagesPresent g => Ensured m f off g
    | .fetchPage g => Ensured m f off g ∧ Fault m present f g
    | .pwrite g k => Ensured m f off g ∧ Fault m present f g ∧
        ∀ a,a/m.pageSize = g → a < g*m.pageSize+k → f.backing a = m.image a
    | .setPresent g => Ensured m f off g ∧ Fault m present f g ∧
        ∀ a,a/m.pageSize = g → f.backing a = m.image a
    | .setClean g => Ensured m f off (g+1) ∧ Fault m present f g ∧ f.bitmap g = true ∧
        ∀ a,a/m.pageSize = g → f.backing a = m.image a
    | .pread _ => ∀ a,off ≤ a → a < off+len →
        m.commitPages ≤ a/m.pageSize ∨ f.bitmap (a/m.pageSize) = true
    | _ => True
  | .write off data phase => m.pageSize ∣ off ∧ m.pageSize ∣ data.length ∧ match phase with
    | .clearClean g => Writing m f i off data ∧ Marked m f.cleanBitmap false off data.length g
    | .pwrite k => Writing m f i off data ∧
        Marked m f.cleanBitmap false off data.length m.commitPages ∧ Stored f off data k
    | .setPresent g => Writing m f i off data ∧
        Marked m f.cleanBitmap false off data.length m.commitPages ∧
        Stored f off data data.length ∧ Marked m f.bitmap true off data.length g ∧
        off/m.pageSize ≤ g
    | _ => True

structure FileOK (m : LazyManifest) (backing : ℕ → Byte) (present : ℕ → Bool) (f : LazyFile) : Prop where
  live : ∀ a,m.commitPages ≤ a/m.pageSize ∨ f.bitmap (a/m.pageSize) = true →
    Allowed (base m backing present a) a f.log (f.backing a)
  completed : ∀ e ∈ f.log,e.completed = true → ∀ a,e.byteAt a ≠ none →
    a/m.pageSize < m.commitPages → f.bitmap (a/m.pageSize) = true
  initial : ∀ g,present g = true → f.bitmap g = true
  clean : ∀ g,f.cleanBitmap g = true → g < m.commitPages ∧
    ∀ a,a/m.pageSize = g → f.backing a = m.image a

structure Sound (m : LazyManifest) (backing : ℕ → Byte) (present : ℕ → Bool) (s : LazyMount) : Prop where
  file : FileOK m backing present s.file
  requests : ∀ i r,s.requests[i]? = some r → RequestOK m present s.file i r

variable {r : LazyRequest}

theorem RequestOK.frame {f f' : LazyFile} {i : ℕ} (h : RequestOK m present f i r)
    (hbits : ∀ g,f.bitmap g = true → f'.bitmap g = true)
    (hfault : ∀ g,r.faulting = some g → Fault m present f g → Fault m present f' g ∧
      ∀ a,a/m.pageSize = g → f.backing a = m.image a → f'.backing a = m.image a)
    (hwrite : ∀ off data,Writing m f i off data → Writing m f' i off data ∧
      (∀ g,Covers m off data.length g → f.cleanBitmap g = false → f'.cleanBitmap g = false) ∧
      ∀ j,j < data.length → data[j]? = some (f.backing (off+j)) →
        data[j]? = some (f'.backing (off+j))) : RequestOK m present f' i r := by
  have hens : ∀ {off g},Ensured m f off g → Ensured m f' off g :=
    fun h g' h1 h2 h3 => hbits g' (h g' h1 h2 h3)
  cases r with
  | read off len phase =>
    cases phase with
    | ensurePagesPresent g => exact hens h
    | fetchPage g => exact ⟨hens h.1,(hfault g rfl h.2).1⟩
    | pwrite g k =>
      obtain ⟨hf,hb⟩ := hfault g rfl h.2.1
      exact ⟨hens h.1,hf,fun a ha hk => hb a ha (h.2.2 a ha hk)⟩
    | setPresent g =>
      obtain ⟨hf,hb⟩ := hfault g rfl h.2.1
      exact ⟨hens h.1,hf,fun a ha => hb a ha (h.2.2 a ha)⟩
    | setClean g =>
      obtain ⟨hf,hb⟩ := hfault g rfl h.2.1
      exact ⟨hens h.1,hf,hbits g h.2.2.1,fun a ha => hb a ha (h.2.2.2 a ha)⟩
    | pread k => exact fun a h1 h2 => (h a h1 h2).imp_right (hbits _)
    | done | failed => trivial
  | write off data phase =>
    obtain ⟨hoff,hlen,h⟩ := h
    refine ⟨hoff,hlen,?_⟩
    cases phase with
    | lock => trivial
    | clearClean g =>
      obtain ⟨hw,hc,-⟩ := hwrite off data h.1
      exact ⟨hw,fun g' h1 h2 h3 => hc g' h1 (h.2 g' h1 h2 h3)⟩
    | pwrite k =>
      obtain ⟨hw,hc,hb⟩ := hwrite off data h.1
      exact ⟨hw,fun g' h1 h2 h3 => hc g' h1 (h.2.1 g' h1 h2 h3),
        fun j h1 h2 => hb j h2 (h.2.2 j h1 h2)⟩
    | setPresent g =>
      obtain ⟨hw,hc,hb⟩ := hwrite off data h.1
      exact ⟨hw,fun g' h1 h2 h3 => hc g' h1 (h.2.1 g' h1 h2 h3),
        fun j h1 h2 => hb j h2 (h.2.2.1 j h1 h2),
        fun g' h1 h2 h3 => hbits g' (h.2.2.2.1 g' h1 h2 h3),h.2.2.2.2⟩
    | done | failed => trivial

theorem RequestOK.frame_other {f f' : LazyFile} {i : ℕ} (h : RequestOK m present f i r)
    (hi : f.writer ≠ some i) (hbits : ∀ g,f.bitmap g = true → f'.bitmap g = true)
    (hfault : ∀ g,r.faulting = some g → Fault m present f g → Fault m present f' g ∧
      ∀ a,a/m.pageSize = g → f.backing a = m.image a → f'.backing a = m.image a) :
    RequestOK m present f' i r :=
  h.frame hbits hfault fun _ _ hw => absurd hw.writer hi

theorem sound_set {s : LazyMount} {i : ℕ} {f : LazyFile} (hfile : FileOK m backing present f)
    (hown : RequestOK m present f i r)
    (hframe : ∀ j q,j ≠ i → s.requests[j]? = some q → RequestOK m present f j q) :
    Sound m backing present ⟨f,s.requests.set i r⟩ := by
  refine ⟨hfile,fun j q hq => ?_⟩
  rw [getElem?_set] at hq
  split_ifs at hq with hij hlt
  · rw [← Option.some.inj hq,← hij]
    exact hown
  · exact hframe j q (Ne.symm hij) hq

theorem Sound.own {s : LazyMount} (h : Sound m backing present s) {i : ℕ}
    (hown : RequestOK m present s.file i r) :
    Sound m backing present ⟨s.file,s.requests.set i r⟩ :=
  sound_set h.file hown fun j q _ hq => h.requests j q hq

section Steps

variable {s : LazyMount} {f : LazyFile} {i off len g : ℕ} {data : Bytes}

theorem Writing.writing (h : Writing m f i off data) : f.writing = some ⟨off,data,false⟩ := by
  rw [LazyFile.writing,h.writer,h.head]
  rfl

theorem Fault.not_covers (h : Fault m present f g) (hw : Writing m f i off data) :
    ¬Covers m off data.length g := by
  intro hcov
  have hpage : g*m.pageSize/m.pageSize = g := Nat.mul_div_cancel _ m.pageSize_pos
  refine byteAt_of_covers (e := ⟨off,data,false⟩) hw.off_dvd hw.len_dvd hw.ne_nil ?_
    (h.unwritten _ hw.writing (g*m.pageSize) hpage)
  rw [hpage]
  exact hcov

theorem Fault.allowed (h : Fault m present f g) {a : ℕ} (ha : a/m.pageSize = g) :
    Allowed (base m backing present a) a f.log (m.image a) := by
  have hbase : base m backing present a = m.image a := by
    rw [base,if_pos]
    rw [ha]
    exact ⟨h.lt,h.absent⟩
  rw [hbase]
  exact allowed_first fun e he hb => h.incomplete e he a ha hb

theorem Ensured.present_of_past (h : Ensured m f off g) (hpast : len = 0 ∨ Past m off len g) {a : ℕ}
    (hle : off ≤ a) (hlt : a < off+len) :
    m.commitPages ≤ a/m.pageSize ∨ f.bitmap (a/m.pageSize) = true := by
  have hlast : a/m.pageSize ≤ (off+len-1)/m.pageSize := Nat.div_le_div_right (by omega)
  rcases Nat.lt_or_ge (a/m.pageSize) m.commitPages with hc | hc
  · refine .inr (h _ (Nat.div_le_div_right hle) ?_ hc)
    rcases hpast with hzero | hp | hp
    · omega
    · exact hlast.trans_lt hp
    · exact hc.trans_le hp
  · exact .inl hc

variable {bits : ℕ → Bool} {k : ℕ} {r : LazyRequest}

theorem update_true {g' : ℕ} (h : bits g' = true) :
    update bits g true g' = true := by
  by_cases hg : g' = g
  · rw [hg,update_self]
  · rwa [update_of_ne hg]

theorem Ensured.succ (h : Ensured m f off g) (hg : f.bitmap g = true) : Ensured m f off (g+1) := by
  intro g' h1 h2 h3
  rcases Nat.lt_or_eq_of_le (Nat.le_of_lt_succ h2) with hlt | rfl
  · exact h g' h1 hlt h3
  · exact hg

theorem FileOK.fault (h : FileOK m backing present f) (hpast : ¬(len = 0 ∨ Past m off len g))
    (hbit : f.bitmap g = false) (hapart : ∀ e ∈ f.writing,¬Covers m e.off e.data.length g) :
    Fault m present f g where
  lt := by
    unfold Past at hpast
    omega
  absent := by
    by_contra hp
    rw [h.initial g (by simpa using hp)] at hbit
    exact Bool.noConfusion hbit
  incomplete := by
    intro e he a ha hb
    by_contra hc
    have hbit' := h.completed e he (by simpa using hc) a hb (by unfold Past at hpast; omega)
    rw [ha,hbit] at hbit'
    exact Bool.noConfusion hbit'
  unwritten := by
    intro e he a ha
    by_contra hb
    exact hapart e he (ha ▸ (covers_of_byteAt hb).2.2)

theorem page_getElem (i : ℕ) (hi : i < m.pageSize) :
    (read m.image (g*m.pageSize) m.pageSize)[i]? = some (m.image (g*m.pageSize+i)) := by
  rw [getElem?_read,if_pos hi]

theorem page_either (k n a : ℕ) :
    let b := store f.backing (g*m.pageSize+k)
      (((read m.image (g*m.pageSize) m.pageSize).drop k).take n)
    b a = f.backing a ∨ a/m.pageSize = g ∧ b a = m.image a := by
  intro b
  have heither : b a = f.backing a ∨ g*m.pageSize ≤ a ∧ _ :=
    store_either (read m.image (g*m.pageSize) m.pageSize)
  rcases heither with hsame | ⟨hle,hnew⟩
  · exact .inl hsame
  · have hlt : a-g*m.pageSize < m.pageSize := by
      by_contra hge
      rw [getElem?_read,if_neg hge] at hnew
      exact absurd hnew.symm (Option.some_ne_none _)
    rw [page_getElem _ hlt,Nat.add_sub_cancel' hle] at hnew
    exact .inr ⟨page_iff.mpr ⟨hle,by omega⟩,(Option.some.inj hnew).symm⟩

theorem page_stored {n a : ℕ}
    (h : ∀ a,a/m.pageSize = g → a < g*m.pageSize+k → f.backing a = m.image a)
    (ha : a/m.pageSize = g) (hk : a < g*m.pageSize+(k+n)) :
    store f.backing (g*m.pageSize+k)
      (((read m.image (g*m.pageSize) m.pageSize).drop k).take n) a = m.image a := by
  obtain ⟨hle,hlt⟩ := page_iff.mp ha
  have hchunk := store_chunk (m := f.backing) (k := k) (n := n)
    (read m.image (g*m.pageSize) m.pageSize) (fun i hi hlen => by
      rw [length_read] at hlen
      rw [page_getElem i hlen,h _ (page_iff.mpr ⟨by omega,by omega⟩) (by omega)]) hle hk
    (by rwa [length_read])
  rw [page_getElem _ (by omega),Nat.add_sub_cancel' hle] at hchunk
  exact (Option.some.inj hchunk).symm

theorem Sound.pwritePage (h : Sound m backing present s) (n : ℕ)
    (hr : s.requests[i]? = some (.read off len (.pwrite g k))) :
    Sound m backing present ⟨(readStep m s.file n off len (.pwrite g k)).1,
      s.requests.set i (.read off len (readStep m s.file n off len (.pwrite g k)).2)⟩ := by
  obtain ⟨hens,hfault,himage⟩ := h.requests i _ hr
  have heither := fun a => page_either (m := m) (f := s.file) (g := g) k (n+1) a
  have hstored : ∀ a,a/m.pageSize = g → a < g*m.pageSize+(k+(n+1)) → _ :=
    fun a => page_stored (f := s.file) (n := n+1) himage
  dsimp only [readStep] at heither ⊢
  have hfault' : ∀ g',Fault m present s.file g' → Fault m present { s.file with
      backing := store s.file.backing (g*m.pageSize+k)
        (((read m.image (g*m.pageSize) m.pageSize).drop k).take (n+1)) } g' :=
    fun g' hf => ⟨hf.lt,hf.absent,hf.incomplete,hf.unwritten⟩
  refine sound_set ⟨fun a hbit => ?_,h.file.completed,h.file.initial,fun g' hg' => ?_⟩ ?_ ?_
  · rcases heither a with hsame | ⟨ha,hnew⟩
    · exact (congrArg (Allowed _ a s.file.log) hsame).mpr (h.file.live a hbit)
    · exact (congrArg (Allowed _ a s.file.log) hnew).mpr (hfault.allowed ha)
  · refine ⟨(h.file.clean g' hg').1,fun a ha => ?_⟩
    rcases heither a with hsame | ⟨-,hnew⟩
    · exact hsame.trans ((h.file.clean g' hg').2 a ha)
    · exact hnew
  · by_cases hend : m.pageSize ≤ k+(n+1)
    · rw [if_pos hend]
      refine ⟨hens,hfault' g hfault,fun a ha => hstored a ha ?_⟩
      have := (page_iff.mp ha).2
      omega
    · rw [if_neg hend]
      exact ⟨hens,hfault' g hfault,hstored⟩
  · intro j q _ hq
    refine (h.requests j q hq).frame (fun _ hb => hb) (fun g' _ hf => ⟨hfault' g' hf,?_⟩) ?_
    · intro a _ himg
      rcases heither a with hsame | ⟨-,hnew⟩
      · exact hsame.trans himg
      · exact hnew
    · intro woff wdata hw
      refine ⟨⟨hw.writer,hw.head,hw.ne_nil,hw.off_dvd,hw.len_dvd⟩,fun _ _ hc => hc,?_⟩
      intro j' hj' hbyte
      rcases heither (woff+j') with hsame | ⟨hpage,-⟩
      · exact hbyte.trans (congrArg some hsame.symm)
      · refine absurd (hfault.unwritten _ hw.writing (woff+j') hpage) (byteAt_of_lt ?_ ?_)
        · exact Nat.le_add_right _ _
        · exact Nat.add_lt_add_left hj' _

theorem FileOK.setPresent (h : FileOK m backing present f)
    (hpage : ∀ a,a/m.pageSize = g → Allowed (base m backing present a) a f.log (f.backing a)) :
    FileOK m backing present { f with bitmap := update f.bitmap g true } where
  live := by
    intro a hbit
    by_cases ha : a/m.pageSize = g
    · exact hpage a ha
    · exact h.live a (by simpa only [update_of_ne ha] using hbit)
  completed := fun e he hc a hb hlt => update_true (h.completed e he hc a hb hlt)
  initial := fun g' hg' => update_true (h.initial g' hg')
  clean := h.clean

theorem RequestOK.setPresent (h : RequestOK m present f i r) :
    RequestOK m present { f with bitmap := update f.bitmap g true } i r :=
  h.frame (fun _ => update_true)
    (fun _ _ hf => ⟨⟨hf.lt,hf.absent,hf.incomplete,hf.unwritten⟩,fun _ _ himg => himg⟩)
    fun _ _ hw => ⟨⟨hw.writer,hw.head,hw.ne_nil,hw.off_dvd,hw.len_dvd⟩,fun _ _ hc => hc,
      fun _ _ hb => hb⟩

section

variable (h : Sound m backing present s)
include h

theorem Sound.readSetPresent (hr : s.requests[i]? = some (.read off len (.setPresent g))) :
    Sound m backing present ⟨{ s.file with bitmap := update s.file.bitmap g true },
      s.requests.set i (.read off len (.setClean g))⟩ := by
  obtain ⟨hens,hfault,himage⟩ := h.requests i _ hr
  refine sound_set (h.file.setPresent fun a ha => ?_) ?_ fun j q _ hq => (h.requests j q hq).setPresent
  · exact (congrArg (Allowed _ a s.file.log) (himage a ha)).mpr (hfault.allowed ha)
  · have hens' : Ensured m { s.file with bitmap := update s.file.bitmap g true } off g :=
      fun g' h1 h2 h3 => update_true (hens g' h1 h2 h3)
    have hg : update s.file.bitmap g true g = true := update_self ..
    exact ⟨hens'.succ hg,⟨hfault.lt,hfault.absent,hfault.incomplete,hfault.unwritten⟩,hg,himage⟩

theorem Sound.readSetClean (hr : s.requests[i]? = some (.read off len (.setClean g))) :
    Sound m backing present
      ⟨{ s.file with cleanBitmap := update s.file.cleanBitmap g true },
        s.requests.set i (.read off len (.ensurePagesPresent (g+1)))⟩ := by
  obtain ⟨hens,hfault,-,himage⟩ := h.requests i _ hr
  refine sound_set ⟨h.file.live,h.file.completed,h.file.initial,fun g' hg' => ?_⟩ hens ?_
  · by_cases hgg : g' = g
    · rw [hgg]
      exact ⟨hfault.lt,himage⟩
    · exact h.file.clean g' (by simpa only [update_of_ne hgg] using hg')
  · intro j q _ hq
    refine (h.requests j q hq).frame (fun _ hb => hb)
      (fun _ _ hf => ⟨⟨hf.lt,hf.absent,hf.incomplete,hf.unwritten⟩,fun _ _ himg => himg⟩) ?_
    intro woff wdata hw
    refine ⟨⟨hw.writer,hw.head,hw.ne_nil,hw.off_dvd,hw.len_dvd⟩,fun g' hcov hc => ?_,
      fun _ _ hb => hb⟩
    have hgg : g' ≠ g := fun hgg => hfault.not_covers hw (hgg ▸ hcov)
    exact (update_of_ne hgg _ _).trans hc

theorem Sound.read (n : ℕ) {phase : ReadPhase} (hr : s.requests[i]? = some (.read off len phase))
    (hapart : Apart m s (.advance i n)) :
    Sound m backing present ⟨(readStep m s.file n off len phase).1,
      s.requests.set i (.read off len (readStep m s.file n off len phase).2)⟩ := by
  have hreq := h.requests i _ hr
  cases phase with
  | ensurePagesPresent g =>
    rw [readStep]
    by_cases hpast : len = 0 ∨ Past m off len g
    · rw [if_pos hpast]
      exact h.own fun a hle hlt => hreq.present_of_past hpast hle hlt
    · rw [if_neg hpast]
      by_cases hbit : s.file.bitmap g = true
      · rw [if_pos hbit]
        exact h.own (hreq.succ hbit)
      · rw [if_neg hbit]
        rw [Apart,hr] at hapart
        have hbit' : s.file.bitmap g = false := by simpa using hbit
        exact h.own ⟨hreq,h.file.fault hpast hbit' (hapart hpast hbit')⟩
  | fetchPage g =>
    refine h.own ⟨hreq.1,hreq.2,fun a ha hlt => absurd (page_iff.mp ha).1 ?_⟩
    omega
  | pwrite g k => exact h.pwritePage n hr
  | setPresent g => exact h.readSetPresent hr
  | setClean g => exact h.readSetClean hr
  | pread k =>
    rw [readStep]
    split_ifs
    · exact h.own trivial
    · exact h.own hreq
  | done | failed => exact h.own trivial

theorem Sound.lock (hfree : s.file.writer = none) (hne : data ≠ [])
    (hr : s.requests[i]? = some (.write off data .lock))
    (hapart : ∀ r ∈ s.requests,∀ g ∈ r.faulting,¬Covers m off data.length g) :
    Sound m backing present
      ⟨{ s.file with writer := some i,log := ⟨off,data,false⟩::s.file.log },
        s.requests.set i (.write off data (.clearClean (off/m.pageSize)))⟩ := by
  obtain ⟨hoff,hlen,-⟩ := h.requests i _ hr
  refine sound_set ⟨fun a hbit => (h.file.live a hbit).push off data,fun e he hc => ?_,
    h.file.initial,h.file.clean⟩ ⟨hoff,hlen,⟨rfl,rfl,hne,hoff,hlen⟩,?_⟩ ?_
  · rcases mem_cons.mp he with rfl | he
    · exact Bool.noConfusion hc
    · exact h.file.completed e he hc
  · intro g' hcov hlt
    exact absurd hcov.1 (by omega)
  · intro j q _ hq
    refine (h.requests j q hq).frame_other (by rw [hfree]; exact (Option.some_ne_none j).symm)
      (fun _ hb => hb) fun g' hg' hf => ⟨?_,fun _ _ himg => himg⟩
    refine ⟨hf.lt,hf.absent,fun e he a ha hb => ?_,fun e he a ha => ?_⟩
    · rcases mem_cons.mp he with rfl | he
      · rfl
      · exact hf.incomplete e he a ha hb
    · cases he
      by_contra hb
      exact hapart q (mem_of_getElem? hq) g' hg' (ha ▸ (covers_of_byteAt hb).2.2)

end

theorem Writing.other (h : Writing m f i off data) {j : ℕ} (hj : j ≠ i) : f.writer ≠ some j := by
  rw [h.writer]
  exact fun he => hj (Option.some.inj he).symm

theorem Writing.log_eq (h : Writing m f i off data) : f.log = ⟨off,data,false⟩::f.log.tail :=
  eq_cons_of_mem_head? h.head

theorem Marked.succ {b : Bool} (h : Marked m bits b off len g) :
    Marked m (update bits g b) b off len (g+1) := by
  intro g' hcov hlt hc
  by_cases hg : g' = g
  · rw [hg,update_self]
  · rw [update_of_ne hg]
    exact h g' hcov (by omega) hc

theorem Marked.all {b : Bool} (h : Marked m bits b off len g) (hpast : Past m off len g) :
    Marked m bits b off len m.commitPages := by
  intro g' hcov hlt hc
  refine h g' hcov ?_ hc
  rcases hpast with hp | hp
  · exact hcov.2.trans_lt hp
  · exact hc.trans_le hp

theorem Sound.writeClearClean (h : Sound m backing present s)
    (hr : s.requests[i]? = some (.write off data (.clearClean g))) :
    Sound m backing present
      ⟨{ s.file with cleanBitmap := update s.file.cleanBitmap g false },
        s.requests.set i (.write off data (.clearClean (g+1)))⟩ := by
  obtain ⟨hoff,hlen,hw,hmarked⟩ := h.requests i _ hr
  refine sound_set ⟨h.file.live,h.file.completed,h.file.initial,fun g' hg' => ?_⟩
    ⟨hoff,hlen,⟨hw.writer,hw.head,hw.ne_nil,hoff,hlen⟩,hmarked.succ⟩ ?_
  · by_cases hgg : g' = g
    · rw [hgg] at hg'
      exact Bool.noConfusion ((update_self ..).symm.trans hg')
    · exact h.file.clean g' (by simpa only [update_of_ne hgg] using hg')
  · intro j q hj hq
    exact (h.requests j q hq).frame_other (hw.other hj) (fun _ hb => hb)
      fun _ _ hf => ⟨⟨hf.lt,hf.absent,hf.incomplete,hf.unwritten⟩,fun _ _ himg => himg⟩

theorem Sound.pwriteData (h : Sound m backing present s) (n : ℕ)
    (hr : s.requests[i]? = some (.write off data (.pwrite k))) :
    Sound m backing present ⟨(writeStep m s.file i n off data (.pwrite k)).1,
      s.requests.set i (.write off data (writeStep m s.file i n off data (.pwrite k)).2)⟩ := by
  obtain ⟨hoff,hlen,hw,hmarked,hstored⟩ := h.requests i _ hr
  have houtside : ∀ a,¬(off ≤ a ∧ a < off+data.length) →
      store s.file.backing (off+k) ((data.drop k).take (n+1)) a = s.file.backing a :=
    fun a ha => store_outside data ha
  have hstored' : ∀ j,j < k+(n+1) → j < data.length →
      data[j]? = some (store s.file.backing (off+k) ((data.drop k).take (n+1)) (off+j)) := by
    intro j hj hlt
    rw [← store_chunk data hstored (Nat.le_add_right off j) (Nat.add_lt_add_left hj off)
      (Nat.add_lt_add_left hlt off),Nat.add_sub_cancel_left]
  dsimp only [writeStep]
  refine sound_set ⟨fun a hbit => ?_,h.file.completed,h.file.initial,fun g' hg' => ?_⟩ ⟨hoff,hlen,?_⟩ ?_
  · rcases store_either (m := s.file.backing) (a := a) data with hsame | ⟨hle,hnew⟩
    · exact (congrArg (Allowed _ a s.file.log) hsame).mpr (h.file.live a hbit)
    · refine (congrArg (Allowed _ a · _) hw.log_eq).mpr (allowed_head ?_)
      rw [WriteEntry.byteAt,if_pos hle]
      exact hnew
  · obtain ⟨hlt,himage⟩ := h.file.clean g' hg'
    refine ⟨hlt,fun a ha => (houtside a ?_).trans (himage a ha)⟩
    rintro ⟨h1,h2⟩
    have hcov := (covers_of_byteAt (m := m) (byteAt_of_lt (e := ⟨off,data,false⟩) h1 h2)).2.2
    rw [ha] at hcov
    exact Bool.noConfusion ((hmarked g' hcov hlt hlt).symm.trans hg')
  · have hw' : Writing m { s.file with
        backing := store s.file.backing (off+k) ((data.drop k).take (n+1)) } i off data :=
      ⟨hw.writer,hw.head,hw.ne_nil,hoff,hlen⟩
    split_ifs with hend
    · refine ⟨hw',hmarked,fun j _ hj => hstored' j (by omega) hj,fun g' hcov hlt => ?_,
        Nat.le_refl _⟩
      exact absurd hcov.1 (Nat.not_le_of_lt hlt)
    · exact ⟨hw',hmarked,hstored'⟩
  · intro j q hj hq
    refine (h.requests j q hq).frame_other (hw.other hj) (fun _ hb => hb)
      fun g' _ hf => ⟨⟨hf.lt,hf.absent,hf.incomplete,hf.unwritten⟩,fun a ha himg => ?_⟩
    refine (houtside a ?_).trans himg
    rintro ⟨h1,h2⟩
    exact byteAt_of_lt (e := ⟨off,data,false⟩) h1 h2 (hf.unwritten _ hw.writing a ha)

theorem Stored.byteAt (h : Stored f off data data.length) {a : ℕ} {v : Byte} {c : Bool}
    (hv : (⟨off,data,c⟩ : WriteEntry).byteAt a = some v) : f.backing a = v := by
  have hne : (⟨off,data,c⟩ : WriteEntry).byteAt a ≠ none := by
    rw [hv]
    exact Option.some_ne_none v
  unfold WriteEntry.byteAt at hv hne
  split_ifs at hv hne with hle
  have hlt : a-off < data.length := (List.getElem?_eq_some_iff.mp hv).1
  have := h (a-off) hlt hlt
  rw [hv,Nat.add_sub_cancel' hle] at this
  exact (Option.some.inj this).symm

theorem Sound.writeSetPresent (h : Sound m backing present s) (hpast : ¬Past m off data.length g)
    (hr : s.requests[i]? = some (.write off data (.setPresent g))) :
    Sound m backing present ⟨{ s.file with bitmap := update s.file.bitmap g true },
      s.requests.set i (.write off data (.setPresent (g+1)))⟩ := by
  obtain ⟨hoff,hlen,hw,hmarked,hstored,hset,hfirst⟩ := h.requests i _ hr
  refine sound_set (h.file.setPresent fun a ha => ?_)
    ⟨hoff,hlen,⟨hw.writer,hw.head,hw.ne_nil,hoff,hlen⟩,hmarked,hstored,hset.succ,
      Nat.le_succ_of_le hfirst⟩
    fun j q _ hq => (h.requests j q hq).setPresent
  have hcov : Covers m off data.length (a/m.pageSize) := by
    rw [ha]
    exact ⟨hfirst,Nat.le_of_not_lt fun hlt => hpast (.inl hlt)⟩
  obtain ⟨v,hv⟩ := Option.ne_none_iff_exists'.mp
    (byteAt_of_covers (e := ⟨off,data,false⟩) hoff hlen hw.ne_nil hcov)
  rw [hw.log_eq,hstored.byteAt hv]
  exact allowed_head hv

theorem mem_complete {log : List WriteEntry} {e : WriteEntry} (h : e ∈ complete log) :
    e ∈ log ∨ ∃ e',log.head? = some e' ∧ e = { e' with completed := true } := by
  cases log with
  | nil => exact .inl h
  | cons e' log =>
    rcases mem_cons.mp h with rfl | h
    · exact .inr ⟨e',rfl,rfl⟩
    · exact .inl (mem_cons_of_mem _ h)

section

variable (h : Sound m backing present s)
include h

theorem Sound.complete (hpast : Past m off data.length g)
    (hr : s.requests[i]? = some (.write off data (.setPresent g))) :
    Sound m backing present ⟨{ s.file with writer := none,log := complete s.file.log },
      s.requests.set i (.write off data .done)⟩ := by
  obtain ⟨hoff,hlen,hw,hmarked,hstored,hset,-⟩ := h.requests i _ hr
  refine sound_set ⟨fun a hbit => ?_,fun e he hc a hb hlt => ?_,h.file.initial,h.file.clean⟩
    ⟨hoff,hlen,trivial⟩ fun j q hj hq => ?_
  · have hlive := h.file.live a hbit
    rw [hw.log_eq] at hlive
    refine (congrArg (fun l => Allowed _ a (LazyMount.complete l) _) hw.log_eq).mpr ?_
    exact hlive.complete fun v hv => hstored.byteAt hv
  · rcases mem_complete he with he | ⟨e',he',rfl⟩
    · exact h.file.completed e he hc a hb hlt
    · obtain rfl := Option.mem_unique hw.head he'
      exact hset.all hpast _ (covers_of_byteAt hb).2.2 hlt hlt
  · refine (h.requests j q hq).frame_other (hw.other hj) (fun _ hb => hb)
      fun g' _ hf => ⟨⟨hf.lt,hf.absent,fun e he a ha hb => ?_,fun e he => ?_⟩,fun _ _ himg => himg⟩
    · rcases mem_complete he with he | ⟨e',he',rfl⟩
      · exact hf.incomplete e he a ha hb
      · obtain rfl := Option.mem_unique hw.head he'
        exact absurd (hf.unwritten _ hw.writing a ha) hb
    · exact absurd he.symm (Option.some_ne_none e)

theorem Sound.giveUp (hr : s.requests[i]? = some (.write off data (.pwrite k))) :
    Sound m backing present ⟨{ s.file with writer := none },
      s.requests.set i (.write off data .failed)⟩ := by
  obtain ⟨hoff,hlen,hw,-⟩ := h.requests i _ hr
  refine sound_set ⟨h.file.live,h.file.completed,h.file.initial,h.file.clean⟩ ⟨hoff,hlen,trivial⟩
    fun j q hj hq => ?_
  refine (h.requests j q hq).frame_other (hw.other hj) (fun _ hb => hb)
    fun g' _ hf => ⟨⟨hf.lt,hf.absent,hf.incomplete,fun e he => ?_⟩,fun _ _ himg => himg⟩
  exact absurd he.symm (Option.some_ne_none e)

theorem Sound.write (n : ℕ) {phase : WritePhase}
    (hr : s.requests[i]? = some (.write off data phase)) (hapart : Apart m s (.advance i n)) :
    Sound m backing present ⟨(writeStep m s.file i n off data phase).1,
      s.requests.set i (.write off data (writeStep m s.file i n off data phase).2)⟩ := by
  have hreq := h.requests i _ hr
  cases phase with
  | lock =>
    rw [writeStep]
    by_cases hne : data = []
    · rw [if_pos hne]
      exact h.own ⟨hreq.1,hreq.2.1,trivial⟩
    · rw [if_neg hne]
      by_cases hfree : s.file.writer = none
      · rw [if_pos hfree]
        rw [Apart,hr] at hapart
        exact h.lock hfree hne hr hapart
      · rw [if_neg hfree]
        exact h.own hreq
  | clearClean g =>
    rw [writeStep]
    by_cases hpast : Past m off data.length g
    · rw [if_pos hpast]
      exact h.own ⟨hreq.1,hreq.2.1,hreq.2.2.1,hreq.2.2.2.all hpast,
        fun j hj => absurd hj (Nat.not_lt_zero j)⟩
    · rw [if_neg hpast]
      exact h.writeClearClean hr
  | pwrite k => exact h.pwriteData n hr
  | setPresent g =>
    rw [writeStep]
    by_cases hpast : Past m off data.length g
    · rw [if_pos hpast]
      exact h.complete hpast hr
    · rw [if_neg hpast]
      exact h.writeSetPresent hpast hr
  | done | failed => exact h.own hreq

theorem Sound.fail (hr : s.requests[i]? = some r) :
    Sound m backing present ⟨(failStep s.file r).1,s.requests.set i (failStep s.file r).2⟩ := by
  cases r with
  | read off len phase =>
    cases phase with
    | fetchPage | pwrite | pread => exact h.own trivial
    | _ => exact h.own (h.requests i _ hr)
  | write off data phase =>
    cases phase with
    | pwrite k => exact h.giveUp hr
    | _ => exact h.own (h.requests i _ hr)

theorem Sound.step {a : LazyAction} (ha : Apart m s a) :
    Sound m backing present (LazyMount.step m s a) := by
  cases a with
  | advance i n =>
    cases hr : s.requests[i]? with
    | none => simpa only [LazyMount.step,hr] using h
    | some r =>
      simp only [LazyMount.step,hr]
      cases r with
      | read off len phase => exact h.read n hr ha
      | write off data phase => exact h.write n hr ha
  | fail i =>
    cases hr : s.requests[i]? with
    | none => simpa only [LazyMount.step,hr] using h
    | some r =>
      simp only [LazyMount.step,hr]
      exact h.fail hr

end

theorem sound_init {reqs : List LazyRequest} (hfresh : ∀ r ∈ reqs,Fresh m r) :
    Sound m backing present (init backing present reqs) := by
  refine ⟨⟨fun a hbit => ?_,fun e he => absurd he not_mem_nil,fun _ hg => hg,
    fun g hg => Bool.noConfusion hg⟩,fun i r hr => ?_⟩
  · refine (if_neg ?_).symm
    rintro ⟨hlt,habsent⟩
    rcases hbit with hge | hbit
    · exact absurd hlt (Nat.not_lt_of_le hge)
    · exact Bool.noConfusion (habsent.symm.trans hbit)
  · have hr' := hfresh r (mem_of_getElem? hr)
    cases r with
    | read off len phase =>
      obtain rfl : phase = _ := hr'
      exact fun g' h1 h2 => absurd h1 (Nat.not_le_of_lt h2)
    | write off data phase =>
      obtain ⟨rfl,hoff,hlen⟩ := hr'
      exact ⟨hoff,hlen,trivial⟩

theorem Sound.keepsWrites (h : Sound m backing present s) : KeepsWrites m backing present s where
  reads := by
    intro off len k hmem a hle hlt
    obtain ⟨i,hi⟩ := mem_iff_getElem?.mp hmem
    exact h.file.live a (h.requests i _ hi a hle hlt)
  writes := by
    intro e he hc a hb
    refine h.file.live a ?_
    rcases Nat.lt_or_ge (a/m.pageSize) m.commitPages with hlt | hge
    · exact .inr (h.file.completed e he hc a hb hlt)
    · exact .inl hge
  clean := fun g _ hg => (h.file.clean g hg).2

end Steps

/-- While no page is faulted in during a write of it, no reader sees lost bytes and every page that is
marked clean is the manifest's. -/
theorem keepsWrites_of_apart (m : LazyManifest) (backing : ℕ → Byte) (present : ℕ → Bool)
    {reqs : List LazyRequest} (hfresh : ∀ r ∈ reqs,Fresh m r) {as : List LazyAction}
    (hrun : Permitted (step m) (Apart m) (init backing present reqs) as) :
    KeepsWrites m backing present (as.foldl (step m) (init backing present reqs)) :=
  (hrun.invariant (I := Sound m backing present) (fun _ _ h ha => h.step ha)
    (sound_init hfresh)).keepsWrites

end LazyMount

namespace LazyMountSample

open LazyMount

def manifest : LazyManifest := ⟨2,2,fun _ => 0,by decide⟩

/-- A read of the file and a write of its first page, over an empty backing file. -/
def mount : LazyMount :=
  init (fun _ => 0) (fun _ => false) [.read 0 4 (.ensurePagesPresent 0),.write 0 [1,1] .lock]

def reader (k : ℕ) : List LazyAction := replicate k (.advance 0 1)
def writer (k : ℕ) : List LazyAction := replicate k (.advance 1 1)

/-- The write returns before the read begins. -/
theorem keepsWrites_after_write : (∀ r ∈ mount.requests,Fresh manifest r) ∧
      Permitted (step manifest) (Apart manifest) mount (writer 6++reader 12) ∧
      KeepsWrites manifest (fun _ => 0) (fun _ => false)
        ((writer 6++reader 12).foldl (step manifest) mount) := by
  have hfresh : ∀ r ∈ mount.requests,Fresh manifest r := by
    intro r hr
    simp only [mount,init,mem_cons,not_mem_nil,or_false] at hr
    rcases hr with rfl | rfl
    · rfl
    · exact ⟨rfl,by decide,by decide⟩
  have hrun : Permitted (step manifest) (Apart manifest) mount (writer 6++reader 12) := by
    decide
  exact ⟨hfresh,hrun,keepsWrites_of_apart manifest _ _ hfresh hrun⟩

/-- A fault that has fetched the first page stores it over the write that returned meanwhile; a fault
that has stored the page marks it clean although the write has changed it. -/
theorem not_keepsWrites_of_slow_fault : (¬KeepsWrites manifest (fun _ => 0) (fun _ => false)
      ((reader 2++writer 6++reader 1).foldl (step manifest) mount)) ∧
      ¬KeepsWrites manifest (fun _ => 0) (fun _ => false)
        ((reader 4++writer 6++reader 1).foldl (step manifest) mount) := by
  constructor
  · intro h
    have hentry : (⟨0,[1,1],true⟩ : WriteEntry) ∈
        ((reader 2++writer 6++reader 1).foldl (step manifest) mount).file.log := by decide
    exact absurd (h.writes _ hentry rfl 0 (by decide)) (by decide)
  · intro h
    exact absurd (h.clean 0 (by decide) (by decide) 0 rfl) (by decide)

end LazyMountSample

end Syzy
