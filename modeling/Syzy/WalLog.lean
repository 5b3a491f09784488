import Syzy.TailerPass

/-!
The log as its writers leave it: a list of generations. Commits append to the live generation,
checkpoints copy its frames into the database, and a restart of a copied log opens the next one.
-/

namespace Syzy

open List

open Paged

structure WalGeneration where
  header : WalHeader
  txns : List (Patch Bytes)

/-- A transaction as SQLite commits it: its last frame is of a page of the database. -/
def SqliteCommit (w : Patch Bytes) : Prop := w.commit ≠ 0 ∧ ∃ e ∈ w.pages.getLast?,e.1 ≤ w.commit

instance (w : Patch Bytes) : Decidable (SqliteCommit w) := inferInstanceAs (Decidable (_ ∧ ∃ e ∈ _,_))

theorem SqliteCommit.pages_ne_nil {w : Patch Bytes} (h : SqliteCommit w) : w.pages ≠ [] := by
  obtain ⟨-,e,he,-⟩ := h
  intro hnil
  rw [hnil] at he
  exact absurd he (by simp)

theorem SqliteCommit.frames {txns : List (Patch Bytes)} (h : ∀ w ∈ txns,SqliteCommit w) :
    ∀ w ∈ txns,w.commit ≠ 0 ∧ w.pages ≠ [] := fun w hw => ⟨(h w hw).1,(h w hw).pages_ne_nil⟩

theorem trim_pages_ne_nil {txns : List (Patch Bytes)} (hne : txns ≠ []) (h : ∀ w ∈ txns,SqliteCommit w) :
    (merge txns).trim.pages ≠ [] := by
  obtain ⟨xs,w,rfl⟩ := eq_nil_or_concat' txns |>.resolve_left hne
  obtain ⟨-,e,he,hle⟩ := h w (mem_append_right _ mem_cons_self)
  have hmerge : merge (xs++[w]) = (merge xs).andThen w := by
    rw [merge_append (cons_ne_nil w []),merge_singleton]
  have hlast : lastWrite (merge (xs++[w])).trim.pages e.1 ≠ none := by
    rw [Patch.lastWrite_trim (by rw [hmerge]; exact hle),hmerge]
    refine lastWrite_ne_none_iff.mpr ⟨e,mem_append_right _ (mem_of_getLast? he),rfl⟩
  intro hnil
  rw [hnil] at hlast
  exact hlast rfl

theorem length_walWrites_lt (xs : List (Patch Bytes)) {ys : List (Patch Bytes)} (hne : ys ≠ []) (h : ∀ w ∈ ys,SqliteCommit w) :
    (walWrites xs).length < (walWrites (xs++ys)).length := by
  obtain ⟨w,ys,rfl⟩ := exists_cons_of_ne_nil hne
  have hpos := length_pos_of_ne_nil (h w mem_cons_self).pages_ne_nil
  simp only [length_walWrites,merge_pages,flatMap_append,length_append,flatMap_cons]
  omega

structure WalLog where
  past : List WalGeneration
  live : WalGeneration
  /-- The frames of the live generation that are in the database. -/
  backfilled : ℕ
  /-- The live header is in the file; a truncation takes the header away until the next commit. -/
  written : Bool

namespace WalLog

variable (l : WalLog)

def generations : List WalGeneration := l.past++[l.live]

def mxFrame : ℕ := (walWrites l.live.txns).length

def file (missing : Bool) (tail : List WalFrame) : Option WalFile :=
  if l.written then some (walFile l.live.header l.live.txns tail)
  else if missing then none
  else some ⟨none,tail⟩

def commit (w : Patch Bytes) : WalLog :=
  ⟨l.past,⟨l.live.header,l.live.txns++[w]⟩,l.backfilled,true⟩

def backfill (frames : ℕ) : WalLog :=
  { l with backfilled := max l.backfilled frames }

def restart (h : WalHeader) (written : Bool) : WalLog := ⟨l.past++[l.live],⟨h,[]⟩,0,written⟩

/-- When a connection may restart the log: every frame is in the database, and the first salt counts
the generations. -/
def Restarts (h : WalHeader) : Prop :=
  l.backfilled = l.mxFrame ∧ h.salt1 = l.live.header.salt1+1 ∧ h.pageSize ≠ 0 ∧ l.past.length+1 < 2^32

instance (l : WalLog) (h : WalHeader) : Decidable (l.Restarts h) := inferInstanceAs (Decidable (_ ∧ _))

end WalLog

inductive WalStep where
  | commit (w : Patch Bytes)
  | backfill (frames : ℕ)
  | restart (h : WalHeader) (written : Bool)

namespace WalStep

def run (l : WalLog) : WalStep → WalLog
  | .commit w => l.commit w
  | .backfill frames => l.backfill frames
  | .restart h written => l.restart h written

def Ok (l : WalLog) : WalStep → Prop
  | .commit w => SqliteCommit w
  | .backfill frames => frames ≤ l.mxFrame
  | .restart h _ => l.Restarts h

instance (l : WalLog) (a : WalStep) : Decidable (a.Ok l) := by
  cases a with
  | commit w => exact inferInstanceAs (Decidable (SqliteCommit w))
  | backfill frames => exact inferInstanceAs (Decidable (_ ≤ _))
  | restart h _ => exact inferInstanceAs (Decidable (l.Restarts h))

end WalStep

namespace WalLog

variable {l l' l'' : WalLog} {k : ℕ} {G : WalGeneration}

@[simp] theorem length_generations : l.generations.length = l.past.length+1 := by simp [generations]

@[simp] theorem generations_live : l.generations[l.past.length]? = some l.live := by simp [generations]

theorem generations_past (hk : k < l.past.length) : l.generations[k]? = l.past[k]? :=
  getElem?_append_left hk

theorem le_of_generations (h : l.generations[k]? = some G) : k ≤ l.past.length := by
  have := (List.getElem?_eq_some_iff.mp h).1
  rw [length_generations] at this
  omega

/-- The later log holds every generation of the earlier one, and only the live one has grown. -/
structure Extends (l l' : WalLog) : Prop where
  kept : ∀ {k G},l.generations[k]? = some G →
    ∃ G',l'.generations[k]? = some G' ∧ G'.header = G.header ∧ G.txns <+: G'.txns ∧
      (k < l.past.length → G' = G)
  le : l.past.length ≤ l'.past.length

theorem Extends.refl (l : WalLog) : l.Extends l :=
  ⟨fun {_} {G} h => ⟨G,h,rfl,prefix_refl _,fun _ => rfl⟩,Nat.le_refl _⟩

theorem extends_commit (l : WalLog) (w : Patch Bytes) : l.Extends (l.commit w) where
  kept := by
    intro k G hG
    rcases Nat.lt_or_eq_of_le (le_of_generations hG) with hk | rfl
    · have hpast : (l.commit w).generations[k]? = l.past[k]? := generations_past hk
      exact ⟨G,hpast.trans ((generations_past hk).symm.trans hG),rfl,prefix_refl _,fun _ => rfl⟩
    · obtain rfl := Option.mem_unique generations_live hG
      exact ⟨_,generations_live,rfl,prefix_append _ _,fun hlt => hlt.false.elim⟩
  le := Nat.le_refl _

theorem extends_restart (l : WalLog) (h : WalHeader) (written : Bool) :
    l.Extends (l.restart h written) where
  kept := by
    intro k G hG
    refine ⟨G,?_,rfl,prefix_refl _,fun _ => rfl⟩
    have hlt : k < l.generations.length := (List.getElem?_eq_some_iff.mp hG).1
    exact (getElem?_append_left hlt).trans hG
  le := by simp [restart]

theorem extends_run (l : WalLog) (a : WalStep) : l.Extends (a.run l) := by
  cases a with
  | commit w => exact extends_commit l w
  | backfill frames => exact ⟨(Extends.refl l).kept,Nat.le_refl _⟩
  | restart h written => exact extends_restart l h written

/-- What holds of every log: the first salts count the generations. -/
structure Sound (first : UInt32) (l : WalLog) : Prop where
  counted : ∀ {k G},l.generations[k]? = some G → G.header.salt1 = first+.ofNat k
  few : l.past.length < 2^32
  pageSize : l.live.header.pageSize ≠ 0
  committed : ∀ {k : ℕ} {G : WalGeneration},l.generations[k]? = some G → ∀ w ∈ G.txns,SqliteCommit w
  unwritten : l.written = false → l.live.txns = []

variable {first : UInt32}

theorem salt_inj {m n : ℕ} (hm : m < 2^32) (hn : n < 2^32)
    (h : first+.ofNat m = first+UInt32.ofNat n) : m = n := by
  have h := congrArg UInt32.toNat h
  simp only [UInt32.toNat_add,UInt32.toNat_ofNat'] at h
  omega

theorem salt_succ {m n : ℕ} (hle : m ≤ n) (hn : n < 2^32)
    (h : first+.ofNat n = first+UInt32.ofNat m+1) : n = m+1 := by
  have h := congrArg UInt32.toNat h
  simp only [UInt32.toNat_add,UInt32.toNat_ofNat',UInt32.toNat_one] at h
  omega

theorem Sound.eq_live (h : l.Sound first) (hG : l.generations[k]? = some G)
    (hsalt : l.live.header.salt1 = G.header.salt1) : k = l.past.length := by
  have hle := le_of_generations hG
  rw [h.counted generations_live,h.counted hG] at hsalt
  exact (salt_inj h.few (hle.trans_lt h.few) hsalt).symm

theorem Sound.eq_next (h : l.Sound first) (hG : l.generations[k]? = some G)
    (hsalt : l.live.header.salt1 = G.header.salt1+1) : l.past.length = k+1 := by
  rw [h.counted generations_live,h.counted hG] at hsalt
  exact salt_succ (le_of_generations hG) h.few hsalt

/-- A generation after a commit is one from before, or the live one with the transaction. -/
theorem generations_commit {w : Patch Bytes} (hG : (l.commit w).generations[k]? = some G) :
    l.generations[k]? = some G ∨ k = l.past.length ∧ G = ⟨l.live.header,l.live.txns++[w]⟩ := by
  rcases Nat.lt_or_eq_of_le (le_of_generations hG) with hk | rfl
  · have hpast : l.generations[k]? = l.past[k]? := generations_past hk
    exact .inl (hpast.trans ((generations_past hk).symm.trans hG))
  · exact .inr ⟨rfl,(Option.mem_unique generations_live hG).symm⟩

theorem generations_restart {hdr : WalHeader} {written : Bool}
    (hG : (l.restart hdr written).generations[k]? = some G) :
    l.generations[k]? = some G ∨ k = l.past.length+1 ∧ G = ⟨hdr,[]⟩ := by
  have hlen : (l.restart hdr written).past.length = l.past.length+1 := by simp [WalLog.restart]
  rcases Nat.lt_or_eq_of_le (le_of_generations hG) with hk | rfl
  · exact .inl ((generations_past hk).symm.trans hG)
  · exact .inr ⟨hlen,(Option.mem_unique generations_live hG).symm⟩

theorem Sound.commit (h : l.Sound first) {w : Patch Bytes} (hw : SqliteCommit w) :
    (l.commit w).Sound first where
  counted := by
    intro k G hG
    obtain hG | ⟨rfl,rfl⟩ := generations_commit hG
    · exact h.counted hG
    · have hlive := h.counted generations_live
      exact hlive
  few := h.few
  pageSize := h.pageSize
  committed := by
    intro k G hG v hv
    obtain hG | ⟨rfl,rfl⟩ := generations_commit hG
    · exact h.committed hG v hv
    · rcases mem_concat.mp hv with hv | rfl
      · exact h.committed generations_live v hv
      · exact hw
  unwritten hf := Bool.noConfusion hf

theorem Sound.restart (h : l.Sound first) {hdr : WalHeader} (hr : l.Restarts hdr) (written : Bool) :
    (l.restart hdr written).Sound first where
  counted := by
    intro k G hG
    obtain hG | ⟨rfl,rfl⟩ := generations_restart hG
    · exact h.counted hG
    · show hdr.salt1 = _
      rw [hr.2.1,h.counted generations_live]
      apply UInt32.toNat.inj
      simp only [UInt32.toNat_add,UInt32.toNat_ofNat',UInt32.toNat_one]
      omega
  few := by
    have := hr.2.2.2
    simpa [WalLog.restart] using this
  pageSize := hr.2.2.1
  committed := by
    intro k G hG v hv
    obtain hG | ⟨rfl,rfl⟩ := generations_restart hG
    · exact h.committed hG v hv
    · exact absurd hv not_mem_nil
  unwritten _ := rfl

theorem Sound.run (h : l.Sound first) {a : WalStep} (ha : a.Ok l) : (a.run l).Sound first := by
  cases a with
  | commit w => exact h.commit ha
  | backfill frames => exact ⟨h.counted,h.few,h.pageSize,h.committed,h.unwritten⟩
  | restart hdr written => exact h.restart ha written

end WalLog

end Syzy
