import Syzy.Machine

/-!
Topic membership over one mesh connection that stays up: the topics a node has open and those that the
remote node records for it. A topic is registered under a lock and announced after the lock is
released, by the goroutine that registered it or by the connection's setup.
-/

namespace Syzy

open List

variable {τ : Type} [DecidableEq τ]

abbrev TopicFrame (τ : Type) := τ × Bool

/-- `pending` holds the frames that calls and the setup have yet to enqueue, in no order. -/
structure TopicMesh (τ : Type) where
  channels : List τ
  hello : Option (List τ)
  admitted : Bool
  pending : List (TopicFrame τ)
  queue : List (TopicFrame τ)
  membership : List τ

inductive TopicAction (τ : Type)
  | channel (topic : τ)
  | close (topic : τ)
  | enqueue (i : ℕ)
  | buildHello
  | publish
  | deliver

namespace TopicMesh

def start : TopicMesh τ := ⟨[],none,false,[],[],[]⟩

def record (m : List τ) (f : TopicFrame τ) : List τ :=
  if f.2 then m.insert f.1 else m.filter (· ≠ f.1)

/-- A frame of a call goes to the peers that are registered when its turn comes. The hello carries the
topics open when it is built; the admission makes up for what changed since. -/
def step (s : TopicMesh τ) : TopicAction τ → TopicMesh τ
  | .channel t => if t ∈ s.channels then s
      else { s with channels := t::s.channels,pending := s.pending++[(t,true)] }
  | .close t => if t ∈ s.channels then
        { s with channels := s.channels.filter (· ≠ t),pending := s.pending++[(t,false)] }
      else s
  | .enqueue i => { s with
      pending := s.pending.eraseIdx i
      queue := if s.admitted then s.queue++(s.pending[i]?).toList else s.queue }
  | .buildHello => if s.hello.isSome then s
      else { s with hello := some s.channels,membership := s.channels }
  | .publish => match s.hello,s.admitted with
    | some hello,false => { s with
        admitted := true
        pending := s.pending++(s.channels.filter (· ∉ hello)).map (·,true)++
          (hello.filter (· ∉ s.channels)).map (·,false) }
    | _,_ => s
  | .deliver => match s.queue with
    | [] => s
    | f::fs => { s with queue := fs,membership := record s.membership f }

/-- A topic changes only when no frame of an earlier change of it is on its way to the queue. -/
def InTurn (s : TopicMesh τ) : TopicAction τ → Prop
  | .channel t => t ∉ s.channels → ∀ f ∈ s.pending,f.1 ≠ t
  | .close t => t ∈ s.channels → ∀ f ∈ s.pending,f.1 ≠ t
  | _ => True

instance (s : TopicMesh τ) (a : TopicAction τ) : Decidable (s.InTurn a) := by
  cases a <;> unfold InTurn <;> infer_instance

/-- The frames under way say what is open, and a topic without one is known at the end of the queue. -/
structure Sound (s : TopicMesh τ) : Prop where
  pending : ∀ f ∈ s.pending,f.2 = true ↔ f.1 ∈ s.channels
  known : s.admitted = true → ∀ t,(∀ f ∈ s.pending,f.1 ≠ t) →
    (t ∈ s.queue.foldl record s.membership ↔ t ∈ s.channels)
  early : s.admitted = false → s.queue = [] ∧ ∀ hello ∈ s.hello,s.membership = hello
  greeted : s.admitted = true → s.hello.isSome = true

theorem mem_record {m : List τ} {f : TopicFrame τ} {t : τ} :
    t ∈ record m f ↔ if t = f.1 then f.2 = true else t ∈ m := by
  unfold record
  split_ifs <;> simp_all

variable {s : TopicMesh τ}

theorem Sound.change (h : s.Sound) {t : τ} {open' : List τ} {b : Bool}
    (hturn : ∀ f ∈ s.pending,f.1 ≠ t) (hother : ∀ t',t' ≠ t → (t' ∈ open' ↔ t' ∈ s.channels))
    (ht : b = true ↔ t ∈ open') :
    ({ s with channels := open',pending := s.pending++[(t,b)] } : TopicMesh τ).Sound := by
  refine ⟨fun f hf => ?_,fun ha t' ht' => ?_,h.early,h.greeted⟩
  · obtain hf | rfl := mem_concat.mp hf
    · rw [h.pending f hf,hother f.1 (hturn f hf)]
    · exact ht
  · have hne : t' ≠ t := fun heq => ht' (t,b) (by simp) heq.symm
    rw [hother t' hne]
    exact h.known ha t' fun f hf => ht' f (mem_append_left _ hf)

theorem Sound.enqueue (h : s.Sound) (i : ℕ) : (s.step (.enqueue i)).Sound := by
  have hsub : ∀ f ∈ s.pending.eraseIdx i,f ∈ s.pending := fun f => mem_of_mem_eraseIdx
  cases ha : s.admitted with
  | false =>
    refine ⟨fun f hf => h.pending f (hsub f hf),fun hadm => ?_,fun _ => ?_,h.greeted⟩
    · exact absurd (ha.symm.trans hadm) (by decide)
    · simpa [step,ha] using h.early ha
  | true =>
    refine ⟨fun f hf => h.pending f (hsub f hf),fun _ t ht => ?_,fun hadm => ?_,h.greeted⟩
    · simp only [step,ha,if_true] at ht ⊢
      cases hi : s.pending[i]? with
      | none =>
        rw [eraseIdx_of_length_le (getElem?_eq_none_iff.mp hi)] at ht
        simpa using h.known ha t ht
      | some f =>
        have hf : f ∈ s.pending := mem_of_getElem? hi
        rw [Option.toList_some,foldl_append,foldl_cons,foldl_nil,mem_record]
        split_ifs with htf
        · rw [h.pending f hf,htf]
        · refine h.known ha t fun g hg => ?_
          obtain ⟨j,hj⟩ := mem_iff_getElem?.mp hg
          by_cases hji : j = i
          · rw [hji,hi] at hj
            rw [← Option.some.inj hj]
            exact fun heq => htf heq.symm
          · exact ht g (mem_eraseIdx_iff_getElem?.mpr ⟨j,hji,hj⟩)
    · exact absurd (ha.symm.trans hadm) (by decide)

theorem Sound.publish (h : s.Sound) : (s.step .publish).Sound := by
  cases hh : s.hello with
  | none => simpa [step,hh] using h
  | some hello =>
    cases ha : s.admitted with
    | true => simpa [step,hh,ha] using h
    | false =>
      obtain ⟨hq,hm⟩ := h.early ha
      have hm := hm hello hh
      simp only [step,hh,ha]
      refine ⟨fun f hf => ?_,fun _ t ht => ?_,fun hadm => (by cases hadm),fun _ => rfl⟩
      · simp only [mem_append,mem_map,mem_filter] at hf
        obtain (hf | ⟨t,ht,rfl⟩) | ⟨t,ht,rfl⟩ := hf
        · exact h.pending f hf
        · simpa using ht.1
        · simpa using ht.2
      · simp only [hq,hm,foldl_nil]
        by_contra hne
        by_cases hc : t ∈ s.channels
        · exact ht (t,true) (by simp_all) rfl
        · exact ht (t,false) (by simp_all) rfl

theorem Sound.step (h : s.Sound) {a : TopicAction τ} (ha : s.InTurn a) : (s.step a).Sound := by
  cases a with
  | channel t =>
    simp only [TopicMesh.step]
    split_ifs with ht
    · exact h
    · exact h.change (ha ht) (fun t' hne => by simp [hne]) (by simp)
  | close t =>
    simp only [TopicMesh.step]
    split_ifs with ht
    · exact h.change (ha ht) (fun t' hne => by simp [hne]) (by simp)
    · exact h
  | enqueue i => exact h.enqueue i
  | buildHello =>
    simp only [TopicMesh.step]
    split_ifs with hh
    · exact h
    · refine ⟨h.pending,fun hadm => absurd (h.greeted hadm) hh,fun hadm => ?_,fun _ => rfl⟩
      exact ⟨(h.early hadm).1,fun hello hm => Option.some.inj hm⟩
  | publish => exact h.publish
  | deliver =>
    cases hq : s.queue with
    | nil => simpa [TopicMesh.step,hq] using h
    | cons f fs =>
      simp only [TopicMesh.step,hq]
      refine ⟨h.pending,fun hadm t ht => ?_,fun hadm => ?_,h.greeted⟩
      · have hk := h.known hadm t ht
        rwa [hq,foldl_cons] at hk
      · exact absurd ((h.early hadm).1.symm.trans hq) (by simp)

theorem start_sound : (start : TopicMesh τ).Sound :=
  ⟨fun f hf => absurd hf (by simp [start]),fun h => absurd h (by simp [start]),
    fun _ => ⟨rfl,fun _ h => absurd h (by simp [start])⟩,fun h => absurd h (by simp [start])⟩

/-- Every interleaving of calls, setup and delivery, once nothing is under way. -/
theorem membership_converges {as : List (TopicAction τ)}
    (hrun : Machine.Permitted step InTurn start as)
    (hadmitted : (as.foldl step start).admitted = true)
    (hreturned : (as.foldl step start).pending = [])
    (hdelivered : (as.foldl step start).queue = []) (t : τ) :
    t ∈ (as.foldl step start).membership ↔ t ∈ (as.foldl step start).channels := by
  have h := hrun.invariant (I := Sound) (fun _ _ hs ha => hs.step ha) start_sound
  have hknown := h.known hadmitted t (by simp [hreturned])
  rwa [hdelivered] at hknown

namespace TopicSample

/-- A topic opened while the hello is under way, another one closed and opened again after it. -/
def setup : List (TopicAction ℕ) :=
  [.channel 1,.enqueue 0,.buildHello,.channel 2,.enqueue 0,.publish,.enqueue 0,.close 1,.enqueue 0,
    .channel 1,.deliver,.enqueue 0,.deliver,.close 2,.enqueue 0,.deliver,.deliver]

theorem setup_converges :
    Machine.Permitted step InTurn start setup ∧
      (setup.foldl step start).admitted = true ∧ (setup.foldl step start).pending = [] ∧
      (setup.foldl step start).queue = [] ∧
      (1 ∈ (setup.foldl step start).membership ↔ 1 ∈ (setup.foldl step start).channels) :=
  ⟨by decide,by decide,by decide,by decide,
    membership_converges (by decide) (by decide) (by decide) (by decide) 1⟩

/-- The topic's opener is overtaken, before its frame, by another goroutine's close. -/
def overtaken : List (TopicAction ℕ) :=
  [.buildHello,.publish,.channel 1,.channel 1,.close 1,.enqueue 1,.enqueue 0,.deliver,.deliver]

theorem closed_topic_stays :
    let s := overtaken.foldl step start
    s.admitted = true ∧ s.pending = [] ∧ s.queue = [] ∧ s.membership = [1] ∧ s.channels = [] := by
  decide

end TopicSample

end TopicMesh

end Syzy
