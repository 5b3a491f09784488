import Mathlib
import Syzy.Counter
import Syzy.Machine

/-!
Counter contributions that overflow a cell are put aside with their changeset and tried again in
rounds. A changeset lands as a whole or not at all.
-/

namespace Syzy

open List

theorem addInt64_eq_some {cur d sum : ℤ} (hcur : InInt64 cur) (hd : InInt64 d) :
    addInt64 cur d = some sum ↔ sum = cur+d ∧ InInt64 (cur+d) := by
  constructor
  · intro h
    by_cases hfits : InInt64 (cur+d)
    · rw [addInt64_of_inInt64 hfits] at h
      exact ⟨(Option.some.inj h).symm,hfits⟩
    · unfold InInt64 at hcur hd hfits
      simp only [addInt64,Int.bmod,Option.ite_none_left_eq_some] at h
      split_ifs at h <;> omega
  · rintro ⟨rfl,hfits⟩
    exact addInt64_of_inInt64 hfits

abbrev Contribution (κ : Type) := κ × { d : ℤ // InInt64 d }

structure CounterNode (κ : Type) where
  cells : κ → ℤ
  quarantine : List (List (Contribution κ))
  delivered : List (List (Contribution κ))

inductive RetryAction (κ : Type)
  | deliver (changeset : List (Contribution κ))
  | retry (entries : List (List (Contribution κ)))

namespace CounterNode

variable {κ : Type} [DecidableEq κ]

def applyChangeset (cells : κ → ℤ) : List (Contribution κ) → Option (κ → ℤ)
  | [] => some cells
  | c::cs => (addInt64 (cells c.1) c.2).bind fun sum =>
      applyChangeset (Function.update cells c.1 sum) cs

def attempt (s : CounterNode κ) (changeset : List (Contribution κ)) : CounterNode κ :=
  match applyChangeset s.cells changeset with
  | some cells => { s with cells := cells }
  | none => { s with quarantine := s.quarantine++[changeset] }

def step (s : CounterNode κ) : RetryAction κ → CounterNode κ
  | .deliver changeset => { s with delivered := s.delivered++[changeset] }.attempt changeset
  | .retry entries => entries.foldl attempt { s with quarantine := [] }

def InRounds (s : CounterNode κ) : RetryAction κ → Prop
  | .deliver _ => True
  | .retry entries => entries.Perm s.quarantine

def total (css : List (List (Contribution κ))) (k : κ) : ℤ :=
  ((css.flatten.filter fun c => c.1 = k).map fun c => c.2.1).sum

@[simp] theorem total_append (css css' : List (List (Contribution κ))) (k : κ) :
    total (css++css') k = total css k+total css' k := by
  simp [total]

theorem total_perm {css css' : List (List (Contribution κ))} (h : css.Perm css') (k : κ) :
    total css k = total css' k :=
  ((h.flatten.filter _).map _).sum_eq

/-- The cells, the quarantine and what a round still has to try together hold what was delivered. -/
structure Books (init : κ → ℤ) (todo : List (List (Contribution κ))) (s : CounterNode κ) : Prop where
  sum : ∀ k,s.cells k+total s.quarantine k+total todo k = init k+total s.delivered k
  fits : ∀ k,InInt64 (s.cells k)

variable {init cells cells' : κ → ℤ} {s : CounterNode κ} {cs : List (Contribution κ)}
  {todo q : List (List (Contribution κ))}

theorem applyChangeset_some (hfits : ∀ k,InInt64 (cells k))
    (h : applyChangeset cells cs = some cells') :
    ∀ k,cells' k = cells k+total [cs] k ∧ InInt64 (cells' k) := by
  induction cs generalizing cells with
  | nil =>
    cases h
    exact fun k => ⟨by simp [total],hfits k⟩
  | cons c cs ih =>
    obtain ⟨sum,hsum,hrest⟩ := Option.bind_eq_some_iff.mp h
    obtain ⟨rfl,hin⟩ := (addInt64_eq_some (hfits _) c.2.2).mp hsum
    intro k
    have hk := ih (fun k => by by_cases hk : k = c.1 <;> simp [hk,hin,hfits k])
      hrest k
    refine ⟨?_,hk.2⟩
    rw [hk.1]
    by_cases hc : c.1 = k
    · subst hc
      simp [total,add_assoc]
    · simp [total,hc,Ne.symm hc]

theorem Books.attempt (h : s.Books init (cs::todo)) : (s.attempt cs).Books init todo := by
  have hcons : ∀ k,total (cs::todo) k = total [cs] k+total todo k := total_append [cs] todo
  unfold CounterNode.attempt
  cases happly : applyChangeset s.cells cs with
  | some cells =>
    have hcells := applyChangeset_some h.fits happly
    refine ⟨fun k => ?_,fun k => (hcells k).2⟩
    have hk := h.sum k
    rw [hcons] at hk
    simp only [(hcells k).1]
    omega
  | none =>
    refine ⟨fun k => ?_,h.fits⟩
    rw [← h.sum k,total_append,hcons]
    dsimp only
    omega

theorem Books.foldl (h : s.Books init todo) : (todo.foldl CounterNode.attempt s).Books init [] := by
  induction todo generalizing s with
  | nil => exact h
  | cons cs todo ih => exact ih h.attempt

theorem Books.step (h : s.Books init []) {a : RetryAction κ} (ha : s.InRounds a) :
    (s.step a).Books init [] := by
  cases a with
  | deliver cs =>
    refine Books.attempt ⟨fun k => ?_,h.fits⟩
    have hk := h.sum k
    simp only [total_append] at hk ⊢
    simp only [total,flatten_nil,filter_nil,map_nil,sum_nil] at hk ⊢
    omega
  | retry entries =>
    refine Books.foldl ⟨fun k => ?_,h.fits⟩
    rw [← h.sum k,total_perm ha]
    simp [total]

theorem round_or (s : CounterNode κ) (entries : List (List (Contribution κ))) :
    (entries.foldl attempt s).quarantine.length < s.quarantine.length+entries.length ∨
      (entries.foldl attempt s).quarantine.length = s.quarantine.length+entries.length ∧
        ∀ cs ∈ entries,applyChangeset s.cells cs = none := by
  induction entries generalizing s with
  | nil => simp
  | cons cs entries ih =>
    have hrest := ih (s.attempt cs)
    rw [foldl_cons,length_cons]
    cases happly : applyChangeset s.cells cs with
    | some cells =>
      have hattempt : s.attempt cs = { s with cells := cells } := by simp [attempt,happly]
      rw [hattempt] at hrest ⊢
      left
      dsimp only at hrest
      omega
    | none =>
      have hattempt : s.attempt cs = { s with quarantine := s.quarantine++[cs] } := by
        simp [attempt,happly]
      rw [hattempt] at hrest ⊢
      simp only [length_append,length_singleton] at hrest
      rcases hrest with hlt | ⟨heq,hnone⟩
      · exact .inl (by omega)
      · exact .inr ⟨by omega,fun cs' hcs' => (mem_cons.mp hcs').elim (· ▸ happly) (hnone cs')⟩

theorem sum_le_of_nonpos {l : List ℤ} {x : ℤ} (h : ∀ y ∈ l,y ≤ 0) (hx : x ∈ l) : l.sum ≤ x :=
  single_le_sum (M := ℤᵒᵈ) h x hx

/-- Entries of one contribution each that are all stuck do not add up to a total that fits. -/
theorem total_of_stuck (hfits : ∀ k,InInt64 (cells k)) (hsingle : ∀ cs ∈ q,cs.length ≤ 1)
    (hstuck : ∀ cs ∈ q,applyChangeset cells cs = none) (hne : q ≠ []) :
    ∃ k,¬InInt64 (cells k+total q k) := by
  have hover : ∀ c ∈ q.flatten,¬InInt64 (cells c.1+c.2.1) := by
    intro c hc hin
    obtain ⟨cs,hcs,hmem⟩ := mem_flatten.mp hc
    obtain rfl : cs = [c] := by
      obtain ⟨c',rfl⟩ := length_eq_one_iff.mp
        (le_antisymm (hsingle cs hcs) (length_pos_of_mem hmem))
      rw [mem_singleton.mp hmem]
    have hnone := hstuck [c] hcs
    rw [applyChangeset,addInt64_of_inInt64 hin] at hnone
    cases hnone
  obtain ⟨cs,hcs⟩ := exists_mem_of_ne_nil q hne
  obtain ⟨c,hc⟩ : ∃ c,c ∈ q.flatten := by
    cases cs with
    | nil => exact absurd (hstuck [] hcs) (by simp [applyChangeset])
    | cons c cs => exact ⟨c,mem_flatten.mpr ⟨_,hcs,mem_cons_self⟩⟩
  have hmem : c.2.1 ∈ (q.flatten.filter fun c' => c'.1 = c.1).map fun c' => c'.2.1 :=
    mem_map.mpr ⟨c,mem_filter.mpr ⟨hc,by simp⟩,rfl⟩
  have hall : ∀ d ∈ (q.flatten.filter fun c' => c'.1 = c.1).map (fun c' => c'.2.1),
      InInt64 d ∧ ¬InInt64 (cells c.1+d) := by
    intro d hd
    obtain ⟨c',hc',rfl⟩ := mem_map.mp hd
    obtain ⟨hin,hkey⟩ := mem_filter.mp hc'
    have hkey : c'.1 = c.1 := by simpa using hkey
    exact ⟨c'.2.2,hkey ▸ hover c' hin⟩
  have hcell := hfits c.1
  obtain ⟨hd,hlast⟩ := hall _ hmem
  refine ⟨c.1,fun hin => ?_⟩
  unfold InInt64 at *
  unfold total at hin
  rcases le_or_gt 0 (cells c.1) with hsign | hsign
  · have hle := single_le_sum (fun d hd => by have hd := hall d hd; omega) _ hmem
    omega
  · have hle := sum_le_of_nonpos (fun d hd => by have hd := hall d hd; omega) hmem
    omega

/-- Once all is delivered, every round over a quarantine that is not empty applies an entry, and when
the quarantine is empty every cell holds its total. -/
theorem contributions_land {as : List (RetryAction κ)} (hinit : ∀ k,InInt64 (init k))
    (hrun : Machine.Permitted step InRounds ⟨init,[],[]⟩ as)
    (htotal : ∀ k,InInt64 (init k+total (as.foldl step ⟨init,[],[]⟩).delivered k))
    (hsingle : ∀ cs ∈ (as.foldl step ⟨init,[],[]⟩).quarantine,cs.length ≤ 1) :
    (∀ entries,entries.Perm (as.foldl step ⟨init,[],[]⟩).quarantine → entries ≠ [] →
        ((as.foldl step ⟨init,[],[]⟩).step (.retry entries)).quarantine.length < entries.length) ∧
      ((as.foldl step ⟨init,[],[]⟩).quarantine = [] → ∀ k,(as.foldl step ⟨init,[],[]⟩).cells k =
          init k+total (as.foldl step ⟨init,[],[]⟩).delivered k) := by
  have hbooks := hrun.invariant (I := Books init []) (fun _ _ h ha => h.step ha)
    ⟨fun k => by simp [total],hinit⟩
  generalize as.foldl step ⟨init,[],[]⟩ = s at *
  constructor
  · intro entries hperm hne
    rcases round_or { s with quarantine := [] } entries with hlt | ⟨-,hstuck⟩
    · simpa [step] using hlt
    · obtain ⟨k,hk⟩ := total_of_stuck hbooks.fits
        (fun cs hcs => hsingle cs (hperm.mem_iff.mp hcs)) hstuck hne
      refine absurd (htotal k) ?_
      rw [← hbooks.sum k,← total_perm hperm]
      simpa [total] using hk
  · intro hempty k
    rw [← hbooks.sum k,hempty]
    simp [total]

theorem inInt64_int64OfBytes (b : Bytes) : InInt64 (int64OfBytes b) := by
  have hle := Int.le_bmod (x := (beNat b : ℤ)) (m := 2^64) (by decide)
  have hlt := Int.bmod_lt (x := (beNat b : ℤ)) (m := 2^64) (by decide)
  unfold int64OfBytes InInt64
  omega

/-- The contribution that a value of a changed row carries to its column. -/
def contribution (v : ColValue) : Contribution ColumnID :=
  ⟨v.column,int64OfBytes v.bytes,inInt64_int64OfBytes v.bytes⟩

/-- The apply path folds a contribution into its cell as one turn of `applyChangeset`. -/
theorem resolveDelta_eq {tab : Table} {k : RowKey} {row : Row} {v : ColValue} {cur : ColumnID → ℤ}
    (hv : v.format = .delta) (hcol : (tab.columnByID v.column).isSome)
    (hrow : row v.column = .int (cur v.column)) (hcur : InInt64 (cur v.column)) :
    ((resolveDelta tab k row v).toOption.map fun w => int64OfBytes w.bytes) =
      (applyChangeset cur [contribution v]).map fun cells => cells v.column := by
  have hknown : ¬(tab.columnByID v.column).isNone := by simpa [Option.isSome_iff_ne_none] using hcol
  rw [resolveDelta,if_neg fun h => h.elim (fun h => h hv) hknown,hrow]
  simp only [applyChangeset,contribution]
  cases hsum : addInt64 (cur v.column) (int64OfBytes v.bytes) with
  | none => rfl
  | some sum =>
    obtain ⟨rfl,hin⟩ := (addInt64_eq_some hcur (inInt64_int64OfBytes v.bytes)).mp hsum
    simp [Except.toOption,int64OfBytes_encodeInt64 hin]

namespace RetrySample

instance decidableInInt64 (n : ℤ) : Decidable (InInt64 n) :=
  inferInstanceAs (Decidable (_ ∧ _))

def add (k : Bool) : Contribution Bool := ⟨k,1,by decide⟩
def take (k : Bool) : Contribution Bool := ⟨k,-1,by decide⟩
def fill (k : Bool) : Contribution Bool := ⟨k,2^63-1,by decide⟩

def start : CounterNode Bool := ⟨fun _ => 0,[],[]⟩

def waiting : List (RetryAction Bool) :=
  [.deliver [fill true],.deliver [add true],.deliver [take true]]

theorem waiting_lands : (waiting.foldl step start).quarantine = [[add true]] ∧
      ((waiting.foldl step start).step (.retry [[add true]])).quarantine.length < 1 := by
  have hq : (waiting.foldl step start).quarantine = [[add true]] := by decide
  refine ⟨hq,?_⟩
  have hrun : Machine.Permitted step InRounds start waiting := ⟨trivial,trivial,trivial,trivial⟩
  have hland := contributions_land (by decide) hrun (by decide) (by decide)
  exact hland.1 [[add true]] (Perm.of_eq hq.symm) (by decide)

/-- Two changesets over the same two full cells, each waiting for the other. -/
def crossed : List (RetryAction Bool) :=
  [.deliver [fill true,fill false],.deliver [add true,take false],.deliver [add false,take true]]

theorem crossed_stuck :
    let s := crossed.foldl step start
    (∀ k,InInt64 (start.cells k+total s.delivered k)) ∧
      s.quarantine = [[add true,take false],[add false,take true]] ∧
      (s.step (.retry s.quarantine)).quarantine = s.quarantine ∧
      ∀ k,(s.step (.retry s.quarantine)).cells k = s.cells k := by
  decide

end RetrySample

end CounterNode

end Syzy
