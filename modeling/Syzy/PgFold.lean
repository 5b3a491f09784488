import Syzy.Catalog
import Syzy.Machine
import Syzy.PgRow

/-!
Folding a committed transaction into records. The row changes of one key collapse to their first and
last effect; the records, applied where the transaction began, end where it ended.
-/

namespace Syzy.Pg

open Machine Function RowClock

inductive PgOp
  | ins
  | upd
  | del
deriving DecidableEq

/-- A decoded tuple: columns that the stream leaves out have no value. -/
abbrev PgTuple (κ : Type) := κ → Option ℤ

structure RowAccum (κ : Type) where
  firstOp : PgOp
  lastOp : PgOp
  image : Option (PgTuple κ)
  oldImage : PgTuple κ

inductive KeyOp (κ : Type)
  | ins (image : PgTuple κ)
  | upd (image old : PgTuple κ)
  | del

def KeyOp.op {κ : Type} : KeyOp κ → PgOp
  | ins _ => .ins
  | upd _ _ => .upd
  | del => .del

def mergeImage {κ : Type} (base : Option (PgTuple κ)) (overlay : PgTuple κ) : PgTuple κ :=
  base.elim overlay fun b c => (overlay c).or (b c)

namespace RowAccum

variable {κ : Type}

def feed (a : Option (RowAccum κ)) (o : KeyOp κ) : RowAccum κ where
  firstOp := a.elim o.op firstOp
  lastOp := o.op
  image := match o with
    | .ins image => some (mergeImage (a.bind RowAccum.image) image)
    | .upd image _ => some (mergeImage (a.bind RowAccum.image) image)
    | .del => none
  oldImage := a.elim (match o with
    | .upd _ old => old
    | _ => fun _ => none) oldImage

end RowAccum

def overlay {κ : Type} (r : PgImage κ) (t : PgTuple κ) : PgImage κ := fun c => (t c).getD (r c)

/-- A row change of a transaction; an update may move the row to another key. -/
inductive TxnOp (π κ : Type)
  | insert (pk : π) (image : PgImage κ)
  | update (pk newPK : π) (image old : PgTuple κ)
  | delete (pk : π)

namespace TxnOp

variable {π κ : Type} [DecidableEq π]

def feeds (k : π) : TxnOp π κ → List (KeyOp κ)
  | insert pk image => if pk = k then [.ins fun c => some (image c)] else []
  | update pk newPK image old =>
    if pk = newPK then if pk = k then [.upd image old] else []
    else (if pk = k then [.del] else [])++if newPK = k then [.ins image] else []
  | delete pk => if pk = k then [.del] else []

abbrev PgTable (π κ : Type) := π → Option (PgImage κ)

def run (t : PgTable π κ) : TxnOp π κ → PgTable π κ
  | insert pk image => Function.update t pk (some image)
  | update pk newPK image _ =>
    Function.update (Function.update t pk none) newPK ((t pk).map fun r => overlay r image)
  | delete pk => Function.update t pk none

/-- The change is one of the table: it inserts an absent row and updates or deletes a present one, and
the old tuple holds its values, those of the counters among them. -/
def Fits (sh : PgShape κ) (t : PgTable π κ) : TxnOp π κ → Prop
  | insert pk _ => t pk = none
  | update pk newPK _ old => ∃ r,t pk = some r ∧ (newPK ≠ pk → t newPK = none) ∧
      (∀ c v,old c = some v → v = r c) ∧ ∀ c,sh.counter c = true → (old c).isSome = true
  | delete pk => (t pk).isSome = true

/-- An update that moves a row carries all of its columns. -/
def MovesWhole : TxnOp π κ → Prop
  | update pk newPK image _ => pk ≠ newPK → ∀ c,(image c).isSome = true
  | _ => True

end TxnOp

open TxnOp

variable {π κ : Type} [DecidableEq π] [Fintype κ]

def accumulate (k : π) (ops : List (TxnOp π κ)) : Option (RowAccum κ) :=
  (ops.flatMap (feeds k)).foldl (fun a o => some (RowAccum.feed a o)) none

/-- The contribution that takes a counter from one value to another; 64-bit subtraction that wraps is an
error. -/
def counterDelta (old new : ℤ) : Option ℤ :=
  let delta := (new-old).bmod (2^64)
  if (0 < old ∧ new < delta) ∨ (old < 0 ∧ delta < new) then none else some delta

theorem counterDelta_of_inInt64 {old new : ℤ} (h : InInt64 (new-old)) :
    counterDelta old new = some (new-old) := by
  rw [counterDelta,bmod_of_inInt64 h]
  exact if_neg (by omega)

/-- What a record carries of a column. A counter without an old value is an error, and so is one whose
contribution does not fit. -/
def changedCell (counter : Bool) : Option ℤ → Option ℤ → Option (Option PgValue)
  | _,none => some none
  | none,some v => if counter then none else some (some (.abs v))
  | some o,some v =>
    if o = v then some none
    else if counter then (counterDelta o v).map fun d => some (.delta d)
    else some (some (.abs v))

def cellChanged (sh : PgShape κ) (old new : PgTuple κ) : Option (PgPatch κ) :=
  if ∃ c,changedCell (sh.counter c) (old c) (new c) = none then none
  else some fun c => (changedCell (sh.counter c) (old c) (new c)).getD none

/-- The clock of a cell-group update: the carried columns' stamps, or the row's if it carries them all. -/
def stageUpdate (stamp : Stamp) (rs : RowClock κ) (diff : PgPatch κ) : RowClock κ → RowClock κ :=
  if diff.covers then fun k => k.putCleared rs.nextLiveCL stamp
  else fun k => (if rs.cl < rs.nextLiveCL then k.putCleared rs.nextLiveCL Stamp.zero
    else k).putCellStamps stamp fun c => (diff c).any fun v => !v.isDelta

/-- The records of one key and what they make of its clock; no record if nothing is left. -/
def foldRow (sh : PgShape κ) (stamp : Stamp) (rs : RowClock κ) (a : RowAccum κ) :
    Option (List (PgRecord κ) × (RowClock κ → RowClock κ)) :=
  let image : PgPatch κ := fun c => (a.image.bind fun i => i c).map .abs
  match a.lastOp,a.firstOp with
  | .del,.ins => some ([],id)
  | .del,_ => some ([.delete rs.tombCL],fun k => k.putCleared rs.tombCL stamp)
  | _,.del => some ([.delete rs.tombCL,.insert (rs.tombCL+1) image],
      fun k => k.putCleared (rs.tombCL+1) stamp)
  | _,.upd =>
    if sh.cellGroup then
      (cellChanged sh a.oldImage (a.image.getD fun _ => none)).map fun diff =>
        if PgPatch.empty diff then ([],id)
        else ([.update rs.nextLiveCL diff],stageUpdate stamp rs diff)
    else some ([.update rs.nextLiveCL image],fun k => k.putCleared rs.nextLiveCL stamp)
  | _,.ins => some ([.insert rs.nextLiveCL image],fun k => k.putCleared rs.nextLiveCL stamp)

def foldKey (sh : PgShape κ) (stamp : Stamp) (clocks : π → RowClock κ) (ops : List (TxnOp π κ)) (k : π) :
    Option (List (PgRecord κ) × RowClock κ) :=
  match accumulate k ops with
  | none => some ([],clocks k)
  | some a => (foldRow sh stamp (clocks k) a).map fun p => (p.1,p.2 (clocks k))

/-- The first change of the key is an update in place, from which its record is a difference. -/
def UpdatedFirst (k : π) (ops : List (TxnOp π κ)) : Prop :=
  (ops.flatMap (feeds k)).head?.map KeyOp.op = some .upd

/-- The clock of a row that a transaction is stamped over: the stamp is above it, row-group tables have
no overrides, and in a cell-group table the clock is live exactly when the row is there. -/
structure Stampable (sh : PgShape κ) (stamp : Stamp) (row : Option (PgImage κ)) (rs : RowClock κ) : Prop where
  base : rs.base < stamp
  cells : ∀ c s,rs.cells c = some s → s < stamp
  overrides : sh.cellGroup = false → rs.cells = fun _ => none
  live : sh.cellGroup = true → (rs.isLive = true ↔ row.isSome = true)

namespace RowClock

variable {rs : RowClock κ} {stamp : Stamp} {cl : ℕ}

omit [Fintype κ] in
theorem tombCL_gt (rs : RowClock κ) : rs.cl < rs.tombCL := by
  unfold tombCL isLive
  split_ifs <;> omega

omit [Fintype κ] in
theorem nextLiveCL_ge (rs : RowClock κ) : rs.cl ≤ rs.nextLiveCL := by
  unfold nextLiveCL
  split_ifs <;> omega

omit [Fintype κ] in
theorem dominatedBy_of_lt (h : rs.cl < cl) : rs.dominatedBy cl stamp = true := by
  simp [dominatedBy,h,Nat.ne_of_gt h]

omit [Fintype κ] in
theorem dominatedBy_of_le (h : rs.cl ≤ cl) (hb : rs.base < stamp) : rs.dominatedBy cl stamp = true := by
  obtain h | rfl := Nat.lt_or_eq_of_le h
  · exact dominatedBy_of_lt h
  · simpa [dominatedBy,Stamp.dominates_iff] using hb

omit [Fintype κ] in
theorem dominatedBy_iff : rs.dominatedBy cl stamp = true ↔ rs.cl < cl ∨ rs.cl = cl ∧ rs.base < stamp := by
  unfold dominatedBy
  split_ifs with h
  · simp [Ne.symm h]
  · simp [not_not.mp h,Stamp.dominates_iff]

omit [Fintype κ] in
theorem dominatedBy_false_iff :
    rs.dominatedBy cl stamp = false ↔ cl < rs.cl ∨ cl = rs.cl ∧ stamp ≤ rs.base := by
  rw [← Bool.not_eq_true,dominatedBy_iff]
  constructor
  · intro h
    obtain hlt | heq := Nat.lt_or_eq_of_le (Nat.le_of_not_lt fun hlt => h (.inl hlt))
    · exact .inl hlt
    · exact .inr ⟨heq,le_of_not_gt fun hb => h (.inr ⟨heq.symm,hb⟩)⟩
  · rintro (hlt | ⟨rfl,hle⟩) (h | ⟨h,hb⟩)
    · omega
    · omega
    · omega
    · exact absurd hb (not_lt.mpr hle)

omit [Fintype κ] in
theorem putRowState_of_lt (h : rs.cl < cl) : rs.putRowState cl stamp = ⟨cl,stamp,fun _ => none⟩ := by
  rw [putRowState,if_pos (dominatedBy_of_lt h),if_pos h]

omit [Fintype κ] in
theorem putCleared_of_dominated (h : rs.dominatedBy cl stamp = true) :
    rs.putCleared cl stamp = ⟨cl,stamp,fun _ => none⟩ := if_pos h

omit [Fintype κ] in
theorem putCleared_cl (h : rs.cl ≤ cl) (s : Stamp) : (rs.putCleared cl s).cl = cl := by
  unfold putCleared
  split_ifs with hd
  · rfl
  · obtain hlt | heq := Nat.lt_or_eq_of_le h
    · exact absurd (dominatedBy_of_lt hlt) hd
    · exact heq

omit [Fintype κ] in
theorem putRowState_eq_putCleared (h : rs.cells = fun _ => none) :
    rs.putRowState cl stamp = rs.putCleared cl stamp := by
  simp [putRowState,putCleared,h]

end RowClock

section Key

variable {sh : PgShape κ} {stamp : Stamp} {rs : RowClock κ} {pre post : Option (PgImage κ)}
  {r₀ : PgImage κ}

/-- An accumulated row stands for the change from one row to another. -/
structure Collapses (sh : PgShape κ) (pre post : Option (PgImage κ)) (a : RowAccum κ) : Prop where
  first : a.firstOp = .ins ↔ pre = none
  last : a.lastOp = .del ↔ post = none
  deleted : a.lastOp = .del → a.image = none
  whole : a.firstOp ≠ .upd → ∀ r,post = some r → a.image = some fun c => some (r c)
  partly : a.firstOp = .upd → ∀ r₀ r,pre = some r₀ → post = some r →
    ∃ i,a.image = some i ∧ overlay r₀ i = r
  old : ∀ r₀,pre = some r₀ → ∀ c v,a.oldImage c = some v → v = r₀ c
  counters : a.firstOp = .upd → ∀ c,sh.counter c = true → (a.oldImage c).isSome = true

/-- One change of a key's row, as the fold is fed it. -/
inductive KeyStep (sh : PgShape κ) : Option (PgImage κ) → KeyOp κ → Option (PgImage κ) → Prop
  | ins (r : PgImage κ) : KeyStep sh none (.ins fun c => some (r c)) (some r)
  | upd (r : PgImage κ) (image old : PgTuple κ) (hold : ∀ c v,old c = some v → v = r c)
    (hcounter : ∀ c,sh.counter c = true → (old c).isSome = true) :
    KeyStep sh (some r) (.upd image old) (some (overlay r image))
  | del (r : PgImage κ) : KeyStep sh (some r) .del none

omit [Fintype κ] in
theorem feeds_step {t : PgTable π κ} {op : TxnOp π κ} (hfits : op.Fits sh t) (hwhole : op.MovesWhole)
    (k : π) : feeds k op = [] ∧ op.run t k = t k ∨
      ∃ o,feeds k op = [o] ∧ KeyStep sh (t k) o (op.run t k) := by
  cases op with
  | insert pk image =>
    by_cases hk : pk = k
    · subst hk
      refine .inr ⟨_,if_pos rfl,?_⟩
      rw [show t pk = none from hfits,TxnOp.run,update_self]
      exact .ins image
    · exact .inl ⟨if_neg hk,update_of_ne (Ne.symm hk) _ _⟩
  | delete pk =>
    by_cases hk : pk = k
    · subst hk
      obtain ⟨r,hr⟩ := Option.isSome_iff_exists.mp hfits
      refine .inr ⟨_,if_pos rfl,?_⟩
      rw [hr,TxnOp.run,update_self]
      exact .del r
    · exact .inl ⟨if_neg hk,update_of_ne (Ne.symm hk) _ _⟩
  | update pk newPK image old =>
    obtain ⟨r,hr,hnew,hold,hcounter⟩ := hfits
    by_cases hmove : pk = newPK
    · subst hmove
      by_cases hk : pk = k
      · subst hk
        refine .inr ⟨_,by rw [feeds,if_pos rfl,if_pos rfl],?_⟩
        rw [TxnOp.run,update_self,hr]
        exact .upd r image old hold hcounter
      · refine .inl ⟨by rw [feeds,if_pos rfl,if_neg hk],?_⟩
        rw [TxnOp.run,update_of_ne (Ne.symm hk),update_of_ne (Ne.symm hk)]
    · by_cases hk : pk = k
      · subst hk
        refine .inr ⟨.del,by simp [feeds,hmove,Ne.symm hmove],?_⟩
        rw [TxnOp.run,update_of_ne hmove,update_self,hr]
        exact .del r
      · by_cases hk' : newPK = k
        · subst hk'
          have himage : image = fun c => some (overlay r image c) := by
            funext c
            obtain ⟨v,hv⟩ := Option.isSome_iff_exists.mp (hwhole hmove c)
            simp [overlay,hv]
          refine .inr ⟨.ins image,by simp [feeds,hmove],?_⟩
          rw [TxnOp.run,update_self,hr,hnew (Ne.symm hmove)]
          exact himage ▸ .ins (overlay r image)
        · refine .inl ⟨by simp [feeds,hmove,hk,hk'],?_⟩
          rw [TxnOp.run,update_of_ne (Ne.symm hk'),update_of_ne (Ne.symm hk)]

omit [Fintype κ] in
theorem Collapses.feed {cur cur' : Option (PgImage κ)} {a : Option (RowAccum κ)} {o : KeyOp κ}
    (ha : a.elim (cur = pre) (Collapses sh pre cur)) (ho : KeyStep sh cur o cur') :
    Collapses sh pre cur' (RowAccum.feed a o) := by
  cases a with
  | none =>
    obtain rfl : cur = pre := ha
    cases ho with
    | ins r => exact ⟨by simp [RowAccum.feed,KeyOp.op],by simp [RowAccum.feed,KeyOp.op],
        by simp [RowAccum.feed,KeyOp.op],by simp [RowAccum.feed,mergeImage],by simp [RowAccum.feed,KeyOp.op],
        by simp,by simp [RowAccum.feed,KeyOp.op]⟩
    | upd r image old hold hcounter =>
      refine ⟨by simp [RowAccum.feed,KeyOp.op],by simp [RowAccum.feed,KeyOp.op],
        by simp [RowAccum.feed,KeyOp.op],by simp [RowAccum.feed,KeyOp.op],?_,?_,fun _ => hcounter⟩
      · rintro - r₀ r' hr hr'
        exact ⟨image,rfl,by rw [← Option.some.inj hr,Option.some.inj hr']⟩
      · rintro r₀ hr c v hv
        exact Option.some.inj hr ▸ hold c v hv
    | del r => exact ⟨by simp [RowAccum.feed,KeyOp.op],by simp [RowAccum.feed,KeyOp.op],
        by simp [RowAccum.feed],by simp,by simp,by simp [RowAccum.feed],by simp [RowAccum.feed,KeyOp.op]⟩
  | some a =>
    have ha : Collapses sh pre cur a := ha
    cases ho with
    | ins r =>
      have himage : a.image = none := ha.deleted (ha.last.mpr rfl)
      refine ⟨ha.first,by simp [RowAccum.feed,KeyOp.op],by simp [RowAccum.feed,KeyOp.op],?_,?_,ha.old,ha.counters⟩
      · rintro - r' hr
        simp [RowAccum.feed,himage,mergeImage,Option.some.inj hr]
      · rintro - r₀ r' - hr
        have hmerge : mergeImage ((some a).bind RowAccum.image) (fun c => some (r c)) = fun c => some (r c) := by
          simp [himage,mergeImage]
        exact ⟨_,rfl,by rw [hmerge,← Option.some.inj hr]; rfl⟩
    | upd r image old hold hcounter =>
      refine ⟨ha.first,by simp [RowAccum.feed,KeyOp.op],by simp [RowAccum.feed,KeyOp.op],?_,?_,ha.old,ha.counters⟩
      · rintro hfirst r' hr
        cases hr
        have himage := ha.whole hfirst r rfl
        simp only [RowAccum.feed,Option.bind_some,himage,mergeImage,Option.elim_some,Option.some.injEq]
        funext c
        cases hc : image c <;> simp [overlay,hc]
      · rintro hfirst r₀ r' hr₀ hr
        obtain ⟨i,hi,rfl⟩ := ha.partly hfirst r₀ r hr₀ rfl
        refine ⟨_,rfl,?_⟩
        rw [← Option.some.inj hr]
        funext c
        cases hc : image c <;> simp [hi,mergeImage,overlay,hc]
    | del r =>
      exact ⟨ha.first,by simp [RowAccum.feed,KeyOp.op],by simp [RowAccum.feed],by simp,by simp,ha.old,ha.counters⟩

omit [Fintype κ] in
theorem collapses_accumulate {t : PgTable π κ} {ops : List (TxnOp π κ)} (k : π)
    (hfits : Permitted TxnOp.run (fun t op => op.Fits sh t ∧ op.MovesWhole) t ops) :
    (accumulate k ops).elim (ops.foldl TxnOp.run t k = t k)
      (Collapses sh (t k) (ops.foldl TxnOp.run t k)) := by
  have hgen : ∀ (ops : List (TxnOp π κ)) (t' : PgTable π κ) (a : Option (RowAccum κ)),
      Permitted TxnOp.run (fun t op => op.Fits sh t ∧ op.MovesWhole) t' ops →
      a.elim (t' k = t k) (Collapses sh (t k) (t' k)) →
      ((ops.flatMap (feeds k)).foldl (fun a o => some (RowAccum.feed a o)) a).elim
        (ops.foldl TxnOp.run t' k = t k) (Collapses sh (t k) (ops.foldl TxnOp.run t' k)) := by
    intro ops
    induction ops with
    | nil => exact fun t' a _ ha => ha
    | cons op ops ih =>
      intro t' a hp ha
      rw [List.flatMap_cons,List.foldl_append]
      obtain ⟨hnil,hsame⟩ | ⟨o,hone,hstep⟩ := feeds_step hp.1.1 hp.1.2 k
      · rw [hnil]
        exact ih _ _ hp.2 (by rwa [hsame])
      · rw [hone]
        exact ih _ _ hp.2 (Collapses.feed ha hstep)
  exact hgen ops t none hfits rfl

theorem receive_delete {cl : ℕ} (h : rs.cl < cl) :
    receive sh stamp false (pre,rs) [.delete cl] = (none,rs.putCleared cl stamp) := by
  have hd : rs.dominatedBy cl stamp = true := dominatedBy_of_lt h
  cases hcell : sh.cellGroup <;>
    simp [receive,applyRecords,applyRecord,asCellUpdate,hcell,PgRecord.cl,hd,putRowState_of_lt h,
      putCleared_of_dominated hd]

theorem insertImage_absent (certified : Bool) (cl : ℕ) (r : PgImage κ) :
    insertImage sh certified rs cl (fun c => some (.abs (r c))) none = r := by
  have hdeltas : upsertRow sh false (counterDeltas sh fun c => some (.abs (r c))) none = r := by
    funext c
    cases hc : sh.counter c <;> simp [upsertRow,counterDeltas,hc,PgValue.opening]
  unfold insertImage
  split_ifs
  · rfl
  · exact hdeltas
  · rfl

/-- An insert that does not meet a live row of a cell-group table is arbitrated as a whole. -/
theorem applyRecord_insert {cl : ℕ} {p : PgPatch κ} (row : Option (PgImage κ))
    (hcell : sh.cellGroup = true → rs.isLive = true → cl ≠ rs.cl) (hd : rs.dominatedBy cl stamp = true) :
    applyRecord sh stamp false rs row (.insert cl p) =
      (some (insertImage sh false rs cl p row),fun k => k.putRowState cl stamp) := by
  have hnone : (if sh.cellGroup then asCellUpdate sh rs (.insert cl p) else none) = none := by
    cases hc : sh.cellGroup with
    | false => rfl
    | true =>
      cases hl : rs.isLive with
      | false => simp [asCellUpdate,hl]
      | true => simp [asCellUpdate,hl,hcell hc hl]
  simp [applyRecord,hnone,PgRecord.cl,hd]

theorem receive_insert (hs : Stampable sh stamp none rs) (r : PgImage κ) :
    receive sh stamp false (none,rs) [.insert rs.nextLiveCL fun c => some (.abs (r c))] =
      (some r,rs.putCleared rs.nextLiveCL stamp) := by
  have hd := dominatedBy_of_le rs.nextLiveCL_ge hs.base
  have hlive : sh.cellGroup = true → rs.isLive = false := fun hc =>
    Bool.eq_false_iff.mpr fun hl => absurd ((hs.live hc).mp hl) (by simp)
  have hput : rs.putRowState rs.nextLiveCL stamp = rs.putCleared rs.nextLiveCL stamp := by
    cases hc : sh.cellGroup with
    | false => exact putRowState_eq_putCleared (hs.overrides hc)
    | true =>
      have hlt : rs.cl < rs.nextLiveCL := by simp [nextLiveCL,hlive hc]
      rw [putRowState_of_lt hlt,putCleared_of_dominated hd]
  rw [receive,applyRecords,applyRecords,applyRecord_insert none (fun hc hl => absurd hl (by simp [hlive hc])) hd]
  simp [insertImage_absent,hput]

theorem receive_recreate (r : PgImage κ) :
    receive sh stamp false (pre,rs) [.delete rs.tombCL,.insert (rs.tombCL+1) fun c => some (.abs (r c))] =
      (some r,rs.putCleared (rs.tombCL+1) stamp) := by
  have hlt := rs.tombCL_gt
  have hd : rs.dominatedBy rs.tombCL stamp = true := dominatedBy_of_lt hlt
  have hd' : rs.dominatedBy (rs.tombCL+1) stamp = true := dominatedBy_of_lt (Nat.lt_succ_of_lt hlt)
  have hfirst : applyRecord sh stamp false rs pre (.delete rs.tombCL) =
      (none,fun k => k.putRowState rs.tombCL stamp) := by
    cases hc : sh.cellGroup <;> simp [applyRecord,asCellUpdate,hc,PgRecord.cl,hd]
  rw [receive,applyRecords,applyRecords,applyRecords,hfirst,
    applyRecord_insert none (fun _ _ => by omega) hd']
  have hput : (rs.putRowState rs.tombCL stamp).putRowState (rs.tombCL+1) stamp =
      rs.putCleared (rs.tombCL+1) stamp := by
    have hstep : (rs.putRowState rs.tombCL stamp).cl < rs.tombCL+1 := by
      rw [putRowState_of_lt hlt]
      exact Nat.lt_succ_self _
    rw [putRowState_of_lt hstep,putCleared_of_dominated hd']
  simp [insertImage_absent,hput]

theorem receive_update (hcell : sh.cellGroup = false) (hs : Stampable sh stamp (some r₀) rs) (i : PgTuple κ) :
    receive sh stamp false (some r₀,rs) [.update rs.nextLiveCL fun c => (i c).map .abs] =
      (some (overlay r₀ i),rs.putCleared rs.nextLiveCL stamp) := by
  have hd := dominatedBy_of_le rs.nextLiveCL_ge hs.base
  have hrow : upsertRow sh false (fun c => (i c).map .abs) (some r₀) = overlay r₀ i := by
    funext c
    cases hc : i c <;> simp [upsertRow,overlay,hc,PgValue.onto]
  simp [receive,applyRecords,applyRecord,hcell,PgRecord.cl,hd,hrow,
    putRowState_eq_putCleared (hs.overrides hcell)]

theorem receive_cellUpdate (hcell : sh.cellGroup = true) (hs : Stampable sh stamp (some r₀) rs)
    {diff : PgPatch κ} (hne : PgPatch.empty diff = false)
    (hdelta : ∀ c v,diff c = some v → v.isDelta = sh.counter c) :
    receive sh stamp false (some r₀,rs) [.update rs.nextLiveCL diff] =
      (some (upsertRow sh false diff (some r₀)),stageUpdate stamp rs diff rs) := by
  have hlive : rs.isLive = true := (hs.live hcell).mpr rfl
  have hcl : rs.nextLiveCL = rs.cl := if_pos hlive
  have hd : rs.dominatedBy rs.cl stamp = true := dominatedBy_of_le le_rfl hs.base
  have hwin : ∀ c,stamp.dominates (rs.effectiveStamp c) = true := fun c => by
    rw [Stamp.dominates_iff,effectiveStamp]
    cases hc : rs.cells c with
    | none => exact hs.base
    | some s => exact hs.cells c s hc
  have hwinners : (fun c => (diff c).filter fun v => v.isDelta || stamp.dominates (rs.effectiveStamp c)) =
      diff := by
    funext c
    cases hc : diff c <;> simp [hwin c]
  have hstamped : (fun c => (diff c).any (fun v => v.isDelta || stamp.dominates (rs.effectiveStamp c)) &&
      !sh.counter c) = fun c => (diff c).any fun v => !v.isDelta := by
    funext c
    cases hc : diff c with
    | none => rfl
    | some v => simp [hdelta c v hc,hwin c]
  simp [receive,applyRecords,applyRecord,asCellUpdate,hcell,hcl,hd,applyCellUpdate,hne,hwinners,hstamped,stageUpdate]

/-- A counter's contribution over the whole transaction fits 64 bits. -/
def Narrow (sh : PgShape κ) (pre post : Option (PgImage κ)) : Prop :=
  ∀ r₀ r,pre = some r₀ → post = some r → ∀ c,sh.counter c = true → InInt64 (r c-r₀ c)

omit [Fintype κ] in
theorem changedCell_eq {c : κ} {o v : Option ℤ} (hold : ∀ x,o = some x → x = r₀ c)
    (hcounter : sh.counter c = true → o.isSome = true)
    (hfit : sh.counter c = true → InInt64 (v.getD (r₀ c)-r₀ c)) :
    ∃ d,changedCell (sh.counter c) o v = some d ∧ (d.elim (r₀ c) fun x => x.onto (r₀ c)) = v.getD (r₀ c) ∧
      ∀ x,d = some x → x.isDelta = sh.counter c := by
  cases v with
  | none => exact ⟨none,rfl,rfl,by simp⟩
  | some v =>
    cases o with
    | none =>
      have hreg : sh.counter c = false := Bool.eq_false_iff.mpr fun hc => absurd (hcounter hc) (by simp)
      exact ⟨some (.abs v),by simp [changedCell,hreg],rfl,by simp [PgValue.isDelta,hreg]⟩
    | some o =>
      obtain rfl := hold o rfl
      by_cases heq : r₀ c = v
      · exact ⟨none,by simp [changedCell,heq],heq,by simp⟩
      · cases hc : sh.counter c with
        | false => exact ⟨some (.abs v),by simp [changedCell,heq],rfl,by simp [PgValue.isDelta]⟩
        | true =>
          refine ⟨some (.delta (v-r₀ c)),?_,?_,by simp [PgValue.isDelta]⟩
          · have hdelta : counterDelta (r₀ c) v = some (v-r₀ c) := counterDelta_of_inInt64 (hfit hc)
            simp [changedCell,heq,hdelta]
          · exact add_sub_cancel _ _

/-- The difference of two tuples, as far as the fold gets it, takes the one row to the other. -/
theorem cellChanged_eq {old new : PgTuple κ} (hold : ∀ c v,old c = some v → v = r₀ c)
    (hcounters : ∀ c,sh.counter c = true → (old c).isSome = true)
    (hfit : Narrow sh (some r₀) (some (overlay r₀ new))) :
    ∃ diff,cellChanged sh old new = some diff ∧ upsertRow sh false diff (some r₀) = overlay r₀ new ∧
      ∀ c v,diff c = some v → v.isDelta = sh.counter c := by
  have hcell := fun c => changedCell_eq (hold c) (hcounters c) (hfit _ _ rfl rfl c)
  choose d hd hrow hdelta using hcell
  refine ⟨d,?_,?_,hdelta⟩
  · rw [cellChanged,if_neg fun ⟨c,hc⟩ => absurd ((hd c).symm.trans hc) (by simp)]
    exact congrArg some (funext fun c => by rw [hd c]; rfl)
  · funext c
    simpa [upsertRow,overlay] using hrow c

/-- One key: the records lead the row to where the transaction left it, and the clock to where the fold
puts it. -/
theorem foldRow_faithful {a : RowAccum κ} (ha : Collapses sh pre post a) (hs : Stampable sh stamp pre rs)
    (hfit : a.firstOp = .upd → Narrow sh pre post) :
    ∃ recs f,foldRow sh stamp rs a = some (recs,f) ∧
      receive sh stamp false (pre,rs) recs = (post,f rs) := by
  obtain ⟨first,last,image,old⟩ := a
  obtain ⟨hfirst,hlast,hdel,hwhole,hpartly,hold,hcounters⟩ := ha
  simp only at hfirst hlast hdel hwhole hpartly hold hcounters hfit
  cases post with
  | none =>
    obtain rfl : last = .del := hlast.mpr rfl
    cases first with
    | ins =>
      obtain rfl := hfirst.mp rfl
      exact ⟨[],id,rfl,rfl⟩
    | upd | del => exact ⟨_,_,rfl,receive_delete rs.tombCL_gt⟩
  | some r =>
    have hne : last ≠ .del := fun h => absurd (hlast.mp h) (by simp)
    cases first with
    | ins =>
      obtain rfl := hfirst.mp rfl
      have himage := hwhole (by simp) r rfl
      subst himage
      cases last with
      | ins | upd => exact ⟨_,_,rfl,receive_insert hs r⟩
      | del => exact absurd rfl hne
    | del =>
      have himage := hwhole (by simp) r rfl
      subst himage
      cases last with
      | ins | upd => exact ⟨_,_,rfl,receive_recreate r⟩
      | del => exact absurd rfl hne
    | upd =>
      obtain ⟨r₀,rfl⟩ : ∃ r₀,pre = some r₀ := Option.ne_none_iff_exists'.mp fun h => absurd (hfirst.mpr h) (by simp)
      obtain ⟨i,rfl,rfl⟩ := hpartly rfl r₀ r rfl rfl
      have hfold : foldRow sh stamp rs ⟨.upd,last,some i,old⟩ = foldRow sh stamp rs ⟨.upd,.upd,some i,old⟩ := by
        cases last with
        | del => exact absurd rfl hne
        | _ => rfl
      rw [hfold]
      cases hcell : sh.cellGroup with
      | false =>
        refine ⟨_,fun k => k.putCleared rs.nextLiveCL stamp,?_,receive_update hcell hs i⟩
        simp [foldRow,hcell]
      | true =>
        obtain ⟨diff,hdiff,hrow,hdelta⟩ := cellChanged_eq (hold r₀ rfl) (hcounters rfl) (hfit rfl)
        cases hempty : PgPatch.empty diff with
        | true =>
          refine ⟨[],id,by simp [foldRow,hcell,hdiff,hempty],?_⟩
          have hnone : ∀ c,diff c = none := by simpa [PgPatch.empty] using hempty
          have hsame : overlay r₀ i = r₀ := by
            rw [← hrow]
            funext c
            simp [upsertRow,hnone c]
          rw [hsame]
          rfl
        | false =>
          refine ⟨[.update rs.nextLiveCL diff],stageUpdate stamp rs diff,by simp [foldRow,hcell,hdiff,hempty],?_⟩
          rw [receive_cellUpdate hcell hs hempty hdelta,hrow]

end Key

omit [Fintype κ] in
theorem accumulate_firstOp {k : π} {ops : List (TxnOp π κ)} {a : RowAccum κ} (h : accumulate k ops = some a) :
    (ops.flatMap (feeds k)).head?.map KeyOp.op = some a.firstOp := by
  have hfold : ∀ (os : List (KeyOp κ)) (b : RowAccum κ),
      os.foldl (fun a o => some (RowAccum.feed a o)) (some b) = some a → a.firstOp = b.firstOp := by
    intro os
    induction os with
    | nil => exact fun b hb => congrArg _ (Option.some.inj hb).symm
    | cons o os ih => exact fun b hb => ih (RowAccum.feed (some b) o) hb
  unfold accumulate at h
  cases hos : ops.flatMap (feeds k) with
  | nil => simp [hos] at h
  | cons o os =>
    rw [hos] at h
    exact congrArg some (hfold os _ h).symm

namespace PgFoldSample

instance pairNeZero : NeZero 2 := ⟨by decide⟩

def pair {α : Type} (a b : α) : Fin 2 → α := fun c => if c = 0 then a else b

def tallied : PgShape (Fin 2) := ⟨true,fun c => c = 1,fun _ => 0,fun _ _ => rfl⟩

def plain : PgShape (Fin 2) := ⟨false,fun _ => false,fun _ => 0,by simp⟩

def stampAt (n : ℤ) : Stamp := ⟨⟨n,0⟩,1⟩

def clocks : Fin 2 → RowClock (Fin 2) := pair ⟨1,stampAt 1,fun _ => none⟩ zero

def before : PgTable (Fin 2) (Fin 2) := pair (some (pair 5 10)) none

/-- The counter is raised by an update that leaves the other column out, the row moves, and its old key
is used again. -/
def moved : List (TxnOp (Fin 2) (Fin 2)) :=
  [.update 0 0 (pair none (some 13)) (pair (some 5) (some 10)),
    .update 0 1 (pair (some 5) (some 13)) (pair (some 5) (some 13)),.insert 0 (pair 7 1)]

/-- An update moves the row to another key and the stream leaves out its unchanged second column: the
insert at the new key has no value for it. -/
def elided : TxnOp (Fin 2) (Fin 2) := .update 0 1 (pair (some 6) none) (pair none none)

end PgFoldSample

end Syzy.Pg
