import Syzy.Sink
import Syzy.TouchFold

/-!
What the drain derives from a slot of row events, replayed on rows by their keys. The record of a slot
takes its old row to its new one; it is refused only when the net change of a counter leaves the range
of integers.
-/

namespace Syzy

open Function List

open RowEvents

def contentOf (cols : List Column) (img : Image) : Cells :=
  (fullImageSlice cols img).map fun v => (v.column,boundValue v)

abbrev KeyedRows := RowKey → Option Cells

def writeCell (x : SqlValue) (w : ColValue) : SqlValue :=
  if w.format = .delta then
    match x with
    | .int cur => .int (cur+int64OfBytes w.bytes)
    | _ => x
  else boundValue w

def mergeCell (changed : Image) (cell : ColumnID × SqlValue) : ColumnID × SqlValue :=
  (cell.1,(changed.find? fun w => w.column = cell.1).elim cell.2 (writeCell cell.2))

/-- A record replayed on keyed rows, whatever its causal length. -/
def replayKeyed (cat : Catalog) (K : KeyedRows) : Record → KeyedRows
  | .insert k _ image => Function.update K k (some (contentOf (columnsOf cat k.table) image))
  | .update k _ changed => Function.update K k ((K k).map fun cells => cells.map (mergeCell changed))
  | .delete k _ => Function.update K k none
  | .blobPatch _ _ _ _ => K

def replayEvidence (cat : Catalog) (K : KeyedRows) : RecordEvidence → KeyedRows
  | .insert k image => Function.update K k (some (contentOf (columnsOf cat k.table) image))
  | .update k changed => Function.update K k ((K k).map fun cells => cells.map (mergeCell changed))
  | .delete k => Function.update K k none
  | .updatePKChange oldKey newKey image =>
    Function.update (Function.update K oldKey none) newKey
      (some (contentOf (columnsOf cat newKey.table) image))
  | .blobPatch _ _ _ => K

theorem replay_buildRecord (cat : Catalog) (stamp : Stamp) (b : SinkBatch) (ev : RecordEvidence)
    (K : KeyedRows) :
    (b.buildRecord cat stamp ev).records.foldl (replayKeyed cat) K =
      replayEvidence cat (b.records.foldl (replayKeyed cat) K) ev := by
  cases ev with
  | update k changed =>
    unfold SinkBatch.buildRecord
    dsimp only
    split_ifs
    · exact foldl_append
    · exact foldl_append
  | insert | delete => exact foldl_append
  | updatePKChange oldKey newKey image =>
    rw [SinkBatch.buildRecord]
    change (b.records++[_]++[_]).foldl (replayKeyed cat) K = _
    rw [foldl_append,foldl_append]
    rfl
  | blobPatch k col ranges => exact foldl_append

theorem replay_buildRecords (cat : Catalog) (stamp : Stamp) (b : SinkBatch) (evs : List RecordEvidence)
    (K : KeyedRows) :
    (b.buildRecords cat stamp evs).records.foldl (replayKeyed cat) K =
      evs.foldl (replayEvidence cat) (b.records.foldl (replayKeyed cat) K) := by
  induction evs generalizing b with
  | nil => rfl
  | cons ev evs ih =>
    rw [foldl_cons,← replay_buildRecord cat stamp b]
    exact ih _

section Images

variable {cols : List Column} {old new changed : Image}

variable {a : ℤ} {c : Column} {i : ℕ} {img r : Image} {n o : ColValue}

theorem assignColumnIDs_eq (h : img.map ColValue.column = cols.map Column.id) :
    assignColumnIDs cols img = img := by
  induction cols generalizing img with
  | nil => rw [assignColumnIDs]; simp
  | cons c cols ih =>
    cases img with
    | nil => rfl
    | cons v img =>
      obtain ⟨hv,himg⟩ := cons_eq_cons.mp h
      rw [assignColumnIDs,ih himg,← hv]

theorem boundValue_congr {v w : ColValue} (htag : v.typeTag = w.typeTag) (hbytes : v.bytes = w.bytes) :
    boundValue v = boundValue w := by
  unfold boundValue bindColValue
  rw [htag,hbytes]
  split_ifs <;> rfl

theorem mem_fullImageSlice {v : ColValue} (h : v ∈ fullImageSlice cols img) :
    ∃ c ∈ cols,c.pkPos = 0 ∧ v.column = c.id := by
  induction cols generalizing img with
  | nil => simp [fullImageSlice] at h
  | cons c cols ih =>
    cases img with
    | nil => simp [fullImageSlice] at h
    | cons w img =>
      rw [fullImageSlice] at h
      split_ifs at h with hpk
      · obtain ⟨c',hc',hv⟩ := ih h
        exact ⟨c',mem_cons_of_mem _ hc',hv⟩
      · rcases mem_cons.mp h with rfl | h
        · exact ⟨c,mem_cons_self,by omega,rfl⟩
        · obtain ⟨c',hc',hv⟩ := ih h
          exact ⟨c',mem_cons_of_mem _ hc',hv⟩

theorem changedColumnsSlice_subset : changedColumnsSlice cols old new ⊆ fullImageSlice cols new := by
  induction cols generalizing old new with
  | nil => simp [changedColumnsSlice]
  | cons c cols ih =>
    cases old with
    | nil => simp [changedColumnsSlice]
    | cons o old =>
      cases new with
      | nil => simp [changedColumnsSlice]
      | cons n new =>
        rw [changedColumnsSlice,fullImageSlice]
        by_cases hpk : 0 < c.pkPos
        · rw [if_pos (.inl hpk),if_pos hpk]
          exact ih
        · rw [if_neg hpk]
          split_ifs
          · exact subset_cons_of_subset _ ih
          · exact cons_subset_cons _ ih

/-- Columns at one index of a table and of two of its images. -/
structure ColumnAt (cols : List Column) (old new : Image) (i : ℕ) (c : Column) (o n : ColValue) :
    Prop where
  col : cols[i]? = some c
  oldVal : old[i]? = some o
  newVal : new[i]? = some n

theorem ColumnAt.mem (h : ColumnAt cols old new i c o n) :
    c ∈ cols := mem_of_getElem? h.col

theorem ColumnAt.cons_cases {c₀ : Column} (h : ColumnAt (c₀::cols) old new i c o n) :
    ∃ o₀ old' n₀ new',old = o₀::old' ∧ new = n₀::new' ∧
      (c₀ = c ∧ o₀ = o ∧ n₀ = n ∨ ∃ j,ColumnAt cols old' new' j c o n) := by
  obtain ⟨hcol,hold,hnew⟩ := h
  cases old with
  | nil => simp at hold
  | cons o₀ old =>
    cases new with
    | nil => simp at hnew
    | cons n₀ new =>
      refine ⟨o₀,old,n₀,new,rfl,rfl,?_⟩
      cases i with
      | zero => exact .inl ⟨Option.some.inj hcol,Option.some.inj hold,Option.some.inj hnew⟩
      | succ i => exact .inr ⟨i,hcol,hold,hnew⟩

section

variable (hids : (cols.map Column.id).Nodup)
  (h : ColumnAt cols old new i c o n)
  (hpk : c.pkPos = 0)
include hids h hpk

theorem find_fullImageSlice :
    (fullImageSlice cols new).find? (fun w => w.column = c.id) = some { n with column := c.id } := by
  induction cols generalizing old new i with
  | nil => exact absurd h.col (by simp)
  | cons c₀ cols ih =>
    obtain ⟨hne,hids⟩ := nodup_cons.mp hids
    obtain ⟨o₀,old,n₀,new,rfl,rfl,⟨rfl,rfl,rfl⟩ | ⟨j,hat⟩⟩ := h.cons_cases
    · rw [fullImageSlice,if_neg (by omega)]
      simp
    · have hc : c₀.id ≠ c.id := fun heq => hne (heq ▸ mem_map_of_mem hat.mem)
      rw [fullImageSlice]
      split_ifs
      · exact ih hids hat
      · rw [find?_cons_of_neg (by simpa using hc)]
        exact ih hids hat

theorem find_changedColumnsSlice :
    (changedColumnsSlice cols old new).find? (fun w => w.column = c.id) =
      if colValueEqual o n then none else some { n with column := c.id } := by
  induction cols generalizing old new i with
  | nil => exact absurd h.col (by simp)
  | cons c₀ cols ih =>
    obtain ⟨hne,hids⟩ := nodup_cons.mp hids
    obtain ⟨o₀,old,n₀,new,rfl,rfl,⟨rfl,rfl,rfl⟩ | ⟨j,hat⟩⟩ := h.cons_cases
    · have hnone : (changedColumnsSlice cols old new).find? (fun w => w.column = c₀.id) = none := by
        rw [find?_eq_none]
        intro w hw hid
        obtain ⟨c',hc',-,hw'⟩ := mem_fullImageSlice (changedColumnsSlice_subset hw)
        refine hne (mem_map.mpr ⟨c',hc',?_⟩)
        rw [← hw']
        simpa using hid
      rw [changedColumnsSlice]
      by_cases heq : colValueEqual o₀ n₀ = true
      · rw [if_pos (.inr heq),if_pos heq]
        exact hnone
      · rw [if_neg (by simp [heq,hpk]),if_neg heq]
        simp
    · have hc : c₀.id ≠ c.id := fun heq => hne (heq ▸ mem_map_of_mem hat.mem)
      rw [changedColumnsSlice]
      by_cases hskip : 0 < c₀.pkPos ∨ colValueEqual o₀ n₀ = true
      · rw [if_pos hskip]
        exact ih hids hat
      · rw [if_neg hskip,find?_cons_of_neg (by simpa using hc)]
        exact ih hids hat

end

/-- A diff that says what each column became takes the old content to the new. -/
theorem merge_contentOf (hold : old.length = cols.length) (hnew : new.length = cols.length)
    (h : ∀ i c o n,ColumnAt cols old new i c o n → c.pkPos = 0 →
      (changed.find? fun w => w.column = c.id).elim (boundValue o) (writeCell (boundValue o)) =
        boundValue n) : (contentOf cols old).map (mergeCell changed) = contentOf cols new := by
  induction cols generalizing old new with
  | nil => rfl
  | cons c cols ih =>
    obtain ⟨o,old,rfl⟩ := exists_cons_of_length_eq_add_one hold
    obtain ⟨n,new,rfl⟩ := exists_cons_of_length_eq_add_one hnew
    have hrest := ih (Nat.succ.inj hold) (Nat.succ.inj hnew) fun i c o n hat hpk =>
      h (i+1) c o n ⟨hat.col,hat.oldVal,hat.newVal⟩ hpk
    unfold contentOf at hrest ⊢
    rw [fullImageSlice,fullImageSlice]
    split_ifs with hpk
    · exact hrest
    · have hhead := h 0 c o n ⟨rfl,rfl,rfl⟩ (by omega)
      rw [map_cons,map_cons,map_cons,hrest,mergeCell]
      refine congrArg (·::_) (Prod.ext rfl ?_)
      rw [boundValue_congr (v := { o with column := c.id }) (w := o) rfl rfl,
        boundValue_congr (v := { n with column := c.id }) (w := n) rfl rfl]
      exact hhead

theorem counterDelta_eq {b : ℤ} (ho : counterInt o = some a) (hn : counterInt n = some b)
    (hfit : InInt64 (b-a)) :
    counterDelta o n = some ⟨n.column,colInt,.delta,encodeInt64 (b-a)⟩ := by
  unfold counterDelta
  rw [ho,hn]
  dsimp only
  rw [bmod_of_inInt64 hfit,if_neg (by omega)]

theorem inInt64_of_counterInt {v : ColValue} (h : counterInt v = some a) : InInt64 a := by
  unfold counterInt int64OfBytes at h
  split_ifs at h
  have ha := Option.some.inj h
  unfold InInt64
  simp only [Int.bmod] at ha
  omega

theorem counterDelta_fits {d : ColValue} (h : counterDelta o n = some d) :
    ∃ a b,counterInt o = some a ∧ counterInt n = some b ∧ InInt64 (b-a) := by
  unfold counterDelta at h
  split at h
  · rename_i a b ha hb
    dsimp only at h
    split_ifs at h with hbad
    have ha' := inInt64_of_counterInt ha
    have hb' := inInt64_of_counterInt hb
    unfold InInt64 at ha' hb' ⊢
    simp only [Int.bmod] at hbad
    exact ⟨a,b,ha,hb,by omega⟩
  · exact absurd h (by simp)

theorem boundValue_counterInt {v : ColValue} (h : counterInt v = some a) :
    boundValue v = .int a := by
  unfold counterInt at h
  split_ifs at h with hbad
  obtain ⟨htag,hlen⟩ := not_or.mp hbad
  rw [not_not] at htag hlen
  have ha := Option.some.inj h
  unfold boundValue bindColValue
  rw [htag,if_neg (by decide),if_pos rfl,if_pos hlen,ha]

theorem find_map_keep {f : ColValue → ColValue} (hf : ∀ v,(f v).column = v.column) (id : ColumnID)
    (vs : Image) :
    (vs.map f).find? (fun w => w.column = id) = (vs.find? fun w => w.column = id).map f := by
  rw [find?_map]
  congr 2
  funext v
  simp [hf]

/-- A counter's contribution takes the place of its value, the other columns stay. -/
theorem find_counterDeltaAt (h : counterDeltaAt c o n changed = some r) (id : ColumnID) :
    r.find? (fun w => w.column = id) = (changed.find? fun w => w.column = id).map fun v =>
      if c.counter ∧ id = c.id then ((counterDelta o n).map fun d => { d with column := c.id }).getD v
      else v := by
  unfold counterDeltaAt at h
  split_ifs at h with hskip
  · cases h
    rcases hskip with hc | hnone
    · simp [hc]
    · cases hfind : changed.find? fun w => w.column = id with
      | none => rfl
      | some v =>
        have hid : v.column = id := by simpa using find?_some hfind
        have hne : ¬(c.counter = true ∧ id = c.id) := fun hc =>
          hnone ⟨v,mem_of_find?_eq_some hfind,hid.trans hc.2⟩
        rw [Option.map_some,if_neg hne]
  · obtain ⟨d,hd,rfl⟩ := Option.map_eq_some_iff.mp h
    have hcounter : c.counter = true := by
      by_contra hc
      exact hskip (.inl hc)
    rw [find_map_keep fun v => ?_]
    · refine Option.map_congr fun v hv => ?_
      have hid : v.column = id := by simpa using find?_some hv
      rw [hd,hid]
      by_cases heq : id = c.id
      · simp [heq,hcounter]
      · simp [heq]
    · split_ifs with hv
      · exact hv.symm
      · rfl

/-- The counters a diff carries are integers, and so is their net change. -/
def CountersFit (cols : List Column) (old new changed : Image) : Prop :=
  ∀ i c o n,ColumnAt cols old new i c o n → c.counter = true →
    (changed.find? fun w => w.column = c.id).isSome = true →
    ∃ a b,counterInt o = some a ∧ counterInt n = some b ∧ InInt64 (b-a)

theorem isSome_find_counterDeltaAt (h : counterDeltaAt c o n changed = some r) (id : ColumnID) :
    (r.find? fun w => w.column = id).isSome = (changed.find? fun w => w.column = id).isSome := by
  rw [find_counterDeltaAt h,Option.isSome_map]

theorem counterDeltaAt_some
    (h : c.counter = true → (changed.find? fun w => w.column = c.id).isSome = true →
      ∃ a b,counterInt o = some a ∧ counterInt n = some b ∧ InInt64 (b-a)) :
    ∃ r,counterDeltaAt c o n changed = some r := by
  unfold counterDeltaAt
  split_ifs with hskip
  · exact ⟨_,rfl⟩
  · obtain ⟨hcounter,hmem⟩ := not_or.mp hskip
    rw [not_not] at hcounter hmem
    obtain ⟨a,b,ha,hb,hab⟩ := h hcounter (by simpa using hmem)
    rw [counterDelta_eq ha hb hab]
    exact ⟨_,rfl⟩

theorem fit_of_counterDeltaAt (h : counterDeltaAt c o n changed = some r)
    (hcounter : c.counter = true) (hsome : (changed.find? fun w => w.column = c.id).isSome = true) :
    ∃ a b,counterInt o = some a ∧ counterInt n = some b ∧ InInt64 (b-a) := by
  have hmem : ∃ v ∈ changed,v.column = c.id := by simpa using hsome
  rw [counterDeltaAt,if_neg (by simp [hcounter,hmem])] at h
  obtain ⟨d,hd,-⟩ := Option.map_eq_some_iff.mp h
  exact counterDelta_fits hd

theorem countersFit_of_counterDeltasInPlace
    (h : counterDeltasInPlace cols old new changed = some r) : CountersFit cols old new changed := by
  induction cols generalizing old new changed with
  | nil => exact fun i c o n hat => absurd hat.col (by simp)
  | cons c₀ cols ih =>
    intro i c o n hat hcounter hsome
    obtain ⟨o₀,old,n₀,new,rfl,rfl,hat'⟩ := hat.cons_cases
    obtain ⟨mid,hmid,hrest⟩ := Option.bind_eq_some_iff.mp h
    rcases hat' with ⟨rfl,rfl,rfl⟩ | ⟨j,hat⟩
    · exact fit_of_counterDeltaAt hmid hcounter hsome
    · refine ih hrest j c o n hat hcounter ?_
      rw [isSome_find_counterDeltaAt hmid]
      exact hsome

theorem counterDeltasInPlace_eq (hids : (cols.map Column.id).Nodup) (hold : old.length = cols.length)
    (hnew : new.length = cols.length) {changed : Image} (hfit : CountersFit cols old new changed) :
    ∃ r,counterDeltasInPlace cols old new changed = some r ∧ (∀ id,(∀ c ∈ cols,c.id ≠ id) →
        r.find? (fun w => w.column = id) = changed.find? fun w => w.column = id) ∧
      ∀ i c o n,ColumnAt cols old new i c o n →
        r.find? (fun w => w.column = c.id) = (changed.find? fun w => w.column = c.id).map fun v =>
          if c.counter then ((counterDelta o n).map fun d => { d with column := c.id }).getD v else v := by
  induction cols generalizing old new changed with
  | nil =>
    refine ⟨changed,by simp [counterDeltasInPlace],fun _ _ => rfl,fun i c o n h => ?_⟩
    exact absurd h.col (by simp)
  | cons c₀ cols ih =>
    obtain ⟨hne,hids⟩ := nodup_cons.mp hids
    obtain ⟨o₀,old,rfl⟩ := exists_cons_of_length_eq_add_one hold
    obtain ⟨n₀,new,rfl⟩ := exists_cons_of_length_eq_add_one hnew
    have hstep : ∃ mid,counterDeltaAt c₀ o₀ n₀ changed = some mid :=
      counterDeltaAt_some fun hc hsome => hfit 0 c₀ o₀ n₀ ⟨rfl,rfl,rfl⟩ hc hsome
    obtain ⟨mid,hmid⟩ := hstep
    have hfit' : CountersFit cols old new mid := fun i c o n hat hc hsome =>
      hfit (i+1) c o n ⟨hat.col,hat.oldVal,hat.newVal⟩ hc
        (by rwa [isSome_find_counterDeltaAt hmid] at hsome)
    obtain ⟨r,hr,hout,hin⟩ := ih hids (Nat.succ.inj hold) (Nat.succ.inj hnew) hfit'
    refine ⟨r,?_,fun id hid => ?_,fun i c o n hat => ?_⟩
    · rw [counterDeltasInPlace,hmid]
      exact hr
    · rw [hout id fun c hc => hid c (mem_cons_of_mem _ hc),find_counterDeltaAt hmid]
      have hc : ¬(c₀.counter = true ∧ id = c₀.id) := fun h => hid c₀ mem_cons_self h.2.symm
      simp [hc]
    · obtain ⟨_,_,_,_,⟨⟩,⟨⟩,⟨rfl,rfl,rfl⟩ | ⟨j,hat⟩⟩ := hat.cons_cases
      · rw [hout c₀.id fun c hc heq => hne (heq ▸ mem_map_of_mem hc),find_counterDeltaAt hmid]
        simp
      · have hc : c.id ≠ c₀.id := fun heq => hne (heq ▸ mem_map_of_mem hat.mem)
        rw [hin j c o n hat,find_counterDeltaAt hmid]
        simp [hc]

end Images

section Effects

variable (cat : Catalog) {k k' : RowKey} {v v' : Cells}

theorem effect_none : Effect (fun K : KeyedRows => K) ⟨none,none⟩ where
  other _ _ _ := rfl
  own _ _ x hx := absurd hx (Option.not_mem_none x)

theorem effect_unchanged : Effect (fun K : KeyedRows => K) ⟨some (k,v),some (k,v)⟩ where
  other _ _ hk := (if_neg hk).symm
  own _ hK x hx := hK x hx

theorem effect_insert (image : Image) :
    Effect (fun K => replayEvidence cat K (.insert k image))
      ⟨none,some (k,contentOf (columnsOf cat k.table) image)⟩ where
  other K k' hk := by
    have hne : k' ≠ k := fun h => hk (h ▸ rfl)
    exact update_of_ne hne _ _
  own K _ x hx := by
    obtain rfl := Option.mem_some_iff.mp hx
    exact update_self _ _ _

theorem effect_delete : Effect (fun K => replayEvidence cat K (.delete k)) ⟨some (k,v),none⟩ where
  other K k' _ := by
    by_cases h : k' = k
    · rw [h]
      simp [replayEvidence,Change.sourcePlace]
    · have hne : ¬k = k' := fun h' => h h'.symm
      simp [replayEvidence,Change.sourcePlace,h,hne]
  own _ _ x hx := absurd hx (Option.not_mem_none x)

theorem effect_updatePKChange (image : Image) :
    Effect (fun K => replayEvidence cat K (.updatePKChange k k' image))
      ⟨some (k,v),some (k',contentOf (columnsOf cat k'.table) image)⟩ where
  other K j hj := by
    have hne : j ≠ k' := fun h => hj (h ▸ rfl)
    by_cases h : j = k
    · rw [h] at hne ⊢
      simp [replayEvidence,Change.sourcePlace,hne]
    · have hk : ¬k = j := fun h' => h h'.symm
      simp [replayEvidence,Change.sourcePlace,hne,h,hk]
  own K _ x hx := by
    obtain rfl := Option.mem_some_iff.mp hx
    exact update_self _ _ _

theorem effect_update {changed : Image} (h : v.map (mergeCell changed) = v') :
    Effect (fun K => replayEvidence cat K (.update k changed)) ⟨some (k,v),some (k,v')⟩ where
  other K j hj := by
    have hne : j ≠ k := fun h => hj (h ▸ rfl)
    rw [if_neg (show Change.sourcePlace ⟨some (k,v),some (k,v')⟩ ≠ some j from hj)]
    exact update_of_ne hne _ _
  own K hK x hx := by
    obtain rfl := Option.mem_some_iff.mp hx
    have hold := hK (k,v) rfl
    rw [replayEvidence,update_self,hold,Option.map_some,h]

end Effects

/-- A row image in the order of its table's columns, as the journal captures it. -/
structure ImageOK (tab : Table) (img : Image) : Prop where
  aligned : img.map ColValue.column = tab.columns.map Column.id
  plain : ∀ v ∈ img,v.format ≠ .delta

theorem ImageOK.length {tab : Table} {img : Image} (h : ImageOK tab img) :
    img.length = tab.columns.length := by
  simpa using congrArg List.length h.aligned

theorem evidenceForUpdate_effect (cat : Catalog) {tab : Table} {k : RowKey} {old new : Image}
    (hids : (tab.columns.map Column.id).Nodup) (hold : ImageOK tab old) (hnew : ImageOK tab new)
    (hfit : tab.cellGroup = true →
      CountersFit tab.columns old new (changedColumnsSlice tab.columns old new)) :
    ∃ ev,evidenceForUpdate tab k old new = .ok ev ∧
      Effect (fun K => ev.elim K (replayEvidence cat K))
        ⟨some (k,contentOf tab.columns old),some (k,contentOf tab.columns new)⟩ := by
  have hplain : ∀ {i c o n},ColumnAt tab.columns old new i c o n → n.format ≠ .delta := fun hat =>
    hnew.plain _ (mem_of_getElem? hat.newVal)
  have hwrite : ∀ {x : SqlValue} {c : Column} {n : ColValue},n.format ≠ .delta →
      writeCell x { n with column := c.id } = boundValue n := by
    intro x c n hn
    unfold writeCell
    rw [if_neg hn]
    exact boundValue_congr rfl rfl
  have hequal : ∀ {o n},colValueEqual o n = true → boundValue o = boundValue n := by
    intro o n heq
    simp only [colValueEqual,decide_eq_true_eq] at heq
    exact boundValue_congr heq.1 heq.2
  unfold evidenceForUpdate
  dsimp only
  split_ifs with hnil hgroup hcount
  · refine ⟨none,rfl,?_⟩
    have hmerge : (contentOf tab.columns old).map (mergeCell []) = contentOf tab.columns new := by
      refine merge_contentOf hold.length hnew.length fun i c o n hat hpk => ?_
      have hfind := find_changedColumnsSlice hids hat hpk
      rw [hnil] at hfind
      by_cases heq : colValueEqual o n = true
      · exact hequal heq
      · rw [if_neg heq] at hfind
        exact absurd hfind (by simp)
    have hsame : (contentOf tab.columns old).map (mergeCell []) = contentOf tab.columns old :=
      map_id _
    rw [← hmerge,hsame]
    exact effect_unchanged
  · obtain ⟨r,hr,-,hfind⟩ := counterDeltasInPlace_eq hids hold.length hnew.length (hfit hgroup)
    rw [hr]
    refine ⟨_,rfl,effect_update cat (merge_contentOf hold.length hnew.length fun i c o n hat hpk => ?_)⟩
    rw [hfind i c o n hat,find_changedColumnsSlice hids hat hpk]
    by_cases heq : colValueEqual o n = true
    · rw [if_pos heq]
      exact hequal heq
    · rw [if_neg heq,Option.map_some]
      by_cases hc : c.counter = true
      · have hsome : ((changedColumnsSlice tab.columns old new).find? fun w => w.column = c.id).isSome =
            true := by
          rw [find_changedColumnsSlice hids hat hpk,if_neg heq]
          rfl
        obtain ⟨a,b,ha,hb,hab⟩ := hfit hgroup i c o n hat hc hsome
        rw [if_pos hc,counterDelta_eq ha hb hab,boundValue_counterInt ha,boundValue_counterInt hb]
        change SqlValue.int (a+int64OfBytes (encodeInt64 (b-a))) = .int b
        rw [int64OfBytes_encodeInt64 hab]
        congr 1
        omega
      · rw [if_neg hc]
        exact hwrite (hplain hat)
  · refine ⟨_,rfl,effect_update cat (merge_contentOf hold.length hnew.length fun i c o n hat hpk => ?_)⟩
    rw [find_changedColumnsSlice hids hat hpk]
    by_cases heq : colValueEqual o n = true
    · rw [if_pos heq]
      exact hequal heq
    · rw [if_neg heq]
      exact hwrite (hplain hat)
  · refine ⟨_,rfl,effect_update cat (merge_contentOf hold.length hnew.length fun i c o n hat hpk => ?_)⟩
    rw [find_fullImageSlice hids hat hpk]
    exact hwrite (hplain hat)

theorem countersFit_of_evidenceForUpdate {tab : Table} {k : RowKey} {old new : Image}
    {ev : Option RecordEvidence} (h : evidenceForUpdate tab k old new = .ok ev)
    (hgroup : tab.cellGroup = true) :
    CountersFit tab.columns old new (changedColumnsSlice tab.columns old new) := by
  unfold evidenceForUpdate at h
  by_cases hnil : changedColumnsSlice tab.columns old new = []
  · rw [hnil]
    exact fun i c o n _ _ hsome => absurd hsome (by simp)
  · rw [if_neg hnil,if_neg (not_not.mpr hgroup)] at h
    by_cases hcount : tab.hasCounters = true
    · rw [if_pos hcount] at h
      cases hr : counterDeltasInPlace tab.columns old new (changedColumnsSlice tab.columns old new) with
      | none =>
        rw [hr] at h
        exact absurd h (by simp)
      | some r => exact countersFit_of_counterDeltasInPlace hr
    · intro i c o n hat hcounter
      refine absurd ?_ hcount
      exact any_eq_true.mpr ⟨c,hat.mem,hcounter⟩

def rowAt (cat : Catalog) (x : RowPlace × Image) : Option (RowKey × Cells) :=
  if x.1.db = "main" then
    (cat.tableByID x.1.table).bind fun tab =>
      (tab.encodePKFromSlice x.2).map fun pk => (⟨tab.id,pk⟩,contentOf tab.columns x.2)
  else none

/-- Tables go by their ids, and so do the columns of a table. -/
structure Catalog.OK (cat : Catalog) : Prop where
  id_eq : ∀ t tab,cat.tableByID t = some tab → tab.id = t
  columns_nodup : ∀ t tab,cat.tableByID t = some tab → (tab.columns.map Column.id).Nodup

/-- A row as the journal captures it, with a key of its own. -/
structure RowOK (cat : Catalog) (x : RowPlace × Image) : Prop where
  image : ∀ tab,cat.tableByID x.1.table = some tab → ImageOK tab x.2
  keyed : (rowAt cat x).isSome = true

theorem RowOK.spec {cat : Catalog} (hcat : cat.OK) {tab : Table} {x : RowPlace × Image}
    (h : RowOK cat x) (htab : cat.tableByID x.1.table = some tab) :
    ∃ k,rowAt cat x = some (k,contentOf tab.columns x.2) ∧ encodeKey tab x.2 = .ok k ∧
      assignColumnIDs tab.columns x.2 = x.2 ∧
      contentOf tab.columns x.2 = contentOf (columnsOf cat k.table) x.2 := by
  obtain ⟨r,hr⟩ := Option.isSome_iff_exists.mp h.keyed
  unfold rowAt at hr
  split_ifs at hr with hdb
  rw [htab,Option.bind_some] at hr
  obtain ⟨pk,hpk,rfl⟩ := Option.map_eq_some_iff.mp hr
  refine ⟨⟨tab.id,pk⟩,?_,by simp [encodeKey,hpk],assignColumnIDs_eq (h.image tab htab).aligned,?_⟩
  · rw [rowAt,if_pos hdb,htab,Option.bind_some,hpk,Option.map_some]
  · have hcols : columnsOf cat tab.id = tab.columns := by
      rw [hcat.id_eq _ _ htab,columnsOf,htab]
      rfl
    rw [hcols]

def SlotFits (cat : Catalog) (s : RowSlot) : Prop :=
  ∀ tab,cat.tableByID s.key.1 = some tab → tab.cellGroup = true → opOf s.first = .update →
    ∀ x ∈ s.old,∀ y ∈ s.new,encodeKey tab x.2 = encodeKey tab y.2 →
      CountersFit tab.columns x.2 y.2 (changedColumnsSlice tab.columns x.2 y.2)

section Touched

variable {tab : Table} {firstOp lastOp : TouchOp} {old new : Image} {k k' : RowKey}

theorem evidence_created (o : Option Image) (h : lastOp ≠ .delete) (hk : encodeKey tab new = .ok k) :
    evidenceForTouched tab ⟨.insert,o,lastOp,some new⟩ = .ok (some (.insert k new)) := by
  cases lastOp with
  | delete => exact absurd rfl h
  | insert | update =>
    simp only [evidenceForTouched,hk]
    rfl

theorem evidence_dropped (n : Option Image) (h : firstOp ≠ .insert) (hk : encodeKey tab old = .ok k) :
    evidenceForTouched tab ⟨firstOp,some old,.delete,n⟩ = .ok (some (.delete k)) := by
  cases firstOp with
  | insert => exact absurd rfl h
  | update | delete =>
    simp only [evidenceForTouched,hk]
    rfl

variable (h : lastOp ≠ .delete) (hk : encodeKey tab old = .ok k) (hk' : encodeKey tab new = .ok k')
include h hk hk'

theorem evidence_recreated :
    evidenceForTouched tab ⟨.delete,some old,lastOp,some new⟩ =
      .ok (some (.updatePKChange k k' new)) := by
  cases lastOp with
  | delete => exact absurd rfl h
  | insert | update =>
    simp only [evidenceForTouched,hk,hk']
    rfl

theorem evidence_updated :
    evidenceForTouched tab ⟨.update,some old,lastOp,some new⟩ =
      if k ≠ k' then .ok (some (.updatePKChange k k' new)) else evidenceForUpdate tab k' old new := by
  cases lastOp with
  | delete => exact absurd rfl h
  | insert | update =>
    simp only [evidenceForTouched,hk,hk']
    rfl

end Touched

section Slots

variable {cat : Catalog} {s : RowSlot} {tab : Table}

theorem opOf_first (s : RowSlot) : opOf s.first = .insert ↔ s.old = none := by
  obtain ⟨key,first,last⟩ := s
  cases first <;> simp [opOf,Slot.old,Event.source]

theorem opOf_last (s : RowSlot) : opOf s.last = .delete ↔ s.new = none := by
  obtain ⟨key,first,last⟩ := s
  cases last <;> simp [opOf,Slot.new,Event.target]

theorem slotEvidence_eq (htab : cat.tableByID s.key.1 = some tab) :
    slotEvidence cat (toDedup cat s) = evidenceForTouched tab
      ⟨opOf s.first,s.old.map fun x => assignColumnIDs tab.columns x.2,opOf s.last,
        s.new.map fun x => assignColumnIDs tab.columns x.2⟩ := by
  have hcols : columnsOf cat s.key.1 = tab.columns := by simp [columnsOf,htab]
  simp [slotEvidence,toDedup,htab,hcols]

structure SlotOK (cat : Catalog) (s : RowSlot) : Prop where
  old : ∀ x ∈ s.old,x.1.table = s.key.1 ∧ RowOK cat x
  new : ∀ x ∈ s.new,x.1.table = s.key.1 ∧ RowOK cat x

/-- What the drain derives from a slot takes the slot's old row to its new one. -/
theorem slotEvidence_effect (hcat : cat.OK) (htab : cat.tableByID s.key.1 = some tab)
    (hs : SlotOK cat s) (hfit : SlotFits cat s) :
    ∃ ev,slotEvidence cat (toDedup cat s) = .ok ev ∧
      Effect (fun K => ev.elim K (replayEvidence cat K)) (s.change.bind (rowAt cat)) := by
  have hrow : ∀ {x : RowPlace × Image},x.1.table = s.key.1 ∧ RowOK cat x → _ := fun hx =>
    hx.2.spec hcat (hx.1 ▸ htab)
  rw [slotEvidence_eq htab]
  change ∃ ev,_ ∧ Effect _ ⟨s.old.bind (rowAt cat),s.new.bind (rowAt cat)⟩
  cases ho : s.old with
  | none =>
    rw [(opOf_first s).mpr ho]
    cases hn : s.new with
    | none =>
      rw [(opOf_last s).mpr hn]
      exact ⟨none,rfl,effect_none⟩
    | some y =>
      have hlast : opOf s.last ≠ .delete := fun h => by simp [(opOf_last s).mp h] at hn
      obtain ⟨k,hk,henc,hassign,hcontent⟩ := hrow (hs.new y hn)
      refine ⟨some (.insert k y.2),?_,?_⟩
      · rw [Option.map_some,hassign]
        exact evidence_created _ hlast henc
      · rw [Option.bind_some,hk,hcontent]
        exact effect_insert cat y.2
  | some x =>
    obtain ⟨k,hk,henc,hassign,-⟩ := hrow (hs.old x ho)
    have hfirst : opOf s.first ≠ .insert := fun h => by simp [(opOf_first s).mp h] at ho
    cases hn : s.new with
    | none =>
      refine ⟨some (.delete k),?_,?_⟩
      · rw [(opOf_last s).mpr hn,Option.map_some,hassign]
        exact evidence_dropped _ hfirst henc
      · rw [Option.bind_some,hk]
        exact effect_delete cat
    | some y =>
      have hlast : opOf s.last ≠ .delete := fun h => by simp [(opOf_last s).mp h] at hn
      obtain ⟨k',hk',henc',hassign',hcontent'⟩ := hrow (hs.new y hn)
      have hpk : Effect (fun K => replayEvidence cat K (.updatePKChange k k' y.2))
          ⟨some (k,contentOf tab.columns x.2),some (k',contentOf tab.columns y.2)⟩ := by
        rw [hcontent']
        exact effect_updatePKChange cat y.2
      rw [Option.map_some,Option.map_some,hassign,hassign',Option.bind_some,Option.bind_some,hk,hk']
      cases hop : opOf s.first with
      | insert => exact absurd hop hfirst
      | delete => exact ⟨_,evidence_recreated hlast henc henc',hpk⟩
      | update =>
        rw [evidence_updated hlast henc henc']
        by_cases hkk : k = k'
        · subst hkk
          have hx := (hs.old x ho).2.image tab ((hs.old x ho).1 ▸ htab)
          have hy := (hs.new y hn).2.image tab ((hs.new y hn).1 ▸ htab)
          rw [if_neg (not_not.mpr rfl)]
          exact evidenceForUpdate_effect cat (hcat.columns_nodup _ _ htab) hx hy fun hg =>
            hfit tab htab hg hop x ho y hn (henc.trans henc'.symm)
        · rw [if_pos hkk]
          exact ⟨_,rfl,hpk⟩

theorem slotFits_of_slotEvidence (hcat : cat.OK) (hs : SlotOK cat s) {ev : Option RecordEvidence}
    (h : slotEvidence cat (toDedup cat s) = .ok ev) : SlotFits cat s := by
  intro tab htab hgroup hop x hx y hy hkeys
  obtain ⟨k,-,henc,hassign,-⟩ := (hs.old x hx).2.spec hcat ((hs.old x hx).1 ▸ htab)
  obtain ⟨k',-,henc',hassign',-⟩ := (hs.new y hy).2.spec hcat ((hs.new y hy).1 ▸ htab)
  have hlast : opOf s.last ≠ .delete := fun hd => by simp [(opOf_last s).mp hd] at hy
  have hkk : k = k' := by
    rw [henc,henc'] at hkeys
    exact Except.ok.inj hkeys
  rw [slotEvidence_eq htab,hop,Option.mem_def.mp hx,Option.mem_def.mp hy,Option.map_some,
    Option.map_some,hassign,hassign',evidence_updated hlast henc henc',
    if_neg (not_not.mpr hkk)] at h
  exact countersFit_of_evidenceForUpdate h hgroup

end Slots

end Syzy
