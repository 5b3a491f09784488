import Syzy.Apply

/-!
The statements of full images: an insert or update whose image covers the table leaves exactly that
image, whatever the row held.
-/

namespace Syzy

/-- An image as a producer with the same schema ships it: it covers every value column with
values SQLite can store, none of them a contribution. -/
structure FullImage (tab : Table) (vs : List ColValue) : Prop where
  binds : ∀ v ∈ vs,Bindable v
  covers : ∀ c ∈ tab.nonPKColumns,∃ v ∈ vs,v.column = c
  admitted : notNullOK tab (imageRow tab vs) = true
  plain : ∀ v ∈ vs,v.format ≠ .delta

def content (tab : Table) : Record → Option Row
  | .insert _ _ vs | .update _ _ vs => some (imageRow tab vs)
  | _ => none

def setRow (rows : Rows) (k : RowKey) : Option Row → Rows
  | some row => rows.insert k row
  | none => rows.erase k

theorem lookup_setRow (rows : Rows) (k k' : RowKey) (c : Option Row) :
    (setRow rows k c).lookup k' = if k' = k then c else rows.lookup k' := by
  cases c <;> simp [setRow,FinMap.lookup_insert_eq,FinMap.lookup_erase_eq]

section Statement

variable {tab : Table} {rows : Rows} {k : RowKey} {vs : List ColValue}

theorem FullImage.covers_cells (h : FullImage tab vs) {c : ColumnID}
    (hc : tab.isValueColumn c = true) : c ∈ (imageCells tab vs).map Prod.fst :=
  mem_imageCells.mpr ⟨hc,h.covers c (isValueColumn_mem_nonPKColumns hc)⟩

theorem FullImage.overlay_eq (h : FullImage tab vs) {row : Row} (hrow : RowShape tab row) :
    overlay row (imageCells tab vs) = imageRow tab vs :=
  overlay_eq_of_covers (fun _ => h.covers_cells) hrow (defaultRow_shape tab)

theorem insert_of_lookup_eq {row : Row} (h : rows.lookup k = some row) :
    rows.insert k row = rows := by
  refine Finmap.ext_lookup fun k' => ?_
  rw [FinMap.lookup_insert_eq]
  by_cases hk : k' = k
  · rw [if_pos hk,hk,h]
  · rw [if_neg hk]

variable (hkeys : tab.uniqueKeys = []) (hpk : bindPK k = .ok ()) (h : FullImage tab vs)
include hkeys hpk h

theorem applyInsert_full (hrow : ∀ row,rows.lookup k = some row → RowShape tab row) :
    applyInsert tab rows k vs = .ok (rows.insert k (imageRow tab vs)) := by
  rw [applyInsert_eq hpk h.binds]
  have hstore : storeRow tab rows k (imageRow tab vs) = .ok (rows.insert k (imageRow tab vs)) :=
    storeRow_of_admitted hkeys h.admitted
  have hover : overlay (defaultRow tab) (imageCells tab vs) = imageRow tab vs := rfl
  have hadm := h.admitted
  unfold upsert
  cases hl : rows.lookup k with
  | none =>
    have hk : k ∉ rows := Finmap.lookup_eq_none.mp hl
    simp [hover,hadm,hstore,insertOrIgnore,hk]
  | some row =>
    have hk : k ∈ rows := Finmap.mem_of_lookup_eq_some hl
    have hfull := h.overlay_eq (hrow row hl)
    by_cases hc : imageCells tab vs = []
    · rw [hc] at hfull
      have : row = imageRow tab vs := hfull
      rw [← this,insert_of_lookup_eq hl]
      simp [hc,insertOrIgnore,hk]
    · simp [hc,hover,hadm,hfull,hstore]

theorem execRowUpdate_full (hsome : ∃ v ∈ vs,(tab.columnByID v.column).isSome)
    (hrow : ∀ row,rows.lookup k = some row → RowShape tab row) :
    execRowUpdate tab rows k vs =
      if k ∈ rows then .ok (rows.insert k (imageRow tab vs),some 1) else .ok (rows,some 0) := by
  rw [execRowUpdate_eq (resolveCounterDeltas_plain h.plain) hpk h.binds hsome]
  cases hl : rows.lookup k with
  | none =>
    have hk : k ∉ rows := Finmap.lookup_eq_none.mp hl
    simp [hk]
  | some row =>
    have hk : k ∈ rows := Finmap.mem_of_lookup_eq_some hl
    have hstore : storeRow tab rows k (overlay row (imageCells tab vs)) =
        .ok (rows.insert k (imageRow tab vs)) := by
      rw [h.overlay_eq (hrow row hl)]
      exact storeRow_of_admitted hkeys h.admitted
    simp [hk,hstore,Except.map]

end Statement

end Syzy
