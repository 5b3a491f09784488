import Syzy.SchemaRows

/-!
The layouts under which captured values are decoded. The columns that are live at a position are those
of the table at that position, in their physical order, whatever was added, dropped or renamed since,
as long as no fork restarts the positions of an existing table.
-/

namespace Syzy

open Machine List

/-- A record captured at a schema position from the columns of its table; a blob intent names one. -/
structure CapturedRecord where
  seq : ℕ
  columns : List ColumnID
  intent : Option (SqlName × ColumnID)
deriving DecidableEq

/-- A node's catalog, the columns that SQLite has for the table, and the records not drained yet. -/
structure LayoutNode where
  rows : CatalogRows
  physical : List (ColumnID × SqlName)
  pending : List CapturedRecord

inductive LayoutAction
  | event (ev : SchemaEvent)
  | adoptFork
  | capture (intent : Option SqlName)
  | drain

def alterColumns (table : TableID) (l : List (ColumnID × SqlName)) :
    CatalogOp → List (ColumnID × SqlName)
  | .createTable t _ columns => if t = table then columns.map fun c => (c.id,c.name) else l
  | .addColumn t c => if t = table then l++[(c.id,c.name)] else l
  | .dropColumn t column => if t = table then l.filter fun p => p.1 ≠ column else l
  | .renameColumn t column name =>
    if t = table then l.map fun p => if p.1 = column then (p.1,name) else p else l
  | .dropTable _ => l
  | .renameTable _ _ => l

/-- The columns given to a record's values and to its intent. -/
def decodeRecord (r : CatalogRows) (table : TableID) (c : CapturedRecord) :
    Option (List ColumnID × Option ColumnID) :=
  ((r.tableByID table).bind fun t => r.tableAtSeq t c.seq).map fun t =>
    (t.columns.map ColumnEntry.id,c.intent.bind fun p =>
      (t.columns.find? fun x => x.name = p.1).map ColumnEntry.id)

namespace LayoutNode

open CatalogRows

variable {table : TableID} {r : CatalogRows} {seq m : ℕ} {l : List (ColumnID × SqlName)}
  {c : CapturedRecord} {s : LayoutNode}

def step (table : TableID) (s : LayoutNode) : LayoutAction → LayoutNode
  | .event ev => { s with
      rows := s.rows.applyEvent ev
      physical := ev.ops.foldl (alterColumns table) s.physical }
  | .adoptFork => { s with rows := s.rows.adoptFork,pending := [] }
  | .capture intent => { s with
      pending := s.pending++[⟨s.rows.schemaSeq,s.physical.map Prod.fst,intent.bind fun name =>
        (s.physical.find? fun p => p.2 = name).map fun p => (name,p.1)⟩] }
  | .drain => { s with pending := s.pending.tail }

/-- The table is never dropped, and records are captured while it exists. -/
def Sqlite (table : TableID) (s : LayoutNode) : LayoutAction → Prop
  | .event ev => s.rows.AdmitsEvent ev ∧ .dropTable table ∉ ev.ops
  | .capture _ => s.rows.Active table
  | _ => True

instance (table : TableID) (s : LayoutNode) : DecidablePred (s.Sqlite table)
  | .event _ => inferInstanceAs (Decidable (_ ∧ _))
  | .adoptFork => inferInstanceAs (Decidable True)
  | .capture _ => inferInstanceAs (Decidable (s.rows.Active table))
  | .drain => inferInstanceAs (Decidable True)

/-- The op does not rename the column of an intent, and gives the intent's name to no other. -/
def SparesIntent (table : TableID) (c : CapturedRecord) : CatalogOp → Prop
  | .renameColumn t column name => t = table → ∀ p ∈ c.intent,p.2 ≠ column ∧ p.1 ≠ name
  | _ => True

instance (table : TableID) (c : CapturedRecord) : DecidablePred (SparesIntent table c)
  | .renameColumn t column name =>
    inferInstanceAs (Decidable (t = table → ∀ p ∈ c.intent,p.2 ≠ column ∧ p.1 ≠ name))
  | .createTable _ _ _ => inferInstanceAs (Decidable True)
  | .dropTable _ => inferInstanceAs (Decidable True)
  | .renameTable _ _ => inferInstanceAs (Decidable True)
  | .addColumn _ _ => inferInstanceAs (Decidable True)
  | .dropColumn _ _ => inferInstanceAs (Decidable True)

/-- Forks happen before the table is created, and renames spare the intents that wait for the drain. -/
def Calm (table : TableID) (s : LayoutNode) : LayoutAction → Prop
  | .event ev => ∀ c ∈ s.pending,∀ op ∈ ev.ops,SparesIntent table c op
  | .adoptFork => ¬s.rows.Active table
  | _ => True

instance (table : TableID) (s : LayoutNode) : DecidablePred (s.Calm table)
  | .event ev => inferInstanceAs (Decidable (∀ c ∈ s.pending,∀ op ∈ ev.ops,SparesIntent table c op))
  | .adoptFork => inferInstanceAs (Decidable (¬s.rows.Active table))
  | .capture _ => inferInstanceAs (Decidable True)
  | .drain => inferInstanceAs (Decidable True)

/-- Every record that waits would be decoded with the columns it was captured from. -/
def KeepsColumns (table : TableID) (s : LayoutNode) : Prop :=
  ∀ c ∈ s.pending,decodeRecord s.rows table c = some (c.columns,c.intent.map Prod.snd)

instance (table : TableID) (s : LayoutNode) : Decidable (s.KeepsColumns table) :=
  inferInstanceAs (Decidable (∀ c ∈ s.pending,_ = _))

def liveColumns (r : CatalogRows) (table : TableID) (seq : ℕ) : List ColumnEntry :=
  (r.columnsOf table).filter fun c => c.liveAt seq

/-- The rows of the table while an event is applied at position `m`. -/
structure Lays (table : TableID) (m : ℕ) (r : CatalogRows) (l : List (ColumnID × SqlName)) : Prop where
  sound : r.Sound
  sorted : (r.activeColumns table).Pairwise fun a b => a.ordinal < b.ordinal
  physical : (r.activeColumns table).map (fun c => (c.id,c.name)) = l
  dated : ∀ c ∈ r.columnsOf table,c.name ≠ noName ∧ c.createSeq ≤ m ∧
    (c.dropped = false → c.dropSeq = 0) ∧ (c.dropped = true → 0 < c.dropSeq ∧ c.dropSeq ≤ m)
  created : ¬r.Active table → r.columnsOf table = []

/-- A record's columns are those live at its position. -/
structure Replays (table : TableID) (c : CapturedRecord) (r : CatalogRows) : Prop where
  sorted : (liveColumns r table c.seq).Pairwise fun a b => a.ordinal < b.ordinal
  columns : (liveColumns r table c.seq).map ColumnEntry.id = c.columns
  intent : ∀ p ∈ c.intent,(∃ x ∈ liveColumns r table c.seq,x.name = p.1 ∧ x.id = p.2) ∧
    ∀ x ∈ liveColumns r table c.seq,x.name = p.1 → x.id = p.2

variable {column : ColumnID} {e : TableEntry} {name : SqlName} {op : CatalogOp} {r' : CatalogRows}
  {xs : List ColumnEntry}

theorem Active.apply (h : r.Active table) (hop : op ≠ .dropTable table) :
    (r.applyCatalogOp seq op).Active table := by
  obtain ⟨e,he,hid,hd⟩ := h
  cases op with
  | createTable t name columns =>
    rw [Active,applyCatalogOp,tables_foldl_addColumn]
    by_cases ht : t = table
    · exact ⟨_,(Keyed.mem_upsert _).mpr (.inl rfl),ht,rfl⟩
    · exact ⟨e,(Keyed.mem_upsert _).mpr (.inr ⟨he,fun h => ht (h.symm.trans hid)⟩),hid,hd⟩
  | dropTable t =>
    exact ⟨e,(Keyed.mem_upsert _).mpr (.inr ⟨he,fun h => hop (by rw [← hid,h])⟩),hid,hd⟩
  | renameTable t name =>
    refine ⟨_,(Keyed.mem_modify _).mpr ⟨e,he,rfl⟩,?_⟩
    split_ifs
    · exact ⟨hid,hd⟩
    · exact ⟨hid,hd⟩
  | addColumn t column => exact ⟨e,he,hid,hd⟩
  | dropColumn t column => exact ⟨e,(tables_dropColumn (r := r) column).symm ▸ he,hid,hd⟩
  | renameColumn t column name => exact ⟨e,he,hid,hd⟩

variable (seq) in
theorem columns_apply (ha : r.Admits op) :
    (∃ xs : List ColumnEntry,(r.applyCatalogOp seq op).columns = r.columns++xs ∧
      ∀ x ∈ xs,x.createSeq = seq) ∨
    ∃ g : ColumnEntry → ColumnEntry,(r.applyCatalogOp seq op).columns = r.columns.map g ∧
      ∀ x,(g x).key = x.key ∧ (g x).ordinal = x.ordinal ∧ (g x).createSeq = x.createSeq ∧
        ((g x).dropSeq = x.dropSeq ∨ (g x).dropSeq = seq ∧ ∃ t column,op = .dropColumn t column ∧
          x.key = (t,column)) ∧
        ((g x).name = x.name ∨ ∃ t column name,op = .renameColumn t column name ∧ x.key = (t,column) ∧
          (g x).name = name) := by
  have hid : ∀ cols : List ColumnEntry,cols = cols.map id := fun cols => (map_id cols).symm
  cases op with
  | createTable t name columns =>
    refine .inl ⟨_,columns_createTable ha,?_⟩
    intro x hx
    obtain ⟨c,-,rfl⟩ := mem_map.mp hx
    rfl
  | dropTable | renameTable => exact .inr ⟨id,hid _,fun x => ⟨rfl,rfl,rfl,.inl rfl,.inl rfl⟩⟩
  | addColumn t column =>
    refine .inl ⟨[column.entry seq t],Keyed.upsert_of_absent _ ha.2.1,?_⟩
    intro x hx
    rw [mem_singleton.mp hx]
    rfl
  | dropColumn t column =>
    refine .inr ⟨_,dropColumn_of_mem seq ha.2,fun x => ?_⟩
    by_cases hk : x.key = (t,column)
    · rw [if_pos hk]
      exact ⟨rfl,rfl,rfl,.inr ⟨rfl,t,column,rfl,hk⟩,.inl rfl⟩
    · rw [if_neg hk]
      exact ⟨rfl,rfl,rfl,.inl rfl,.inl rfl⟩
  | renameColumn t column name =>
    refine .inr ⟨_,rfl,fun x => ?_⟩
    by_cases hk : x.key = (t,column)
    · rw [if_pos hk]
      exact ⟨rfl,rfl,rfl,.inl rfl,.inr ⟨t,column,name,rfl,hk,rfl⟩⟩
    · rw [if_neg hk]
      exact ⟨rfl,rfl,rfl,.inl rfl,.inl rfl⟩

theorem columnsOf_append (h : r'.columns = r.columns++xs) :
    r'.columnsOf table = r.columnsOf table++xs.filter fun x => x.table = table := by
  rw [columnsOf,h,filter_append]
  rfl

theorem columnsOf_map {g : ColumnEntry → ColumnEntry} (h : r'.columns = r.columns.map g)
    (hg : ∀ x,(g x).key = x.key) : r'.columnsOf table = (r.columnsOf table).map g := by
  have ht : ∀ x,(g x).table = x.table := fun x => (Prod.mk.inj (hg x)).1
  rw [columnsOf,h,filter_map]
  exact congrArg _ (filter_congr fun x _ => by simp [ht])

theorem liveColumns_apply (h : Lays table m r l) (ha : r.Admits op) (hk : seq < m) :
    ∃ g : ColumnEntry → ColumnEntry,
      liveColumns (r.applyCatalogOp m op) table seq = (liveColumns r table seq).map g ∧
      ∀ x ∈ liveColumns r table seq,(g x).id = x.id ∧ (g x).ordinal = x.ordinal ∧
        ((g x).name = x.name ∨ ∃ name,op = .renameColumn table x.id name ∧ (g x).name = name) := by
  obtain ⟨xs,hxs,hnew⟩ | ⟨g,hmap,hg⟩ := columns_apply m ha
  · refine ⟨id,?_,fun x _ => ⟨rfl,rfl,.inl rfl⟩⟩
    have hnone : (xs.filter fun x => decide (x.table = table)).filter (fun c => c.liveAt seq) = [] := by
      refine filter_eq_nil_iff.mpr fun x hx => ?_
      rw [ColumnEntry.liveAt,hnew x (mem_of_mem_filter hx)]
      simp [Nat.not_le.mpr hk]
    rw [liveColumns,columnsOf_append hxs,filter_append,hnone,append_nil,map_id,liveColumns]
  · refine ⟨g,?_,fun x hx => ?_⟩
    · rw [liveColumns,columnsOf_map hmap fun x => (hg x).1,filter_map,liveColumns]
      refine congrArg _ (filter_congr fun x hx => ?_)
      obtain ⟨-,-,hcreate,hdrop,-⟩ := hg x
      rw [Function.comp_apply,ColumnEntry.liveAt,ColumnEntry.liveAt,hcreate]
      obtain hdrop | ⟨hdrop,t,column,rfl,hkey⟩ := hdrop
      · rw [hdrop]
      · obtain ⟨c,hc,rfl⟩ := ha.2
        obtain ⟨hmem,rfl,hd⟩ := mem_activeColumns.mp hc
        obtain rfl := h.sound.columns_eq (mem_columnsOf.mp hx).1 hmem hkey
        rw [hdrop,(h.dated x hx).2.2.1 hd]
        simp [hk]
    · obtain ⟨hkey,hord,-,-,hname⟩ := hg x
      refine ⟨(Prod.mk.inj hkey).2,hord,hname.imp_right ?_⟩
      rintro ⟨t,column,name,rfl,hx',rfl⟩
      obtain ⟨rfl,rfl⟩ := Prod.mk.inj hx'
      rw [(mem_columnsOf.mp (mem_of_mem_filter hx)).2]
      exact ⟨_,rfl,rfl⟩

theorem Replays.apply (h : Replays table c r) (hl : Lays table m r l) (ha : r.Admits op)
    (hk : c.seq < m) (hs : SparesIntent table c op) : Replays table c (r.applyCatalogOp m op) := by
  obtain ⟨g,hlive,hg⟩ := liveColumns_apply hl ha hk
  -- A row that an intent knows by its name keeps it, and no row takes it.
  have hname : ∀ p ∈ c.intent,∀ x ∈ liveColumns r table c.seq,
      (x.id = p.2 → (g x).name = x.name) ∧ ((g x).name = p.1 → x.name = p.1) := by
    intro p hp x hx
    obtain heq | ⟨name,rfl,heq⟩ := (hg x hx).2.2
    · exact ⟨fun _ => heq,fun h => heq.symm.trans h⟩
    · obtain ⟨hid,hne⟩ := hs rfl p hp
      exact ⟨fun h => absurd h.symm hid,fun h => absurd (h.symm.trans heq) hne⟩
  refine ⟨?_,?_,fun p hp => ⟨?_,?_⟩⟩
  · rw [hlive,pairwise_map]
    refine h.sorted.imp_of_mem fun {a b} ha hb hab => ?_
    rw [(hg a ha).2.1,(hg b hb).2.1]
    exact hab
  · rw [hlive,map_map,← h.columns]
    exact map_congr_left fun x hx => (hg x hx).1
  · obtain ⟨x,hx,hn,hid⟩ := (h.intent p hp).1
    rw [hlive]
    exact ⟨g x,mem_map_of_mem hx,((hname p hp x hx).1 hid).trans hn,(hg x hx).1.trans hid⟩
  · rw [hlive]
    intro y hy hn
    obtain ⟨x,hx,rfl⟩ := mem_map.mp hy
    exact (hg x hx).1.trans ((h.intent p hp).2 x hx ((hname p hp x hx).2 hn))

theorem lt_nextOrdinal {cols : List ColumnEntry} {x : ColumnEntry} (hx : x ∈ cols) :
    x.ordinal < nextOrdinal cols :=
  (le_foldl_max (fun c : ColumnEntry => c.ordinal+1) cols 0).2 x hx

section

variable (h : Lays table m r l)
include h

theorem Lays.frame (hs : r'.Sound) (hc : r'.columnsOf table = r.columnsOf table)
    (ha : r.Active table → r'.Active table) :
    Lays table m r' l where
  sound := hs
  sorted := by rw [activeColumns,hc]; exact h.sorted
  physical := by rw [activeColumns,hc]; exact h.physical
  dated := by rw [hc]; exact h.dated
  created hn := by rw [hc,h.created (mt ha hn)]

theorem Lays.createTable {columns : List CatalogColumn}
    (ha : r.Admits (.createTable table name columns)) :
    Lays table m (r.applyCatalogOp m (.createTable table name columns))
      (columns.map fun c => (c.id,c.name)) := by
  obtain ⟨-,hcol,-,-,-,hnames,hord⟩ := id ha
  have hcolumns : (r.applyCatalogOp m (.createTable table name columns)).columnsOf table =
      columns.map (CatalogColumn.entry m table) := by
    rw [columnsOf_append (columns_createTable ha)]
    have hold : r.columnsOf table = [] :=
      filter_eq_nil_iff.mpr fun c hc => by simpa using hcol c hc
    rw [hold,nil_append,filter_eq_self]
    intro x hx
    obtain ⟨c,-,rfl⟩ := mem_map.mp hx
    simp [CatalogColumn.entry]
  have hactive : (r.applyCatalogOp m (.createTable table name columns)).activeColumns table =
      columns.map (CatalogColumn.entry m table) := by
    rw [activeColumns,hcolumns,filter_eq_self]
    intro x hx
    obtain ⟨c,-,rfl⟩ := mem_map.mp hx
    rfl
  refine ⟨h.sound.apply ha,?_,?_,?_,fun hn => absurd ?_ hn⟩
  · rw [hactive,pairwise_map]
    have hrange := pairwise_lt_range (n := columns.length)
    rw [← hord,pairwise_map] at hrange
    exact hrange
  · rw [hactive,map_map]
    rfl
  · rw [hcolumns]
    intro x hx
    obtain ⟨c,hc,rfl⟩ := mem_map.mp hx
    exact ⟨fun heq => hnames (heq ▸ mem_map_of_mem hc),le_rfl,fun _ => rfl,fun hd => Bool.noConfusion hd⟩
  · rw [Active,applyCatalogOp,tables_foldl_addColumn]
    exact ⟨_,(Keyed.mem_upsert _).mpr (.inl rfl),rfl,rfl⟩

theorem Lays.addColumn {column : CatalogColumn} (ha : r.Admits (.addColumn table column)) :
    Lays table m (r.applyCatalogOp m (.addColumn table column)) (l++[(column.id,column.name)]) := by
  obtain ⟨hact,hkey,⟨hname,-⟩,hord⟩ := id ha
  have hcolumns : (r.applyCatalogOp m (.addColumn table column)).columnsOf table =
      r.columnsOf table++[column.entry m table] := by
    rw [columnsOf_append (Keyed.upsert_of_absent _ hkey)]
    simp [CatalogColumn.entry]
  have hactive : (r.applyCatalogOp m (.addColumn table column)).activeColumns table =
      r.activeColumns table++[column.entry m table] := by
    rw [activeColumns,hcolumns,filter_append]
    rfl
  refine ⟨h.sound.apply ha,?_,?_,?_,fun hn => absurd (Active.apply hact (by simp)) hn⟩
  · rw [hactive,pairwise_append]
    refine ⟨h.sorted,pairwise_singleton _ _,fun a ha b hb => ?_⟩
    rw [mem_singleton.mp hb]
    exact (lt_nextOrdinal ha).trans_eq hord.symm
  · rw [hactive,map_append,h.physical]
    rfl
  · rw [hcolumns]
    intro x hx
    obtain hx | rfl := mem_concat.mp hx
    · exact h.dated x hx
    · exact ⟨hname,le_rfl,fun _ => rfl,fun hd => Bool.noConfusion hd⟩

theorem Lays.dropColumn (hm : 0 < m) (ha : r.Admits (.dropColumn table column)) :
    Lays table m (r.applyCatalogOp m (.dropColumn table column)) (l.filter fun p => p.1 ≠ column) := by
  have hcolumns : (r.applyCatalogOp m (.dropColumn table column)).columnsOf table =
      (r.columnsOf table).map fun x =>
        if x.key = (table,column) then { x with dropped := true,dropSeq := m } else x :=
    columnsOf_map (dropColumn_of_mem m ha.2) fun x => by split_ifs <;> rfl
  have hactive : (r.applyCatalogOp m (.dropColumn table column)).activeColumns table =
      (r.activeColumns table).filter fun x => x.id ≠ column := by
    rw [activeColumns,hcolumns,filter_map,activeColumns,filter_filter]
    have hfilter : ∀ x ∈ r.columnsOf table,((fun c : ColumnEntry => !c.dropped) ∘ fun x =>
          if x.key = (table,column) then { x with dropped := true,dropSeq := m } else x) x =
        (decide (x.id ≠ column) && !x.dropped) := by
      intro x hx
      have hkey : x.key = (table,column) ↔ x.id = column := by
        simp [ColumnEntry.key,(mem_columnsOf.mp hx).2]
      by_cases hid : x.id = column
      · simp [hkey,hid]
      · simp [hkey,hid]
    rw [filter_congr hfilter]
    refine (map_congr_left fun x hx => ?_).trans (map_id _)
    have hx := of_mem_filter hx
    simp only [Bool.and_eq_true,decide_eq_true_eq] at hx
    exact if_neg fun heq => hx.1 (Prod.mk.inj heq).2
  refine ⟨h.sound.apply ha,?_,?_,?_,fun hn => absurd (Active.apply ha.1 (by simp)) hn⟩
  · rw [hactive]
    exact h.sorted.filter _
  · rw [hactive,← h.physical,filter_map]
    rfl
  · rw [hcolumns]
    intro x hx
    obtain ⟨y,hy,rfl⟩ := mem_map.mp hx
    obtain ⟨hname,hcreate,hlive,hdropped⟩ := h.dated y hy
    by_cases hk : y.key = (table,column)
    · rw [if_pos hk]
      exact ⟨hname,hcreate,fun hd => Bool.noConfusion hd,fun _ => ⟨hm,le_rfl⟩⟩
    · rw [if_neg hk]
      exact h.dated y hy

theorem Lays.renameColumn (ha : r.Admits (.renameColumn table column name)) :
    Lays table m (r.applyCatalogOp m (.renameColumn table column name))
      (l.map fun p => if p.1 = column then (p.1,name) else p) := by
  have hcolumns : (r.applyCatalogOp m (.renameColumn table column name)).columnsOf table =
      (r.columnsOf table).map fun x => if x.key = (table,column) then { x with name } else x :=
    columnsOf_map rfl fun x => by split_ifs <;> rfl
  have hactive : (r.applyCatalogOp m (.renameColumn table column name)).activeColumns table =
      (r.activeColumns table).map fun x => if x.key = (table,column) then { x with name } else x := by
    rw [activeColumns,hcolumns,filter_map]
    refine congrArg _ (filter_congr fun x _ => ?_)
    rw [Function.comp_apply]
    split_ifs <;> rfl
  refine ⟨h.sound.apply ha,?_,?_,?_,fun hn => absurd (Active.apply ha.1 (by simp)) hn⟩
  · rw [hactive,pairwise_map]
    refine h.sorted.imp fun {a b} hab => ?_
    split_ifs <;> exact hab
  · rw [hactive,← h.physical,map_map,map_map]
    refine map_congr_left fun x hx => ?_
    have ht : x.table = table := (mem_activeColumns.mp hx).2.1
    by_cases hid : x.id = column
    · simp [ColumnEntry.key,ht,hid]
    · simp [ColumnEntry.key,hid]
  · rw [hcolumns]
    intro x hx
    obtain ⟨y,hy,rfl⟩ := mem_map.mp hx
    by_cases hk : y.key = (table,column)
    · rw [if_pos hk]
      exact ⟨ha.2.2.1,(h.dated y hy).2⟩
    · rw [if_neg hk]
      exact h.dated y hy

theorem Lays.apply (hm : 0 < m) (ha : r.Admits op) (hop : op ≠ .dropTable table) :
    Lays table m (r.applyCatalogOp m op) (alterColumns table l op) := by
  have hframe : (r.applyCatalogOp m op).columnsOf table = r.columnsOf table →
      Lays table m (r.applyCatalogOp m op) l := fun hc =>
    h.frame (h.sound.apply ha) hc fun hact => Active.apply hact hop
  have hmodify : ∀ (t : TableID) (column : ColumnID) (f : ColumnEntry → ColumnEntry),t ≠ table →
      (r.columnsOf table).map (fun x => if x.key = (t,column) then f x else x) = r.columnsOf table := by
    intro t column f ht
    refine (map_congr_left fun x hx => ?_).trans (map_id _)
    exact if_neg fun heq => ht ((Prod.mk.inj heq).1.symm.trans (mem_columnsOf.mp hx).2)
  cases op with
  | createTable t name columns =>
    by_cases ht : t = table
    · subst ht
      rw [alterColumns,if_pos rfl]
      exact h.createTable ha
    · rw [alterColumns,if_neg ht]
      refine hframe ((columnsOf_append (columns_createTable ha)).trans ?_)
      rw [filter_eq_nil_iff.mpr,append_nil]
      intro x hx
      obtain ⟨c,-,rfl⟩ := mem_map.mp hx
      simp [CatalogColumn.entry,ht]
  | dropTable | renameTable => exact hframe rfl
  | addColumn t column =>
    by_cases ht : t = table
    · subst ht
      rw [alterColumns,if_pos rfl]
      exact h.addColumn ha
    · rw [alterColumns,if_neg ht]
      refine hframe ((columnsOf_append (Keyed.upsert_of_absent _ ha.2.1)).trans ?_)
      simp [CatalogColumn.entry,ht]
  | dropColumn t column =>
    by_cases ht : t = table
    · subst ht
      rw [alterColumns,if_pos rfl]
      exact h.dropColumn hm ha
    · rw [alterColumns,if_neg ht]
      exact hframe ((columnsOf_map (dropColumn_of_mem m ha.2) fun x => by split_ifs <;> rfl).trans
        (hmodify t column _ ht))
  | renameColumn t column name =>
    by_cases ht : t = table
    · subst ht
      rw [alterColumns,if_pos rfl]
      exact h.renameColumn ha
    · rw [alterColumns,if_neg ht]
      exact hframe ((columnsOf_map rfl fun x => by split_ifs <;> rfl).trans (hmodify t column _ ht))

theorem Lays.applyOps {ops : List CatalogOp} (hm : 0 < m)
    (ha : Permitted (applyCatalogOp m) Admits r ops) (hop : .dropTable table ∉ ops) :
    Lays table m (ops.foldl (applyCatalogOp m) r) (ops.foldl (alterColumns table) l) ∧
      (r.Active table → (ops.foldl (applyCatalogOp m) r).Active table) ∧
      ∀ c : CapturedRecord,c.seq < m → (∀ op ∈ ops,SparesIntent table c op) → Replays table c r →
        Replays table c (ops.foldl (applyCatalogOp m) r) := by
  induction ops generalizing r l with
  | nil => exact ⟨h,id,fun _ _ _ hc => hc⟩
  | cons op ops ih =>
    obtain ⟨hne,hop⟩ := not_or.mp (mt mem_cons.mpr hop)
    obtain ⟨hl,hact,hrec⟩ := ih (h.apply hm ha.1 (Ne.symm hne)) ha.2 hop
    refine ⟨hl,fun ha => hact (Active.apply ha (Ne.symm hne)),fun c hk hs hc => ?_⟩
    exact hrec c hk (fun o ho => hs o (mem_cons_of_mem _ ho))
      (hc.apply h ha.1 hk (hs op mem_cons_self))

end

theorem filter_insertionSort {α : Type*} {R : α → α → Prop} [DecidableRel R] [Std.Total R] [IsTrans α R]
    {xs : List α} {p : α → Bool} (h : (xs.filter p).Pairwise R) :
    (xs.insertionSort R).filter p = xs.filter p := by
  have hsub := (sublist_insertionSort h filter_sublist).filter p
  simp only [filter_filter,Bool.and_self] at hsub
  exact (hsub.eq_of_length ((perm_insertionSort R xs).filter p).length_eq.symm).symm

/-- The row order of the metadata store does not matter: live columns have distinct ordinals. -/
theorem filter_allColumns (h : (liveColumns r e.id seq).Pairwise fun a b =>
    a.ordinal < b.ordinal) : ((r.load e).allColumns.filter fun c => c.liveAt seq) =
      liveColumns r e.id seq := by
  have htotal : Std.Total fun a b : ColumnEntry =>
      a.ordinal < b.ordinal ∨ a.ordinal = b.ordinal ∧ a.createSeq ≤ b.createSeq := ⟨by omega⟩
  have htrans : IsTrans ColumnEntry fun a b =>
      a.ordinal < b.ordinal ∨ a.ordinal = b.ordinal ∧ a.createSeq ≤ b.createSeq := ⟨by omega⟩
  exact filter_insertionSort (h.imp .inl)

theorem Lays.active_eq_live (h : Lays table m r l) : r.activeColumns table = liveColumns r table m := by
  refine filter_congr fun x hx => ?_
  obtain ⟨-,hcreate,hlive,hdropped⟩ := h.dated x hx
  rw [ColumnEntry.liveAt]
  cases hd : x.dropped with
  | false => simp [hcreate,hlive hd]
  | true =>
    obtain ⟨hpos,hle⟩ := hdropped hd
    simp [Nat.ne_of_gt hpos,Nat.not_lt.mpr hle]

theorem Lays.eq_of_ids (h : Lays table m r l) {ys : List ColumnEntry}
    (hx : ∀ x ∈ xs,x ∈ r.columnsOf table) (hy : ∀ y ∈ ys,y ∈ r.columnsOf table)
    (hid : xs.map ColumnEntry.id = ys.map ColumnEntry.id) : xs = ys := by
  induction xs generalizing ys with
  | nil => exact (map_eq_nil_iff.mp hid.symm).symm
  | cons x xs ih =>
    obtain ⟨y,ys,rfl⟩ := exists_cons_of_ne_nil (fun hnil => by simp [hnil] at hid : ys ≠ [])
    obtain ⟨hxy,hid⟩ := cons.inj hid
    obtain ⟨hxm,hxt⟩ := mem_columnsOf.mp (hx x mem_cons_self)
    obtain ⟨hym,hyt⟩ := mem_columnsOf.mp (hy y mem_cons_self)
    rw [h.sound.columns_eq hxm hym (Prod.ext (hxt.trans hyt.symm) hxy),
      ih (fun x hx' => hx x (mem_cons_of_mem _ hx')) (fun y hy' => hy y (mem_cons_of_mem _ hy')) hid]

theorem Lays.tableAtSeq (h : Lays e.id r.schemaSeq r l) (hc : Replays e.id c r)
    (hle : c.seq ≤ r.schemaSeq) :
    ∃ t,r.tableAtSeq (r.load e) c.seq = some t ∧ t.columns = liveColumns r e.id c.seq := by
  have hcolumns : (r.load e).columns = r.activeColumns e.id :=
    (h.sorted.imp Nat.le_of_lt).insertionSort_eq
  rw [CatalogRows.tableAtSeq]
  by_cases hseq : r.schemaSeq ≤ c.seq
  · refine ⟨_,if_pos hseq,?_⟩
    rw [hcolumns,h.active_eq_live,Nat.le_antisymm hle hseq]
  · rw [if_neg hseq,filter_allColumns hc.sorted,hcolumns]
    by_cases hid : (liveColumns r e.id c.seq).map ColumnEntry.id =
        (r.activeColumns e.id).map ColumnEntry.id
    · refine ⟨_,if_pos hid,hcolumns.trans (h.eq_of_ids (fun x hx => ?_) (fun x hx => ?_) hid).symm⟩
      · exact mem_of_mem_filter hx
      · exact mem_of_mem_filter hx
    · have hreliable : (r.load e).historyReliable = true := by
        simp only [load,Bool.not_eq_true',any_eq_false,Bool.and_eq_true,decide_eq_true_eq,not_and]
        exact fun x hx _ => (h.dated x hx).1
      rw [if_neg hid,if_pos hreliable]
      exact ⟨_,rfl,rfl⟩

theorem Lays.decodeRecord_eq (h : Lays table r.schemaSeq r l) (hc : Replays table c r)
    (hle : c.seq ≤ r.schemaSeq) (hact : r.Active table) :
    decodeRecord r table c = some (c.columns,c.intent.map Prod.snd) := by
  obtain ⟨x,hx,hxid,-⟩ := hact
  obtain ⟨e,he⟩ := Option.isSome_iff_exists.mp (find?_isSome.mpr ⟨x,hx,by simpa using hxid⟩ :
    (r.tables.find? fun e => decide (e.id = table)).isSome = true)
  obtain rfl : e.id = table := by simpa using find?_some he
  obtain ⟨t,ht,hcols⟩ := h.tableAtSeq hc hle
  rw [decodeRecord,tableByID,he,Option.map_some,Option.bind_some,ht,Option.map_some,hcols,hc.columns]
  refine congrArg some (Prod.ext rfl ?_)
  cases hint : c.intent with
  | none => rfl
  | some p =>
    obtain ⟨⟨x,hx,hname,-⟩,huniq⟩ := hc.intent p hint
    obtain ⟨y,hy⟩ := Option.isSome_iff_exists.mp (find?_isSome.mpr ⟨x,hx,by simpa using hname⟩ :
      ((liveColumns r e.id c.seq).find? fun x => decide (x.name = p.1)).isSome = true)
    show ((liveColumns r e.id c.seq).find? fun x => decide (x.name = p.1)).map ColumnEntry.id = some p.2
    rw [hy,Option.map_some]
    exact congrArg some (huniq y (mem_of_find?_eq_some hy) (by simpa using find?_some hy))

theorem Replays.capture (h : Lays table r.schemaSeq r l) (intent : Option SqlName) :
    Replays table ⟨r.schemaSeq,l.map Prod.fst,intent.bind fun name =>
      (l.find? fun p => p.2 = name).map fun p => (name,p.1)⟩ r := by
  refine ⟨h.active_eq_live ▸ h.sorted,?_,?_⟩
  · rw [← h.active_eq_live,← h.physical,map_map]
    rfl
  · intro p hp
    rw [← h.active_eq_live]
    obtain ⟨name,-,hp⟩ := Option.bind_eq_some_iff.mp hp
    obtain ⟨q,hq,rfl⟩ := Option.map_eq_some_iff.mp hp
    have hname : q.2 = name := by simpa using find?_some hq
    obtain ⟨x,hx,rfl⟩ := mem_map.mp (h.physical ▸ mem_of_find?_eq_some hq)
    refine ⟨⟨x,hx,hname,rfl⟩,fun y hy hy' => ?_⟩
    obtain ⟨hxm,hxt,hxd⟩ := mem_activeColumns.mp hx
    obtain ⟨hym,hyt,hyd⟩ := mem_activeColumns.mp hy
    rw [h.sound.columnNames y hym x hxm (hyt.trans hxt.symm) hyd hxd (hy'.trans hname.symm)]

structure Recorded (table : TableID) (s : LayoutNode) : Prop where
  lays : Lays table s.rows.schemaSeq s.rows s.physical
  replays : ∀ c ∈ s.pending,s.rows.Active table ∧ c.seq ≤ s.rows.schemaSeq ∧ Replays table c s.rows

theorem Recorded.step (h : Recorded table s) {a : LayoutAction} (ha : s.Sqlite table a)
    (hcalm : s.Calm table a) : Recorded table (s.step table a) := by
  obtain ⟨hl,hr⟩ := h
  cases a with
  | event ev =>
    obtain ⟨hallowed,hdrop⟩ := ha
    have hnext : Lays table (s.rows.schemaSeq+1) s.rows s.physical :=
      ⟨hl.sound,hl.sorted,hl.physical,fun c hc => by
        obtain ⟨hname,hcreate,hlive,hdropped⟩ := hl.dated c hc
        exact ⟨hname,hcreate.trans (Nat.le_succ _),hlive,fun hd =>
          ⟨(hdropped hd).1,(hdropped hd).2.trans (Nat.le_succ _)⟩⟩,hl.created⟩
    obtain ⟨hl',hact,hrec⟩ := hnext.applyOps (Nat.succ_pos _) hallowed hdrop
    refine ⟨⟨⟨hl'.sound.1,hl'.sound.2,hl'.sound.3,hl'.sound.4,hl'.sound.5⟩,hl'.sorted,hl'.physical,hl'.dated,hl'.created⟩,
      fun c hc => ?_⟩
    obtain ⟨ha,hle,hrep⟩ := hr c hc
    obtain ⟨hs,hcol,hint⟩ := hrec c (Nat.lt_succ_of_le hle) (hcalm c hc) hrep
    exact ⟨hact ha,hle.trans (Nat.le_succ _),hs,hcol,hint⟩
  | adoptFork =>
    have hnil : s.rows.adoptFork.columnsOf table = [] := hl.created hcalm
    refine ⟨⟨⟨hl.sound.1,hl.sound.2,hl.sound.3,hl.sound.4,hl.sound.5⟩,hl.sorted,hl.physical,?_,hl.created⟩,
      fun c hc => absurd hc not_mem_nil⟩
    intro c hc
    exact absurd (hnil ▸ hc : c ∈ []) not_mem_nil
  | capture intent =>
    refine ⟨hl,fun c hc => ?_⟩
    obtain hc | rfl := mem_concat.mp hc
    · exact hr c hc
    · exact ⟨ha,le_rfl,.capture hl intent⟩
  | drain => exact ⟨hl,fun c hc => hr c (mem_of_mem_tail hc)⟩

/-- In every run that forks only before the table exists and renames no column under a waiting intent,
every record that waits is decoded with the columns it was captured from. -/
theorem keepsColumns_of_calm (hr : s.rows.Sound) (hc : s.rows.columnsOf table = []) (hl : s.physical = [])
    (hp : s.pending = []) {as : List LayoutAction}
    (h : Permitted (step table) (fun s a => s.Sqlite table a ∧ s.Calm table a) s as) :
    (as.foldl (step table) s).KeepsColumns table := by
  have hactive : s.rows.activeColumns table = [] := by rw [activeColumns,hc]; rfl
  have hstart : Recorded table s := by
    refine ⟨⟨hr,by simp [hactive],by simp [hactive,hl],by simp [hc],fun _ => hc⟩,by simp [hp]⟩
  obtain ⟨hlays,hrec⟩ := h.invariant (I := Recorded table) (fun _ _ h ha => h.step ha.1 ha.2) hstart
  intro c hc
  obtain ⟨hact,hle,hrep⟩ := hrec c hc
  exact hlays.decodeRecord_eq hrep hle hact

end LayoutNode

namespace LayoutSample

open LayoutNode

def empty : LayoutNode := ⟨⟨[],[],0⟩,[],[]⟩

theorem sound_empty : empty.rows.Sound :=
  ⟨nodup_nil,by simp [empty],nodup_nil,by simp [empty],by simp [empty]⟩

/-- A fork before the table, a drop with a new column at the freed ordinal, and a rename. -/
def calmActions : List LayoutAction :=
  [.event (.single (.createTable 2 20 [⟨0,5,0⟩])),.adoptFork,
    .event (.single (.createTable 1 10 [⟨0,5,0⟩,⟨1,6,1⟩])),.capture (some 6),
    .event (.bundle [.dropColumn 1 1,.addColumn 1 ⟨2,7,1⟩]),.capture none,
    .event (.single (.renameColumn 1 0 8))]

theorem calmActions_keepColumns :
    Permitted (step 1) (fun s a => s.Sqlite 1 a ∧ s.Calm 1 a) empty calmActions ∧
      (calmActions.foldl (step 1) empty).pending = [⟨1,[0,1],some (6,1)⟩,⟨2,[0,2],none⟩] ∧
      (calmActions.foldl (step 1) empty).KeepsColumns 1 := by
  have hrun : Permitted (step 1) (fun s a => s.Sqlite 1 a ∧ s.Calm 1 a) empty calmActions := by
    decide
  exact ⟨hrun,by decide,keepsColumns_of_calm sound_empty rfl rfl rfl hrun⟩

/-- A fork of an existing table, and in the fork a record and one more column. -/
def forkedActions : List LayoutAction :=
  [.event (.single (.createTable 1 10 [⟨0,5,0⟩])),.adoptFork,.capture none,
    .event (.single (.addColumn 1 ⟨1,6,1⟩))]

/-- A column renamed under a waiting intent, and its name given to another. -/
def renamedActions : List LayoutAction :=
  [.event (.single (.createTable 1 10 [⟨0,5,0⟩,⟨1,6,1⟩])),.capture (some 6),
    .event (.bundle [.renameColumn 1 1 7,.renameColumn 1 0 6])]

theorem otherColumns_of_forked_renamed :
    Permitted (step 1) (fun s a => s.Sqlite 1 a) empty forkedActions ∧
      (forkedActions.foldl (step 1) empty).pending.map (decodeRecord
        (forkedActions.foldl (step 1) empty).rows 1) = [some ([],none)] ∧
      ¬(forkedActions.foldl (step 1) empty).KeepsColumns 1 ∧
      Permitted (step 1) (fun s a => s.Sqlite 1 a) empty renamedActions ∧
      (renamedActions.foldl (step 1) empty).pending.map (decodeRecord
        (renamedActions.foldl (step 1) empty).rows 1) = [some ([0,1],some 0)] ∧
      ¬(renamedActions.foldl (step 1) empty).KeepsColumns 1 := by decide

end LayoutSample

end Syzy
