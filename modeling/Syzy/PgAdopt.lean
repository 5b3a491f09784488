import Syzy.PgSelfLog

/-!
Adoption of a database that predates replication. Its rows are published out of one snapshot behind a
WAL position, and the stream is folded from that position on. A peer applies what is published.
-/

namespace Syzy.Pg

open Machine List RowClock

open TxnOp

section Key

variable {κ : Type} [Fintype κ] {sh : PgShape κ} {stamp s : Stamp} {rs rs' : RowClock κ}
  {pre post : Option (PgImage κ)} {a : RowAccum κ} {recs : List (PgRecord κ)} {f : RowClock κ → RowClock κ}

theorem foldRow_congr (hcl : rs'.cl = rs.cl) (h : foldRow sh stamp rs a = some (recs,f)) :
    ∃ f',foldRow sh stamp rs' a = some (recs,f') := by
  have hnext : rs'.nextLiveCL = rs.nextLiveCL := by simp [nextLiveCL,isLive,hcl]
  have htomb : rs'.tombCL = rs.tombCL := by simp [tombCL,isLive,hcl]
  have hfst : (foldRow sh stamp rs' a).map Prod.fst = (foldRow sh stamp rs a).map Prod.fst := by
    obtain ⟨first,last,image,old⟩ := a
    have hcell : ∀ (d : Option (PgPatch κ)) (r r' : RowClock κ),
        (d.map fun diff => if PgPatch.empty diff then (([] : List (PgRecord κ)),(id : RowClock κ → RowClock κ))
          else ([.update rs.nextLiveCL diff],stageUpdate stamp r' diff)).map Prod.fst =
        (d.map fun diff => if PgPatch.empty diff then (([] : List (PgRecord κ)),(id : RowClock κ → RowClock κ))
          else ([.update rs.nextLiveCL diff],stageUpdate stamp r diff)).map Prod.fst := by
      intro d r r'
      cases d with
      | none => rfl
      | some diff =>
        simp only [Option.map_some]
        split_ifs <;> rfl
    cases first <;> cases last <;> simp only [foldRow,hnext,htomb,Option.map_some]
    all_goals
      split_ifs
      · exact hcell _ _ _
      · rfl
  rw [h,Option.map_some] at hfst
  obtain ⟨x,hx,rfl⟩ := Option.map_eq_some_iff.mp hfst
  exact ⟨x.2,hx⟩

/-- A row's clock takes the greatest generation of its records, in the fold and in replay. -/
theorem RowWrite.cl (h : RowWrite sh stamp rs recs f) :
    (f rs).cl = recs.foldl (fun c r => max c r.cl) rs.cl := by
  have hnext := rs.nextLiveCL_ge
  have htomb := rs.tombCL_gt
  cases h with
  | nothing => rfl
  | whole r _ hle => exact (putCleared_cl hle _).trans (max_eq_right hle).symm
  | recreated i =>
    refine (putCleared_cl (by omega) _).trans ?_
    simp only [foldl_cons,foldl_nil,PgRecord.cl]
    omega
  | partly diff =>
    simp only [foldl_cons,foldl_nil,PgRecord.cl,max_eq_right hnext]
    unfold stageUpdate
    split_ifs with hcov hlt
    · exact putCleared_cl hnext _
    · exact putCleared_cl hnext _
    · show rs.cl = _
      omega

omit [Fintype κ] in
theorem replay_cl (recs : List (PgRecord κ)) (rs : RowClock κ) :
    (recs.foldl (replayRecord stamp) rs).cl = recs.foldl (fun c r => max c r.cl) rs.cl := by
  induction recs generalizing rs with
  | nil => rfl
  | cons r recs ih =>
    have hone : (replayRecord stamp rs r).cl = max rs.cl r.cl := by
      rw [replayRecord_eq]
      cases hd : rs.dominatedBy r.cl stamp with
      | true =>
        have hle := dominatedBy_iff.mp hd
        simp only [putRowState,hd,if_true]
        omega
      | false =>
        have hle := dominatedBy_false_iff.mp hd
        simp only [putRowState,hd,Bool.false_eq_true,if_false]
        omega
    rw [foldl_cons,ih,hone,foldl_cons]

variable (h : foldRow sh stamp rs a = some (recs,f)) (ha : Collapses sh pre post a)
include h ha

theorem foldRow_live (hlive : rs.isLive = true ↔ pre.isSome = true) :
    (f rs).isLive = true ↔ post.isSome = true := by
  have hnextOdd : rs.nextLiveCL%2 = 1 := by
    unfold nextLiveCL isLive
    split_ifs with h
    · simpa using h
    · simp only [decide_eq_true_eq] at h
      omega
  have htombEven : rs.tombCL%2 = 0 := by
    unfold tombCL isLive
    split_ifs with h
    · simp only [decide_eq_true_eq] at h
      omega
    · omega
  have hnext := rs.nextLiveCL_ge
  have htomb := rs.tombCL_gt
  obtain ⟨first,last,image,old⟩ := a
  obtain ⟨hfirst,hlast,-,-,-,-,-⟩ := ha
  simp only at hfirst hlast
  by_cases hl : last = .del
  · subst hl
    obtain rfl := hlast.mp rfl
    have hdead : (rs.putCleared rs.tombCL stamp).isLive = false := by
      simp [isLive,putCleared_cl htomb.le,htombEven]
    cases first with
    | ins =>
      cases h
      rwa [hfirst.mp rfl] at hlive
    | upd | del =>
      cases h
      simp [hdead]
  · obtain ⟨r,rfl⟩ := Option.ne_none_iff_exists'.mp fun hnone => hl (hlast.mpr hnone)
    have hodd : (f rs).cl%2 = 1 := by
      rw [(foldRow_write h).cl]
      cases first with
      | ins =>
        obtain ⟨i,hrecs⟩ : ∃ i,recs = [.insert rs.nextLiveCL i] := by
          cases last <;> first | exact absurd rfl hl | (cases h; exact ⟨_,rfl⟩)
        simp [hrecs,PgRecord.cl,max_eq_right hnext,hnextOdd]
      | del =>
        obtain ⟨i,hrecs⟩ : ∃ i,recs = [.delete rs.tombCL,.insert (rs.tombCL+1) i] := by
          cases last <;> first | exact absurd rfl hl | (cases h; exact ⟨_,rfl⟩)
        simp only [hrecs,foldl_cons,foldl_nil,PgRecord.cl]
        omega
      | upd =>
        have hpre : pre.isSome = true := by
          cases pre with
          | none => exact absurd (hfirst.mpr rfl) (by simp)
          | some r => rfl
        have hself : rs.cl%2 = 1 := by simpa [isLive] using hlive.mpr hpre
        have hrecs : recs = [] ∨ ∃ p,recs = [.update rs.nextLiveCL p] := by
          have h' : foldRow sh stamp rs ⟨.upd,.upd,image,old⟩ = some (recs,f) := by
            cases last <;> first | exact absurd rfl hl | exact h
          simp only [foldRow] at h'
          split_ifs at h'
          · obtain ⟨diff,-,hdiff⟩ := Option.map_eq_some_iff.mp h'
            split_ifs at hdiff
            · cases hdiff
              exact .inl rfl
            · cases hdiff
              exact .inr ⟨diff,rfl⟩
          · cases h'
            exact .inr ⟨_,rfl⟩
        obtain rfl | ⟨p,rfl⟩ := hrecs
        · exact hself
        · simp [PgRecord.cl,max_eq_right hnext,hnextOdd]
    simp [isLive,hodd]

theorem Stampable.fold (hs : Stampable sh stamp pre rs) (hz : Stamp.zero ≤ stamp)
    (hlt : stamp < s) : Stampable sh s post (f rs) := by
  have hwrite := foldRow_write h
  have hput : ∀ cl t,(rs.putCleared cl t).cells = rs.cells ∨ (rs.putCleared cl t).cells = fun _ => none := by
    intro cl t
    unfold putCleared
    split_ifs
    · exact .inr rfl
    · exact .inl rfl
  have hold : ∀ cl t c u,(rs.putCleared cl t).cells c = some u → u < s := by
    intro cl t c u hu
    obtain heq | heq := hput cl t
    · exact (hs.cells c u (heq ▸ hu)).trans hlt
    · simp [heq] at hu
  have hbase : (f rs).base < s := (hwrite.base_le hz hs.base.le).trans_lt hlt
  refine ⟨hbase,?_,?_,fun hc => foldRow_live h ha (hs.live hc)⟩
  · cases hwrite with
    | nothing => exact fun c u hu => (hs.cells c u hu).trans hlt
    | whole | recreated => exact hold _ _
    | partly diff =>
      unfold stageUpdate
      split_ifs with hcov hup
      · exact hold _ _
      · intro c u hu
        simp only [putCellStamps] at hu
        split_ifs at hu
        · exact Option.some.inj hu ▸ hlt
        · exact hold _ _ c u hu
      · intro c u hu
        simp only [putCellStamps] at hu
        split_ifs at hu
        · exact Option.some.inj hu ▸ hlt
        · exact (hs.cells c u hu).trans hlt
  · intro hrow
    have hnone := hs.overrides hrow
    cases hwrite with
    | nothing => exact hnone
    | whole | recreated => exact (hput _ _).elim (fun h => h.trans hnone) id
    | partly diff hpart => simp [PgRecord.partly,hrow] at hpart

end Key

/-- The tables of a database, each with columns of its own. -/
abbrev Database (τ π : Type) (κ : τ → Type) := (tab : τ) → PgTable π (κ tab)

/-- A row change of a transaction with the table it is made in. -/
abbrev DbOp (τ π : Type) (κ : τ → Type) := (tab : τ) × TxnOp π (κ tab)

variable {τ π : Type} {κ : τ → Type} [DecidableEq τ] [DecidableEq π] [∀ tab,Fintype (κ tab)]

namespace DbOp

omit [∀ tab,Fintype (κ tab)] in
def run (db : Database τ π κ) (o : DbOp τ π κ) : Database τ π κ :=
  Function.update db o.1 (o.2.run (db o.1))

omit [DecidableEq τ] [DecidableEq π] [∀ tab,Fintype (κ tab)] in
def touched (o : DbOp τ π κ) : List (τ × π) :=
  match o.2 with
  | .insert pk _ => [(o.1,pk)]
  | .update pk newPK _ _ => [(o.1,pk),(o.1,newPK)]
  | .delete pk => [(o.1,pk)]

end DbOp

omit [DecidableEq π] [∀ tab,Fintype (κ tab)] in
/-- The changes of one table, in their order. -/
def opsAt (tab : τ) : List (DbOp τ π κ) → List (TxnOp π (κ tab))
  | [] => []
  | o::ops => if h : o.1 = tab then h ▸ o.2::opsAt tab ops else opsAt tab ops

omit [∀ tab,Fintype (κ tab)] in
theorem foldl_run (ops : List (DbOp τ π κ)) (db : Database τ π κ) (tab : τ) :
    ops.foldl DbOp.run db tab = (opsAt tab ops).foldl TxnOp.run (db tab) := by
  induction ops generalizing db with
  | nil => rfl
  | cons o ops ih =>
    rw [foldl_cons,ih,opsAt]
    by_cases h : o.1 = tab
    · subst h
      rw [dif_pos rfl,DbOp.run,Function.update_self]
      rfl
    · rw [dif_neg h,DbOp.run,Function.update_of_ne (Ne.symm h)]

/-- Every change fits the table it is made in, and one that moves a row carries all of its columns. Where
a row is updated, its counters' contributions fit 64 bits. -/
structure Foldable (sh : (tab : τ) → PgShape (κ tab)) (db : Database τ π κ) (ops : List (DbOp τ π κ)) : Prop where
  fits : Permitted DbOp.run (fun db o => o.2.Fits (sh o.1) (db o.1) ∧ o.2.MovesWhole) db ops
  narrow : ∀ tab k,UpdatedFirst k (opsAt tab ops) →
    Narrow (sh tab) (db tab k) (ops.foldl DbOp.run db tab k)

omit [∀ tab,Fintype (κ tab)] in
theorem permitted_opsAt {sh : (tab : τ) → PgShape (κ tab)} {ops : List (DbOp τ π κ)} {db : Database τ π κ}
    (h : Permitted DbOp.run (fun db o => o.2.Fits (sh o.1) (db o.1) ∧ o.2.MovesWhole) db ops) (tab : τ) :
    Permitted TxnOp.run (fun t op => op.Fits (sh tab) t ∧ op.MovesWhole) (db tab) (opsAt tab ops) := by
  induction ops generalizing db with
  | nil => trivial
  | cons o ops ih =>
    have hrest := ih h.2
    rw [opsAt]
    by_cases ho : o.1 = tab
    · subst ho
      rw [DbOp.run,Function.update_self] at hrest
      rw [dif_pos rfl]
      exact ⟨h.1,hrest⟩
    · rw [DbOp.run,Function.update_of_ne (Ne.symm ho)] at hrest
      rwa [dif_neg ho]

/-- A published changeset with the WAL position it was published for. -/
structure AdoptEntry (τ π : Type) (κ : τ → Type) where
  lsn : ℕ
  stamp : Stamp
  records : (tab : τ) → π → List (PgRecord (κ tab))

/-- A node that adopts: the committed transactions since the slot was made, the clocks, the self-log, the
marker with its position, and the running adoption with the rows that it has still to publish. -/
structure AdoptNode (τ π : Type) (κ : τ → Type) where
  wal : List (List (DbOp τ π κ))
  clocks : (tab : τ) → π → RowClock (κ tab)
  last : Stamp
  log : List (AdoptEntry τ π κ)
  marker : Option ℕ
  lsn : Option ℕ
  snapshot : Option (Database τ π κ × List (τ × π))
  skipThrough : ℕ
  folded : ℕ

inductive AdoptAction (τ π : Type) (κ : τ → Type)
  | commit (ops : List (DbOp τ π κ))
  | readLSN
  | takeSnapshot (rows : List (τ × π))
  | append (stamp : Stamp) (batch : ℕ)
  | storeMarker
  | fold (stamp : Stamp)
  | restart (confirmed : ℕ)

def headLSN (log : List (AdoptEntry τ π κ)) : ℕ := log.foldl (fun h e => max h e.lsn) 0

def recoveredClock (log : List (AdoptEntry τ π κ)) (tab : τ) (k : π) : RowClock (κ tab) :=
  log.foldl (fun rs e => (e.records tab k).foldl (replayRecord e.stamp) rs) zero

def peerRow (sh : (tab : τ) → PgShape (κ tab)) (log : List (AdoptEntry τ π κ)) (tab : τ) (k : π) :
    Option (PgImage (κ tab)) × RowClock (κ tab) :=
  log.foldl (fun x e => receive (sh tab) e.stamp false x (e.records tab k)) (none,zero)

namespace AdoptNode

variable (sh : (tab : τ) → PgShape (κ tab)) (t₀ : Database τ π κ)

omit [DecidableEq τ] [DecidableEq π] [∀ tab,Fintype (κ tab)] in
def init : AdoptNode τ π κ := ⟨[],fun _ _ => zero,Stamp.zero,[],none,none,none,0,0⟩

omit [∀ tab,Fintype (κ tab)] in
def tableAt (n : AdoptNode τ π κ) (i : ℕ) : Database τ π κ :=
  (n.wal.take i).foldl (fun t ops => ops.foldl DbOp.run t) t₀

omit [∀ tab,Fintype (κ tab)] in
def table (n : AdoptNode τ π κ) : Database τ π κ := n.tableAt t₀ n.wal.length

omit [∀ tab,Fintype (κ tab)] in
/-- A batch of snapshot rows as inserts of the first generation. -/
def publishAdopted (n : AdoptNode τ π κ) (lsn : ℕ) (stamp : Stamp) (t : Database τ π κ) (batch : List (τ × π)) :
    AdoptNode τ π κ :=
  { n with
    last := stamp
    log := n.log++[⟨lsn,stamp,fun tab k => if (tab,k) ∈ batch then
      ((t tab k).map fun r => PgRecord.insert 1 fun c => some (.abs (r c))).toList else []⟩]
    clocks := fun tab k =>
      if (tab,k) ∈ batch then (n.clocks tab k).putRowState 1 stamp else n.clocks tab k }

def foldAll (clocks : (tab : τ) → π → RowClock (κ tab)) (stamp : Stamp) (ops : List (DbOp τ π κ)) (tab : τ)
    (k : π) : Option (List (PgRecord (κ tab)) × RowClock (κ tab)) :=
  foldKey (sh tab) stamp (clocks tab) (opsAt tab ops) k

/-- The next transaction of the stream: dropped up to the boundary, then folded and published. -/
def foldNext (n : AdoptNode τ π κ) (stamp : Stamp) : AdoptNode τ π κ :=
  match n.wal[n.folded]? with
  | none => n
  | some ops =>
    if n.folded+1 ≤ n.skipThrough then { n with folded := n.folded+1 }
    else if (ops.flatMap DbOp.touched).any fun x => (foldAll sh n.clocks stamp ops x.1 x.2).isNone then n
    else
      let records := fun tab k => (foldAll sh n.clocks stamp ops tab k).elim [] Prod.fst
      if (ops.flatMap DbOp.touched).all fun x => (records x.1 x.2).isEmpty then
        { n with folded := n.folded+1 }
      else { n with
        folded := n.folded+1
        last := stamp
        log := n.log++[⟨n.folded+1,stamp,records⟩]
        clocks := fun tab k => (foldAll sh n.clocks stamp ops tab k).elim (n.clocks tab k) Prod.snd }

def run (n : AdoptNode τ π κ) : AdoptAction τ π κ → AdoptNode τ π κ
  | .commit ops => { n with wal := n.wal++[ops] }
  | .readLSN => if n.marker.isNone && n.lsn.isNone then { n with lsn := some n.wal.length } else n
  | .takeSnapshot rows =>
    if n.lsn.isSome && n.snapshot.isNone then { n with snapshot := some (n.table t₀,rows) } else n
  | .append stamp batch =>
    match n.lsn with
    | none => n
    | some l =>
      match n.snapshot with
      | none => n
      | some (t,todo) =>
        if (todo.take batch).isEmpty then n
        else { n.publishAdopted l stamp t (todo.take batch) with snapshot := some (t,todo.drop batch) }
  | .storeMarker =>
    match n.lsn with
    | none => n
    | some l =>
      match n.snapshot with
      | some (_,[]) => { n with marker := some l,skipThrough := l,lsn := none,snapshot := none }
      | _ => n
  | .fold stamp => if n.marker.isSome then n.foldNext sh stamp else n
  | .restart confirmed => { n with
      clocks := recoveredClock n.log
      lsn := none
      snapshot := none
      skipThrough := headLSN n.log
      folded := confirmed }

/-- Transactions can be folded; stamps rise; a snapshot has the rows of the tables. No transaction commits between the position and the snapshot. A
restart finds nothing published before the marker is stored, and after that it resumes at the marker's
position or above. -/
def Admits (n : AdoptNode τ π κ) : AdoptAction τ π κ → Prop
  | .commit ops => Foldable sh (n.table t₀) ops ∧
      (n.lsn.isSome = true → n.snapshot.isSome = true)
  | .takeSnapshot rows => rows.Nodup ∧ ∀ tab k,(tab,k) ∈ rows ↔ (n.table t₀ tab k).isSome = true
  | .append stamp _ => n.last < stamp
  | .fold stamp => n.last < stamp
  | .restart confirmed => confirmed ≤ n.folded ∧ (n.marker = none → n.log = []) ∧
      ∀ l,n.marker = some l → l ≤ max confirmed (headLSN n.log)
  | _ => True

variable {sh t₀}

/-- The peer has the rows of a table, its clocks accept what comes next, and the generations of the node's
clocks, live and recovered, are the peer's. -/
structure Tracks (sh : (tab : τ) → PgShape (κ tab)) (log : List (AdoptEntry τ π κ)) (last : Stamp)
    (clocks : (tab : τ) → π → RowClock (κ tab)) (t : Database τ π κ) (tab : τ) (k : π) : Prop where
  row : (peerRow sh log tab k).1 = t tab k
  stampable : ∀ s,last < s → Stampable (sh tab) s (t tab k) (peerRow sh log tab k).2
  live : (clocks tab k).cl = (peerRow sh log tab k).2.cl
  recovered : (recoveredClock log tab k).cl = (peerRow sh log tab k).2.cl

variable {n : AdoptNode τ π κ} {log : List (AdoptEntry τ π κ)} {last : Stamp}
  {clocks clocks' : (tab : τ) → π → RowClock (κ tab)} {t t' : Database τ π κ} {tab : τ} {k : π} {l : ℕ} {ops : List (DbOp τ π κ)} {e : AdoptEntry τ π κ}

omit [DecidableEq τ] [DecidableEq π] in
theorem Tracks.extend {rs : RowClock (κ tab)} (h : Tracks sh log last clocks t tab k)
    (hreceive : receive (sh tab) e.stamp false (t tab k,(peerRow sh log tab k).2) (e.records tab k) =
      (t' tab k,rs))
    (hstampable : ∀ s,e.stamp < s → Stampable (sh tab) s (t' tab k) rs)
    (hcl : rs.cl = (e.records tab k).foldl (fun c r => max c r.cl) (peerRow sh log tab k).2.cl)
    (hlive : (clocks' tab k).cl = rs.cl) : Tracks sh (log++[e]) e.stamp clocks' t' tab k := by
  have hpeer : peerRow sh (log++[e]) tab k = (t' tab k,rs) := by
    rw [peerRow,foldl_append,← hreceive,← h.row]
    rfl
  refine ⟨by rw [hpeer],by rwa [hpeer],by rwa [hpeer],?_⟩
  rw [hpeer,hcl,← h.recovered,recoveredClock,foldl_append]
  exact replay_cl _ _

omit [DecidableEq τ] [DecidableEq π] in
theorem Tracks.idle (h : Tracks sh log last clocks t tab k) (hs : last < e.stamp)
    (hrecs : e.records tab k = []) (hclock : (clocks' tab k).cl = (clocks tab k).cl)
    (ht : t' tab k = t tab k) : Tracks sh (log++[e]) e.stamp clocks' t' tab k := by
  have hreceive : receive (sh tab) e.stamp false (t tab k,(peerRow sh log tab k).2) (e.records tab k) =
      (t' tab k,(peerRow sh log tab k).2) := by
    rw [hrecs,ht]
    rfl
  refine h.extend hreceive ?_ (by rw [hrecs]; rfl) (hclock.trans h.live)
  rw [ht]
  exact fun s hlt => h.stampable s (hs.trans hlt)

/-- A transaction that fits the peer's table is folded into records that take the peer along. -/
theorem Tracks.fold (h : Tracks sh log last clocks t tab k) (hops : Foldable sh t ops)
    (hz : Stamp.zero ≤ last) (hs : last < e.stamp) :
    ∃ recs clock,foldAll sh clocks e.stamp ops tab k = some (recs,clock) ∧
      (recs = [] → ops.foldl DbOp.run t tab k = t tab k) ∧
      (e.records tab k = recs → clocks' tab k = clock →
        Tracks sh (log++[e]) e.stamp clocks' (ops.foldl DbOp.run t) tab k) := by
  have hcollapse := collapses_accumulate k (permitted_opsAt hops.fits tab)
  have hnarrow := hops.narrow tab k
  rw [← foldl_run] at hcollapse
  unfold foldAll foldKey
  cases hacc : accumulate k (opsAt tab ops) with
  | none =>
    rw [hacc] at hcollapse
    have hsame : ops.foldl DbOp.run t tab k = t tab k := hcollapse
    exact ⟨[],clocks tab k,rfl,fun _ => hsame,fun hrecs hclock => h.idle hs hrecs (by rw [hclock]) hsame⟩
  | some a =>
    rw [hacc] at hcollapse
    have hfirst := accumulate_firstOp hacc
    obtain ⟨recs,f,hfold,hreceive⟩ := foldRow_faithful hcollapse (h.stampable e.stamp hs)
      fun hupd => hnarrow (hfirst.trans (congrArg some hupd))
    obtain ⟨f',hfold'⟩ := foldRow_congr h.live hfold
    have hcl := (foldRow_write hfold).cl
    refine ⟨recs,f' (clocks tab k),by simp [hfold'],?_,fun hrecs hclock => ?_⟩
    · rintro rfl
      exact (congrArg Prod.fst hreceive).symm
    · refine h.extend (by rw [hrecs,hreceive]) ?_ (by rw [hrecs,hcl]) ?_
      · exact fun s hlt => Stampable.fold hfold hcollapse (h.stampable e.stamp hs) (hz.trans hs.le) hlt
      · rw [hclock,(foldRow_write hfold').cl,h.live,hcl]

omit [∀ tab,Fintype (κ tab)] in
theorem accumulate_untouched (hk : (tab,k) ∉ ops.flatMap DbOp.touched) : accumulate k (opsAt tab ops) = none := by
  have hfeeds : (opsAt tab ops).flatMap (feeds k) = [] := by
    induction ops with
    | nil => rfl
    | cons o ops ih =>
      obtain ⟨ho,hrest⟩ := not_or.mp fun h => hk (mem_append.mpr h)
      rw [opsAt]
      split_ifs with htab
      · subst htab
        refine append_eq_nil_iff.mpr ⟨?_,ih hrest⟩
        obtain ⟨tab,op⟩ := o
        cases op with
        | insert pk image => exact if_neg fun h => ho (by simp [DbOp.touched,h])
        | update pk newPK image old =>
          have hne : ¬pk = k := fun h => ho (by simp [DbOp.touched,h])
          have hne' : ¬newPK = k := fun h => ho (by simp [DbOp.touched,h])
          simp [feeds,hne,hne']
        | delete pk => exact if_neg fun h => ho (by simp [DbOp.touched,h])
      · exact ih hrest
  simp [accumulate,hfeeds]

omit [∀ tab,Fintype (κ tab)] in
theorem tableAt_succ {i : ℕ} (h : n.wal[i]? = some ops) :
    n.tableAt t₀ (i+1) = ops.foldl DbOp.run (n.tableAt t₀ i) := by
  simp [tableAt,take_add_one,h]

omit [∀ tab,Fintype (κ tab)] in
theorem tableAt_commit {i : ℕ} (hi : i ≤ n.wal.length) :
    tableAt t₀ { n with wal := n.wal++[ops] } i = n.tableAt t₀ i := by
  simp [tableAt,take_append_of_le_length hi]

/-- Until the marker is stored: nothing is published without a snapshot, the snapshot is the table at the
position that was read, and the peer has the rows that have been published. -/
structure Before (sh : (tab : τ) → PgShape (κ tab)) (t₀ : Database τ π κ) (n : AdoptNode τ π κ) : Prop where
  folded : n.folded = 0
  unread : n.lsn = none → n.snapshot = none
  quiet : n.snapshot = none → n.log = [] ∧ ∀ tab k,(n.clocks tab k).cl = 0
  position : ∀ l,n.lsn = some l → l ≤ n.wal.length ∧ (n.snapshot = none → l = n.wal.length)
  rows : ∀ l t todo,n.lsn = some l → n.snapshot = some (t,todo) →
    t = n.tableAt t₀ l ∧ todo.Nodup ∧ (∀ x ∈ todo,(t x.1 x.2).isSome = true) ∧ (∀ e ∈ n.log,e.lsn = l) ∧
      ∀ tab k,Tracks sh n.log n.last n.clocks (fun tab k => if (tab,k) ∈ todo then none else t tab k) tab k ∧
        (((tab,k) ∈ todo ∨ t tab k = none) → (peerRow sh n.log tab k).2.cl = 0)

/-- After that: the peer has the table at the stream's place, and behind the last published position
nothing has changed. -/
structure After (sh : (tab : τ) → PgShape (κ tab)) (t₀ : Database τ π κ) (n : AdoptNode τ π κ) (l : ℕ) : Prop where
  done : n.lsn = none
  folded_le : n.folded ≤ n.wal.length
  skip_le : n.skipThrough ≤ n.wal.length
  head_le : headLSN n.log ≤ max n.folded n.skipThrough
  tracks : ∀ tab k,Tracks sh n.log n.last n.clocks (n.tableAt t₀ (max n.folded n.skipThrough)) tab k
  still : ∀ i,l ≤ i → headLSN n.log ≤ i → i ≤ max n.folded n.skipThrough →
    n.tableAt t₀ i = n.tableAt t₀ (max n.folded n.skipThrough)

structure Sound (sh : (tab : τ) → PgShape (κ tab)) (t₀ : Database τ π κ) (n : AdoptNode τ π κ) : Prop where
  zero : Stamp.zero ≤ n.last
  fits : ∀ i ops,n.wal[i]? = some ops → Foldable sh (n.tableAt t₀ i) ops
  before : n.marker = none → Before sh t₀ n
  after : ∀ l,n.marker = some l → After sh t₀ n l

theorem sound_init : Sound sh t₀ init where
  zero := le_rfl
  fits := by simp [init]
  before _ := ⟨rfl,fun _ => rfl,fun _ => ⟨rfl,fun _ _ => rfl⟩,by simp [init],by simp [init]⟩
  after := by simp [init]

section

variable (h : Sound sh t₀ n)
include h

theorem Sound.commit (ha : n.Admits sh t₀ (.commit ops)) :
    Sound sh t₀ (n.run sh t₀ (.commit ops)) := by
  have hlen : (n.wal++[ops]).length = n.wal.length+1 := by simp
  refine ⟨h.zero,?_,fun hm => ?_,fun l hl => ?_⟩
  · intro i ops' hi
    have hi : (n.wal++[ops])[i]? = some ops' := hi
    obtain hlt | hge := Nat.lt_or_ge i n.wal.length
    · rw [run,tableAt_commit hlt.le]
      exact h.fits i ops' (by rwa [getElem?_append_left hlt] at hi)
    · obtain rfl : i = n.wal.length := by
        have := (List.getElem?_eq_some_iff.mp hi).1
        omega
      obtain rfl : ops = ops' := by simpa using hi
      rw [run,tableAt_commit le_rfl]
      exact ha.1
  · have hb := h.before hm
    refine ⟨hb.folded,hb.unread,hb.quiet,fun l hl => ?_,fun l t todo hl hsnap => ?_⟩
    · obtain ⟨hle,-⟩ := hb.position l hl
      refine ⟨by simp only [run,hlen]; omega,fun hnone => ?_⟩
      have hlsn : n.lsn = some l := hl
      have hnone : n.snapshot = none := hnone
      exact absurd (ha.2 (by simp [hlsn])) (by simp [hnone])
    · obtain ⟨ht,hrest⟩ := hb.rows l t todo hl hsnap
      refine ⟨?_,hrest⟩
      rw [run,tableAt_commit (hb.position l hl).1]
      exact ht
  · have ha := h.after l hl
    have hle : max n.folded n.skipThrough ≤ n.wal.length := max_le ha.folded_le ha.skip_le
    refine ⟨ha.done,by simp only [run,hlen]; exact Nat.le_succ_of_le ha.folded_le,
      by simp only [run,hlen]; exact Nat.le_succ_of_le ha.skip_le,ha.head_le,fun tab k => ?_,
      fun i hi hhead himax => ?_⟩
    · rw [run,tableAt_commit hle]
      exact ha.tracks tab k
    · rw [run,tableAt_commit (himax.trans hle),tableAt_commit hle]
      exact ha.still i hi hhead himax

theorem Sound.unmarked (hl : n.lsn = some l) : n.marker = none := by
  cases hm : n.marker with
  | none => rfl
  | some l' => exact absurd (h.after l' hm).done (by simp [hl])

theorem Sound.readLSN : Sound sh t₀ (n.run sh t₀ .readLSN) := by
  rw [run]
  split_ifs with hidle
  · simp only [Bool.and_eq_true,Option.isNone_iff_eq_none] at hidle
    have hb := h.before hidle.1
    have hsnap := hb.unread hidle.2
    refine ⟨h.zero,h.fits,fun _ => ⟨hb.folded,fun _ => hsnap,hb.quiet,?_,?_⟩,fun l hl => ?_⟩
    · rintro l ⟨⟩
      exact ⟨le_rfl,fun _ => rfl⟩
    · exact fun l t todo _ hs => absurd (hsnap.symm.trans hs) (by simp)
    · exact absurd (hidle.1.symm.trans hl) (by simp)
  · exact h

theorem Sound.takeSnapshot {rows : List (τ × π)} (ha : n.Admits sh t₀ (.takeSnapshot rows)) :
    Sound sh t₀ (n.run sh t₀ (.takeSnapshot rows)) := by
  rw [run]
  split_ifs with hidle
  · simp only [Bool.and_eq_true,Option.isNone_iff_eq_none,Option.isSome_iff_exists] at hidle
    obtain ⟨⟨l,hl⟩,hsnap⟩ := hidle
    have hb := h.before (h.unmarked hl)
    obtain ⟨hlog,hclocks⟩ := hb.quiet hsnap
    refine ⟨h.zero,h.fits,fun _ => ⟨hb.folded,?_,?_,fun l' hl' => ?_,?_⟩,
      fun l' hl' => absurd ((h.unmarked hl).symm.trans hl') (by simp)⟩
    · exact fun hnone => absurd (hl.symm.trans hnone) (by simp)
    · exact fun hnone => absurd hnone (by simp)
    · exact ⟨(hb.position l' hl').1,fun hnone => absurd hnone (by simp)⟩
    · rintro l' t todo hl' ⟨⟩
      refine ⟨?_,ha.1,fun x hx => (ha.2 x.1 x.2).mp hx,by simp [hlog],
        fun tab k => ⟨?_,fun _ => by rw [hlog]; rfl⟩⟩
      · rw [(hb.position l' hl').2 hsnap]
        rfl
      · have hnone : (if (tab,k) ∈ rows then none else n.table t₀ tab k) = none := by
          split_ifs with hk
          · rfl
          · exact Option.not_isSome_iff_eq_none.mp fun hs => hk ((ha.2 tab k).mpr hs)
        refine ⟨by rw [hlog,hnone]; rfl,fun s hs => ?_,by rw [hlog]; exact hclocks tab k,by rw [hlog]; rfl⟩
        rw [hlog,hnone]
        exact ⟨h.zero.trans_lt hs,fun _ _ h => (by cases h),fun _ => rfl,
          fun _ => by simp [isLive,peerRow,RowClock.zero]⟩
  · exact h

end

omit [DecidableEq τ] [DecidableEq π] in
theorem Tracks.adopt {r : PgImage (κ tab)} (h : Tracks sh log last clocks t tab k) (ht : t tab k = none)
    (hcl : (peerRow sh log tab k).2.cl = 0) (hs : last < e.stamp)
    (hrecs : e.records tab k = [.insert 1 fun c => some (.abs (r c))])
    (hclock : clocks' tab k = (clocks tab k).putRowState 1 e.stamp) (ht' : t' tab k = some r) :
    Tracks sh (log++[e]) e.stamp clocks' t' tab k := by
  have hst := h.stampable e.stamp hs
  have hnext : (peerRow sh log tab k).2.nextLiveCL = 1 := by simp [nextLiveCL,isLive,hcl]
  rw [ht] at hst
  have hreceive := receive_insert hst r
  have hput : (peerRow sh log tab k).2.putCleared 1 e.stamp = ⟨1,e.stamp,fun _ => none⟩ :=
    putCleared_of_dominated (dominatedBy_of_lt (by omega))
  rw [hnext,hput] at hreceive
  refine h.extend (by rw [hrecs,ht,hreceive,ht']) (fun s hlt => ?_) (by rw [hrecs]; simp [hcl,PgRecord.cl]) ?_
  · rw [ht']
    exact ⟨hlt,fun _ _ h => (by cases h),fun _ => rfl,fun _ => by simp [isLive]⟩
  · rw [hclock,putRowState_of_lt (by rw [h.live,hcl]; exact Nat.zero_lt_one)]

theorem Sound.append {stamp : Stamp} {batch : ℕ} (h : Sound sh t₀ n) (ha : n.Admits sh t₀ (.append stamp batch)) :
    Sound sh t₀ (n.run sh t₀ (.append stamp batch)) := by
  have hs : n.last < stamp := ha
  rw [run]
  cases hl : n.lsn with
  | none => exact h
  | some l =>
    cases hsnap : n.snapshot with
    | none => exact h
    | some x =>
      obtain ⟨t,todo⟩ := x
      dsimp only
      split_ifs with hempty
      · exact h
      have hb := h.before (h.unmarked hl)
      obtain ⟨ht,hnodup,hpresent,hlsn,htracks⟩ := hb.rows l t todo hl hsnap
      have hsplit : ∀ x,x ∈ todo.take batch → x ∉ todo.drop batch := by
        rw [← take_append_drop batch todo] at hnodup
        exact fun x hx hx' => (disjoint_of_nodup_append hnodup) hx hx'
      have hmem : ∀ x,x ∈ todo ↔ x ∈ todo.take batch ∨ x ∈ todo.drop batch := fun x => by
        rw [← mem_append,take_append_drop]
      refine ⟨h.zero.trans hs.le,h.fits,fun _ => ⟨hb.folded,?_,?_,fun l' hl' => ?_,?_⟩,
        fun l' hl' => absurd ((h.unmarked hl).symm.trans hl') (by simp)⟩
      · exact fun hnone => absurd (hl.symm.trans hnone) (by simp)
      · exact fun hnone => absurd hnone (by simp)
      · exact ⟨(hb.position l' hl').1,fun hnone => absurd hnone (by simp)⟩
      · rintro l' t' todo' hl' ⟨⟩
        obtain rfl : l' = l := Option.mem_unique hl' hl
        refine ⟨ht,hnodup.sublist (drop_sublist _ _),fun x hx => hpresent x ((hmem x).mpr (.inr hx)),?_,
          fun tab k => ?_⟩
        · intro e he
          obtain he | rfl := mem_concat.mp he
          · exact hlsn e he
          · rfl
        · obtain ⟨htrack,hfresh⟩ := htracks tab k
          by_cases hk : (tab,k) ∈ todo.take batch
          · have hin := (hmem _).mpr (.inl hk)
            obtain ⟨r,hr⟩ := Option.isSome_iff_exists.mp (hpresent _ hin)
            refine ⟨htrack.adopt (r := r) (if_pos hin) (hfresh (.inl hin)) hs (by simp [hk,hr]) (if_pos hk)
              (by simp [hsplit _ hk,hr]),fun hor => ?_⟩
            exact hor.elim (fun hd => absurd hd (hsplit _ hk)) fun hnone => absurd (hr.symm.trans hnone) (by simp)
          · have hiff : (tab,k) ∈ todo.drop batch ↔ (tab,k) ∈ todo := by simp [hmem,hk]
            refine ⟨htrack.idle hs (if_neg hk) (by simp [publishAdopted,hk]) (by simp [hiff]),fun hor => ?_⟩
            have hsame : peerRow sh (n.publishAdopted l' stamp t (todo.take batch)).log tab k =
                peerRow sh n.log tab k := by
              rw [peerRow,publishAdopted,foldl_append]
              simp [hk,receive,applyRecords,peerRow]
            rw [hsame]
            exact hfresh (hor.imp_left hiff.mp)

omit [DecidableEq τ] [DecidableEq π] [∀ tab,Fintype (κ tab)] in
theorem headLSN_append (log : List (AdoptEntry τ π κ)) (e : AdoptEntry τ π κ) :
    headLSN (log++[e]) = max (headLSN log) e.lsn := by simp [headLSN]

omit [DecidableEq τ] [DecidableEq π] [∀ tab,Fintype (κ tab)] in
theorem headLSN_le (h : ∀ e ∈ log,e.lsn = l) : headLSN log ≤ l := by
  induction log using reverseRecOn with
  | nil => exact Nat.zero_le _
  | append_singleton log e ih =>
    rw [headLSN_append]
    exact max_le (ih fun e' he' => h e' (by simp [he'])) (h e (by simp)).le

section

variable (h : Sound sh t₀ n)
include h

theorem Sound.storeMarker : Sound sh t₀ (n.run sh t₀ .storeMarker) := by
  rw [run]
  cases hl : n.lsn with
  | none => exact h
  | some l =>
    dsimp only
    split
    · rename_i t hsnap
      have hb := h.before (h.unmarked hl)
      obtain ⟨rfl,-,-,hlsn,htracks⟩ := hb.rows l t [] hl hsnap
      have hmax : max n.folded l = l := by simp [hb.folded]
      refine ⟨h.zero,h.fits,fun hm => absurd hm (by simp),?_⟩
      rintro l' ⟨⟩
      refine ⟨rfl,by simp [hb.folded],(hb.position l hl).1,?_,fun tab k => ?_,fun i hi _ hi' => ?_⟩
      · exact (headLSN_le hlsn).trans (le_max_right _ _)
      · show Tracks sh n.log n.last n.clocks (n.tableAt t₀ (max n.folded l)) tab k
        rw [hmax]
        simpa using (htracks tab k).1
      · show n.tableAt t₀ i = n.tableAt t₀ (max n.folded l)
        have hi' : i ≤ max n.folded l := hi'
        rw [hmax] at hi' ⊢
        rw [le_antisymm hi' hi]
    · exact h

theorem After.foldNext {stamp : Stamp} (ha : After sh t₀ n l) (hs : n.last < stamp) :
    After sh t₀ (n.foldNext sh stamp) l ∧ n.last ≤ (n.foldNext sh stamp).last ∧
      (n.foldNext sh stamp).wal = n.wal ∧ (n.foldNext sh stamp).marker = n.marker := by
  unfold AdoptNode.foldNext
  cases hops : n.wal[n.folded]? with
  | none => exact ⟨ha,le_rfl,rfl,rfl⟩
  | some ops =>
    have hlt := (List.getElem?_eq_some_iff.mp hops).1
    dsimp only
    by_cases hskip : n.folded+1 ≤ n.skipThrough
    · have hmax : max (n.folded+1) n.skipThrough = max n.folded n.skipThrough := by omega
      rw [if_pos hskip]
      refine ⟨⟨ha.done,hlt,ha.skip_le,?_,fun tab k => ?_,fun i hi hhead hi' => ?_⟩,le_rfl,rfl,rfl⟩
      · exact hmax ▸ ha.head_le
      · show Tracks sh n.log n.last n.clocks (n.tableAt t₀ (max (n.folded+1) n.skipThrough)) tab k
        exact hmax ▸ ha.tracks tab k
      · show n.tableAt t₀ i = n.tableAt t₀ (max (n.folded+1) n.skipThrough)
        rw [hmax]
        exact ha.still i hi hhead (hmax ▸ hi')
    · have hpos : max n.folded n.skipThrough = n.folded := by omega
      have hpos' : max (n.folded+1) n.skipThrough = n.folded+1 := by omega
      have hfits := h.fits n.folded ops hops
      have hnext : n.tableAt t₀ (n.folded+1) = ops.foldl DbOp.run (n.tableAt t₀ n.folded) := tableAt_succ hops
      have htracks := ha.tracks
      have hstill := ha.still
      have hhead := ha.head_le
      rw [hpos] at htracks hstill hhead
      let e : AdoptEntry τ π κ :=
        ⟨n.folded+1,stamp,fun tab k => (foldAll sh n.clocks stamp ops tab k).elim [] Prod.fst⟩
      let clocks' := fun tab k => (foldAll sh n.clocks stamp ops tab k).elim (n.clocks tab k) Prod.snd
      have hfold : ∀ tab k,(foldAll sh n.clocks stamp ops tab k).isSome = true ∧
          (e.records tab k = [] → n.tableAt t₀ (n.folded+1) tab k = n.tableAt t₀ n.folded tab k) ∧
          Tracks sh (n.log++[e]) stamp clocks' (n.tableAt t₀ (n.folded+1)) tab k := by
        intro tab k
        have hk : ∃ recs clock,foldAll sh n.clocks stamp ops tab k = some (recs,clock) ∧
            (recs = [] → ops.foldl DbOp.run (n.tableAt t₀ n.folded) tab k = n.tableAt t₀ n.folded tab k) ∧
            (e.records tab k = recs → clocks' tab k = clock →
              Tracks sh (n.log++[e]) stamp clocks' (ops.foldl DbOp.run (n.tableAt t₀ n.folded)) tab k) :=
          Tracks.fold (e := e) (htracks tab k) hfits h.zero hs
        obtain ⟨recs,clock,hf,hidle,htrack⟩ := hk
        have hrecs : e.records tab k = recs := by simp [e,hf]
        rw [hnext]
        exact ⟨by simp [hf],fun hnil => hidle (hrecs.symm.trans hnil),htrack hrecs (by simp [clocks',hf])⟩
      rw [if_neg hskip,if_neg (by simp [fun tab k => Option.isNone_eq_false_iff.mpr (hfold tab k).1])]
      by_cases hempty : (ops.flatMap DbOp.touched).all (fun x => (e.records x.1 x.2).isEmpty) = true
      · have hsame : n.tableAt t₀ (n.folded+1) = n.tableAt t₀ n.folded := by
          funext tab k
          refine (hfold tab k).2.1 ?_
          by_cases hk : (tab,k) ∈ ops.flatMap DbOp.touched
          · exact isEmpty_iff.mp (all_eq_true.mp hempty _ hk)
          · simp [e,foldAll,foldKey,accumulate_untouched hk]
        rw [if_pos hempty]
        refine ⟨⟨ha.done,hlt,ha.skip_le,?_,fun tab k => ?_,fun i hi hhead' hi' => ?_⟩,le_rfl,rfl,rfl⟩
        · exact hhead.trans ((Nat.le_succ _).trans (le_max_left _ _))
        · show Tracks sh n.log n.last n.clocks (n.tableAt t₀ (max (n.folded+1) n.skipThrough)) tab k
          rw [hpos',hsame]
          exact htracks tab k
        · show n.tableAt t₀ i = n.tableAt t₀ (max (n.folded+1) n.skipThrough)
          have hi' : i ≤ max (n.folded+1) n.skipThrough := hi'
          rw [hpos'] at hi' ⊢
          obtain hi' | rfl := Nat.le_succ_iff.mp hi'
          · rw [hsame]
            exact hstill i hi hhead' hi'
          · rfl
      · rw [if_neg hempty]
        have hhead' : headLSN (n.log++[e]) = n.folded+1 := by
          rw [headLSN_append]
          exact max_eq_right (hhead.trans (Nat.le_succ _))
        refine ⟨⟨ha.done,hlt,ha.skip_le,?_,fun tab k => ?_,fun i hi hi₁ hi' => ?_⟩,hs.le,rfl,rfl⟩
        · exact hhead'.le.trans (le_max_left _ _)
        · show Tracks sh (n.log++[e]) stamp clocks' (n.tableAt t₀ (max (n.folded+1) n.skipThrough)) tab k
          rw [hpos']
          exact (hfold tab k).2.2
        · show n.tableAt t₀ i = n.tableAt t₀ (max (n.folded+1) n.skipThrough)
          have hi' : i ≤ max (n.folded+1) n.skipThrough := hi'
          have hi₁ : headLSN (n.log++[e]) ≤ i := hi₁
          rw [hpos'] at hi' ⊢
          rw [hhead'] at hi₁
          rw [le_antisymm hi' hi₁]

theorem Sound.fold {stamp : Stamp} (ha : n.Admits sh t₀ (.fold stamp)) :
    Sound sh t₀ (n.run sh t₀ (.fold stamp)) := by
  have hs : n.last < stamp := ha
  rw [run]
  split_ifs with hm
  · obtain ⟨l,hl⟩ := Option.isSome_iff_exists.mp hm
    obtain ⟨hafter,hlast,hwal,hmarker⟩ := After.foldNext h (h.after l hl) hs
    refine ⟨h.zero.trans hlast,?_,fun hnone => ?_,fun l' hl' => ?_⟩
    · intro i ops hi
      rw [hwal] at hi
      rw [tableAt,hwal]
      exact h.fits i ops hi
    · exact absurd (hmarker.symm.trans hnone) (by simp [hl])
    · obtain rfl : l' = l := Option.some.inj ((hl'.symm.trans hmarker).trans hl)
      exact hafter
  · exact h

theorem Sound.restart {confirmed : ℕ} (ha : n.Admits sh t₀ (.restart confirmed)) :
    Sound sh t₀ (n.run sh t₀ (.restart confirmed)) := by
  obtain ⟨hle,hnone,hresume⟩ := ha
  rw [run]
  refine ⟨h.zero,h.fits,fun hm => ?_,fun l hl => ?_⟩
  · have hb := h.before hm
    have hlog := hnone hm
    refine ⟨by have := hb.folded; simp only; omega,fun _ => rfl,fun _ => ⟨hlog,fun tab k => ?_⟩,?_,?_⟩
    · show (recoveredClock n.log tab k).cl = 0
      rw [hlog]
      rfl
    · exact fun l hl => absurd hl (by simp)
    · exact fun l t todo hl => absurd hl (by simp)
  · have hafter := h.after l hl
    have hpos : max confirmed (headLSN n.log) ≤ max n.folded n.skipThrough :=
      max_le (hle.trans (le_max_left _ _)) hafter.head_le
    have hmax : max n.folded n.skipThrough ≤ n.wal.length := max_le hafter.folded_le hafter.skip_le
    have hsame := hafter.still _ (hresume l hl) (le_max_right _ _) hpos
    refine ⟨rfl,hle.trans hafter.folded_le,hafter.head_le.trans hmax,le_max_right _ _,fun tab k => ?_,
      fun i hi hhead hi' => ?_⟩
    · show Tracks sh n.log n.last (recoveredClock n.log) (n.tableAt t₀ (max confirmed (headLSN n.log))) tab k
      rw [hsame]
      have htrack := hafter.tracks tab k
      exact ⟨htrack.row,htrack.stampable,htrack.recovered,htrack.recovered⟩
    · show n.tableAt t₀ i = n.tableAt t₀ (max confirmed (headLSN n.log))
      rw [hsame]
      exact hafter.still i hi hhead (hi'.trans hpos)

theorem Sound.step {a : AdoptAction τ π κ} (ha : n.Admits sh t₀ a) :
    Sound sh t₀ (n.run sh t₀ a) := by
  cases a with
  | commit ops => exact h.commit ha
  | readLSN => exact h.readLSN
  | takeSnapshot rows => exact h.takeSnapshot ha
  | append stamp batch => exact h.append ha
  | storeMarker => exact h.storeMarker
  | fold stamp => exact h.fold ha
  | restart confirmed => exact h.restart ha

end

end AdoptNode

namespace AdoptSample

open PgFoldSample AdoptNode

/-- Two tables of two columns: the second column of the first table is a counter. -/
def shapes : Fin 2 → PgShape (Fin 2) := pair tallied plain

def content : Database (Fin 2) (Fin 2) fun _ => Fin 2 := fun _ => pair (some (pair 5 10)) none

def raise (a b : ℤ) : DbOp (Fin 2) (Fin 2) fun _ => Fin 2 :=
  ⟨0,.update 0 0 (pair none (some b)) (pair (some 5) (some a))⟩

def counted (tab : Fin 2) (acts : List (AdoptAction (Fin 2) (Fin 2) fun _ => Fin 2)) : Option ℤ × Option ℤ :=
  let n := acts.foldl (run shapes content) init
  ((n.table content tab 0).map fun r => r 1,(peerRow shapes n.log tab 0).1.map fun r => r 1)

/-- A transaction before the position, a first adoption that a crash ends before it published anything, and a
transaction on both tables after the snapshot. -/
def adopted : List (AdoptAction (Fin 2) (Fin 2) fun _ => Fin 2) :=
  [.readLSN,.restart 0,.commit [raise 10 11],.readLSN,.takeSnapshot [(0,0),(1,0)],
    .commit [raise 11 13,⟨1,.delete 0⟩],.append (stampAt 1) 500,.storeMarker,.fold (stampAt 2),
    .fold (stampAt 3)]

end AdoptSample

end Syzy.Pg
