import Syzy.Fleet

/-!
No upload of an older generation becomes visible once a newer one has listed the bucket. Uploads in
flight land before the last expiry that was granted for the current lease; a claim of a lease that
expired therefore finds none, and a process that was superseded has passed its own fence.
-/

namespace Syzy

open Machine Function ExceptFold List HEAD

namespace HeadStore

variable {seen : Option HEAD} {next : HEAD} {cfg : PublisherConfig}

variable {clusterID : String} {expected : PublisherIdentity} {generation txid : ℕ} {nowUS : ℤ}

theorem publisher_claim (h : claimOrTakeover cfg nowUS seen = .ok (some next)) :
    ∃ head,seen = some head ∧
      next.publisher = some ⟨cfg.nodeID,head.generation+1,nowUS+cfg.leaseExpiryUS⟩ ∧
      ∀ p ∈ head.publisher,p.nodeID = cfg.nodeID ∨ p.expiresAtUS ≤ nowUS := by
  have hclaim : ∀ {head : HEAD} {g : ℕ} {resume : Bool},
      claim cfg nowUS head g resume = .ok (some next) →
        next.publisher = some ⟨cfg.nodeID,g+1,nowUS+cfg.leaseExpiryUS⟩ := by
    intro head g resume h
    unfold claim at h
    split_ifs at h
    cases h
    rfl
  obtain ⟨head,hload,h⟩ := bind_eq_ok.mp h
  refine ⟨head,loadHEAD_ok hload,?_⟩
  split_ifs at h
  unfold generation
  cases hp : head.publisher with
  | none =>
    rw [hp] at h
    exact ⟨hclaim h,fun p hp => absurd hp (by simp)⟩
  | some q =>
    rw [hp] at h
    dsimp only at h
    split_ifs at h with hnode hexp
    · exact ⟨hclaim h,fun p hp => .inl (Option.some.inj hp ▸ hnode)⟩
    · exact ⟨hclaim h,fun p hp => .inr (Option.some.inj hp ▸ hexp)⟩
    · cases h

theorem publisher_heartbeat {leaseExpiresAtUS : ℤ} {fresh : Bool} {casUS putUS : ℤ}
    (h : heartbeat cfg generation leaseExpiresAtUS fresh nowUS casUS putUS seen = .ok (some next)) :
    ∃ head p,seen = some head ∧ head.publisher = some p ∧ p.nodeID = cfg.nodeID ∧
      p.generation = generation ∧ casUS < p.expiresAtUS ∧
      next.publisher = some { p with expiresAtUS := casUS+cfg.leaseExpiryUS } := by
  obtain ⟨head,hload,h⟩ := bind_eq_ok.mp h
  dsimp only at h
  split_ifs at h with hnow hfresh hstale hcas hput
  · cases h
  · obtain ⟨⟨p,hp,hnode,hgen⟩,hlt⟩ := hput
    cases h
    exact ⟨head,p,loadHEAD_ok hload,hp,hnode,hgen,hlt p hp,by simp [hp]⟩

theorem publisher_release (h : releaseLease cfg generation seen = .ok (some next)) :
    ∃ head p,seen = some head ∧ head.publisher = some p ∧ p.nodeID = cfg.nodeID ∧
      next.publisher = some { p with expiresAtUS := 0 } := by
  unfold releaseLease at h
  split at h
  · cases h
  · cases h
  · rename_i head hload
    split_ifs at h with hout
    · cases h
    · rw [not_or,not_not] at hout
      obtain ⟨p,hp,hnode,-⟩ := hout.2
      cases h
      exact ⟨head,p,loadHEAD_ok hload,hp,hnode,by simp [expire,hp]⟩

theorem publisher_metadataBaseline {ref : FileRef}
    (h : publishMetadataBaseline clusterID expected nowUS txid ref seen = .ok (some next)) :
    next.publisher = seen.bind publisher := by
  obtain ⟨head,rfl,-,h⟩ := mutateOwnedHEAD_ok h
  obtain ⟨_,-,h⟩ := bind_eq_ok.mp h
  split_ifs at h
  · cases h
  · cases h
    rfl

theorem publisher_coupledBaselines {appRef metaRef : FileRef}
    (h : publishCoupledBaselines clusterID expected nowUS txid appRef metaRef seen = .ok (some next)) :
    next.publisher = seen.bind publisher := by
  obtain ⟨head,rfl,-,h⟩ := mutateOwnedHEAD_ok h
  obtain ⟨_,-,h⟩ := bind_eq_ok.mp h
  obtain ⟨_,-,h⟩ := bind_eq_ok.mp h
  dsimp only at h
  split_ifs at h
  · cases h
  · cases h
    rfl

theorem publisher_resolveClusterID {cid : String}
    (h : resolveClusterID cid seen = .ok (some next)) : next.publisher = seen.bind publisher := by
  unfold resolveClusterID at h
  split at h
  · cases h
  · rename_i hload
    cases h
    rw [loadHEAD_noHEAD hload]
    rfl
  · cases h

end HeadStore

namespace Fleet

variable {c : FleetConfig} {s : Fleet} {n : String}

def generationOf (lease : Option Publisher) : ℕ := (lease.map Publisher.generation).getD 0

def lease (s : Fleet) : Option Publisher := s.head.bind publisher

def generation (s : Fleet) : ℕ := generationOf s.lease

/-- What a process's write makes of the lease. -/
inductive Moved (c : FleetConfig) (n : String) : HeadOp → Option Publisher → Option Publisher → Prop
  | claim {cfg : PublisherConfig} {nowUS : ℤ} {prev : Option Publisher}
      (hexp : cfg.leaseExpiryUS = c.leaseExpiryUS)
      (hprev : ∀ p ∈ prev,p.nodeID = n ∨ p.expiresAtUS ≤ nowUS) :
      Moved c n (.claimOrTakeover cfg nowUS) prev
        (some ⟨n,generationOf prev+1,nowUS+c.leaseExpiryUS⟩)
  | heartbeat {cfg : PublisherConfig} {g : ℕ} {e casUS : ℤ} {fresh : Bool} {p : Publisher}
      (hexp : cfg.leaseExpiryUS = c.leaseExpiryUS) (hnode : p.nodeID = n) (hgen : p.generation = g)
      (hlt : casUS < p.expiresAtUS) :
      Moved c n (.heartbeat cfg g e fresh casUS casUS casUS) (some p)
        (some { p with expiresAtUS := casUS+c.leaseExpiryUS })
  | release {cfg : PublisherConfig} {g : ℕ} {p : Publisher} (hnode : p.nodeID = n) :
      Moved c n (.releaseLease cfg g) (some p) (some { p with expiresAtUS := 0 })
  | keep {op : HeadOp} {prev : Option Publisher}
      (hop : ∀ p put,put.op = op → settle p put = p) : Moved c n op prev prev

variable {granted' nowUS : ℤ} {head : Option HEAD} {objects : List Upload} {p : PublisherProcess}
  {processes : String → PublisherProcess} {pt : HeadPut} {puts : List HeadPut} {r : HeadRequest}

theorem put_moved (h : put c s n r = some pt) :
    pt.nodeID = n ∧ pt.seen = s.head ∧ Moved c n pt.op s.lease pt.next.publisher ∧
      (∀ cfg nowUS,pt.op = .claimOrTakeover cfg nowUS →
        nowUS = s.nowUS ∧ (s.processes n).stage = .claiming) ∧
      (∀ cfg g e fresh a casUS b,pt.op = .heartbeat cfg g e fresh a casUS b → casUS = s.nowUS) ∧
      ∀ cfg g,pt.op = .releaseLease cfg g →
        (s.processes n).stage = .stopped ∧ ∃ p,s.lease = some p ∧ p.nodeID = n := by
  obtain ⟨op,hop,h⟩ := Option.bind_eq_some_iff.mp h
  split at h
  · rename_i next happly
    cases h
    refine ⟨rfl,rfl,?_⟩
    unfold Fleet.op at hop
    split at hop
    all_goals try cases hop
    · exact ⟨HeadStore.publisher_resolveClusterID happly ▸ .keep fun p put h => by simp [settle,h],
        by simp,by simp,by simp⟩
    · have hstage : (s.processes n).stage = .claiming := by assumption
      obtain ⟨head,hseen,hnext,hprev⟩ := HeadStore.publisher_claim happly
      refine ⟨?_,fun cfg nowUS h => ⟨(HeadOp.claimOrTakeover.inj h).2.symm,hstage⟩,by simp,by simp⟩
      rw [hnext]
      have hlease : s.lease = head.publisher := by rw [lease,hseen]; rfl
      rw [hlease]
      exact .claim rfl hprev
    · obtain ⟨head,p,hseen,hp,hnode,hgen,hlt,hnext⟩ := HeadStore.publisher_heartbeat happly
      refine ⟨?_,by simp,fun cfg g e fresh a casUS b h => ?_,by simp⟩
      · dsimp only
        have hlease : s.lease = some p := by rw [lease,hseen]; exact hp
        rw [hnext,hlease]
        exact .heartbeat rfl hnode hgen hlt
      · injection h with _ _ _ _ _ h
        exact h.symm
    · exact ⟨HeadStore.publisher_metadataBaseline happly ▸ .keep fun p put h => by simp [settle,h],
        by simp,by simp,by simp⟩
    · exact ⟨HeadStore.publisher_coupledBaselines happly ▸ .keep fun p put h => by simp [settle,h],
        by simp,by simp,by simp⟩
    · have hstage : (s.processes n).stage = .stopped := by assumption
      obtain ⟨head,p,hseen,hp,hnode,hnext⟩ := HeadStore.publisher_release happly
      have hlease : s.lease = some p := by rw [lease,hseen]; exact hp
      refine ⟨?_,by simp,by simp,fun cfg g h => ⟨hstage,p,hlease,hnode⟩⟩
      dsimp only
      rw [hnext,hlease]
      exact .release hnode
  · cases h

def Quiet (s : Fleet) : Prop :=
  ∀ n,(s.processes n).Active → (s.processes n).generation < s.generation

/-- A write in flight, as far as it can still take effect. -/
structure Sent (c : FleetConfig) (s : Fleet) (pt : HeadPut) : Prop where
  moved : Moved c pt.nodeID pt.op (pt.seen.bind publisher) pt.next.publisher
  generation_le : generationOf (pt.seen.bind publisher) ≤ s.generation
  claim : ∀ cfg nowUS,pt.op = .claimOrTakeover cfg nowUS → 0 ≤ nowUS ∧ nowUS ≤ s.nowUS ∧
    (pt.Unwaited → generationOf (pt.seen.bind publisher) = s.generation →
      Quiet s ∧ ∀ u ∈ s.inflight,u.issuedUS ≤ nowUS)
  heartbeat : ∀ cfg g e fresh a casUS b,pt.op = .heartbeat cfg g e fresh a casUS b →
    0 ≤ casUS ∧ casUS ≤ s.nowUS ∧
      ∀ p ∈ pt.seen.bind publisher,p.expiresAtUS ≤ casUS+c.leaseExpiryUS
  release : ∀ cfg g,pt.op = .releaseLease cfg g →
    generationOf (pt.seen.bind publisher) = s.generation → Quiet s

/-- What a process that holds a generation may rely on, when `granted` is the last expiry that was
granted for the lease in HEAD. -/
structure Held (s : Fleet) (granted : ℤ) (n : String) (p : PublisherProcess) : Prop where
  generation_le : p.generation ≤ s.generation
  superseded : p.generation < s.generation → p.leaseExpiresAtUS ≤ s.nowUS
  current : p.generation = s.generation →
    p.leaseExpiresAtUS ≤ granted ∧ s.lease = some ⟨n,s.generation,granted⟩
  waited : p.unwaited = false → ∀ u ∈ s.inflight,p.generation ≤ u.generation

structure Fenced (c : FleetConfig) (s : Fleet) (granted : ℤ) : Prop where
  now_nonneg : 0 ≤ s.nowUS
  lease : ∀ p ∈ s.lease,1 ≤ p.generation ∧ (p.expiresAtUS = 0 ∨ p.expiresAtUS = granted) ∧
    0 < granted ∧ granted ≤ s.nowUS+c.leaseExpiryUS
  flight : ∀ u ∈ s.inflight,1 ≤ u.generation ∧ u.generation ≤ s.generation ∧
    u.issuedUS ≤ s.nowUS ∧ s.nowUS ≤ u.issuedUS+c.heartbeatIntervalUS ∧
    u.issuedUS+c.heartbeatIntervalUS < granted
  held : ∀ n,(s.processes n).Active → Held s granted n (s.processes n)
  sent : ∀ pt ∈ s.puts,Sent c s pt
  listed : ∀ l ∈ s.listings,l.generation ≤ s.generation ∧ ∀ u ∈ s.inflight,l.generation ≤ u.generation
  isolated : s.Isolated

theorem fenced_init (t : ℕ) : Fenced c (init t) 0 where
  now_nonneg := Int.natCast_nonneg t
  lease := fun p hp => absurd hp (by simp [Fleet.lease,init])
  flight := fun u hu => absurd hu not_mem_nil
  held := fun n hn => absurd hn (by simp [init,PublisherProcess.Active,PublisherProcess.off])
  sent := fun pt hpt => absurd hpt not_mem_nil
  listed := fun l hl => absurd hl not_mem_nil
  isolated := fun l hl => absurd hl not_mem_nil

variable {granted : ℤ}

/-- The generation stays: processes may stop, the lease may be extended or given up. -/
theorem Fenced.same_generation (h : Fenced c s granted) (hle : granted ≤ granted')
    (hgen : generationOf (head.bind publisher) = s.generation)
    (hlease : ∀ p ∈ head.bind publisher,1 ≤ p.generation ∧
      (p.expiresAtUS = 0 ∨ p.expiresAtUS = granted') ∧ 0 < granted' ∧
      granted' ≤ s.nowUS+c.leaseExpiryUS)
    (hputs : ∀ pt ∈ puts,pt ∈ s.puts) (hkept : ∀ m,(processes m).Active → (s.processes m).Active ∧
      (processes m).generation = (s.processes m).generation ∧
      (processes m).unwaited = (s.processes m).unwaited ∧
      ((s.processes m).generation < s.generation →
        (processes m).leaseExpiresAtUS = (s.processes m).leaseExpiresAtUS) ∧
      ((s.processes m).generation = s.generation → (processes m).leaseExpiresAtUS ≤ granted' ∧
        head.bind publisher = some ⟨m,s.generation,granted'⟩)) :
    Fenced c { s with head := head,puts := puts,processes := processes } granted' := by
  have hquiet : Quiet s → Quiet { s with head := head,puts := puts,processes := processes } := by
    intro hq m hm
    obtain ⟨hactive,hg,-⟩ := hkept m hm
    change (processes m).generation < generationOf (head.bind publisher)
    rw [hg,hgen]
    exact hq m hactive
  have hgen' : ({ s with head := head,puts := puts,processes := processes } : Fleet).generation =
      s.generation := hgen
  refine ⟨h.now_nonneg,hlease,?_,?_,?_,?_,h.isolated⟩
  · intro u hu
    obtain ⟨hone,hg,hpast,hdue,hlt⟩ := h.flight u hu
    exact ⟨hone,hgen'.symm ▸ hg,hpast,hdue,Int.lt_of_lt_of_le hlt hle⟩
  · intro m hm
    obtain ⟨hactive,hg,hun,hold,hcur⟩ := hkept m hm
    have hheld := h.held m hactive
    refine ⟨?_,?_,?_,?_⟩
    · rw [hgen',hg]
      exact hheld.generation_le
    · rw [hgen',hg]
      intro hlt
      rw [hold hlt]
      exact hheld.superseded hlt
    · rw [hgen',hg]
      exact hcur
    · rw [hg,hun]
      exact hheld.waited
  · intro pt hpt
    obtain ⟨hm,hg,hc,hh,hr⟩ := h.sent pt (hputs pt hpt)
    refine ⟨hm,hgen'.symm ▸ hg,fun cfg nowUS hop => ?_,hh,fun cfg g hop heq => ?_⟩
    · obtain ⟨h0,h1,h2⟩ := hc cfg nowUS hop
      refine ⟨h0,h1,fun hun heq => ?_⟩
      obtain ⟨hq,hu⟩ := h2 hun (heq.trans hgen')
      exact ⟨hquiet hq,hu⟩
    · exact hquiet (hr cfg g hop (heq.trans hgen'))
  · intro l hl
    obtain ⟨hg,hu⟩ := h.listed l hl
    exact ⟨hgen'.symm ▸ hg,hu⟩

theorem Fenced.setProcess (h : Fenced c s granted)
    (hp : p.Active → (s.processes n).Active ∧ p.generation = (s.processes n).generation ∧
      p.unwaited = (s.processes n).unwaited ∧
      p.leaseExpiresAtUS = (s.processes n).leaseExpiresAtUS) :
    Fenced c (s.setProcess n p) granted := by
  refine h.same_generation (Int.le_refl _) rfl h.lease (fun _ => id) fun m hm => ?_
  by_cases hmn : m = n
  · subst hmn
    rw [update_self] at hm ⊢
    obtain ⟨hactive,hg,hun,hexp⟩ := hp hm
    refine ⟨hactive,hg,hun,fun _ => hexp,fun hcur => ?_⟩
    rw [hexp]
    exact (h.held m hactive).current hcur
  · rw [update_of_ne hmn] at hm ⊢
    exact ⟨hm,rfl,rfl,fun _ => rfl,(h.held m hm).current⟩

theorem Held.not_superseded (h : Held s granted n p) (hwindow : checkMutationWindow c p s.nowUS) :
    p.generation = s.generation := by
  have hpos := c.heartbeat_pos
  rcases Nat.lt_or_eq_of_le h.generation_le with hlt | heq
  · have hexp := h.superseded hlt
    have hopen := hwindow.2
    omega
  · exact heq

section

variable (h : Fenced c s granted)
include h

/-- Whoever may still upload for the lease in HEAD is the node that it names. -/
theorem Fenced.quiet {p : Publisher} (hp : s.lease = some p)
    (hout : p.expiresAtUS = 0 ∨ p.nodeID = n ∧ ¬(s.processes n).Active) : Quiet s := by
  intro m hm
  have hheld := h.held m hm
  rcases Nat.lt_or_eq_of_le hheld.generation_le with hlt | heq
  · exact hlt
  · obtain ⟨-,hlease⟩ := hheld.current heq
    rw [hp] at hlease
    cases hlease
    rcases hout with hzero | ⟨hnode,hinactive⟩
    · have hpos := (h.lease _ hp).2.2.1
      dsimp only at hzero
      omega
    · dsimp only at hnode
      rw [hnode] at hm
      exact absurd hm hinactive

theorem Fenced.tick {d : ℕ} (ht : Timely c s (.tick d)) :
    Fenced c (step c s (.tick d)) granted := by
  have hd : s.nowUS ≤ s.nowUS+d := by omega
  refine ⟨Int.le_trans h.now_nonneg hd,fun p hp => ?_,fun u hu => ?_,fun m hm => ?_,fun pt hpt => ?_,
    h.listed,h.isolated⟩
  · obtain ⟨hone,hexp,hpos,hle⟩ := h.lease p hp
    exact ⟨hone,hexp,hpos,Int.le_trans hle (Int.add_le_add_right hd _)⟩
  · obtain ⟨hone,hg,hpast,-,hlt⟩ := h.flight u hu
    exact ⟨hone,hg,Int.le_trans hpast hd,ht u hu,hlt⟩
  · obtain ⟨hg,hold,hcur,hw⟩ := h.held m hm
    exact ⟨hg,fun hlt => Int.le_trans (hold hlt) hd,hcur,hw⟩
  · obtain ⟨hm,hg,hc,hh,hr⟩ := h.sent pt hpt
    refine ⟨hm,hg,fun cfg nowUS hop => ?_,fun cfg g e fresh a casUS b hop => ?_,hr⟩
    · obtain ⟨h0,h1,h2⟩ := hc cfg nowUS hop
      exact ⟨h0,Int.le_trans h1 hd,h2⟩
    · obtain ⟨h0,h1,h2⟩ := hh cfg g e fresh a casUS b hop
      exact ⟨h0,Int.le_trans h1 hd,h2⟩

theorem Fenced.landed {inflight : List Upload} (hin : ∀ u ∈ inflight,u ∈ s.inflight)
    (hobj : ∀ o ∈ objects,o ∈ s.objects ∨ o ∈ s.inflight) :
    Fenced c { s with inflight := inflight,objects := objects } granted where
  now_nonneg := h.now_nonneg
  lease := h.lease
  flight := fun u hu => h.flight u (hin u hu)
  held := fun m hm =>
    have hheld := h.held m hm
    ⟨hheld.generation_le,hheld.superseded,hheld.current,fun hw u hu => hheld.waited hw u (hin u hu)⟩
  sent := fun pt hpt =>
    have hsent := h.sent pt hpt
    ⟨hsent.moved,hsent.generation_le,fun cfg nowUS hop =>
      have hclaim := hsent.claim cfg nowUS hop
      ⟨hclaim.1,hclaim.2.1,fun hun heq =>
        have hq := hclaim.2.2 hun heq
        ⟨hq.1,fun u hu => hq.2 u (hin u hu)⟩⟩,hsent.heartbeat,hsent.release⟩
  listed := fun l hl => ⟨(h.listed l hl).1,fun u hu => (h.listed l hl).2 u (hin u hu)⟩
  isolated := by
    intro l hl o ho hlt
    rcases hobj o ho with ho | ho
    · exact h.isolated l hl o ho hlt
    · exact absurd ((h.listed l hl).2 o ho) (by omega)

theorem Fenced.upload {stream : StreamName} {minTXID maxTXID : ℕ} :
    Fenced c (step c s (.upload n stream minTXID maxTXID)) granted := by
  rw [step]
  split_ifs with hwindow
  swap
  · exact h
  have hpos := c.heartbeat_pos
  have hactive : (s.processes n).Active := .inr hwindow.1
  have hheld := h.held n hactive
  have hgen := hheld.not_superseded hwindow
  obtain ⟨hexp,hlease⟩ := hheld.current hgen
  have hopen := hwindow.2
  obtain ⟨hone,-⟩ := h.lease _ hlease
  refine ⟨h.now_nonneg,h.lease,fun u hu => ?_,fun m hm => ?_,fun pt hpt => ?_,fun l hl => ?_,
    h.isolated⟩
  · rcases mem_concat.mp hu with hu | rfl
    · exact h.flight u hu
    · dsimp only at hone ⊢
      exact ⟨hgen ▸ hone,hheld.generation_le,Int.le_refl _,by omega,by omega⟩
  · obtain ⟨hg,hold,hcur,hw⟩ := h.held m hm
    refine ⟨hg,hold,hcur,fun hun u hu => ?_⟩
    rcases mem_concat.mp hu with hu | rfl
    · exact hw hun u hu
    · exact hgen.symm ▸ hg
  · obtain ⟨hm,hg,hc,hh,hr⟩ := h.sent pt hpt
    refine ⟨hm,hg,fun cfg nowUS hop => ?_,hh,hr⟩
    obtain ⟨h0,h1,h2⟩ := hc cfg nowUS hop
    exact ⟨h0,h1,fun hun heq => absurd ((h2 hun heq).1 n hactive) (by omega)⟩
  · obtain ⟨hg,hl'⟩ := h.listed l hl
    refine ⟨hg,fun u hu => ?_⟩
    rcases mem_concat.mp hu with hu | rfl
    · exact hl' u hu
    · exact hgen.symm ▸ hg

theorem Fenced.send (hpt : Sent c s pt) : Fenced c { s with puts := s.puts++[pt] } granted := by
  refine ⟨h.now_nonneg,h.lease,h.flight,fun m hm => ?_,fun q hq => ?_,h.listed,h.isolated⟩
  · obtain ⟨h1,h2,h3,h4⟩ := h.held m hm
    exact ⟨h1,h2,h3,h4⟩
  · have hq' : Sent c s q := by
      rcases mem_append.mp hq with hq | hq
      · exact h.sent q hq
      · rwa [mem_singleton.mp hq]
    obtain ⟨h1,h2,h3,h4,h5⟩ := hq'
    exact ⟨h1,h2,h3,h4,h5⟩

theorem Fenced.sent_put (hput : put c s n r = some pt) : Sent c s pt := by
  obtain ⟨hnode,hseen,hmoved,hclaim,hheart,hrelease⟩ := put_moved hput
  have hlease : pt.seen.bind publisher = s.lease := by rw [hseen]; rfl
  refine ⟨?_,?_,fun cfg nowUS hop => ?_,fun cfg g e fresh a casUS b hop => ?_,fun cfg g hop _ => ?_⟩
  · rw [hlease,hnode]
    exact hmoved
  · rw [hlease]
    exact le_rfl
  · obtain ⟨rfl,hstage⟩ := hclaim cfg nowUS hop
    refine ⟨h.now_nonneg,Int.le_refl _,fun ⟨p,hp,hun⟩ _ => ⟨?_,fun u hu => (h.flight u hu).2.2.1⟩⟩
    rw [hlease] at hp
    refine h.quiet (n := n) hp ?_
    rcases hun with hun | hun
    · exact .inr ⟨hun.trans hnode,by simp [PublisherProcess.Active,hstage]⟩
    · exact .inl hun
  · have hcas := hheart cfg g e fresh a casUS b hop
    refine ⟨hcas ▸ h.now_nonneg,hcas ▸ Int.le_refl _,fun p hp => ?_⟩
    rw [hlease] at hp
    have hnow := h.now_nonneg
    have hpos := c.heartbeat_pos
    have hlt := c.heartbeat_lt
    obtain ⟨-,hexp,-,hle⟩ := h.lease p hp
    rw [hcas]
    omega
  · obtain ⟨hstage,p,hp,hpn⟩ := hrelease cfg g hop
    exact h.quiet hp (.inr ⟨hpn,by simp [PublisherProcess.Active,hstage]⟩)

theorem Fenced.request : Fenced c (step c s (.request n r)) granted := by
  rw [step]
  cases hput : put c s n r with
  | none => exact h
  | some pt => exact (h.send (h.sent_put hput)).setProcess fun hp => ⟨hp,rfl,rfl,rfl⟩

/-- A later generation: the processes of the earlier ones have passed their fences, and what they sent
lands before the new lease can expire. -/
theorem Fenced.next_generation
    (hlease : head.bind publisher = some ⟨n,s.generation+1,granted'⟩) (hpos : 0 < granted')
    (hle : granted' ≤ s.nowUS+c.leaseExpiryUS) (hputs : ∀ pt ∈ puts,pt ∈ s.puts)
    (hflight : ∀ u ∈ s.inflight,u.issuedUS+c.heartbeatIntervalUS < granted')
    (hpassed : ∀ m,(s.processes m).Active → (s.processes m).leaseExpiresAtUS ≤ s.nowUS)
    (hkept : ∀ m,processes m = s.processes m ∨ m = n ∧ (processes m).generation = s.generation+1 ∧ (processes m).leaseExpiresAtUS = granted' ∧ ((processes m).unwaited = false → s.inflight = [])) :
    Fenced c { s with head := head,puts := puts,processes := processes } granted' := by
  have hgen : ({ s with head := head,puts := puts,processes := processes } : Fleet).generation =
      s.generation+1 := by
    change generationOf (head.bind publisher) = _
    rw [hlease]
    rfl
  refine ⟨h.now_nonneg,fun p hp => ?_,fun u hu => ?_,fun m hm => ?_,fun pt hpt => ?_,fun l hl => ?_,
    h.isolated⟩
  · obtain rfl := Option.mem_unique hlease hp
    exact ⟨Nat.le_add_left 1 _,.inr rfl,hpos,hle⟩
  · obtain ⟨hone,hg,hpast,hdue,-⟩ := h.flight u hu
    exact ⟨hone,hgen.symm ▸ Nat.le_succ_of_le hg,hpast,hdue,hflight u hu⟩
  · rcases hkept m with hsame | ⟨rfl,hg,hexp,hun⟩
    · dsimp only at hm ⊢
      rw [hsame] at hm ⊢
      have hheld := h.held m hm
      have hlt := Nat.lt_succ_of_le hheld.generation_le
      exact ⟨hgen.symm ▸ le_of_lt hlt,fun _ => hpassed m hm,
        fun heq => absurd (heq.trans hgen) (Nat.ne_of_lt hlt),hheld.waited⟩
    · dsimp only
      refine ⟨hgen.symm ▸ hg.le,fun hlt => absurd hlt (by rw [hgen,hg]; exact lt_irrefl _),
        fun _ => ⟨Int.le_of_eq hexp,?_⟩,fun hw u hu => absurd (hun hw ▸ hu) not_mem_nil⟩
      rw [hgen]
      exact hlease
  · obtain ⟨hm,hg,hc,hh,hr⟩ := h.sent pt (hputs pt hpt)
    refine ⟨hm,hgen.symm ▸ Nat.le_succ_of_le hg,fun cfg nowUS hop => ?_,hh,fun cfg g hop heq => ?_⟩
    · obtain ⟨h0,h1,-⟩ := hc cfg nowUS hop
      exact ⟨h0,h1,fun _ heq => absurd (heq.trans hgen) (by omega)⟩
    · exact absurd (heq.trans hgen) (by omega)
  · obtain ⟨hg,hu⟩ := h.listed l hl
    exact ⟨hgen.symm ▸ Nat.le_succ_of_le hg,hu⟩

theorem Fenced.flight_of_expired
    (hexp : ∀ p ∈ s.lease,p.expiresAtUS = granted ∧ p.expiresAtUS ≤ nowUS)
    (hnow : nowUS ≤ s.nowUS) : s.inflight = [] := by
  refine eq_nil_iff_forall_not_mem.mpr fun u hu => ?_
  obtain ⟨hone,hg,-,hdue,hlt⟩ := h.flight u hu
  cases hl : s.lease with
  | none =>
    have hzero : s.generation = 0 := by rw [generation,hl]; rfl
    omega
  | some p =>
    obtain ⟨heq,hle⟩ := hexp p hl
    omega

theorem Fenced.land_claim (hpt : Sent c s pt) (hseen : s.head = pt.seen) {cfg : PublisherConfig}
    (hop : pt.op = .claimOrTakeover cfg nowUS)
    (hprev : ∀ p ∈ s.lease,p.nodeID = pt.nodeID ∨ p.expiresAtUS ≤ nowUS) :
    (∀ u ∈ s.inflight,u.issuedUS+c.heartbeatIntervalUS < nowUS+c.leaseExpiryUS) ∧
      (∀ m,(s.processes m).Active → (s.processes m).leaseExpiresAtUS ≤ s.nowUS) ∧
      (¬pt.Unwaited → s.inflight = []) := by
  have hpos := c.heartbeat_pos
  have hlt := c.heartbeat_lt
  have hlease : pt.seen.bind publisher = s.lease := by rw [← hseen]; rfl
  obtain ⟨-,hnow,hquiet⟩ := hpt.claim cfg nowUS hop
  by_cases hun : pt.Unwaited
  · obtain ⟨hq,hu⟩ := hquiet hun (by rw [hlease]; rfl)
    refine ⟨fun u hu' => ?_,fun m hm => (h.held m hm).superseded (hq m hm),fun hn => absurd hun hn⟩
    have hle := hu u hu'
    omega
  · have hexp : ∀ p ∈ s.lease,p.expiresAtUS = granted ∧ p.expiresAtUS ≤ nowUS := by
      intro p hp
      have hout : ¬(p.nodeID = pt.nodeID ∨ p.expiresAtUS = 0) :=
        fun hor => hun ⟨p,hlease.symm ▸ hp,hor⟩
      rw [not_or] at hout
      exact ⟨(h.lease p hp).2.1.resolve_left hout.2,(hprev p hp).resolve_left hout.1⟩
    have hnil := h.flight_of_expired hexp hnow
    refine ⟨fun u hu => absurd (hnil ▸ hu) not_mem_nil,fun m hm => ?_,fun _ => hnil⟩
    have hheld := h.held m hm
    rcases Nat.lt_or_eq_of_le hheld.generation_le with hgen | hgen
    · exact hheld.superseded hgen
    · obtain ⟨hle,hcur⟩ := hheld.current hgen
      obtain ⟨-,hgranted⟩ := hexp _ hcur
      dsimp only at hgranted
      omega

theorem Fenced.takeEffect (hsent : Sent c s pt) (hseen : s.head = pt.seen)
    (hputs : ∀ q ∈ puts,q ∈ s.puts)
    (hprocs : ∀ m,processes m = s.processes m ∨ m = pt.nodeID ∧ processes m = settle (s.processes m) pt) :
    ∃ granted',Fenced c { s with head := some pt.next,puts := puts,processes := processes }
      granted' := by
  have hlease : pt.seen.bind publisher = s.lease := by rw [← hseen]; rfl
  have hmoved := hsent.moved
  rw [hlease] at hmoved
  have hbind : (some pt.next).bind publisher = pt.next.publisher := rfl
  generalize hop : pt.op = op at hmoved
  generalize hnext : pt.next.publisher = next at hmoved
  generalize hprevious : s.lease = prev at hmoved
  cases hmoved with
  | @claim cfg nowUS _ hexp hprev =>
    obtain ⟨hflight,hpassed,hnil⟩ := h.land_claim hsent hseen hop (hprevious ▸ hprev)
    obtain ⟨h0,hnow,-⟩ := hsent.claim cfg nowUS hop
    have hpos := c.heartbeat_pos
    have hlt := c.heartbeat_lt
    have hg : pt.next.generation = s.generation+1 := by
      rw [HEAD.generation,hnext,generation,hprevious]
      rfl
    refine ⟨nowUS+c.leaseExpiryUS,h.next_generation (n := pt.nodeID) ?_ (by omega) (by omega) hputs
      hflight hpassed fun m => ?_⟩
    · rw [hbind,hnext,generation,hprevious]
    · rcases hprocs m with hsame | ⟨rfl,hm⟩
      · exact .inl hsame
      · by_cases hstage : (s.processes pt.nodeID).stage = .claiming
        · rw [settle,hop] at hm
          rw [hm]
          dsimp only
          rw [if_pos hstage]
          exact .inr ⟨rfl,hg,by rw [hexp],fun hun => hnil (by simpa using hun)⟩
        · rw [settle,hop] at hm
          exact .inl (hm.trans (if_neg hstage))
  | @heartbeat cfg g e casUS fresh p hexp hnode hgen hlt =>
    obtain ⟨h0,hcas,hmono⟩ := hsent.heartbeat cfg g e fresh casUS casUS casUS hop
    obtain ⟨hone,hgranted,hpos,-⟩ := h.lease p hprevious
    have hle := hmono p (hlease.trans hprevious)
    have hg : s.generation = p.generation := by
      rw [generation,hprevious]
      rfl
    refine ⟨casUS+c.leaseExpiryUS,h.same_generation (by omega) ?_ ?_ hputs fun m hm => ?_⟩
    · rw [hbind,hnext,hg]
      rfl
    · intro q hq
      rw [hbind,hnext] at hq
      cases hq
      exact ⟨hone,.inr rfl,by omega,by omega⟩
    · have hcurrent : ∀ {m},(s.processes m).Active → (s.processes m).generation = s.generation →
          (some pt.next).bind publisher = some ⟨m,s.generation,casUS+c.leaseExpiryUS⟩ := by
        intro m hm heq
        have hp := ((h.held m hm).current heq).2
        rw [hprevious] at hp
        rw [hbind,hnext,Option.some.inj hp]
      have hsame : ∀ {m},(s.processes m).Active → (s.processes m).generation = s.generation →
          (s.processes m).leaseExpiresAtUS ≤ casUS+c.leaseExpiryUS := by
        intro m hm heq
        have hold := ((h.held m hm).current heq).1
        omega
      rcases hprocs m with hm' | ⟨rfl,hm'⟩
      · rw [hm'] at hm ⊢
        exact ⟨hm,rfl,rfl,fun _ => rfl,fun heq => ⟨hsame hm heq,hcurrent hm heq⟩⟩
      · rw [settle,hop] at hm'
        dsimp only at hm'
        split_ifs at hm' with hown
        · rw [hm'] at hm ⊢
          refine ⟨hm,rfl,rfl,fun hlt => absurd hlt (by omega),fun heq => ⟨?_,hcurrent hm heq⟩⟩
          dsimp only
          omega
        · rw [hm'] at hm ⊢
          exact ⟨hm,rfl,rfl,fun _ => rfl,fun heq => ⟨hsame hm heq,hcurrent hm heq⟩⟩
  | @release cfg g p hnode =>
    obtain ⟨hone,-,hpos,hle⟩ := h.lease p hprevious
    have hg : s.generation = p.generation := by
      rw [generation,hprevious]
      rfl
    have hquiet := hsent.release cfg g hop (by rw [hlease]; rfl)
    have hsame : ∀ m,processes m = s.processes m := by
      intro m
      rcases hprocs m with hsame | ⟨rfl,hm⟩
      · exact hsame
      · rw [hm]
        simp only [settle,hop]
    refine ⟨granted,h.same_generation (Int.le_refl _) ?_ ?_ hputs fun m hm => ?_⟩
    · rw [hbind,hnext,hg]
      rfl
    · intro q hq
      rw [hbind,hnext] at hq
      cases hq
      exact ⟨hone,.inl rfl,hpos,hle⟩
    · rw [hsame m] at hm ⊢
      exact ⟨hm,rfl,rfl,fun _ => rfl,fun heq => absurd (hquiet m hm) (by omega)⟩
  | keep hkeep =>
    have hsame : ∀ m,processes m = s.processes m := by
      intro m
      rcases hprocs m with hsame | ⟨rfl,hm⟩
      · exact hsame
      · rw [hm,hkeep _ pt hop]
    refine ⟨granted,h.same_generation (Int.le_refl _) ?_ ?_ hputs fun m hm => ?_⟩
    · rw [hbind,hnext,generation,hprevious]
    · rw [hbind,hnext,← hprevious]
      exact h.lease
    · rw [hsame m] at hm ⊢
      rw [hbind,hnext,← hprevious]
      exact ⟨hm,rfl,rfl,fun _ => rfl,(h.held m hm).current⟩

theorem Fenced.land {i : ℕ} (hpt : pt ∈ s.puts) (answered : Bool) :
    ∃ granted',Fenced c (land s i pt answered) granted' := by
  have herase : ∀ q ∈ s.puts.eraseIdx i,q ∈ s.puts := fun q => mem_of_mem_eraseIdx
  unfold Fleet.land
  by_cases hseen : s.head = pt.seen
  · rw [if_pos hseen]
    refine h.takeEffect (h.sent pt hpt) hseen herase fun m => ?_
    split_ifs
    · by_cases hm : m = pt.nodeID
      · subst hm
        exact .inr ⟨rfl,update_self _ _ _⟩
      · exact .inl (update_of_ne hm _ _)
    · exact .inl rfl
  · rw [if_neg hseen]
    exact ⟨granted,h.same_generation (Int.le_refl _) rfl h.lease herase fun m hm =>
      ⟨hm,rfl,rfl,fun _ => rfl,(h.held m hm).current⟩⟩

end

/-- An object is counted, unless it starts at or below the baseline in HEAD. -/
theorem le_seedFromBucket {o : Upload} (ho : o ∈ objects) (baseline counter : ℕ) :
    o.minTXID ≤ baseline ∨ o.maxTXID ≤ seedFromBucket o.stream baseline counter objects := by
  rcases Nat.lt_or_ge baseline o.minTXID with hlt | hle
  · exact .inr ((le_foldl_max Upload.maxTXID _ _).2 o (mem_filter.mpr ⟨ho,by simp [hlt]⟩))
  · exact .inl hle

theorem Fenced.list (h : Fenced c s granted) {l : Listing} (hgen : l.generation ≤ s.generation)
    (hflight : ∀ u ∈ s.inflight,l.generation ≤ u.generation)
    (hobj : ∀ o ∈ s.objects,o ∈ l.objects ∧
      (o.minTXID ≤ l.seeded o.stream ∨ o.maxTXID < l.baselineTXID)) :
    Fenced c { s with listings := s.listings++[l] } granted := by
  refine ⟨h.now_nonneg,h.lease,h.flight,fun m hm => ?_,fun pt hpt => ?_,fun q hq => ?_,
    fun q hq o ho hlt => ?_⟩
  · obtain ⟨h1,h2,h3,h4⟩ := h.held m hm
    exact ⟨h1,h2,h3,h4⟩
  · obtain ⟨h1,h2,h3,h4,h5⟩ := h.sent pt hpt
    exact ⟨h1,h2,h3,h4,h5⟩
  · rcases mem_concat.mp hq with hq | rfl
    · exact h.listed q hq
    · exact ⟨hgen,hflight⟩
  · rcases mem_concat.mp hq with hq | rfl
    · exact h.isolated q hq o ho hlt
    · exact hobj o ho

theorem Fenced.seedTXIDCounters (h : Fenced c s granted) (hstage : (s.processes n).stage = .seeding)
    (hw : Waited c s (.seedTXIDCounters n)) : Fenced c (seedTXIDCounters s n) granted := by
  have hactive : (s.processes n).Active := .inl hstage
  have hheld := h.held n hactive
  refine (h.list hheld.generation_le (fun u hu => ?_) fun o ho => ⟨ho,?_⟩).setProcess
    fun _ => ⟨hactive,rfl,rfl,rfl⟩
  · cases hun : (s.processes n).unwaited with
    | false => exact hheld.waited hun u hu
    | true =>
      obtain ⟨-,-,-,hdue,-⟩ := h.flight u hu
      by_contra hlt
      have hlate := hw hun u hu (not_le.mp hlt)
      omega
  · dsimp only
    cases hs : o.stream with
    | app =>
      rcases le_seedFromBucket ho (headBaseline s.head .app) (s.processes n).lastBucketTXID with hle | hle
      · exact .inl hle
      · rw [hs] at hle
        exact .inr (lt_of_le_of_lt hle (lt_of_lt_of_le (Nat.lt_succ_self _) (le_max_left _ _)))
    | metadata =>
      rcases le_seedFromBucket ho (headBaseline s.head .metadata) (s.processes n).metaTXIDCounter
        with hle | hle
      · exact .inl hle
      · rw [hs] at hle
        exact .inr (lt_of_le_of_lt hle (lt_of_lt_of_le (Nat.lt_succ_self _) (le_max_right _ _)))

theorem Fenced.step {a : FleetAction} (h : Fenced c s granted) (ht : Timely c s a) (hw : Waited c s a) :
    ∃ granted',Fenced c (step c s a) granted' := by
  cases a with
  | tick d => exact ⟨granted,h.tick ht⟩
  | start n fresh =>
    refine ⟨granted,?_⟩
    rw [Fleet.step]
    split_ifs
    · exact h.setProcess fun hp => absurd hp (by simp [PublisherProcess.Active])
    · exact h
  | crash n => exact ⟨granted,h.setProcess fun hp => absurd hp (by decide)⟩
  | stop n =>
    refine ⟨granted,?_⟩
    rw [Fleet.step]
    split_ifs
    · exact h.setProcess fun hp => absurd hp (by simp [PublisherProcess.Active])
    · exact h
  | request n r => exact ⟨granted,h.request⟩
  | land i answered =>
    rw [Fleet.step]
    cases hpt : s.puts[i]? with
    | none => exact ⟨granted,h⟩
    | some pt => exact h.land (mem_of_getElem? hpt) answered
  | seedTXIDCounters n =>
    refine ⟨granted,?_⟩
    rw [Fleet.step]
    split_ifs with hstage
    · exact h.seedTXIDCounters hstage hw
    · exact h
  | upload n stream minTXID maxTXID => exact ⟨granted,h.upload⟩
  | effect i =>
    refine ⟨granted,?_⟩
    rw [Fleet.step]
    cases hu : s.inflight[i]? with
    | none => exact h
    | some u =>
      refine h.landed (fun v => mem_of_mem_eraseIdx) fun o ho => ?_
      rcases mem_concat.mp ho with ho | rfl
      · exact .inl ho
      · exact .inr (mem_of_getElem? hu)
  | drop i => exact ⟨granted,h.landed (fun v => mem_of_mem_eraseIdx) fun o ho => .inl ho⟩

/-- In every run in which requests take effect in time and no claim that skips the expiry lists the
bucket too early, every object of an earlier generation was there when a generation listed the
bucket, and sorts below its baseline unless it starts at or below the baseline it found. -/
theorem generation_isolation {c : FleetConfig} {t : ℕ} {as : List FleetAction}
    (h : Permitted (step c) (fun s a => Timely c s a ∧ Waited c s a) (init t) as) :
    (as.foldl (step c) (init t)).Isolated := by
  obtain ⟨granted,hfenced⟩ := h.invariant (I := fun s => ∃ granted,Fenced c s granted)
    (fun s a ⟨granted,hs⟩ ha => hs.step ha.1 ha.2) ⟨0,fenced_init t⟩
  exact hfenced.isolated

end Fleet

namespace FleetSample

open Fleet

def fleet : FleetConfig := ⟨"c",30,10,by decide,by decide⟩
def ref : FileRef := ⟨"db/0009/1-1.ltx",4,"s"⟩

def leads : List FleetAction :=
  [.start "a" false,.request "a" (.resolveClusterID "c"),.land 0 true,.request "a" .claimOrTakeover,
    .land 0 true,.seedTXIDCounters "a",.request "a" (.publishCoupledBaselines 1 ref ref),
    .land 0 true,.tick 5,.upload "a" .app 2 2]

def takesOver : List FleetAction :=
  [.start "b" false,.request "b" .claimOrTakeover,.land 0 true,.seedTXIDCounters "b"]

/-- Node `a` crashes with an upload in flight, and `b` waits for the expiry. -/
def expires : List FleetAction :=
  leads++[.crash "a",.tick 8,.effect 0,.tick 20]++takesOver

theorem expires_isolated :
    Permitted (step fleet) (fun s a => Timely fleet s a ∧ Waited fleet s a) (init 100) expires ∧
      ((expires.foldl (step fleet) (init 100)).listings.map fun l => (l.generation,l.baselineTXID)) =
        [(1,1),(2,3)] ∧
      (expires.foldl (step fleet) (init 100)).Isolated := by
  have hrun : Permitted (step fleet) (fun s a => Timely fleet s a ∧ Waited fleet s a) (init 100)
      expires := by
    decide
  exact ⟨hrun,by decide,generation_isolation hrun⟩

/-- Node `a` shuts down and releases its lease with an upload in flight. -/
def releases : List FleetAction :=
  leads++[.stop "a",.request "a" .releaseLease,.land 0 true,.crash "a"]++takesOver++[.effect 0]

theorem releases_exposes_upload :
    Permitted (step fleet) (Timely fleet) (init 100) releases ∧
      ((releases.foldl (step fleet) (init 100)).listings.map
        fun l => (l.generation,l.objects,l.baselineTXID)) = [(1,[],1),(2,[],2)] ∧
      (releases.foldl (step fleet) (init 100)).objects = [⟨1,.app,2,2,105⟩] ∧
      ¬(releases.foldl (step fleet) (init 100)).Isolated := by
  have hlistings : ((releases.foldl (step fleet) (init 100)).listings.map
      fun l => (l.generation,l.objects,l.baselineTXID)) = [(1,[],1),(2,[],2)] := by
    decide
  have hobjects : (releases.foldl (step fleet) (init 100)).objects = [⟨1,.app,2,2,105⟩] := by
    decide
  refine ⟨by decide,hlistings,hobjects,fun h => ?_⟩
  have hmem : (2,([] : List Upload),2) ∈ ((releases.foldl (step fleet) (init 100)).listings.map
      fun l => (l.generation,l.objects,l.baselineTXID)) := by
    rw [hlistings]
    decide
  obtain ⟨l,hl,heq⟩ := mem_map.mp hmem
  obtain ⟨hgen,hrest⟩ := Prod.mk.inj heq
  have hin := (h l hl ⟨1,.app,2,2,105⟩ (by rw [hobjects]; decide) (by rw [hgen]; decide)).1
  rw [(Prod.mk.inj hrest).1] at hin
  exact absurd hin not_mem_nil

end FleetSample

end Syzy
