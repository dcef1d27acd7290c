import CarbonRelay.Cluster.Replicas
import Mathlib.Logic.Equiv.Basic
import Mathlib.Algebra.Ring.Parity

/-!
# The queues of the servers after a reload

A reload reads the new configuration into a router of its own, and `router_transplant_queues` then
hands the queues of the old router to the servers of the new one. It goes through the clusters that
both have and exchanges the queues of the servers they have in common. A server object belongs to
every cluster that lists it, so a pair of servers is exchanged once for each cluster they share, and
an even number of exchanges leaves each with the queue it had. A queue that servers share can also
come by another way, which is found by following the exchanges backwards (`trace`).
`transplanted_iff` says exactly when a reload hands over all queues.
-/

namespace CarbonRelay

open Function List Option

/-! ## Who holds which queue -/

/-- A queue object: the one `server_new` made for a server, or the one `cluster_new` made for a
cluster, with the number of the router it was made for. -/
inductive QueueId
  | server (gen id : Nat)
  | cluster (gen : Nat) (name : Text)
  deriving DecidableEq, Repr

/-- The router a queue was made for. -/
def QueueId.gen : QueueId → Nat
  | .server gen _ => gen
  | .cluster gen _ => gen

/-- The fields `queue` and `shared_queue` of a server. -/
structure Holding where
  queue : Option QueueId
  sharedQueue : Bool
  deriving DecidableEq, Repr

/-- The queues of all servers and clusters; these are known by the number of their router, and by
the number of the object or the name. -/
structure Queues where
  server : Nat × Nat → Holding
  cluster : Nat × Text → Option QueueId

/-- A router: its number in the order of the reloads, and its clusters. -/
structure Router where
  gen : Nat
  table : ClusterTable

/-- `router.c:132`, the clusters whose servers share a queue. The `queue_size` tested there is the
function of that name, so the test on it always holds. -/
def ClusterType.sharesQueue : ClusterType → Bool
  | .failover | .lb => true
  | _ => false

/-- `router.c:154 router_cluster`. -/
def routerCluster (rtr : ClusterTable) (clname : Text) : Option Cluster :=
  rtr.clusters.find? fun cl => cl.name = clname

/-- `server.c:1498`, the queue of a new server. The server object is made for the first cluster that
lists it, and is given the queue of that cluster, or one of its own. -/
def newHolding (gen : Nat) (rtr : ClusterTable) (id : Nat) : Holding :=
  match rtr.clusters.find? fun cl => cl.servers.any fun s => s.id = id with
  | none => ⟨none, false⟩
  | some cl =>
    if cl.type.sharesQueue then ⟨some (.cluster gen cl.name), true⟩
    else ⟨some (.server gen id), false⟩

/-- `router.c:119 cluster_new`, the queue of a new cluster. -/
def newClusterQueue (gen : Nat) (rtr : ClusterTable) (name : Text) : Option QueueId :=
  match routerCluster rtr name with
  | none => none
  | some cl => if cl.type.sharesQueue then some (.cluster gen name) else none

/-- The queues after a configuration was read into a new router. -/
def Queues.configure (gen : Nat) (rtr : ClusterTable) (Q : Queues) : Queues where
  server s := if s.1 = gen then newHolding gen rtr s.2 else Q.server s
  cluster c := if c.1 = gen then newClusterQueue gen rtr c.2 else Q.cluster c

/-! ## Transplanting -/

/-- `server.c:1917 server_swap_queue`. -/
def serverSwapQueue (l r : Nat × Nat) (H : Nat × Nat → Holding) : Nat × Nat → Holding :=
  update (update H l (H r)) r (H l)

/-- `server.c:572 server_set_shared_queue`. -/
def serverSetSharedQueue (s : Nat × Nat) (q : Option QueueId) (H : Nat × Nat → Holding) :
    Nat × Nat → Holding :=
  if (H s).sharedQueue = true ∧ (H s).queue ≠ q then update H s { H s with queue := q } else H

/-- The comparison of `router_transplant_queues`. -/
def sameServer (ns os : Server) : Bool := ns.ip = os.ip ∧ ns.port = os.port ∧ ns.ctype = os.ctype

/-- One turn of the loop over the servers of a cluster. -/
def transplantServer (new old : Router) (nc oc : Cluster) (Q : Queues) (ns : Server) : Queues :=
  match oc.servers.find? (sameServer ns) with
  | some os => { Q with server := serverSwapQueue (new.gen, ns.id) (old.gen, os.id) Q.server }
  | none =>
    { Q with
      server := serverSetSharedQueue (new.gen, ns.id) (Q.cluster (new.gen, nc.name)) Q.server }

/-- `router.c:2466`, the exchange of the queues of two clusters. -/
def swapClusterQueue (n o : Nat × Text) (Q : Queues) : Queues :=
  { Q with cluster := update (update Q.cluster n (Q.cluster o)) o (Q.cluster n) }

/-- One turn of the loop over the clusters. -/
def transplantCluster (new old : Router) (Q : Queues) (nc : Cluster) : Queues :=
  match routerCluster old.table nc.name with
  | none => Q
  | some oc =>
    if nc.type = oc.type then
      nc.servers.foldl (transplantServer new old nc oc)
        (swapClusterQueue (new.gen, nc.name) (old.gen, oc.name) Q)
    else Q

/-- `router.c:2435 router_transplant_queues`. -/
def routerTransplantQueues (new old : Router) (Q : Queues) : Queues :=
  new.table.clusters.foldl (transplantCluster new old) Q

/-! ## Accepted configurations and reloads -/

/-- The clusters of a configuration that is accepted. -/
inductive Accepted : ClusterTable → Prop
  | empty : Accepted ⟨[], [], 0⟩
  | cluster {hashpos : ChType → Text → Nat}
      {qsort : (ChRingEntry → ChRingEntry → Int) → List ChRingEntry → List ChRingEntry}
      {ntop : AddrInfo → Text} {rtr rtr' : ClusterTable} {name : Text} {type : ClusterType}
      {replcnt : Int} {useall : Bool} {connections : Nat} {hosts : List Clhost} {cl : Cluster} :
      Accepted rtr →
      clusterStatement hashpos qsort ntop rtr name type replcnt useall connections hosts =
        .ok (rtr', cl) →
      Accepted rtr'

/-- The router of a relay and the queues, after any number of reloads. -/
inductive Running : Router → Queues → Prop
  | start {T : ClusterTable} : Accepted T →
      Running ⟨0, T⟩ (Queues.configure 0 T ⟨fun _ => ⟨none, false⟩, fun _ => none⟩)
  | reload {old : Router} {Q : Queues} {T : ClusterTable} : Running old Q → Accepted T →
      Running ⟨old.gen + 1, T⟩
        (routerTransplantQueues ⟨old.gen + 1, T⟩ old (Q.configure (old.gen + 1) T))

/-- The cluster of the old router that a cluster takes its queues from. -/
def Counterpart (old : Router) (nc oc : Cluster) : Prop :=
  routerCluster old.table nc.name = some oc ∧ nc.type = oc.type

/-- The server is in a cluster whose counterpart has a server with the same address. -/
def HasMatch (new old : Router) (id : Nat) : Prop :=
  ∃ nc ∈ new.table.clusters, ∃ oc, Counterpart old nc oc ∧
    ∃ ns ∈ nc.servers, ns.id = id ∧ (oc.servers.find? (sameServer ns)).isSome = true

/-- What the transplantation should achieve, from the queues before and after it. -/
structure Transplanted (new old : Router) (Q Q' : Queues) : Prop where
  matched : ∀ nc ∈ new.table.clusters, ∀ oc, Counterpart old nc oc → ∀ ns ∈ nc.servers, ∀ os,
    oc.servers.find? (sameServer ns) = some os →
      (Q'.server (new.gen, ns.id)).queue = (Q.server (old.gen, os.id)).queue
  other : ∀ nc ∈ new.table.clusters, ∀ ns ∈ nc.servers, ¬ HasMatch new old ns.id →
    (Q'.server (new.gen, ns.id)).queue = (Q.server (new.gen, ns.id)).queue ∨
      ∃ c ∈ new.table.clusters, (∃ s ∈ c.servers, s.id = ns.id) ∧
        (Q'.cluster (new.gen, c.name)).isSome = true ∧
        (Q'.server (new.gen, ns.id)).queue = Q'.cluster (new.gen, c.name)
  single : ∀ s s' q, s ≠ s' → (Q'.server s).sharedQueue = false → (Q'.server s).queue = some q →
    (Q'.server s').queue ≠ some q

/-! ## The servers that are visited -/

/-- One turn of the inner loop: the server of the new router, the server of the old one that it is
exchanged with, and the name of the cluster. -/
structure Visit where
  server : Nat
  partner : Option Nat
  cluster : Text
  deriving DecidableEq, Repr

/-- The visits in one cluster. -/
def clusterVisits (old : Router) (nc : Cluster) : List Visit :=
  match routerCluster old.table nc.name with
  | none => []
  | some oc =>
    if nc.type = oc.type then
      nc.servers.map fun ns => ⟨ns.id, (oc.servers.find? (sameServer ns)).map (·.id), nc.name⟩
    else []

/-- All visits of a transplantation. -/
def visits (new old : Router) : List Visit := new.table.clusters.flatMap (clusterVisits old)

/-- The number of times that the queue of a server is exchanged. -/
def exchanges (vs : List Visit) (id : Nat) : Nat :=
  vs.countP fun v => v.server = id ∧ v.partner.isSome = true

/-- Where the holding that a server has after some visits was before them, and the cluster of the
last visit without a partner that it was there for. -/
def trace (new old : Nat) : List Visit → Nat × Nat → (Nat × Nat) × Option Text
  | [], s => (s, none)
  | v :: vs, s =>
    let t := trace new old vs s
    match v.partner with
    | some p => (Equiv.swap (old, p) (new, v.server) t.1, t.2)
    | none => (t.1, if t.1 = (new, v.server) then t.2.or (some v.cluster) else t.2)

/-- A holding after a visit without a partner, where `C` are the queues of the clusters. -/
def Holding.rejoin (C : Text → Option QueueId) (h : Holding) : Option Text → Holding
  | none => h
  | some c => if h.sharedQueue then ⟨C c, true⟩ else h

/-- There is a queue, and it is not shared. -/
def Holding.OwnsQueue (h : Holding) : Prop := h.sharedQueue = false ∧ h.queue.isSome = true

/-- Two servers are exchanged with each other only, an odd number of times. -/
structure ExchangedOddly (vs : List Visit) (n p : Nat) : Prop where
  only : ∀ w ∈ vs, ∀ p', w.partner = some p' → (w.server = n ↔ p' = p)
  odd : Odd (exchanges vs n)

/-- Followed backwards from a server, the exchanges lead to the queue that another one had. -/
def LeadsBack (new old : Router) (Q : Queues) (n p : Nat) : Prop :=
  let t := trace new.gen old.gen (visits new old) (new.gen, n)
  ((Q.server t.1).rejoin (fun name => Q.cluster (old.gen, name)) t.2).queue =
    (Q.server (old.gen, p)).queue

/-- A server whose partner has a queue of its own is exchanged with it only, an odd number of times,
and for one whose partner shares a queue the exchanges lead back to that queue. -/
structure MeetsPartner (new old : Router) (Q : Queues) (n p : Nat) : Prop where
  own : (Q.server (old.gen, p)).OwnsQueue → ExchangedOddly (visits new old) n p
  shared : ¬ (Q.server (old.gen, p)).OwnsQueue → LeadsBack new old Q n p

/-- A server that shares a queue and has no partner is visited last in a cluster that has a queue.
-/
def RejoinsQueue (new old : Router) (Q : Queues) : Prop :=
  ∀ v, ((visits new old).filter fun w => w.server = v.server).getLast? = some v →
    ¬ HasMatch new old v.server → (Q.server (new.gen, v.server)).sharedQueue = true →
    (Q.cluster (old.gen, v.cluster)).isSome = true

/-! ## One visit -/

section
variable {H : Nat × Nat → Holding} {l r s : Nat × Nat} {q : Option QueueId}

theorem serverSwapQueue_eq (l r : Nat × Nat) (H : Nat × Nat → Holding) :
    serverSwapQueue l r H = fun s => H (Equiv.swap r l s) :=
  (Equiv.comp_swap_eq_update r l H).symm

theorem serverSetSharedQueue_ne (h : s ≠ l) : serverSetSharedQueue l q H s = H s := by
  rw [serverSetSharedQueue]
  split
  · exact update_of_ne h _ _
  · rfl

theorem serverSetSharedQueue_own (h : (H s).sharedQueue = false) :
    serverSetSharedQueue s q H = H := by
  rw [serverSetSharedQueue, if_neg]
  exact fun hshared => Bool.false_ne_true (h.symm.trans hshared.1)

theorem serverSetSharedQueue_shared (h : (H s).sharedQueue = true) :
    serverSetSharedQueue s q H s = ⟨q, true⟩ := by
  rw [serverSetSharedQueue]
  split
  case isTrue =>
    rw [update_self]
    dsimp only
    rw [h]
  case isFalse hsame =>
    have hq : (H s).queue = q := by
      by_contra hne
      exact hsame ⟨h, hne⟩
    rw [← hq, ← h]

/-- A visit, where the clusters visited have got the queues `C` of their counterparts. -/
def Visit.step (new old : Nat) (C : Text → Option QueueId) (H : Nat × Nat → Holding) (v : Visit) :
    Nat × Nat → Holding :=
  match v.partner with
  | some p => serverSwapQueue (new, v.server) (old, p) H
  | none => serverSetSharedQueue (new, v.server) (C v.cluster) H

variable {new old : Nat} {C : Text → Option QueueId} {v : Visit} {n o : Nat}

theorem Visit.step_some (h : v.partner = some o) :
    v.step new old C H = serverSwapQueue (new, v.server) (old, o) H := by
  rw [Visit.step, h]

theorem Visit.step_none (h : v.partner = none) :
    v.step new old C H = serverSetSharedQueue (new, v.server) (C v.cluster) H := by
  rw [Visit.step, h]

/-- What a visit does to one server. -/
theorem Visit.step_apply (v : Visit) (s : Nat × Nat) : v.step new old C H s =
    match v.partner with
    | some p => H (Equiv.swap (old, p) (new, v.server) s)
    | none => if s = (new, v.server) then (H s).rejoin C (some v.cluster) else H s := by
  cases hp : v.partner with
  | some p => rw [Visit.step_some hp, serverSwapQueue_eq]
  | none =>
    rw [Visit.step_none hp]
    dsimp only
    split
    case isTrue hs =>
      rw [hs, Holding.rejoin]
      split
      case isTrue hshared => exact serverSetSharedQueue_shared hshared
      case isFalse hown => rw [serverSetSharedQueue_own (Bool.eq_false_iff.2 hown)]
    case isFalse hs => exact serverSetSharedQueue_ne hs

theorem Holding.rejoin_rejoin (h : Holding) (c : Text) (d : Option Text) :
    (h.rejoin C (some c)).rejoin C d = h.rejoin C (d.or (some c)) := by
  cases d with
  | none => rfl
  | some d =>
    simp only [Holding.rejoin, some_or]
    split <;> simp_all

/-- What a server holds after all visits. -/
theorem foldl_step_eq (vs : List Visit) (H : Nat × Nat → Holding) (s : Nat × Nat) :
    vs.foldl (Visit.step new old C) H s =
      (H (trace new old vs s).1).rejoin C (trace new old vs s).2 := by
  induction vs generalizing H with
  | nil => rfl
  | cons v vs ih =>
    rw [foldl_cons, ih, Visit.step_apply, trace]
    cases v.partner with
    | some p => rfl
    | none =>
      dsimp only
      split
      · rw [Holding.rejoin_rejoin]
      · rfl

/-- Exchanges are undone one by one, so no two servers get the same holding. -/
theorem trace_injective (vs : List Visit) : Injective fun s => (trace new old vs s).1 := by
  induction vs with
  | nil => exact injective_id
  | cons v vs ih =>
    intro s s' h
    refine ih ?_
    dsimp only [trace] at h ⊢
    cases hp : v.partner with
    | some p =>
      rw [hp] at h
      exact (Equiv.swap _ _).injective h
    | none =>
      rw [hp] at h
      exact h

theorem exchanges_cons (v : Visit) (vs : List Visit) (n : Nat) : exchanges (v :: vs) n =
    if v.server = n ∧ v.partner.isSome = true then exchanges vs n + 1 else exchanges vs n := by
  rw [exchanges, countP_cons, exchanges]
  simp only [decide_eq_true_eq]
  split
  · rfl
  · rfl

/-- Two servers that are exchanged with each other only have each other's holding after an odd
number of exchanges, and their own after an even one. -/
theorem trace_pair (hnew : new ≠ old) {vs : List Visit}
    (honly : ∀ v ∈ vs, ∀ p, v.partner = some p → (v.server = n ↔ p = o)) :
    (Odd (exchanges vs n) → (trace new old vs (new, n)).1 = (old, o)) ∧
      (¬ Odd (exchanges vs n) → (trace new old vs (new, n)).1 = (new, n)) := by
  induction vs with
  | nil => exact ⟨fun h => absurd h Nat.not_odd_zero, fun _ => rfl⟩
  | cons v vs ih =>
    obtain ⟨hodd, heven⟩ := ih fun w hw => honly w (mem_cons_of_mem v hw)
    have hcount := exchanges_cons v vs n
    rw [trace]
    cases hp : v.partner with
    | none =>
      rw [hp, if_neg fun h => Bool.false_ne_true h.2] at hcount
      rw [hcount]
      exact ⟨hodd, heven⟩
    | some p =>
      have hpair := honly v mem_cons_self p hp
      dsimp only
      by_cases hn : v.server = n
      · obtain rfl := hpair.1 hn
        rw [hp, if_pos ⟨hn, rfl⟩] at hcount
        rw [hcount, Nat.odd_add_one, not_not, hn]
        refine ⟨fun h => ?_, fun h => ?_⟩
        · rw [heven h]
          exact Equiv.swap_apply_right _ _
        · rw [hodd h]
          exact Equiv.swap_apply_left _ _
      · have ho : p ≠ o := fun h => hn (hpair.2 h)
        rw [if_neg fun h => hn h.1] at hcount
        rw [hcount]
        refine ⟨fun h => ?_, fun h => ?_⟩
        · rw [hodd h]
          exact Equiv.swap_apply_of_ne_of_ne (fun h => ho (Prod.mk.inj h).2.symm)
            fun h => hnew (Prod.mk.inj h).1.symm
        · rw [heven h]
          exact Equiv.swap_apply_of_ne_of_ne (fun h => hnew (Prod.mk.inj h).1)
            fun h => hn (Prod.mk.inj h).2.symm

/-- A server without a partner stays where it is, and was last visited in the cluster of its last
visit. -/
theorem trace_alone (hnew : new ≠ old) {vs : List Visit}
    (halone : ∀ v ∈ vs, v.server = n → v.partner = none) :
    trace new old vs (new, n) =
      ((new, n), ((vs.filter fun v => v.server = n).getLast?).map (·.cluster)) := by
  induction vs with
  | nil => rfl
  | cons v vs ih =>
    rw [trace, ih fun w hw => halone w (mem_cons_of_mem v hw), filter_cons]
    by_cases hn : v.server = n
    · rw [halone v mem_cons_self hn]
      dsimp only
      rw [if_pos (by rw [hn]), if_pos (decide_eq_true hn), getLast?_cons]
      cases (vs.filter fun v => v.server = n).getLast? with
      | none => rfl
      | some w => rfl
    · have hn' : (new, n) ≠ (new, v.server) := fun h => hn (Prod.mk.inj h).2.symm
      have hfilter : ¬ decide (v.server = n) = true := fun h => hn (of_decide_eq_true h)
      rw [if_neg hfilter]
      cases v.partner with
      | none =>
        dsimp only
        rw [if_neg hn']
      | some p =>
        dsimp only
        rw [Equiv.swap_apply_of_ne_of_ne (fun h => hnew (Prod.mk.inj h).1) hn']

end

/-! ## The loops -/

section
variable {new old : Router} {Q : Queues} {nc oc : Cluster} {C : Text → Option QueueId}

theorem transplantServer_cluster (ns : Server) :
    (transplantServer new old nc oc Q ns).cluster = Q.cluster := by
  rw [transplantServer]
  split
  · rfl
  · rfl

theorem foldl_transplantServer_cluster (l : List Server) :
    (l.foldl (transplantServer new old nc oc) Q).cluster = Q.cluster := by
  induction l generalizing Q with
  | nil => rfl
  | cons ns l ih => rw [foldl_cons, ih, transplantServer_cluster]

/-- The loop over the servers of a cluster makes the visits of the cluster. -/
theorem foldl_transplantServer (hC : C nc.name = Q.cluster (new.gen, nc.name)) (l : List Server) :
    (l.foldl (transplantServer new old nc oc) Q).server =
      (l.map fun ns => (⟨ns.id, (oc.servers.find? (sameServer ns)).map (·.id), nc.name⟩ :
        Visit)).foldl (Visit.step new.gen old.gen C) Q.server := by
  induction l generalizing Q with
  | nil => rfl
  | cons ns l ih =>
    rw [foldl_cons, map_cons, foldl_cons, ih]
    · rw [transplantServer, Visit.step]
      cases oc.servers.find? (sameServer ns) with
      | some os => rfl
      | none =>
        dsimp only [map_none]
        rw [hC]
    · rw [transplantServer_cluster, hC]

theorem counterpart_name (h : Counterpart old nc oc) : oc.name = nc.name := by
  have hname := find?_some h.1
  exact of_decide_eq_true hname

theorem transplantCluster_of_counterpart (h : Counterpart old nc oc) :
    transplantCluster new old Q nc = nc.servers.foldl (transplantServer new old nc oc)
      (swapClusterQueue (new.gen, nc.name) (old.gen, nc.name) Q) := by
  rw [transplantCluster, h.1]
  dsimp only
  rw [if_pos h.2, counterpart_name h]

theorem transplantCluster_of_not_counterpart (h : ∀ oc, ¬ Counterpart old nc oc) :
    transplantCluster new old Q nc = Q := by
  rw [transplantCluster]
  split
  case h_1 => rfl
  case h_2 oc hoc => rw [if_neg fun htype => h oc ⟨hoc, htype⟩]

theorem clusterVisits_of_counterpart (h : Counterpart old nc oc) : clusterVisits old nc =
    nc.servers.map fun ns => ⟨ns.id, (oc.servers.find? (sameServer ns)).map (·.id), nc.name⟩ := by
  rw [clusterVisits, h.1]
  dsimp only
  rw [if_pos h.2]

theorem clusterVisits_of_not_counterpart (h : ∀ oc, ¬ Counterpart old nc oc) :
    clusterVisits old nc = [] := by
  rw [clusterVisits]
  split
  case h_1 => rfl
  case h_2 oc hoc => rw [if_neg fun htype => h oc ⟨hoc, htype⟩]

theorem mem_visits {v : Visit} : v ∈ visits new old ↔
    ∃ nc ∈ new.table.clusters, ∃ oc, Counterpart old nc oc ∧ ∃ ns ∈ nc.servers,
      v = ⟨ns.id, (oc.servers.find? (sameServer ns)).map (·.id), nc.name⟩ := by
  rw [visits, mem_flatMap]
  refine exists_congr fun nc => and_congr_right fun _ => ?_
  by_cases h : ∃ oc, Counterpart old nc oc
  · obtain ⟨oc, hoc⟩ := h
    rw [clusterVisits_of_counterpart hoc, List.mem_map]
    refine ⟨fun ⟨ns, hns, hv⟩ => ⟨oc, hoc, ns, hns, hv.symm⟩, ?_⟩
    rintro ⟨oc', hoc', ns, hns, rfl⟩
    obtain rfl := Option.some.inj (hoc.1.symm.trans hoc'.1)
    exact ⟨ns, hns, rfl⟩
  · rw [clusterVisits_of_not_counterpart (not_exists.1 h)]
    exact ⟨nofun, fun ⟨oc, hoc, _⟩ => absurd ⟨oc, hoc⟩ h⟩

/-- The exchange of the queues of a cluster concerns no other name. -/
theorem transplantCluster_cluster_ne {c : Nat × Text} (h : c.2 ≠ nc.name) :
    (transplantCluster new old Q nc).cluster c = Q.cluster c := by
  by_cases hoc : ∃ oc, Counterpart old nc oc
  · obtain ⟨oc, hoc⟩ := hoc
    rw [transplantCluster_of_counterpart hoc, foldl_transplantServer_cluster, swapClusterQueue]
    dsimp only
    rw [update_of_ne fun hc => h (congrArg Prod.snd hc), update_of_ne fun hc =>
      h (congrArg Prod.snd hc)]
  · rw [transplantCluster_of_not_counterpart (not_exists.1 hoc)]

theorem foldl_transplantCluster_cluster_ne {c : Nat × Text} {l : List Cluster}
    (h : ∀ nc ∈ l, c.2 ≠ nc.name) :
    (l.foldl (transplantCluster new old) Q).cluster c = Q.cluster c := by
  induction l generalizing Q with
  | nil => rfl
  | cons nc l ih =>
    rw [foldl_cons, ih fun d hd => h d (mem_cons_of_mem nc hd),
      transplantCluster_cluster_ne (h nc mem_cons_self)]

section
variable (hgen : new.gen ≠ old.gen)
include hgen

/-- The cluster gets the queue of its counterpart. -/
theorem swapClusterQueue_new (name : Text) :
    (swapClusterQueue (new.gen, name) (old.gen, name) Q).cluster (new.gen, name) =
      Q.cluster (old.gen, name) := by
  rw [swapClusterQueue]
  dsimp only
  rw [update_of_ne fun hc => hgen (congrArg Prod.fst hc), update_self]

/-- The loop over the clusters makes all visits, and gives the clusters the queues of their
counterparts. The names of the clusters are different, so the queue a cluster gets is the one that
its counterpart had at the beginning. -/
theorem foldl_transplantCluster {l : List Cluster}
    (hl : (l.map (·.name)).Nodup) (hC : ∀ nc ∈ l, C nc.name = Q.cluster (old.gen, nc.name)) :
    (l.foldl (transplantCluster new old) Q).server =
        (l.flatMap (clusterVisits old)).foldl (Visit.step new.gen old.gen C) Q.server ∧
      ∀ nc ∈ l, ∀ oc, Counterpart old nc oc →
        (l.foldl (transplantCluster new old) Q).cluster (new.gen, nc.name) = C nc.name := by
  induction l generalizing Q with
  | nil => exact ⟨rfl, nofun⟩
  | cons nc l ih =>
    obtain ⟨hnc, hl⟩ := nodup_cons.1 hl
    have hne : ∀ c ∈ l, c.name ≠ nc.name := fun c hc h =>
      hnc (List.mem_map.2 ⟨c, hc, h⟩)
    obtain ⟨hserver, hcluster⟩ := ih (Q := transplantCluster new old Q nc) hl fun c hc => by
      rw [transplantCluster_cluster_ne (hne c hc)]
      exact hC c (mem_cons_of_mem nc hc)
    rw [foldl_cons, flatMap_cons, foldl_append]
    refine ⟨?_, fun c hc oc hoc => ?_⟩
    · rw [hserver]
      by_cases hoc : ∃ oc, Counterpart old nc oc
      · obtain ⟨oc, hoc⟩ := hoc
        rw [transplantCluster_of_counterpart hoc, clusterVisits_of_counterpart hoc,
          foldl_transplantServer]
        · rfl
        · rw [swapClusterQueue_new hgen, hC nc mem_cons_self]
      · rw [transplantCluster_of_not_counterpart (not_exists.1 hoc),
          clusterVisits_of_not_counterpart (not_exists.1 hoc), foldl_nil]
    · rcases mem_cons.1 hc with rfl | hc
      · rw [foldl_transplantCluster_cluster_ne fun d hd => (hne d hd).symm,
          transplantCluster_of_counterpart hoc, foldl_transplantServer_cluster,
          swapClusterQueue_new hgen, hC c mem_cons_self]
      · exact hcluster c hc oc hoc

theorem routerTransplantQueues_server (hnames : (new.table.clusters.map (·.name)).Nodup) :
    (routerTransplantQueues new old Q).server = (visits new old).foldl
      (Visit.step new.gen old.gen fun name => Q.cluster (old.gen, name)) Q.server :=
  (foldl_transplantCluster (C := fun name => Q.cluster (old.gen, name)) hgen hnames
    fun _ _ => rfl).1

theorem routerTransplantQueues_cluster
    (hnames : (new.table.clusters.map (·.name)).Nodup) (hnc : nc ∈ new.table.clusters)
    (hoc : Counterpart old nc oc) : (routerTransplantQueues new old Q).cluster (new.gen, nc.name) =
      Q.cluster (old.gen, nc.name) :=
  (foldl_transplantCluster (C := fun name => Q.cluster (old.gen, name)) hgen hnames
    fun _ _ => rfl).2 nc hnc oc hoc

end

/-! ## What every reload keeps -/

/-- Queues were made for routers before the one of number `b`, and the queue of a server that does
not share one is nobody else's. -/
structure Queues.Good (b : Nat) (Q : Queues) : Prop where
  server : ∀ s q, (Q.server s).queue = some q → q.gen < b
  cluster : ∀ c q, Q.cluster c = some q → q.gen < b
  single : ∀ s s' q, s ≠ s' → (Q.server s).sharedQueue = false → (Q.server s).queue = some q →
    (Q.server s').queue ≠ some q
  own : ∀ s c q, (Q.server s).sharedQueue = false → (Q.server s).queue = some q →
    Q.cluster c ≠ some q

variable {b : Nat}

section
variable (h : Q.Good b)
include h

theorem Queues.Good.swapQueue (l r : Nat × Nat) :
    Queues.Good b { Q with server := serverSwapQueue l r Q.server } := by
  rw [serverSwapQueue_eq]
  exact ⟨fun s => h.server _, h.cluster,
    fun s s' q hne => h.single _ _ q fun heq => hne ((Equiv.swap r l).injective heq),
    fun s => h.own _⟩

theorem Queues.Good.setSharedQueue (s : Nat × Nat) (c : Nat × Text) :
    Queues.Good b { Q with server := serverSetSharedQueue s (Q.cluster c) Q.server } := by
  by_cases hshared : (Q.server s).sharedQueue = true
  · have hof : ∀ t q, (serverSetSharedQueue s (Q.cluster c) Q.server t).queue = some q →
        (t = s ∧ Q.cluster c = some q) ∨ (Q.server t).queue = some q := fun t q hq => by
      by_cases ht : t = s
      · subst ht
        rw [serverSetSharedQueue_shared hshared] at hq
        exact .inl ⟨rfl, hq⟩
      · rw [serverSetSharedQueue_ne ht] at hq
        exact .inr hq
    have hown : ∀ t, (serverSetSharedQueue s (Q.cluster c) Q.server t).sharedQueue = false →
        serverSetSharedQueue s (Q.cluster c) Q.server t = Q.server t := fun t ht => by
      refine serverSetSharedQueue_ne fun hts => ?_
      rw [hts, serverSetSharedQueue_shared hshared] at ht
      exact Bool.false_ne_true ht.symm
    refine ⟨fun t q hq => ?_, h.cluster, fun t t' q hne ht hq hq' => ?_, fun t d q ht hq => ?_⟩
    · rcases hof t q hq with ⟨-, hc⟩ | hq
      · exact h.cluster c q hc
      · exact h.server t q hq
    · have hsame := hown t ht
      dsimp only at ht hq hq'
      rw [hsame] at ht hq
      rcases hof t' q hq' with ⟨-, hc⟩ | hq'
      · exact h.own t c q ht hq hc
      · exact h.single t t' q hne ht hq hq'
    · have hsame := hown t ht
      dsimp only at ht hq
      rw [hsame] at ht hq
      exact h.own t d q ht hq
  · rw [serverSetSharedQueue_own (Bool.eq_false_iff.2 hshared)]
    exact h

theorem Queues.Good.swapClusterQueue (n o : Nat × Text) : (swapClusterQueue n o Q).Good b := by
  rw [CarbonRelay.swapClusterQueue, ← Equiv.comp_swap_eq_update]
  exact ⟨h.server, fun c => h.cluster _, h.single, fun s c => h.own s _⟩

theorem Queues.Good.transplantServer {new old : Router} {nc oc : Cluster}
    (ns : Server) : (transplantServer new old nc oc Q ns).Good b := by
  rw [CarbonRelay.transplantServer]
  split
  · exact h.swapQueue _ _
  · exact h.setSharedQueue _ _

theorem Queues.Good.transplantCluster {new old : Router} (nc : Cluster) :
    (transplantCluster new old Q nc).Good b := by
  rw [CarbonRelay.transplantCluster]
  split
  · exact h
  · split
    · exact foldlRecOn _ _ (h.swapClusterQueue _ _) fun Q hQ ns _ => hQ.transplantServer ns
    · exact h

theorem Queues.Good.routerTransplantQueues (new old : Router) :
    (routerTransplantQueues new old Q).Good b :=
  foldlRecOn _ _ h fun _ hQ nc _ => hQ.transplantCluster nc

end

variable {gen : Nat} {T : ClusterTable}

/-- The queue of a new server is that of its cluster, or its own. -/
theorem newHolding_cases {id : Nat} {q : QueueId} (h : (newHolding gen T id).queue = some q) :
    ((newHolding gen T id).sharedQueue = true ∧ ∃ name, q = .cluster gen name) ∨
      q = .server gen id := by
  rw [newHolding] at h ⊢
  split at h
  case h_1 => cases h
  case h_2 =>
    split at h
    case isTrue hshares =>
      rw [if_pos hshares]
      exact .inl ⟨rfl, _, (Option.some.inj h).symm⟩
    case isFalse => exact .inr (Option.some.inj h).symm

theorem newClusterQueue_eq_some {name : Text} {q : QueueId}
    (h : newClusterQueue gen T name = some q) : q = .cluster gen name := by
  rw [newClusterQueue] at h
  split at h
  case h_1 => cases h
  case h_2 =>
    split at h
    · exact (Option.some.inj h).symm
    · cases h

theorem Queues.configure_server_ne {s : Nat × Nat} (h : s.1 ≠ gen) :
    (Q.configure gen T).server s = Q.server s := if_neg h

theorem Queues.configure_server_self {s : Nat × Nat}
    (h : s.1 = gen) : (Q.configure gen T).server s = newHolding gen T s.2 := if_pos h

/-- The queues of a new router are new. -/
theorem Queues.Good.configure (h : Q.Good b) (T : ClusterTable) :
    (Q.configure b T).Good (b + 1) := by
  have hserver : ∀ s q, ((Q.configure b T).server s).queue = some q →
      (s.1 = b ∧ q.gen = b) ∨ (s.1 ≠ b ∧ q.gen < b) := fun s q hq => by
    by_cases hs : s.1 = b
    · rw [configure_server_self hs] at hq
      rcases newHolding_cases hq with ⟨-, _, rfl⟩ | rfl
      · exact .inl ⟨hs, rfl⟩
      · exact .inl ⟨hs, rfl⟩
    · rw [configure_server_ne hs] at hq
      exact .inr ⟨hs, h.server s q hq⟩
  have hnew : ∀ s q, s.1 = b → ((Q.configure b T).server s).sharedQueue = false →
      ((Q.configure b T).server s).queue = some q → q = .server b s.2 := fun s q hs hown hq => by
    rw [configure_server_self hs] at hown hq
    rcases newHolding_cases hq with ⟨hshared, -⟩ | rfl
    · exact absurd (hown.symm.trans hshared) Bool.false_ne_true
    · rfl
  have hcluster : ∀ c q, (Q.configure b T).cluster c = some q →
      (∃ name, q = .cluster b name) ∨ Q.cluster c = some q := fun c q hq => by
    by_cases hc : c.1 = b
    · exact .inl ⟨c.2, newClusterQueue_eq_some ((if_pos hc).symm.trans hq)⟩
    · exact .inr ((if_neg hc).symm.trans hq)
  refine ⟨fun s q hq => ?_, fun c q hq => ?_, fun s s' q hne hown hq hq' => ?_,
    fun s c q hown hq hc => ?_⟩
  · rcases hserver s q hq with ⟨-, hgen⟩ | ⟨-, hgen⟩
    · omega
    · omega
  · rcases hcluster c q hq with ⟨name, rfl⟩ | hq
    · exact Nat.lt_succ_self b
    · exact Nat.lt_succ_of_lt (h.cluster c q hq)
  · rcases hserver s q hq with ⟨hs, hgen⟩ | ⟨hs, hgen⟩
    · obtain rfl := hnew s q hs hown hq
      rcases hserver s' _ hq' with ⟨hs', -⟩ | ⟨-, hgen'⟩
      · rw [configure_server_self hs'] at hq'
        rcases newHolding_cases hq' with ⟨-, _, heq⟩ | heq
        · cases heq
        · exact hne (Prod.ext (hs.trans hs'.symm) (QueueId.server.inj heq).2)
      · omega
    · rcases hserver s' q hq' with ⟨-, hgen'⟩ | ⟨hs', -⟩
      · omega
      · rw [configure_server_ne hs] at hown hq
        rw [configure_server_ne hs'] at hq'
        exact h.single s s' q hne hown hq hq'
  · rcases hserver s q hq with ⟨hs, -⟩ | ⟨hs, hgen⟩
    · obtain rfl := hnew s q hs hown hq
      rcases hcluster c _ hc with ⟨name, heq⟩ | hc
      · cases heq
      · exact Nat.lt_irrefl _ (h.cluster c _ hc)
    · rcases hcluster c q hc with ⟨name, rfl⟩ | hc
      · exact Nat.lt_irrefl _ hgen
      · rw [configure_server_ne hs] at hown hq
        exact h.own s c q hown hq hc

end

theorem Running.good {rtr : Router} {Q : Queues} (h : Running rtr Q) : Q.Good (rtr.gen + 1) := by
  induction h with
  | start =>
    refine Queues.Good.configure ⟨fun _ _ h => ?_, fun _ _ h => ?_, fun _ _ _ _ _ h => ?_,
      fun _ _ _ _ h => ?_⟩ _
    all_goals cases h
  | reload _ _ ih => exact (ih.configure _).routerTransplantQueues _ _

/-! ## Accepted configurations name their clusters differently -/

section
variable {hashpos : ChType → Text → Nat}
  {qsort : (ChRingEntry → ChRingEntry → Int) → List ChRingEntry → List ChRingEntry}
  {ntop : AddrInfo → Text} {rtr rtr' : ClusterTable} {cl cl' : Cluster}

theorem routerAddServerAt_clusters {ip : Text} {port : Nat} {inst : Option Text} {type : ConType}
    {proto : ConProto} {walk : Option AddrInfo}
    (h : routerAddServerAt hashpos qsort rtr ip port inst type proto walk cl = .ok (rtr', cl')) :
    rtr'.clusters = rtr.clusters := by
  rw [routerAddServerAt] at h
  split at h
  · obtain ⟨_, _, h⟩ := exists_of_bind_eq_ok h
    obtain ⟨_, _, h⟩ := exists_of_bind_eq_ok h
    cases h
    rfl
  · obtain ⟨_, _, h⟩ := exists_of_bind_eq_ok h
    cases h
    rfl

theorem routerAddServerAll_clusters {port : Nat} {inst : Option Text} {type : ConType}
    {proto : ConProto} {saddrs : List AddrInfo} {ip : Text}
    (h : routerAddServerAll hashpos qsort ntop port inst type proto saddrs ip rtr cl =
      .ok (rtr', cl')) : rtr'.clusters = rtr.clusters := by
  induction saddrs generalizing ip rtr cl with
  | nil => cases h; rfl
  | cons walk saddrs ih =>
    rw [routerAddServerAll] at h
    obtain ⟨⟨rtr₁, cl₁⟩, hat, h⟩ := exists_of_bind_eq_ok h
    exact (ih h).trans (routerAddServerAt_clusters hat)

theorem addHosts_clusters {useall : Bool} {hosts : List Clhost}
    (h : addHosts hashpos qsort ntop useall hosts rtr cl = .ok (rtr', cl')) :
    rtr'.clusters = rtr.clusters := by
  induction hosts generalizing rtr cl with
  | nil => cases h; rfl
  | cons host hosts ih =>
    rw [addHosts] at h
    obtain ⟨⟨rtr₁, cl₁⟩, hadd, h⟩ := exists_of_bind_eq_ok h
    refine (ih h).trans ?_
    rw [routerAddServer] at hadd
    split at hadd
    · exact routerAddServerAll_clusters hadd
    · exact routerAddServerAt_clusters hadd

theorem routerAddCluster_nodup (h : routerAddCluster rtr cl = .ok (rtr', cl'))
    (hrtr : (rtr.clusters.map (·.name)).Nodup) : (rtr'.clusters.map (·.name)).Nodup := by
  rw [routerAddCluster] at h
  split at h
  case isTrue => cases h
  case isFalse hname =>
    split at h
    case isTrue => cases h
    case isFalse =>
      cases h
      rw [map_append, map_cons, map_nil, nodup_append]
      refine ⟨hrtr, nodup_singleton _, fun a ha b hb hab => hname ?_⟩
      obtain ⟨cw, hcw, rfl⟩ := List.mem_map.1 ha
      rw [mem_singleton.1 hb] at hab
      exact List.any_eq_true.2 ⟨cw, hcw, decide_eq_true hab⟩

theorem Accepted.nodup {T : ClusterTable} (h : Accepted T) : (T.clusters.map (·.name)).Nodup := by
  induction h with
  | empty => exact nodup_nil
  | cluster _ hstatement ih =>
    rw [clusterStatement] at hstatement
    split at hstatement
    · split at hstatement
      · cases hstatement
      · obtain ⟨⟨rtr₁, cl₁⟩, hadd, h⟩ := exists_of_bind_eq_ok hstatement
        refine routerAddCluster_nodup h ?_
        rw [addHosts_clusters hadd]
        exact ih
    · obtain ⟨⟨rtr₁, cl₁⟩, hadd, h⟩ := exists_of_bind_eq_ok hstatement
      refine routerAddCluster_nodup h ?_
      rw [addHosts_clusters hadd]
      exact ih

end

/-! ## Reloads that keep the queues -/

theorem newHolding_isSome {gen : Nat} {T : ClusterTable} {nc : Cluster} (hnc : nc ∈ T.clusters)
    {ns : Server} (hns : ns ∈ nc.servers) : (newHolding gen T ns.id).queue.isSome = true := by
  rw [newHolding]
  split
  case h_1 hfind =>
    have hnone := List.find?_eq_none.1 hfind nc hnc
    exact absurd (List.any_eq_true.2 ⟨ns, hns, by simp⟩) hnone
  case h_2 =>
    split
    · rfl
    · rfl

section
variable {new old : Router} {Q : Queues} {n : Nat}

theorem hasMatch_iff : HasMatch new old n ↔
    ∃ v ∈ visits new old, v.server = n ∧ v.partner.isSome = true := by
  constructor
  · rintro ⟨nc, hnc, oc, hoc, ns, hns, hid, hmatch⟩
    refine ⟨_, mem_visits.2 ⟨nc, hnc, oc, hoc, ns, hns, rfl⟩, hid, ?_⟩
    rw [isSome_map]
    exact hmatch
  · rintro ⟨v, hv, hid, hmatch⟩
    obtain ⟨nc, hnc, oc, hoc, ns, hns, rfl⟩ := mem_visits.1 hv
    rw [isSome_map] at hmatch
    exact ⟨nc, hnc, oc, hoc, ns, hns, hid, hmatch⟩

/-- A new server has a queue. -/
theorem configured_isSome {gen : Nat} {T : ClusterTable} {nc : Cluster} (hnc : nc ∈ T.clusters)
    {ns : Server} (hns : ns ∈ nc.servers) :
    ((Q.configure gen T).server (gen, ns.id)).queue.isSome = true := by
  rw [Queues.configure_server_self (s := (gen, ns.id)) rfl]
  exact newHolding_isSome hnc hns

section
variable (hgen : new.gen ≠ old.gen) (hnames : (new.table.clusters.map (·.name)).Nodup)
include hgen hnames

/-- The queue of a server after a reload. -/
theorem queue_traced (s : Nat × Nat) :
    let t := trace new.gen old.gen (visits new old) s
    (routerTransplantQueues new old Q).server s =
      (Q.server t.1).rejoin (fun name => Q.cluster (old.gen, name)) t.2 := by
  rw [routerTransplantQueues_server hgen hnames, foldl_step_eq]

/-- A queue of an old server's own is found where the exchanges lead back to that server. -/
theorem traced_of_queue (hgood : Q.Good b) {s s' : Nat × Nat} (hown : (Q.server s').OwnsQueue)
    (heq : ((routerTransplantQueues new old Q).server s).queue = (Q.server s').queue) :
    (trace new.gen old.gen (visits new old) s).1 = s' := by
  obtain ⟨q, hq⟩ := isSome_iff_exists.1 hown.2
  rw [queue_traced hgen hnames, hq] at heq
  have hkept : (Q.server (trace new.gen old.gen (visits new old) s).1).queue = some q := by
    cases hlast : (trace new.gen old.gen (visits new old) s).2 with
    | none =>
      rw [hlast] at heq
      exact heq
    | some c =>
      rw [hlast, Holding.rejoin] at heq
      split at heq
      · exact absurd heq (hgood.own s' _ q hown.1 hq)
      · exact heq
  by_contra hne
  exact hgood.single s' _ q (Ne.symm hne) hown.1 hq hkept

/-- When the servers with partners have the queues of these. -/
theorem matched_iff (hgood : Q.Good b) :
    (∀ v ∈ visits new old, ∀ p, v.partner = some p →
      ((routerTransplantQueues new old Q).server (new.gen, v.server)).queue =
        (Q.server (old.gen, p)).queue) ↔
    ∀ v ∈ visits new old, ∀ p, v.partner = some p → MeetsPartner new old Q v.server p := by
  have hleads : ∀ n p, ((routerTransplantQueues new old Q).server (new.gen, n)).queue =
      (Q.server (old.gen, p)).queue ↔ LeadsBack new old Q n p := by
    intro n p
    rw [queue_traced hgen hnames, LeadsBack]
  constructor
  · refine fun h v hv p hp => ⟨fun hown => ?_, fun _ => (hleads _ _).1 (h v hv p hp)⟩
    obtain ⟨q, hq⟩ := isSome_iff_exists.1 hown.2
    have hback := fun w hw hwp => traced_of_queue hgen hnames hgood hown (h w hw p hwp)
    have honly : ∀ w ∈ visits new old, ∀ p', w.partner = some p' →
        (w.server = v.server ↔ p' = p) := by
      refine fun w hw p' hp' => ⟨fun hserver => ?_, ?_⟩
      · by_contra hne
        have hqueue := h w hw p' hp'
        rw [hserver, h v hv p hp, hq] at hqueue
        exact hgood.single _ _ q (fun heq => hne (Prod.mk.inj heq).2.symm) hown.1 hq hqueue.symm
      · rintro rfl
        have hsame := trace_injective (visits new old) ((hback w hw hp').trans (hback v hv hp).symm)
        exact (Prod.mk.inj hsame).2
    refine ⟨honly, ?_⟩
    by_contra heven
    have hself := (trace_pair hgen honly).2 heven
    rw [hback v hv hp] at hself
    exact hgen (Prod.mk.inj hself).1.symm
  · intro h v hv p hp
    by_cases hown : (Q.server (old.gen, p)).OwnsQueue
    · obtain ⟨honly, hodd⟩ := (h v hv p hp).own hown
      rw [queue_traced hgen hnames, (trace_pair hgen honly).1 hodd]
      cases (trace new.gen old.gen (visits new old) (new.gen, v.server)).2 with
      | none => rfl
      | some c => rw [Holding.rejoin, if_neg (Bool.eq_false_iff.1 hown.1)]
    · exact (hleads _ _).2 ((h v hv p hp).shared hown)

/-- When a server without a partner has its own queue or that of a cluster. -/
theorem queue_other_iff (hmatch : ¬ HasMatch new old n)
    (hsome : (Q.server (new.gen, n)).queue.isSome = true) :
    (((routerTransplantQueues new old Q).server (new.gen, n)).queue =
      (Q.server (new.gen, n)).queue ∨ ∃ c ∈ new.table.clusters, (∃ s ∈ c.servers, s.id = n) ∧
        ((routerTransplantQueues new old Q).cluster (new.gen, c.name)).isSome = true ∧
        ((routerTransplantQueues new old Q).server (new.gen, n)).queue =
          (routerTransplantQueues new old Q).cluster (new.gen, c.name)) ↔
      ∀ v, ((visits new old).filter fun w => w.server = n).getLast? = some v →
        (Q.server (new.gen, n)).sharedQueue = true → (Q.cluster (old.gen, v.cluster)).isSome =
          true := by
  have halone : ∀ v ∈ visits new old, v.server = n → v.partner = none := fun v hv hn => by
    by_contra hp
    exact hmatch (hasMatch_iff.2 ⟨v, hv, hn, isSome_iff_ne_none.2 hp⟩)
  rw [queue_traced hgen hnames, trace_alone hgen halone]
  cases hlast : ((visits new old).filter fun w => w.server = n).getLast? with
  | none => exact iff_of_true (.inl rfl) nofun
  | some v =>
    dsimp only [map_some, Holding.rejoin]
    by_cases hshared : (Q.server (new.gen, n)).sharedQueue = true
    · rw [if_pos hshared]
      dsimp only
      constructor
      · rintro hkept w hw -
        cases hw
        rcases hkept with hsame | ⟨c, -, -, hsome', hsame⟩
        · rw [hsame]
          exact hsome
        · rw [hsame]
          exact hsome'
      · intro hkept
        have hv := mem_filter.1 (mem_of_getLast? hlast)
        obtain ⟨nc, hnc, oc, hoc, ns, hns, rfl⟩ := mem_visits.1 hv.1
        refine .inr ⟨nc, hnc, ⟨ns, hns, of_decide_eq_true hv.2⟩, ?_, ?_⟩
        · rw [routerTransplantQueues_cluster hgen hnames hnc hoc]
          exact hkept _ rfl hshared
        · rw [routerTransplantQueues_cluster hgen hnames hnc hoc]
    · rw [if_neg hshared]
      exact iff_of_true (.inl rfl) fun _ _ h => absurd h hshared

end

/-- When a reload transplants the queues: a server whose partner has a queue of its own must be
exchanged with it only, an odd number of times, the exchanges must lead from other servers with
partners back to the queues of these, and a server that shares a queue and is new must not be left
without one. -/
theorem transplanted_iff (hrun : Running old Q) (hnew : Accepted new.table)
    (hgen : new.gen = old.gen + 1) :
    Transplanted new old (Q.configure new.gen new.table)
        (routerTransplantQueues new old (Q.configure new.gen new.table)) ↔
      (∀ v ∈ visits new old, ∀ p, v.partner = some p →
        MeetsPartner new old (Q.configure new.gen new.table) v.server p) ∧
      RejoinsQueue new old (Q.configure new.gen new.table) := by
  have hgen' : new.gen ≠ old.gen := by omega
  have hgood : (Q.configure new.gen new.table).Good (new.gen + 1) := by
    refine Queues.Good.configure ?_ _
    rw [hgen]
    exact hrun.good
  rw [← matched_iff hgen' hnew.nodup hgood]
  constructor
  · refine fun h => ⟨fun v hv p hp => ?_, fun v hlast hmatch => ?_⟩
    · obtain ⟨nc, hnc, oc, hoc, ns, hns, rfl⟩ := mem_visits.1 hv
      obtain ⟨os, hos, rfl⟩ := map_eq_some_iff.1 hp
      exact h.matched nc hnc oc hoc ns hns os hos
    · have hv := (mem_filter.1 (mem_of_getLast? hlast)).1
      obtain ⟨nc, hnc, oc, hoc, ns, hns, rfl⟩ := mem_visits.1 hv
      refine (queue_other_iff hgen' hnew.nodup hmatch (configured_isSome hnc hns)).1 ?_ _ hlast
      exact h.other nc hnc ns hns hmatch
  · rintro ⟨hmatched, hrejoin⟩
    refine ⟨fun nc hnc oc hoc ns hns os hos => ?_, fun nc hnc ns hns hmatch => ?_,
      (hgood.routerTransplantQueues _ _).single⟩
    · refine hmatched _ (mem_visits.2 ⟨nc, hnc, oc, hoc, ns, hns, rfl⟩) os.id ?_
      dsimp only
      rw [hos]
      rfl
    · refine (queue_other_iff hgen' hnew.nodup hmatch (configured_isSome hnc hns)).2 ?_
      intro v hlast
      have hid := of_decide_eq_true (mem_filter.1 (mem_of_getLast? hlast)).2
      rw [← hid] at hlast hmatch ⊢
      exact hrejoin v hlast hmatch

/-- Forward clusters of one and the same server. -/
def commonServer (names : List Text) : ClusterTable where
  srvrs := [⟨Server.tcp 0 ['h'] 2003, names.length⟩]
  clusters := names.map fun name => ⟨name, .forward, 1, 0, none, [Server.tcp 0 ['h'] 2003]⟩
  nextId := 1

/-- The statement for a forward cluster of that server. -/
def addCommonServer (rtr : ClusterTable) (name : Text) : Except Text (ClusterTable × Cluster) :=
  clusterStatement (fun _ key => key.length) insertSort (fun _ => []) rtr name .forward 0 false 1
    [⟨['h'], 2003, none, .linemode, .tcp, []⟩]

theorem accepted_one : Accepted (commonServer [['a']]) := by
  have hstatement : addCommonServer ⟨[], [], 0⟩ ['a'] = .ok (commonServer [['a']], _) := rfl
  exact Accepted.empty.cluster hstatement

theorem accepted_two : Accepted (commonServer [['a'], ['b']]) := by
  have hstatement : addCommonServer (commonServer [['a']]) ['b'] =
      .ok (commonServer [['a'], ['b']], _) := rfl
  exact accepted_one.cluster hstatement

/-- Both configurations have one cluster, of one server. -/
theorem transplanted_one : ∃ (new old : Router) (Q : Queues), Running old Q ∧ Accepted new.table ∧
    visits new old = [⟨0, some 0, ['a']⟩] ∧ Transplanted new old (Q.configure new.gen new.table)
      (routerTransplantQueues new old (Q.configure new.gen new.table)) := by
  refine ⟨⟨1, commonServer [['a']]⟩, ⟨0, commonServer [['a']]⟩, _, .start accepted_one,
    accepted_one, rfl, ?_⟩
  have hone : ∀ v ∈ visits ⟨1, commonServer [['a']]⟩ ⟨0, commonServer [['a']]⟩,
      v = ⟨0, some 0, ['a']⟩ := fun v hv => mem_singleton.1 hv
  refine (transplanted_iff (.start accepted_one) accepted_one rfl).2 ⟨fun v hv p hp => ?_, ?_⟩
  · obtain rfl := hone v hv
    cases hp
    refine ⟨fun _ => ⟨fun w hw p' hp' => ?_, by decide⟩, fun hown => absurd ⟨rfl, rfl⟩ hown⟩
    obtain rfl := hone w hw
    cases hp'
    exact iff_of_true rfl rfl
  · intro v hlast hmatch
    have hv := (mem_filter.1 (mem_of_getLast? hlast)).1
    obtain rfl := hone v hv
    exact absurd (hasMatch_iff.2 ⟨_, hv, rfl, rfl⟩) hmatch

/-- Both configurations have the same two clusters, and these have a server in common. Its queue is
exchanged for each of them, so the reload leaves it with the new, empty one. -/
theorem shared_server_keeps_new_queue : ∃ (new old : Router) (Q : Queues), Running old Q ∧
    Accepted new.table ∧ new.table = old.table ∧ new.gen = old.gen + 1 ∧
    ((routerTransplantQueues new old (Q.configure new.gen new.table)).server (new.gen, 0)).queue =
      some (.server new.gen 0) ∧ ¬ Transplanted new old (Q.configure new.gen new.table)
      (routerTransplantQueues new old (Q.configure new.gen new.table)) := by
  refine ⟨⟨1, commonServer [['a'], ['b']]⟩, ⟨0, commonServer [['a'], ['b']]⟩, _,
    .start accepted_two, accepted_two, rfl, rfl, by decide, fun h => ?_⟩
  have hqueue := h.matched _ mem_cons_self _ ⟨rfl, rfl⟩ _ mem_cons_self _ rfl
  exact absurd hqueue (by decide)

end

end CarbonRelay
