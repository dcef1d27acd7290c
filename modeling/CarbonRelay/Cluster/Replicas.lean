import CarbonRelay.Cluster.Basic
import CarbonRelay.ConsistentHash.Fill
import CarbonRelay.ConsistentHash.Jump

/-!
# The replicas of an accepted cluster

A `cluster` statement that is accepted leaves a ring filled with all listed servers
(`clusterStatement_ring`), and its replication factor is at most their number. That check counts
list entries. The lookup in a ring of `carbon_ch` or `fnv1a_ch` needs as many different servers as
replicas among the entries that are left after the overwriting of duplicates, and goes round for
ever without them; that of `jump_fnv1a_ch` always fills its slots, with different servers when the
listed ones are (`selectsReplicas_iff`).
-/

namespace CarbonRelay

open List

variable {hashpos : ChType → Text → Nat}
  {qsort : (ChRingEntry → ChRingEntry → Int) → List ChRingEntry → List ChRingEntry}
  {ntop : AddrInfo → Text} {rtr rtr' : ClusterTable} {cl cl' : Cluster} {ch : ChType}

/-- The parts of a computation that succeeds. -/
theorem exists_of_bind_eq_ok {ε α β : Type} {x : Except ε α} {f : α → Except ε β} {b : β}
    (h : x >>= f = .ok b) : ∃ a, x = .ok a ∧ f a = .ok b := by
  cases x with
  | error e => cases h
  | ok a => exact ⟨a, rfl, h⟩

/-! ## What an accepted statement leaves -/

/-- A server that is added to a consistent-hash cluster gets into its list and its ring. -/
theorem addToCluster_ch (hch : cl.type.chType = some ch) {ip : Text} {port : Nat} {s : ServersEntry}
    (h : addToCluster hashpos qsort ip port s cl = .ok cl') :
    ∃ ring, cl.ring = some ring ∧ cl' = { cl with
      servers := cl.servers ++ [s.server], ring :=
  some (chAddnode hashpos qsort ring s.server) } := by
  rw [addToCluster] at h
  cases htype : cl.type <;> rw [htype] at hch h <;> simp only [ClusterType.chType] at hch h <;>
    cases hch
  all_goals
    cases hring : cl.ring with
    | none => rw [hring] at h; cases h
    | some ring =>
      rw [hring] at h
      cases h
      exact ⟨ring, rfl, rfl⟩

/-- `router_add_server` puts one object into a consistent-hash cluster. -/
theorem routerAddServer_ch (hch : cl.type.chType = some ch) {host : Clhost}
    (h : routerAddServer hashpos qsort ntop false rtr cl host = .ok (rtr', cl')) :
    ∃ (s : Server) (ring : ChRing), cl.ring = some ring ∧ cl' = { cl with
      servers := cl.servers ++ [s], ring := some (chAddnode hashpos qsort ring s) } := by
  rw [routerAddServer, if_neg Bool.false_ne_true, routerAddServerAt] at h
  split at h
  · obtain ⟨_, _, h⟩ := exists_of_bind_eq_ok h
    obtain ⟨cl₁, hadd, h⟩ := exists_of_bind_eq_ok h
    cases h
    obtain ⟨ring, hring, rfl⟩ := addToCluster_ch hch hadd
    exact ⟨_, ring, hring, rfl⟩
  · obtain ⟨cl₁, hadd, h⟩ := exists_of_bind_eq_ok h
    cases h
    obtain ⟨ring, hring, rfl⟩ := addToCluster_ch hch hadd
    exact ⟨_, ring, hring, rfl⟩

variable {ring : ChRing}

/-- Adding the hosts of a consistent-hash cluster fills its ring. -/
theorem addHosts_ch {hosts : List Clhost} (hch : cl.type.chType = some ch)
    (hring : cl.ring = some ring)
    (h : addHosts hashpos qsort ntop false hosts rtr cl = .ok (rtr', cl')) :
    ∃ servers : List Server, servers.length = hosts.length ∧ cl' = { cl with
      servers := cl.servers ++ servers
      ring := some (servers.foldl (chAddnode hashpos qsort) ring) } := by
  induction hosts generalizing rtr cl ring with
  | nil =>
    cases h
    exact ⟨[], rfl, by rw [append_nil, foldl_nil, ← hring]⟩
  | cons host hosts ih =>
    obtain ⟨⟨rtr₁, cl₁⟩, hadd, h⟩ := exists_of_bind_eq_ok h
    obtain ⟨s, ring₁, hring₁, rfl⟩ := routerAddServer_ch hch hadd
    obtain rfl : ring = ring₁ := Option.some.inj (hring.symm.trans hring₁)
    obtain ⟨servers, hlen, rfl⟩ := ih (by exact hch) (by rfl) h
    refine ⟨s :: servers, by rw [length_cons, hlen, length_cons], ?_⟩
    rw [foldl_cons, append_assoc, singleton_append]

/-- A consistent-hash cluster that the configuration accepts has its ring filled with the listed
servers, which are at least as many as the replicas. -/
theorem clusterStatement_ring {name : Text} {type : ClusterType} {replcnt : Int} {useall : Bool}
    {connections : Nat} {hosts : List Clhost} (hch : type.chType = some ch)
    (h : clusterStatement hashpos qsort ntop rtr name type replcnt useall connections hosts =
      .ok (rtr', cl)) :
    ∃ ring, cl.ring = some ring ∧ chRing hashpos qsort ch cl.servers = some ring ∧
      1 ≤ cl.replFactor ∧ cl.replFactor ≤ cl.servers.length := by
  simp only [clusterStatement, hch] at h
  split at h
  · cases h
  next hrepl =>
  obtain ⟨⟨rtr₁, cl₁⟩, hadd, h⟩ := exists_of_bind_eq_ok h
  simp only [routerAddCluster] at h
  split at h
  · cases h
  split at h
  · cases h
  next hcount =>
  cases h
  cases hring : chNew ch hosts.length with
  | none =>
    rw [hring] at hadd
    cases hosts with
    | nil => cases hadd; simp [hch] at hcount; omega
    | cons host hosts =>
      obtain ⟨⟨rtr₂, cl₂⟩, hadd, _⟩ := exists_of_bind_eq_ok hadd
      obtain ⟨s, ring, hring', _⟩ := routerAddServer_ch hch hadd
      cases hring'
  | some ring =>
    rw [hring] at hadd
    obtain ⟨servers, hlen, rfl⟩ := addHosts_ch hch rfl hadd
    simp only [hch, Option.isSome_some, true_and, Nat.not_lt, nil_append] at hcount ⊢
    refine ⟨_, rfl, ?_, by omega, hcount⟩
    rw [chRing, hlen, hring, Option.map_some]

/-! ## The selection -/

/-- For every metric the lookup ends and fills exactly `r` slots with different servers. -/
def SelectsReplicas (hashpos : ChType → Text → Nat) (ring : ChRing) (r : Nat) : Prop :=
  ∀ past metric, ∃ ret, ChReturns hashpos past ring r metric ret ∧ ret.length = r ∧ ret.Nodup

/-- The selection in a completed ring needs, and only needs, enough servers among the entries. -/
theorem selectsReplicas_ring {r : Nat} (ht : ring.type ≠ .jumpFnv1a)
    (hc : Completed ring.entrylist) :
    SelectsReplicas hashpos ring r ↔ r ≤ (ring.entrylist.map (·.server)).dedup.length := by
  constructor
  · intro h
    obtain ⟨ret, hret, hlen, _⟩ := h 0 []
    obtain ⟨rfl, _⟩ := (chReturns_iff ht hc).1 hret
    exact length_chNodes_eq_iff.1 hlen
  · intro h past metric
    have hlen : (chNodes ring.entrylist (hashpos ring.type metric) r).length = r :=
      length_chNodes_eq_iff.2 h
    exact ⟨_, chReturns_chNodes past ht hc hlen, hlen, nodup_takeDistinct nodup_nil⟩

/-- The entries of a jump hash are the listed servers in some order: their positions differ, so none
is overwritten. -/
theorem map_server_chRing_jump (hq : Sorts qsort) {servers : List Server} (hne : servers ≠ [])
    (h : chRing hashpos qsort .jumpFnv1a servers = some ring) :
    (ring.entrylist.map (·.server)).Perm servers := by
  obtain ⟨_, rfl⟩ := (chRing_eq_some_iff hne).1 h
  have hperm := hq.perm ChType.jumpFnv1a.entrycmp (chEntriesFrom hashpos .jumpFnv1a 0 servers)
  have hnodup := (hperm.map (·.pos)).nodup_iff.2 (map_pos_chEntriesFrom 0 servers ▸ nodup_range')
  rw [overwriteDuplicates_eq_self hnodup]
  exact (hperm.map (·.server)).trans (.of_eq (map_server_chEntriesFrom hashpos 0 servers))

/-- The selection by a jump hash returns servers from different places of the list. -/
theorem chReturns_jump (hq : Sorts qsort) {servers : List Server} (hne : servers ≠ [])
    (h : chRing hashpos qsort .jumpFnv1a servers = some ring) {r : Nat} (hr : 1 ≤ r)
    (hle : r ≤ servers.length) (past : Nat) (metric : Text) :
    ∃ ret rest, (∀ ret', ChReturns hashpos past ring r metric ret' ↔ ret' = ret) ∧
      ret.length = r ∧ (ret ++ rest).Perm servers := by
  have hservers := map_server_chRing_jump hq hne h
  have hlen : ring.entrylist.length = servers.length := by
    rw [← hservers.length_eq, length_map]
  have hmax : servers.length ≤ 64 := ((chRing_eq_some_iff hne).1 h).1
  obtain ⟨ret, rest, hret, hlen', hperm⟩ := exists_jumpSelect ring.entrylist.length r
    (Fnv1a.hash64 metric) (ring.entrylist.map (·.server)) hr (by omega) (by rw [length_map])
  rw [← length_map (·.server), take_length] at hperm
  have hget : ∀ fuel, chGetNodes hashpos past fuel ring r metric = some ret := fun fuel => by
    rw [chGetNodes]
    simp only [type_chRing hne h]
    exact hret
  refine ⟨ret, rest, fun ret' => ⟨fun h => ?_, fun h => ⟨0, fun fuel _ => h ▸ hget fuel⟩⟩,
    by omega, hperm.trans hservers⟩
  obtain ⟨fuel, h⟩ := h
  exact (Option.some.inj ((hget fuel).symm.trans (h fuel (Nat.le_refl _)))).symm

/-- When an accepted cluster selects its replicas. For `carbon_ch` and `fnv1a_ch` the entries of the
ring must show enough different servers, and then it does for every metric. For `jump_fnv1a_ch` it
is enough that the listed servers are different, and at least as many must be as there are replicas.
-/
theorem selectsReplicas_iff (hashpos : ChType → Text → Nat) (ntop : AddrInfo → Text)
    (hq : Sorts qsort) (rtr rtr' : ClusterTable) (name : Text) (type : ClusterType) (ch : ChType)
    (hch : type.chType = some ch) (replcnt : Int) (useall : Bool) (connections : Nat)
    (hosts : List Clhost) (cl : Cluster)
    (h : clusterStatement hashpos qsort ntop rtr name type replcnt useall connections hosts =
      .ok (rtr', cl)) :
    ∃ ring, cl.ring = some ring ∧
      (ch ≠ .jumpFnv1a → (SelectsReplicas hashpos ring cl.replFactor ↔
        cl.replFactor ≤ (ring.entrylist.map (·.server)).dedup.length)) ∧
      (ch = .jumpFnv1a → cl.servers.Nodup ∨ cl.replFactor = 1 →
        SelectsReplicas hashpos ring cl.replFactor) ∧
      (ch = .jumpFnv1a → SelectsReplicas hashpos ring cl.replFactor →
        cl.replFactor ≤ cl.servers.dedup.length) := by
  obtain ⟨ring, hring, hfill, hone, hle⟩ := clusterStatement_ring hch h
  have hne : cl.servers ≠ [] := ne_nil_of_length_pos (by omega)
  refine ⟨ring, hring, fun ht => ?_, fun ht hdistinct past metric => ?_, fun ht hsel => ?_⟩
  · exact selectsReplicas_ring (type_chRing hne hfill ▸ ht) (completed_chRing ht hq hne hfill)
  · subst ht
    obtain ⟨ret, rest, hret, hlen, hperm⟩ := chReturns_jump hq hne hfill hone hle past metric
    refine ⟨ret, (hret ret).2 rfl, hlen, ?_⟩
    rcases hdistinct with hnodup | hr
    · exact (nodup_append.1 (hperm.nodup_iff.2 hnodup)).1
    · obtain ⟨s, rfl⟩ := length_eq_one_iff.1 (hr ▸ hlen)
      exact nodup_singleton s
  · subst ht
    obtain ⟨ret, rest, hret, _, hperm⟩ := chReturns_jump hq hne hfill hone hle 0 []
    obtain ⟨ret', hret', hlen, hnodup⟩ := hsel 0 []
    obtain rfl := (hret ret').1 hret'
    have hsub : ret' ⊆ cl.servers.dedup := fun s hs =>
      mem_dedup.2 (hperm.subset (mem_append_left rest hs))
    exact hlen ▸ (subperm_of_subset hnodup hsub).length_le

/-- Two hosts of a `jump_fnv1a_ch` cluster, and two replicas. -/
theorem selectsReplicas_two : ∃ rtr' cl ring,
    clusterStatement (fun _ key => key.length) insertSort (fun _ => []) ⟨[], [], 0⟩ ['c'] .jumpCh 2
      false 1 [⟨['a'], 2003, none, .linemode, .tcp, []⟩, ⟨['b'], 2003, none, .linemode, .tcp, []⟩] =
        .ok (rtr', cl) ∧ cl.ring = some ring ∧
      SelectsReplicas (fun _ key => key.length) ring cl.replFactor := by
  obtain ⟨ring, hring, _, hjump, _⟩ := selectsReplicas_iff (fun _ key => key.length) (fun _ => [])
    .insertSort ⟨[], [], 0⟩ _ ['c'] .jumpCh .jumpFnv1a rfl 2 false 1
    [⟨['a'], 2003, none, .linemode, .tcp, []⟩, ⟨['b'], 2003, none, .linemode, .tcp, []⟩] _ rfl
  exact ⟨_, _, ring, rfl, hring, hjump rfl (.inl (by decide))⟩

/-- A host listed twice is one server object, but counts twice in the check of the replication
count: the lookup of two replicas never returns, for any metric. -/
theorem duplicate_host_never_returns : ∃ rtr' cl ring,
    clusterStatement (fun _ key => key.length) insertSort (fun _ => []) ⟨[], [], 0⟩
      ['c'] .carbonCh 2
      false 1 [⟨['a'], 2003, none, .linemode, .tcp, []⟩, ⟨['a'], 2003, none, .linemode, .tcp, []⟩] =
        .ok (rtr', cl) ∧ cl.ring = some ring ∧ cl.replFactor = 2 ∧
      ∀ past fuel metric, chGetNodes (fun _ key => key.length) past fuel ring 2 metric = none := by
  have h : clusterStatement (fun _ key => key.length) insertSort (fun _ => []) ⟨[], [], 0⟩ ['c']
      .carbonCh 2 false 1
      [⟨['a'], 2003, none, .linemode, .tcp, []⟩, ⟨['a'], 2003, none, .linemode, .tcp, []⟩] =
        .ok _ := rfl
  obtain ⟨ring, hring, hfill, -, -⟩ := clusterStatement_ring rfl h
  refine ⟨_, _, ring, h, hring, rfl, fun past fuel metric => ?_⟩
  have hne : [Server.tcp 0 ['a'] 2003, .tcp 0 ['a'] 2003] ≠ [] := cons_ne_nil _ _
  have hone : (ring.entrylist.map (·.server)).dedup ⊆ [Server.tcp 0 ['a'] 2003] := fun s hs => by
    obtain ⟨e, he, rfl⟩ := mem_map.1 (mem_dedup.1 hs)
    have := server_mem_of_mem_chRing .insertSort hne hfill he
    simpa using this
  have hlen := (subperm_of_subset (nodup_dedup _) hone).length_le
  refine chGetNodes_eq_none (type_chRing hne hfill ▸ by decide)
    (completed_chRing (by decide) .insertSort hne hfill) ?_ fuel
  exact Nat.lt_of_le_of_ne (length_takeDistinct_le (Nat.zero_le 2)) fun heq =>
    absurd ((length_chNodes_eq_iff.1 heq).trans hlen) (by decide)

end CarbonRelay
