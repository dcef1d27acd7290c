import CarbonRelay.ConsistentHash.Ring

/-!
# Clusters and the configuration that makes them

A cluster of servers (`cluster.h struct _cluster`), the table of server objects of a router, and the
code that a `cluster` statement of the configuration runs: `router_add_server` for every host, then
`router_add_cluster`. All allocations succeed, except that `ch_new` refuses more than
`CONN_DESTS_SIZE` servers. An error is the text the configuration reader reports.
-/

namespace CarbonRelay

/-- The types of `cluster.h enum clusttype` that have servers. -/
inductive ClusterType
  | forward
  | filelog
  | filelogip
  | carbonCh
  | fnv1aCh
  | jumpCh
  | anyof
  | failover
  | lb
  deriving DecidableEq, Repr

/-- The ring of a consistent-hash cluster. -/
def ClusterType.chType : ClusterType → Option ChType
  | .carbonCh => some .carbon
  | .fnv1aCh => some .fnv1a
  | .jumpCh => some .jumpFnv1a
  | _ => none

/-- `cluster.h struct _cluster`. The servers are those of `members.ch`, `members.forward` or
`members.anyof`; only consistent-hash clusters have a replication factor and a ring. -/
structure Cluster where
  name : Text
  type : ClusterType
  serverConnections : Nat
  replFactor : Nat
  ring : Option ChRing
  servers : List Server
  deriving DecidableEq, Repr

/-- `cluster.h struct _servers`, an entry of the table of server objects. -/
structure ServersEntry where
  server : Server
  refcnt : Nat
  deriving DecidableEq, Repr

/-- The part of a router that clusters are made in. `nextId` numbers the server objects. -/
structure ClusterTable where
  srvrs : List ServersEntry
  clusters : List Cluster
  nextId : Nat
  deriving DecidableEq, Repr

/-- `router.c:95 con_type_str`. -/
def ConType.str : ConType → String
  | .linemode => "linemode"
  | .syslogmode => "syslog"

/-- `router.c:317 serverip`. -/
def serverip (s : Server) : Text :=
  if ':' ∈ s.ip then List.take 255 (['['] ++ s.ip ++ [']']) else s.ip

/-- An error message, cut to the size of `errbuf`. -/
def errbuf (parts : List Text) : Text := parts.flatten.take 511

/-! ## Adding a server -/

/-- The first object of the table that serves an address, with its count raised. -/
def lookupServer (cmp : Server → Bool) :
    List ServersEntry → Option (ServersEntry × List ServersEntry)
  | [] => none
  | s :: l =>
    if cmp s.server then
      let s := { s with refcnt := s.refcnt + 1 }
      some (s, s :: l)
    else (lookupServer cmp l).map fun (e, l) => (e, s :: l)

/-- `router.c:750`, the checks on an object that is in use already: its type and instance must be
the ones of the new definition. -/
def checkShared (entry : ServersEntry) (type : ConType) (inst : Option Text) : Except Text Unit :=
  let s := entry.server
  if entry.refcnt ≤ 1 then .ok ()
  else if type ≠ s.type then
    .error (errbuf ["cannot set type '".toList, type.str.toList, "' for server ".toList, serverip s,
      [':'], Text.decimal s.port, ": server was previously defined with type '".toList,
      s.type.str.toList, ['\'']])
  else
    match s.inst, inst with
    | none, some i =>
      .error (errbuf ["cannot set instance '".toList, i, "' for server ".toList, serverip s, [':'],
        Text.decimal s.port, ": server was previously defined without instance".toList])
    | some i, none =>
      .error (errbuf ["cannot define server ".toList, serverip s, [':'], Text.decimal s.port,
        " without instance: server was previously defined with instance '".toList, i, ['\'']])
    | some i, some j =>
      if i ≠ j then
        .error (errbuf ["cannot set instance '".toList, j, "' for server ".toList,
          serverip s, [':'],
          Text.decimal s.port, ": server was previously defined with instance '".toList, i, ['\'']])
      else .ok ()
    | none, none => .ok ()

section
variable (hashpos : ChType → Text → Nat)
  (qsort : (ChRingEntry → ChRingEntry → Int) → List ChRingEntry → List ChRingEntry)

/-- `router.c:807`, the new server in the list, and the ring, of its cluster. -/
def addToCluster (ip : Text) (port : Nat) (s : ServersEntry) (cl : Cluster) : Except Text Cluster :=
  let servers := cl.servers ++ [s.server]
  match cl.type with
  | .carbonCh | .fnv1aCh | .jumpCh =>
    match cl.ring with
    | none =>
      .error (errbuf ["failed to add server ".toList, ip, [':'], Text.decimal port,
        " to ring for cluster ".toList, cl.name, ": out of memory".toList])
    | some ring => .ok { cl with servers, ring := some (chAddnode hashpos qsort ring s.server) }
  | .forward | .filelog | .filelogip => .ok { cl with servers }
  | .anyof | .failover | .lb =>
    if 1 < s.refcnt then
      .error (errbuf ["cannot share server ".toList, serverip s.server, [':'],
        Text.decimal s.server.port, " with any_of/failover cluster '".toList, cl.name, ['\'']])
    else .ok { cl with servers }

/-- One turn of the loop of `router_add_server`, for one resolved address. -/
def routerAddServerAt (rtr : ClusterTable) (ip : Text) (port : Nat) (inst : Option Text)
    (type : ConType) (proto : ConProto) (walk : Option AddrInfo) (cl : Cluster) :
    Except Text (ClusterTable × Cluster) := do
  let nconns := cl.serverConnections % 65536
  match lookupServer (serverCmp · walk ip port proto nconns) rtr.srvrs with
  | some (s, srvrs) =>
    checkShared s type inst
    let cl ← addToCluster hashpos qsort ip port s cl
    return ({ rtr with srvrs }, cl)
  | none =>
    let server := serverNew rtr.nextId ip port type proto nconns walk
    let server := match inst with
      | some i => serverSetInstance server i
      | none => server
    let s := ServersEntry.mk server 1
    let cl ← addToCluster hashpos qsort ip port s cl
    return ({ rtr with srvrs := rtr.srvrs ++ [s], nextId := rtr.nextId + 1 }, cl)

/-- The loop of `router_add_server` with `useall`: every address is a server of its own, named by
its printed form where it has one. -/
def routerAddServerAll (ntop : AddrInfo → Text) (port : Nat) (inst : Option Text) (type : ConType)
    (proto : ConProto) :
    List AddrInfo → Text → ClusterTable → Cluster → Except Text (ClusterTable × Cluster)
  | [], _, rtr, cl => return (rtr, cl)
  | walk :: saddrs, ip, rtr, cl => do
    let ip := if ntop walk ≠ [] then ntop walk else ip
    let (rtr, cl) ← routerAddServerAt hashpos qsort rtr ip port inst type proto (some walk) cl
    routerAddServerAll ntop port inst type proto saddrs ip rtr cl

/-- A host of a `cluster` statement (`conffile.y struct _clhost`) with the addresses it resolved
to. -/
structure Clhost where
  ip : Text
  port : Nat
  inst : Option Text
  type : ConType
  proto : ConProto
  saddrs : List AddrInfo
  deriving DecidableEq, Repr

/-- `router.c:666 router_add_server`. Without `useall` the first address is the server's. -/
def routerAddServer (ntop : AddrInfo → Text) (useall : Bool) (rtr : ClusterTable) (cl : Cluster)
    (host : Clhost) : Except Text (ClusterTable × Cluster) :=
  if useall then
    routerAddServerAll hashpos qsort ntop host.port host.inst host.type host.proto
      host.saddrs host.ip rtr cl
  else
    routerAddServerAt hashpos qsort rtr host.ip host.port host.inst host.type host.proto
      host.saddrs.head? cl

/-! ## Adding a cluster -/

/-- `router.c:933 router_add_cluster`. -/
def routerAddCluster (rtr : ClusterTable) (cl : Cluster) : Except Text (ClusterTable × Cluster) :=
  if rtr.clusters.any fun cw => cw.name = cl.name then
    .error "cluster with the same name already defined".toList
  else if cl.type.chType.isSome ∧ cl.servers.length < cl.replFactor then
    .error (errbuf ["invalid cluster '".toList, cl.name, "': replication count (".toList,
      Text.decimal cl.replFactor, ") is larger than the number of servers (".toList,
      Text.decimal cl.servers.length, ")\n".toList])
  else .ok ({ rtr with clusters := rtr.clusters ++ [cl] }, cl)

/-- The loop of the `cluster` statement over its hosts. -/
def addHosts (ntop : AddrInfo → Text) (useall : Bool) :
    List Clhost → ClusterTable → Cluster → Except Text (ClusterTable × Cluster)
  | [], rtr, cl => return (rtr, cl)
  | host :: hosts, rtr, cl => do
    let (rtr, cl) ← routerAddServer hashpos qsort ntop useall rtr cl host
    addHosts ntop useall hosts rtr cl

/-- `conffile.y:155`, the `cluster` statement for hosts. The replication count and `useall` are what
the statement gives for its type of cluster; a consistent-hash cluster is never expanded. -/
def clusterStatement (ntop : AddrInfo → Text) (rtr : ClusterTable) (name : Text)
    (type : ClusterType) (replcnt : Int) (useall : Bool) (connections : Nat) (hosts : List Clhost) :
    Except Text (ClusterTable × Cluster) :=
  match type.chType with
  | some ch =>
    if replcnt < 1 ∨ 255 < replcnt then
      .error "replication count must be between 1 and 255".toList
    else do
      let (rtr, cl) ← addHosts hashpos qsort ntop false hosts rtr
        { name, type, serverConnections := connections, replFactor := replcnt.toNat
          ring := chNew ch hosts.length, servers := [] }
      routerAddCluster rtr cl
  | none => do
    let (rtr, cl) ← addHosts hashpos qsort ntop useall hosts rtr
      { name, type, serverConnections := connections, replFactor := 0, ring := none, servers := [] }
    routerAddCluster rtr cl

end

end CarbonRelay
