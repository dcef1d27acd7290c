import CarbonRelay.Lib.Text

/-!
# Server objects

What the configuration fixes about an outbound server (`server.c:119 struct _server`): its address,
its instance, and the type and protocol it speaks. A server object is known by its address in
memory, which `id` stands for: two objects with the same settings differ in `id`, so that the
equality of `Server` is the equality of pointers. The state of a running server is modelled in
`CarbonRelay.Server.Queuesend`.
-/

namespace CarbonRelay

/-- `relay.h METRIC_BUFSIZ`. -/
def metricBufsiz : Nat := 32768

/-- `relay.h con_proto`. -/
inductive ConProto
  | tcp
  | udp
  | pipe
  | file
  | unix
  deriving DecidableEq, Repr

/-- `relay.h con_type`. -/
inductive ConType
  | linemode
  | syslogmode
  deriving DecidableEq, Repr

/-- The families of socket addresses that `server_cmp` tells apart. -/
inductive AddrFamily
  | inet
  | inet6
  | other (family : Nat)
  deriving DecidableEq, Repr

/-- One entry of a list of addresses that the resolver returned (`struct addrinfo`). -/
structure AddrInfo where
  family : AddrFamily
  socktype : Nat
  protocol : Nat
  port : Nat
  addr : List Nat
  deriving DecidableEq, Repr

/-- `server.c:119 struct _server`, as configured. -/
structure Server where
  id : Nat
  ip : Text
  port : Nat
  inst : Option Text
  type : ConType
  ctype : ConProto
  nconns : Nat
  saddr : Option AddrInfo
  deriving DecidableEq, Repr

/-- `server.h SERVER_MAX_CONNECTIONS`. -/
def serverMaxConnections : Nat := 32

/-- `server.c:1412 server_new`, the settings of the object: only TCP and UDP servers have more than
one connection. -/
def serverNew (id : Nat) (ip : Text) (port : Nat) (type : ConType) (ctype : ConProto) (nconns : Nat)
    (saddr : Option AddrInfo) : Server where
  id
  ip
  port
  inst := none
  type
  ctype
  nconns :=
    if 1 < nconns ∧ (ctype = .tcp ∨ ctype = .udp) then
      if serverMaxConnections < nconns then serverMaxConnections else nconns
    else 1
  saddr

/-- A server for lines over TCP, at an address that was not resolved. -/
def Server.tcp (id : Nat) (ip : Text) (port : Nat) : Server :=
  serverNew id ip port .linemode .tcp 1 none

/-- `server.c:1648 server_cmp`: whether the object serves the given address. -/
def serverCmp (s : Server) (saddr : Option AddrInfo) (ip : Text) (port : Nat) (proto : ConProto)
    (nconns : Nat) : Bool :=
  if nconns ≠ s.nconns then false
  else
    match saddr, s.saddr with
    | some r, some l =>
      l.family = r.family ∧ l.socktype = r.socktype ∧ l.protocol = r.protocol ∧
        (r.family = .inet ∨ r.family = .inet6) ∧ l.port = r.port ∧ l.addr = r.addr
    | _, _ => s.ip = ip ∧ s.port = port ∧ s.ctype = proto

/-- `server.c:1734 server_set_instance`. -/
def serverSetInstance (s : Server) (inst : Text) : Server := { s with inst := some inst }

end CarbonRelay
