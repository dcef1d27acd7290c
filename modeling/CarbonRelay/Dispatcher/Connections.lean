import CarbonRelay.Lib.Machine
import Mathlib.Algebra.GroupWithZero.Nat
import Mathlib.Logic.Function.Basic

/-!
# The table of connections

The dispatchers keep their connections in one table, indexed by the socket: those of clients, the
pipes of the aggregator, and the sockets of UDP listeners, which are connections that never expire.
This module models how a connection is assigned to a worker, set up and closed, with the counters
that are kept on the way. Whether an allocation succeeds is an input. The counters are `size_t`, so
they count modulo `2 ^ 64`.
-/

namespace CarbonRelay

/-- `c + 1` for a `size_t`. -/
def sizeIncr (c : Nat) : Nat := (c + 1) % 2 ^ 64

/-- `c - 1` for a `size_t`. -/
def sizeDecr (c : Nat) : Nat := (c + (2 ^ 64 - 1)) % 2 ^ 64

/-- Who is at the other end of a connection. -/
inductive ConnKind
  | client
  | aggr
  | udp
  deriving DecidableEq, Repr

/-- An open connection: the worker it is assigned to (`conn->d`), and its kind. -/
structure OpenConn where
  worker : Nat
  kind : ConnKind
  deriving DecidableEq, Repr

/-- The connections and the counters. Worker 0 is the listener. -/
structure Connections where
  /-- `connections`, of length `connectionslen`. -/
  table : List (Option OpenConn)
  /-- `connections` of each dispatcher. -/
  workers : Nat → Nat
  workercnt : Nat
  accepted : Nat
  closed : Nat
  errors : Nat

/-- Which of the steps that set up a connection succeed. -/
structure SetUp where
  realloc : Bool
  connectionNew : Bool
  strmNew : Bool
  eventNew : Bool
  deriving DecidableEq, Repr

/-- `dispatcher.c:952`, the loop of `dispatch_worker_with_low_connections` with `k` workers to go.
-/
def lowLoop (workers : Nat → Nat) : Nat → Nat → Nat → Nat → Nat
  | 0, _, _, d => d
  | k + 1, i, min, d =>
    if workers i < min then lowLoop workers k (i + 1) (workers i) i
    else lowLoop workers k (i + 1) min d

namespace Connections

/-- The counter of a worker is changed. -/
def count (S : Connections) (d : Nat) (f : Nat → Nat) : Connections :=
  { S with workers := Function.update S.workers d (f (S.workers d)) }

/-- `dispatcher.c:947 dispatch_worker_with_low_connections`: the worker that gets the connection. -/
def lowWorker (S : Connections) : Nat :=
  lowLoop S.workers (S.workercnt - 1) 2 (S.workers 1) 1

/-- `dispatcher.c:42 CONNGROWSZ`. -/
def growSize : Nat := 1024

/-- `dispatcher.c:1560 dispatch_closeconnection`, called for the worker `d`. -/
def dispatchCloseconnection (d sock : Nat) (S : Connections) : Connections :=
  { S.count d sizeDecr with
    table := S.table.set sock none
    closed := sizeIncr (sizeIncr S.closed) }

/-- `dispatcher.c:1314`, the part of `dispatch_addconnection` behind the allocation of the
connection, on the table that has a free slot for it. It also says whether the connection was added.
-/
def setUpConnection (sock d : Nat) (kind : ConnKind) (u : SetUp) (S : Connections) :
    Connections × Bool :=
  if u.strmNew then
    if u.eventNew then
      ({ S with table := S.table.set sock (some ⟨d, kind⟩), accepted := sizeIncr S.accepted }, true)
    else
      let S := dispatchCloseconnection d sock S
      ({ S.count d sizeDecr with errors := sizeIncr S.errors }, false)
  else (S.count d sizeDecr, false)

/-- `dispatcher.c:1213 dispatch_addconnection` for the worker `d`. A failed allocation of the
connection is not looked at when the table is large enough: the `NULL` pointer is used. -/
def dispatchAddconnection (sock d : Nat) (kind : ConnKind) (u : SetUp) (S : Connections) :
    Option (Connections × Bool) :=
  match S.table[sock]? with
  | some (some _) => some (S, false)
  | some none => if u.connectionNew then some (setUpConnection sock d kind u S) else none
  | none =>
    if u.realloc then
      let S := { S with
        table := S.table ++ List.replicate (sock + growSize - S.table.length) none }
      if u.connectionNew then some (setUpConnection sock d kind u S)
      else some (S.count d sizeDecr, false)
    else some (S.count d sizeDecr, false)

/-- A worker is picked, and the connection added to it. A pipe of the aggregator, and a UDP socket,
is not counted as accepted. -/
def add (sock : Nat) (kind : ConnKind) (u : SetUp) (S : Connections) : Option Connections :=
  let d := S.lowWorker
  match dispatchAddconnection sock d kind u (S.count d sizeIncr) with
  | none => none
  | some (S, ok) =>
    if ok = true ∧ kind ≠ .client then some { S with accepted := sizeDecr S.accepted } else some S

end Connections

/-- A step of the dispatchers: `dispatch_accept_cb`, `dispatch_addconnection_aggr`, one round of the
loops of `__dispatch_addlistener` and `__dispatch_removelistener` over the sockets of a UDP
listener, and the end of a connection. -/
inductive ConnectionsStep
  | accept (sock : Nat) (u : SetUp)
  | addAggr (sock : Nat) (u : SetUp)
  | addUdp (sock : Nat) (u : SetUp)
  | removeUdp (sock : Nat)
  | close (sock : Nat)
  deriving DecidableEq, Repr

/-- The connections as a machine, which puts out the state after each step. A socket is an `int`. -/
def connectionsStep (S : Connections) (a : ConnectionsStep) :
    Option (Connections × List Connections) :=
  let S' := match a with
    | .accept sock u => if sock < 2 ^ 31 then S.add sock .client u else none
    | .addAggr sock u => if sock < 2 ^ 31 then S.add sock .aggr u else none
    | .addUdp sock u => if sock < 2 ^ 31 then S.add sock .udp u else none
    | .removeUdp sock =>
      -- the listener worker closes the connection
      match S.table[sock]? with
      | some (some _) => some (S.dispatchCloseconnection 0 sock)
      | _ => none
    | .close sock =>
      match S.table[sock]? with
      | some (some conn) => some (S.dispatchCloseconnection conn.worker sock)
      | _ => none
  S'.map fun S' => (S', [S'])

/-- The dispatchers at the start. -/
def Connections.new (workercnt : Nat) : Connections where
  table := []
  workers := fun _ => 0
  workercnt
  accepted := 0
  closed := 0
  errors := 0

end CarbonRelay
