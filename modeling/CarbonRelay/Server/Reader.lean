import CarbonRelay.Server.Basic
import CarbonRelay.Server.Stream
import Mathlib.Logic.Function.Basic

/-!
# The readers of the servers

Every connection of a server has a thread, `server_queuereader`, that takes metrics from the
server's queue, and from the queues of its secondaries, until it is told to stop. This module models
the servers with their queues, a call of `server_queueread`, and the loop of the reader. What other
threads do between two passes of a reader (metrics put in a queue, passes of other readers, the
order to stop) is a step of its own. The outcomes of `server_connect` and of the calls that
`server_queuesend` makes (`CarbonRelay.Server.Queuesend`) are inputs, and so is the clock.
-/

namespace CarbonRelay

open Function

/-! ## Servers and their queues -/

/-- `server.c:62`, the values of `keep_running`. -/
inductive KeepRunning
  | keepRunning
  | stop
  | stopForce
  deriving DecidableEq, Repr

/-- The fields of `server.c:119 struct _server` that the readers use. A queue is known by its
number, as servers of one cluster may share a queue, and so is a secondary server. -/
structure ServerState where
  queue : Nat
  sharedQueue : Bool
  bsize : Nat
  qfreeThreshold : Nat
  thresholdStart : Nat
  thresholdEnd : Nat
  ttl : Nat
  ctype : ConProto
  nconns : Nat
  conns : Nat → ServerConn
  secondaries : List Nat
  failover : Bool
  keepRunning : KeepRunning
  dropped : Nat
  requeue : Nat

/-- All servers with all queues. -/
structure Pool where
  servers : Nat → ServerState
  queues : Nat → Queue Text

def Pool.setServer (P : Pool) (i : Nat) (s : ServerState) : Pool :=
  { P with servers := update P.servers i s }

def Pool.setConn (P : Pool) (i n : Nat) (c : ServerConn) : Pool :=
  P.setServer i { P.servers i with conns := update (P.servers i).conns n c }

/-- The queue a server holds. -/
def Pool.queueOf (P : Pool) (i : Nat) : Queue Text := P.queues (P.servers i).queue

/-- The loop of `server_failed` behind the connections seen. -/
def failedLoop : List Nat → Nat → Nat
  | [], minFailure => minFailure
  | failure :: rest, minFailure =>
    if failure = 0 then 0
    else failedLoop rest (if minFailure = 0 ∨ minFailure < failure then failure else minFailure)

/-- `server.c:1124 server_failed`. -/
def serverFailed (s : ServerState) : Nat :=
  failedLoop ((List.range s.nconns).map fun i => (s.conns i).failure) 0

/-- `server.c:1139 server_alive`: whether all connections are. -/
def serverAlive (s : ServerState) : Bool := (List.range s.nconns).all fun i => (s.conns i).alive

/-- `server.c:60 QUEUE_FREE_CRITICAL`. -/
def queueFreeCritical (free : Nat) (s : ServerState) : Bool := free < s.qfreeThreshold

/-- The test by which a reader tells that a secondary has metrics left. -/
def overHalf (q : Queue Text) : Bool := queueFree q < queueLen q

/-! ## A call of server_queueread -/

/-- `server.c:59 DISCONNECT_WAIT_TIME`. -/
def disconnectWaitTime : Nat := 12

/-- `server.c:1159`, the threshold of an overloaded destination. -/
def throttle (qfree : Nat) (s : ServerState) : ServerState :=
  if queueFreeCritical qfree s then
    if s.qfreeThreshold = s.thresholdStart then { s with qfreeThreshold := s.thresholdEnd } else s
  else if s.qfreeThreshold = s.thresholdEnd then { s with qfreeThreshold := s.thresholdStart }
  else s

/-- `server.c:1175`, the walk over a failover cluster: whether a server in front of this one works.
-/
def standsBy (P : Pool) (self : Nat) : List Nat → Bool
  | [] => false
  | j :: js =>
    if self = j then false
    else if serverFailed (P.servers j) < failWaitCount then true
    else standsBy P self js

/-- The servers during a call, with the byte that `idle` points to at first, and how far the pointer
was moved since. -/
structure ReadState where
  pool : Pool
  idle : Nat
  moved : Nat

/-- `server.c:1182` and `server.c:1198`: `*idle++` moves the pointer and leaves the counter as it
is. -/
def closeIdle (self n : Nat) (st : ReadState) : ReadState :=
  let s := st.pool.servers self
  if s.ctype = .tcp ∧ 0 ≤ (s.conns n).fd then
    let st' := { st with moved := st.moved + 1 }
    if disconnectWaitTime < st.idle then
      { st' with pool := st.pool.setConn self n (serverDisconnect ⟨s.conns n, [], []⟩).conn }
    else st'
  else st

/-- What `server_connect` does to the connection (`serverConnect` on its stream), and whether the
result is taken for success: the descriptor is returned as a `char`, and 255 is -1. -/
def readerConnect (c : ServerConn) : ConnectOutcome → ServerConn × Bool
  | .unreachable counted => (if counted then (serverAddFailure ⟨c, [], []⟩).conn else c, false)
  | .setupFailed => ({ (serverAddFailure ⟨c, [], []⟩).conn with fd := -1 }, false)
  | .connected fd => ({ c with fd }, fd % 256 ≠ 255)

/-- A call of `server_queuesend` that sends a batch of the queue of `source`. -/
def sendFrom (self source n : Nat) (outs : List SendOutcome) (P : Pool) : Option (Pool × Int) :=
  match serverQueuesend ((P.servers self).conns n) (P.servers self).bsize (P.queueOf source)
      (P.servers source).dropped outs with
  | none => none
  | some r =>
    let P := P.setConn self n r.conn
    let P := P.setServer source { P.servers source with dropped := r.dropped }
    some ({ P with queues := update P.queues (P.servers source).queue r.squeue }, r.ret)

/-- Whether a secondary is read from: it has less room than this server had, and cannot cope. -/
def readsFrom (P : Pool) (self qfree j : Nat) : Bool :=
  self ≠ j ∧ queueFree (P.queueOf j) < qfree ∧
    (queueFreeCritical (queueFree (P.queueOf j)) (P.servers j) ∨ serverFailed (P.servers j) ≠ 0)

/-- `server.c:1247`, the loop over the secondaries: the number of metrics sent, or `none` if a call
failed, and the outcomes to come. -/
def sendSecondaries (self n qfree : Nat) : List Nat → Nat → List (List SendOutcome) → Pool →
    Option (Pool × Option Nat × List (List SendOutcome))
  | [], len, sends, P => some (P, some len, sends)
  | j :: js, len, sends, P =>
    if readsFrom P self qfree j then
      match sends with
      | [] => none
      | outs :: sends =>
        match sendFrom self j n outs P with
        | none => none
        | some (P, ret) =>
          if ret < 0 then some (P, none, sends)
          else
            let s := P.servers j
            sendSecondaries self n qfree js (len + ret.toNat) sends
              (P.setServer j { s with requeue := s.requeue + ret.toNat })
    else sendSecondaries self n qfree js len sends P

/-- What a call of `server_queueread` meets: the outcome of `server_connect`, if it is called, and
those of every call of `server_queuesend`. -/
structure ReadIO where
  connect : ConnectOutcome
  sends : List (List SendOutcome)

/-- What a call of `server_queueread` leaves behind. -/
structure Queueread where
  pool : Pool
  ret : Int
  idle : Nat
  /-- The byte behind the counter was written. -/
  stray : Bool

/-- `server.c:1233`, the batch of the server's own queue. -/
def sendOwn (self n qfree : Nat) (sends : List (List SendOutcome)) (P : Pool) :
    Option (Pool × Int × List (List SendOutcome)) :=
  if qfree < queueSize (P.queueOf self) then
    match sends with
    | [] => none
    | outs :: sends => (sendFrom self self n outs P).map fun r => (r.1, r.2, sends)
  else some (P, 0, sends)

/-- `server.c:1232`, the part of `server_queueread` behind the connect. -/
def sendAll (self n qfree : Nat) (sends : List (List SendOutcome)) (st : ReadState) :
    Option Queueread :=
  match sendOwn self n qfree sends st.pool with
  | none => none
  | some (P, len, sends) =>
    if len < 0 then
      if sends = [] then some ⟨P, -1, st.idle, false⟩ else none
    else
      let s := P.servers self
      match
        if s.sharedQueue = false ∧ s.secondaries ≠ [] then
          sendSecondaries self n qfree s.secondaries len.toNat sends P
        else some (P, some len.toNat, sends) with
      | some (P, total, []) =>
        -- `*idle = 0` through the moved pointer
        some ⟨P, total.elim (-1) Nat.cast, if st.moved = 0 then 0 else st.idle, st.moved ≠ 0⟩
      | _ => none

/-- `server.c:1225`, the part of `server_queueread` that sends. -/
def connectAndSend (self n qfree : Nat) (io : ReadIO) (st : ReadState) : Option Queueread :=
  let c := (st.pool.servers self).conns n
  if c.fd < 0 then
    let r := readerConnect c io.connect
    let P := st.pool.setConn self n r.1
    if r.2 then sendAll self n qfree io.sends { st with pool := P }
    else if io.sends = [] then some ⟨P, -1, st.idle, false⟩ else none
  else sendAll self n qfree io.sends st

/-- `server.c:1205`: an idle server has nothing to do, unless it has secondaries and is not told to
stop or one of them has metrics left. -/
def nothingToDo (P : Pool) (self : Nat) (shutdown : KeepRunning) : Bool :=
  let secondaries := (P.servers self).secondaries
  secondaries = [] ∨
    (shutdown ≠ .keepRunning ∧ ∀ j ∈ secondaries, self ≠ j → overHalf (P.queueOf j) = false)

/-- `server.c:1150 server_queueread`. -/
def serverQueueread (self n : Nat) (shutdown : KeepRunning) (idle : Nat) (io : ReadIO) (P : Pool) :
    Option Queueread :=
  let s := P.servers self
  let qfree := queueFree (P.queueOf self)
  let P := if s.secondaries ≠ [] then P.setServer self (throttle qfree s) else P
  if s.secondaries ≠ [] ∧ s.failover = true ∧ queueFreeCritical qfree s = false ∧
      standsBy P self s.secondaries = true then
    let st := closeIdle self n ⟨P, idle, 0⟩
    some ⟨st.pool, 0, st.idle, false⟩
  else if qfree = queueSize (P.queueOf self) then
    let st := closeIdle self n ⟨P, idle, 0⟩
    if nothingToDo P self shutdown then some ⟨st.pool, 0, st.idle, false⟩
    else connectAndSend self n qfree io st
  else connectAndSend self n qfree io ⟨P, idle, 0⟩

/-! ## The loop of a reader -/

/-- The variables of `server_queuereader`, and whether it is in its loop. -/
structure Reader where
  started : Int
  shutdownInit : KeepRunning
  idle : Nat
  running : Bool

/-- The servers and their readers. -/
structure Readers where
  pool : Pool
  reader : Nat → Nat → Reader

def Readers.setReader (S : Readers) (i n : Nat) (r : Reader) : Readers :=
  { S with reader := update S.reader i (update (S.reader i) n r) }

/-- What a pass meets: the clock before and after the call of `server_queueread`. -/
structure PassInput where
  now : Int
  ended : Int
  io : ReadIO

/-- Why a reader left its loop, and for one that was told to stop how many metrics are left in its
own queue and those of its secondaries. -/
inductive ReaderExit
  | forced
  | stopped (elapsed : Bool) (ret : Int) (waiting : List Nat)
  deriving DecidableEq, Repr

/-- `server.c:1318`: whether a reader that was told to stop, and has time left, leaves its loop. -/
def mayLeave (P : Pool) (self : Nat) : Bool :=
  let secondaries := (P.servers self).secondaries
  secondaries = [] ∨
    ∀ j ∈ secondaries, self ≠ j → overHalf (P.queueOf j) = false ∧ serverAlive (P.servers j) = false

/-- The metrics left in the queues of a server and its secondaries. -/
def waiting (P : Pool) (self : Nat) : List Nat :=
  (self :: (P.servers self).secondaries).map fun j => queueLen (P.queueOf j)

/-- `server.c:1352`, behind the loop. -/
def leaveLoop (self n : Nat) (S : Readers) : Readers :=
  let c := (S.pool.servers self).conns n
  let c := if 0 ≤ c.fd then (serverDisconnect ⟨c, [], []⟩).conn else c
  { S with pool := S.pool.setConn self n { c with alive := false } }.setReader self n
    { S.reader self n with running := false }

/-- `server.c:1299`, the first lines of a pass: the time is counted from when the order is seen. -/
def readerSees (shutdown : KeepRunning) (now : Int) (r : Reader) : Reader :=
  if r.shutdownInit ≠ shutdown then { r with shutdownInit := shutdown, started := now } else r

/-- `server.c:1338`: a connection that is older than its time to live is closed. The age is compared
as an unsigned number. -/
def closeExpired (self n : Nat) (ended : Int) (S : Readers) : Readers :=
  let s := S.pool.servers self
  let r := S.reader self n
  if 0 < s.ttl ∧ (s.ttl : Int) ≤ (ended - r.started) % 2 ^ 64 then
    { S with pool := S.pool.setConn self n (serverDisconnect ⟨s.conns n, [], []⟩).conn }.setReader
      self n { r with started := ended }
  else S

/-- `server.c:1298`, a pass of the loop of `server_queuereader`. -/
def readerPass (timeout : Int) (self n : Nat) (inp : PassInput) (S : Readers) :
    Option (Readers × List ReaderExit) :=
  let shutdown := (S.pool.servers self).keepRunning
  if shutdown = .stopForce then some (leaveLoop self n S, [.forced])
  else
    let r := readerSees shutdown inp.now (S.reader self n)
    match serverQueueread self n shutdown r.idle inp.io S.pool with
    | none => none
    | some q =>
      let c := (q.pool.servers self).conns n
      let P := q.pool.setConn self n { c with alive := q.ret ≠ 0 }
      let S := { S with pool := P }.setReader self n { r with idle := q.idle }
      if shutdown = .stop then
        if timeout ≤ inp.ended - r.started then
          some (leaveLoop self n S, [.stopped true q.ret (waiting P self)])
        else if mayLeave P self then
          some (leaveLoop self n S, [.stopped false q.ret (waiting P self)])
        else some (S, [])
      else some (closeExpired self n inp.ended S, [])

/-- `server.c:1828 server_shutdown`. -/
def serverShutdown (swap : Bool) (s : ServerState) : ServerState :=
  if s.keepRunning = .keepRunning then
    { s with keepRunning := if swap then .stopForce else .stop }
  else s

/-- A step of the system: a reader enters its loop, a reader makes a pass, a metric is put in a
queue, or a server is told to stop. -/
inductive ReadersStep
  | enter (self n : Nat) (now : Int)
  | pass (self n : Nat) (inp : PassInput)
  | enqueue (k : Nat) (m : Text)
  | shutdown (i : Nat) (swap : Bool)

/-- The system of servers and readers as a machine. -/
def readersStep (timeout : Int) (S : Readers) : ReadersStep → Option (Readers × List ReaderExit)
  | .enter self n now =>
    let c := (S.pool.servers self).conns n
    some ({ S with pool := S.pool.setConn self n { c with alive := true } }.setReader self n
      ⟨now, .keepRunning, 0, true⟩, [])
  | .pass self n inp =>
    if (S.reader self n).running then readerPass timeout self n inp S else some (S, [])
  | .enqueue k m =>
    match queueEnqueue (S.pool.queues k) m with
    | none => none
    | some (q, _) =>
      some ({ S with pool.queues := update S.pool.queues k q }, [])
  | .shutdown i swap =>
    some ({ S with pool := S.pool.setServer i (serverShutdown swap (S.pool.servers i)) }, [])

end CarbonRelay
