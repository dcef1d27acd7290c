import CarbonRelay.Lib.Text
import CarbonRelay.Queue.Basic

/-!
# Sending a batch of a server's queue

The model of `server_queuesend` (`server.c:1010`) with `server_poll`, `server_add_failure` and
`server_disconnect`. What the operating system and the stream answer is an input: the list of the
outcomes of `poll`, `strmwrite` and `strmflush` in the order of the calls. A list that does not fit
the calls that are made has no run (`none`). What is done to the stream and to the memory of the
metrics is recorded: `ops` are the accepted writes, the flushes and the resets of the stream,
`freed` the metrics passed to `free`.
-/

namespace CarbonRelay

/-- What `poll` reports about the socket. -/
inductive PollOutcome
  /-- `POLLOUT` is set. -/
  | ready
  /-- `POLLHUP` is set, without `POLLOUT`. -/
  | hangup
  /-- Any other event. -/
  | event
  | timeout
  | error
  deriving DecidableEq, Repr

/-- What `strmwrite` returns for a metric: its length, `-1` with `ENOBUFS`, or anything else. -/
inductive WriteOutcome
  | written
  | enobufs
  | failed
  deriving DecidableEq, Repr

/-- The outcome of a call that `server_queuesend` makes. -/
inductive SendOutcome
  | poll (o : PollOutcome)
  | write (o : WriteOutcome)
  | flush (ok : Bool)
  deriving DecidableEq, Repr

/-- What happens to the stream of a connection. -/
inductive StrmOp
  | write (m : Text)
  | flush (ok : Bool)
  | close
  | reset
  deriving DecidableEq, Repr

/-- The fields of `server.c:101 struct _servercon` that sending uses. -/
structure ServerConn where
  fd : Int
  alive : Bool
  failure : Nat
  metrics : Nat
  deriving DecidableEq, Repr

/-- The state of a send: the connection, the outcomes to come, and what was done to the stream. -/
structure SendState where
  conn : ServerConn
  outs : List SendOutcome
  ops : List StrmOp
  deriving DecidableEq, Repr

/-- `server.c:58 FAIL_WAIT_COUNT`. -/
def failWaitCount : Nat := 6

/-- `server.c:586 server_add_failure`. -/
def serverAddFailure (st : SendState) : SendState :=
  if st.conn.failure < failWaitCount then
    { st with conn := { st.conn with failure := st.conn.failure + 1 } }
  else st

/-- `server.c:597 server_disconnect`. -/
def serverDisconnect (st : SendState) : SendState :=
  if st.conn.fd ≠ -1 then
    { st with conn := { st.conn with fd := -1 }, ops := st.ops ++ [.close] }
  else st

/-- `server.c:976 server_poll`: whether it returned 0. A connection that hung up stays open. -/
def serverPoll (st : SendState) : Option (Bool × SendState) :=
  if 0 < st.conn.fd then
    match st.outs with
    | .poll o :: outs =>
      let st := { st with outs }
      match o with
      | .ready => some (true, st)
      | .hangup | .event => some (false, serverAddFailure st)
      | .timeout | .error => some (false, serverDisconnect st)
    | _ => none
  else some (false, st)

/-- The counters of the loop of `server_queuesend`. -/
structure SendCounts where
  sended : Nat
  total : Nat
  flushed : Nat
  deriving DecidableEq, Repr

/-- A metric was accepted by the stream. -/
def SendState.accept (st : SendState) (m : Text) (outs : List SendOutcome) : SendState :=
  { st with outs, ops := st.ops ++ [.write m] }

/-- The stream was flushed, with this result. -/
def SendState.flush (st : SendState) (ok : Bool) (outs : List SendOutcome) : SendState :=
  { st with outs, ops := st.ops ++ [.flush ok] }

/-- `server.c:1030`, the loop over the batch. Every exit but the end of the batch is a `break`. -/
def sendLoop : List Text → SendCounts → SendState → Option (SendCounts × SendState)
  | [], c, st => some (c, st)
  | m :: batch, c, st =>
    match st.outs with
    | .write .written :: outs =>
      sendLoop batch { c with sended := c.sended + 1, total := c.total + 1 } (st.accept m outs)
    | .write .enobufs :: .flush true :: outs => do
      let st := st.flush true outs
      let st := { st with conn := { st.conn with metrics := st.conn.metrics + c.sended } }
      let c := { c with flushed := c.flushed + c.sended, sended := 0 }
      let (ok, st) ← serverPoll st
      if ok then
        -- retry the write after the flush
        match st.outs with
        | .write .written :: outs =>
          sendLoop batch { c with sended := c.sended + 1, total := c.total + 1 } (st.accept m outs)
        | .write _ :: outs => some (c, serverDisconnect (serverAddFailure { st with outs }))
        | _ => none
      else some (c, st)
    | .write .enobufs :: .flush false :: outs => some (c, st.flush false outs)
    | .write .failed :: outs => some (c, serverDisconnect (serverAddFailure { st with outs }))
    | _ => none

/-- `server.c:1076`, the flush of what the loop left in the buffer. -/
def finalFlush (c : SendCounts) (st : SendState) : Option SendState :=
  if c.flushed < c.total then do
    let (ok, st) ← serverPoll st
    if ok then
      match st.outs with
      | .flush true :: outs => some (st.flush true outs)
      | .flush false :: outs => some (serverDisconnect (serverAddFailure (st.flush false outs)))
      | _ => none
    else some st
  else some st

/-- The metrics of a batch up to the first `NULL`. -/
def batchOf : List (Option Text) → List Text
  | some m :: batch => m :: batchOf batch
  | _ => []

/-- `server.c:1110`, the metrics that could not be sent are put back. Those that do not fit are
freed and counted as dropped. -/
def requeue : List Text → Queue Text → Option (Queue Text × List Text)
  | [], q => some (q, [])
  | m :: batch, q => do
    let (q, ok) ← queuePutback q m
    let (q, dropped) ← requeue batch q
    return (q, if ok then dropped else m :: dropped)

/-- What a call of `server_queuesend` leaves behind. -/
structure SendResult where
  ret : Int
  conn : ServerConn
  squeue : Queue Text
  /-- The counter of the server whose queue it is. -/
  dropped : Nat
  ops : List StrmOp
  freed : List Text
  deriving DecidableEq, Repr

/-- `server.c:1090`, the end of a call: the batch is freed if the connection is open, and what was
not flushed is put back otherwise. -/
def finishBatch (len : Nat) (batch : List Text) (c : SendCounts) (st : SendState)
    (squeue : Queue Text) (dropped : Nat) : Option SendResult :=
  if 0 ≤ st.conn.fd then
    some
      { ret := len
        conn := { st.conn with failure := st.conn.failure - 1 }
        squeue, dropped, ops := st.ops, freed := batch }
  else do
    let (squeue, lost) ← requeue (batch.drop c.flushed) squeue
    some
      { ret := -1
        conn := st.conn
        squeue
        dropped := dropped + lost.length
        ops := st.ops ++ [.reset]
        freed := batch.take c.flushed ++ lost }

/-- `server.c:1024`, the part of `server_queuesend` behind the first poll. -/
def sendBatch (bsize : Nat) (squeue : Queue Text) (dropped : Nat) (st : SendState) :
    Option SendResult := do
  let (squeue, vector) ← queueDequeueVector squeue bsize
  if vector ≠ [] then
    let batch := batchOf vector
    let st := { st with conn := { st.conn with alive := true } }
    let (c, st) ← sendLoop batch { sended := 0, total := 0, flushed := 0 } st
    let st ← finalFlush c st
    if st.outs = [] then finishBatch vector.length batch c st squeue dropped else none
  else if st.outs = [] then
    some { ret := 0, conn := st.conn, squeue, dropped, ops := st.ops, freed := [] }
  else none

/-- `server.c:1010 server_queuesend`, with all outcomes of the calls it makes. -/
def serverQueuesend (conn : ServerConn) (bsize : Nat) (squeue : Queue Text) (dropped : Nat)
    (outs : List SendOutcome) : Option SendResult := do
  let (ok, st) ← serverPoll { conn, outs, ops := [] }
  if ok then sendBatch bsize squeue dropped st
  else if st.outs = [] then
    some { ret := -1, conn := st.conn, squeue, dropped, ops := st.ops, freed := [] }
  else none

end CarbonRelay
