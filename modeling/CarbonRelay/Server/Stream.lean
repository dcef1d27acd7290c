import CarbonRelay.Server.Basic
import CarbonRelay.Server.Queuesend

/-!
# Streams of a connection

`server_queuesend` writes metrics to a stream: an output buffer in front of a socket (plain or TLS),
or a compressor with a buffer of its own in front of that. This module models the streams of
`server.c` down to the calls of `write(2)`, `SSL_write` and the compressors, whose results are
inputs. Every byte in a buffer has a number and the number of the connection it was written on,
which the source does not keep: they tell equal bytes apart. A call of `server_queuesend`
(`CarbonRelay.Server.Queuesend`) takes the outcomes of writes and flushes as given; `callEvents`
reads off what it does to the stream, and `zStrmStep` is the stream that gives these outcomes. The
writers and the flush of TLS streams differ from those of plain sockets in the calls they make only,
so they are not modelled apart.
-/

namespace CarbonRelay

/-- `server.h SERVER_MAX_SEND`. -/
def serverMaxSend : Nat := 10

/-! ## Output buffers -/

/-- A byte in an output buffer. -/
structure Octet where
  /-- The connection it was written on. -/
  conn : Nat
  /-- How many bytes were written to its stream before it. -/
  pos : Nat
  char : Char
  deriving DecidableEq, Repr

/-- The bytes of a text, numbered from `n` on. -/
def octets (conn n : Nat) (buf : Text) : List Octet :=
  buf.zipIdx n |>.map fun (c, i) => ⟨conn, i, c⟩

/-- The output buffer of a `z_strm`, `obuf` up to `obuflen`. -/
structure Obuf where
  bytes : List Octet
  /-- The number of bytes that were ever written to it. -/
  count : Nat
  deriving DecidableEq, Repr

/-- `server.c:162 sockwrite`, and the same for `gzipwrite`, `lzwrite`, `snappywrite` and `sslwrite`.
It is `none` for `ENOBUFS`. -/
def sockwrite (conn : Nat) (buf : Text) (o : Obuf) : Option Obuf :=
  if o.bytes.length + buf.length > metricBufsiz then none
  else some ⟨o.bytes ++ octets conn o.count buf, o.count + buf.length⟩

/-- `obuflen = 0`. -/
def Obuf.reset (o : Obuf) : Obuf := { o with bytes := [] }

/-! ## Flushing -/

/-- What `write(2)` or `SSL_write` returns: the number of bytes it accepted, an interruption after
which the call is made again, or an error. -/
inductive WriteResult
  | wrote (n : Nat)
  | again
  | error
  deriving DecidableEq, Repr

/-- What a call of a compressor gives: output, with whether there is input left, a full output
buffer, which is discarded, or an error. -/
inductive CompressResult
  | out (buf : Text) (more : Bool)
  | full
  | error
  deriving DecidableEq, Repr

/-- The result of a call that a flush makes. -/
inductive SysOut
  | write (r : WriteResult)
  | compress (r : CompressResult)
  deriving DecidableEq, Repr

/-- `server.c:193`, the loop of `sockflush` with `cnt` rounds to go: whether everything was
accepted, the bytes that were, and the results to come. -/
def flushLoop : Nat → List Octet → List SysOut → Option (Bool × List Octet × List SysOut)
  | 0, _, sys => some (false, [], sys)
  | cnt + 1, p, .write (.wrote n) :: sys =>
    if n = p.length then some (true, p, sys)
    else if n < p.length then
      match flushLoop cnt (p.drop n) sys with
      | none => none
      | some (ok, sent, sys) => some (ok, p.take n ++ sent, sys)
    else none
  | cnt + 1, p, .write .again :: sys => flushLoop cnt p sys
  | _ + 1, _, .write .error :: sys => some (false, [], sys)
  | _, _, _ => none

/-- What a flush does: whether it succeeded, the bytes the socket accepted, and the results to come.
-/
structure Flushed (σ : Type) where
  ok : Bool
  strm : σ
  sent : List Octet
  sys : List SysOut

/-- `server.c:178 sockflush`, and `server.c:478 sslflush`. A flush that gives up does not remember
how far it came. -/
def sockflush (o : Obuf) (sys : List SysOut) : Option (Flushed Obuf) :=
  if o.bytes = [] then some ⟨true, o, [], sys⟩
  else
    match flushLoop serverMaxSend o.bytes sys with
    | none => none
    | some (true, sent, sys) => some ⟨true, o.reset, sent, sys⟩
    | some (false, sent, sys) => some ⟨false, o, sent, sys⟩

/-- The compressors. -/
inductive Codec
  | gzip
  | lz4
  | snappy
  deriving DecidableEq, Repr

/-- The stream of a connection: the buffer it is written to, which is that of the socket without a
compressor, and the buffer of the socket behind a compressor. -/
structure Strm where
  codec : Option Codec
  top : Obuf
  next : Obuf
  deriving DecidableEq, Repr

/-- `server.c:262`, the loop of `gzipflush` that writes what is deflated to the next stream: whether
it went through. -/
def gzipDeflate (conn : Nat) : Obuf → List SysOut → Option (Bool × Obuf × List SysOut)
  | next, .compress .full :: sys => some (true, next, sys)
  | next, .compress (.out buf more) :: sys =>
    match sockwrite conn buf next with
    | none => some (false, next, sys)
    | some next => if more then gzipDeflate conn next sys else some (true, next, sys)
  | next, .compress .error :: sys => some (false, next, sys)
  | _, _ => none

/-- The compressed buffer as one block for the next stream, as `lzflush` and `snappyflush` write it.
-/
def compressBlock (conn : Nat) (next : Obuf) : List SysOut → Option (Bool × Obuf × List SysOut)
  | .compress .error :: sys => some (false, next, sys)
  | .compress (.out buf false) :: sys =>
    match sockwrite conn buf next with
    | none => some (false, next, sys)
    | some next => some (true, next, sys)
  | _ => none

/-- The end of a flush through a compressor: the next stream is flushed, and only then the buffer of
the compressor is given up. -/
def flushNext (s : Strm) : Option (Bool × Obuf × List SysOut) → Option (Flushed Strm)
  | none => none
  | some (false, next, sys) => some ⟨false, { s with next }, [], sys⟩
  | some (true, next, sys) =>
    match sockflush next sys with
    | none => none
    | some r =>
      some ⟨r.ok, { s with top := if r.ok then s.top.reset else s.top, next := r.strm },
        r.sent, r.sys⟩

/-- `server.c:249 gzipflush`. -/
def gzipflush (conn : Nat) (s : Strm) (sys : List SysOut) : Option (Flushed Strm) :=
  flushNext s (gzipDeflate conn s.next sys)

/-- `server.c:344 lzflush`. -/
def lzflush (conn : Nat) (s : Strm) (sys : List SysOut) : Option (Flushed Strm) :=
  if s.top.bytes = [] then some ⟨true, s, [], sys⟩
  else flushNext s (compressBlock conn s.next sys)

/-- `server.c:415 snappyflush`. -/
def snappyflush (conn : Nat) (s : Strm) (sys : List SysOut) : Option (Flushed Strm) :=
  flushNext s (compressBlock conn s.next sys)

/-- `strmflush` of the stream. -/
def strmflush (conn : Nat) (s : Strm) (sys : List SysOut) : Option (Flushed Strm) :=
  match s.codec with
  | none => (sockflush s.top sys).map fun r => ⟨r.ok, { s with top := r.strm }, r.sent, r.sys⟩
  | some .gzip => gzipflush conn s sys
  | some .lz4 => lzflush conn s sys
  | some .snappy => snappyflush conn s sys

/-! ## What a connection does to its stream -/

/-- A call on the stream with its outcome. -/
inductive StrmEvent
  | write (m : Text) (ok : Bool)
  | flush (ok : Bool) (sys : List SysOut)
  | reset
  deriving DecidableEq, Repr

/-- What is recorded of a connection: the bytes that a metric has in the stream, the bytes the
socket accepted during a flush, and what is buffered when a connection was made. -/
inductive StrmLog
  | written (bytes : List Octet)
  | flushed (conn : Nat) (ok : Bool) (sent : List Octet)
  | connected (conn : Nat) (buffered : List Octet)
  deriving DecidableEq, Repr

/-- A call on the stream. One whose outcome is not the one the stream gives has no meaning. -/
def zStrmStep (conn : Nat) (s : Strm) : StrmEvent → Option (Strm × List StrmLog)
  | .write m ok =>
    match sockwrite conn m s.top, ok with
    | some top, true => some ({ s with top }, [.written (octets conn s.top.count m)])
    | none, false => some (s, [])
    | _, _ => none
  | .flush ok sys =>
    match strmflush conn s sys with
    | some ⟨ok', s', sent, []⟩ => if ok' = ok then some (s', [.flushed conn ok sent]) else none
    | _ => none
  | .reset => some ({ s with top := s.top.reset }, [])

section
variable {conn : Nat} {s s' : Strm} {l : List StrmLog} {m : Text} {ok : Bool} {sys : List SysOut}

theorem zStrmStep_write (h : zStrmStep conn s (.write m ok) = some (s', l)) :
    (s' = { s with
        top := ⟨s.top.bytes ++ octets conn s.top.count m, s.top.count + m.length⟩ } ∧
      l = [.written (octets conn s.top.count m)]) ∨ (s' = s ∧ l = []) := by
  simp only [zStrmStep, sockwrite] at h
  by_cases hfull : s.top.bytes.length + m.length > metricBufsiz
  · rw [if_pos hfull] at h
    cases ok with
    | true => cases h
    | false => cases h; exact .inr ⟨rfl, rfl⟩
  · rw [if_neg hfull] at h
    cases ok with
    | true => cases h; exact .inl ⟨rfl, rfl⟩
    | false => cases h

theorem zStrmStep_write_fits (h : s.top.bytes.length + m.length ≤ metricBufsiz) :
    zStrmStep conn s (.write m true) = some ({ s with
      top := ⟨s.top.bytes ++ octets conn s.top.count m, s.top.count + m.length⟩ },
        [.written (octets conn s.top.count m)]) := by
  simp only [zStrmStep, sockwrite, if_neg (Nat.not_lt.2 h)]

theorem zStrmStep_write_full (h : metricBufsiz < s.top.bytes.length + m.length) :
    zStrmStep conn s (.write m false) = some (s, []) := by
  simp only [zStrmStep, sockwrite, if_pos h]

theorem zStrmStep_flush (h : zStrmStep conn s (.flush ok sys) = some (s', l)) :
    ∃ sent, strmflush conn s sys = some ⟨ok, s', sent, []⟩ ∧ l = [.flushed conn ok sent] := by
  simp only [zStrmStep] at h
  split at h
  case h_2 => cases h
  case h_1 ok' s₁ sent hflush =>
    split at h
    case isFalse => cases h
    case isTrue heq => cases h; exact ⟨sent, heq ▸ hflush, rfl⟩

end

/-- The calls that `server_queuesend` makes on the stream when it meets the outcomes `outs`: a
metric is written until the stream has taken it. `flushes` has the results of the calls made in each
flush. -/
def callEvents : List Text → List SendOutcome → List (List SysOut) → Option (List StrmEvent)
  | _, [], [] => some []
  | batch, .poll _ :: outs, flushes => callEvents batch outs flushes
  | m :: batch, .write .written :: outs, flushes =>
    (callEvents batch outs flushes).map (.write m true :: ·)
  | m :: batch, .write .enobufs :: outs, flushes =>
    (callEvents (m :: batch) outs flushes).map (.write m false :: ·)
  | batch, .flush ok :: outs, sys :: flushes =>
    (callEvents batch outs flushes).map (.flush ok sys :: ·)
  | _, _, _ => none

/-- A connection with its stream. `gen` is the number of connections made so far. -/
structure StrmConn where
  conn : ServerConn
  strm : Strm
  gen : Nat
  deriving DecidableEq, Repr

/-- A call of `server_queuesend` with everything it meets. -/
structure SendCall where
  bsize : Nat
  squeue : Queue Text
  dropped : Nat
  outs : List SendOutcome
  flushes : List (List SysOut)
  deriving DecidableEq, Repr

/-- The metrics a call takes from the queue. -/
def SendCall.batch (call : SendCall) : List Text :=
  match queueDequeueVector call.squeue call.bsize with
  | none => []
  | some (_, vector) => batchOf vector

/-- `server.c:1010 server_queuesend` on the stream. When the connection is closed at the end, the
buffer is given up. -/
def strmQueuesend (c : StrmConn) (call : SendCall) : Option (StrmConn × List StrmLog) :=
  match serverQueuesend c.conn call.bsize call.squeue call.dropped call.outs with
  | none => none
  | some r =>
    match callEvents call.batch call.outs call.flushes with
    | none => none
    | some evs =>
      match Machine.run (zStrmStep c.gen) c.strm
          (evs ++ if r.conn.fd < 0 ∧ StrmOp.reset ∈ r.ops then [.reset] else []) with
      | none => none
      | some (strm, logs) => some ({ c with conn := r.conn, strm }, logs.flatten)

theorem strmQueuesend_eq_some {c c' : StrmConn} {call : SendCall} {l : List StrmLog} :
    strmQueuesend c call = some (c', l) ↔ ∃ r evs strm logs,
      serverQueuesend c.conn call.bsize call.squeue call.dropped call.outs = some r ∧
      callEvents call.batch call.outs call.flushes = some evs ∧ Machine.run (zStrmStep c.gen) c.strm
        (evs ++ if r.conn.fd < 0 ∧ StrmOp.reset ∈ r.ops then [.reset] else []) = some (strm, logs) ∧
      c' = { c with conn := r.conn, strm } ∧ l = logs.flatten := by
  rw [strmQueuesend]
  constructor
  · intro h
    split at h
    case h_1 => cases h
    case h_2 r hr =>
      split at h
      case h_1 => cases h
      case h_2 evs hevs =>
        split at h
        case h_1 => cases h
        case h_2 strm logs hrun =>
          cases h
          exact ⟨r, evs, strm, logs, hr, hevs, hrun, rfl, rfl⟩
  · rintro ⟨r, evs, strm, logs, hr, hevs, hrun, rfl, rfl⟩
    simp only [hr, hevs, hrun]

/-- How a call of `server_connect` ends: before it touches the stream, in the set-up of the
compressor or of TLS, or with a connection. -/
inductive ConnectOutcome
  | unreachable (counted : Bool)
  | setupFailed
  | connected (fd : Int)
  deriving DecidableEq, Repr

/-- `server.c:852`, the end of `server_connect`: only the buffer of the first stream is emptied. -/
def serverConnect (c : StrmConn) : ConnectOutcome → StrmConn × List StrmLog
  | .unreachable counted =>
    if counted then ({ c with conn := (serverAddFailure ⟨c.conn, [], []⟩).conn }, []) else (c, [])
  | .setupFailed =>
    ({ c with
      conn := { (serverAddFailure ⟨c.conn, [], []⟩).conn with fd := -1 }
      strm := { c.strm with top := c.strm.top.reset } }, [])
  | .connected fd =>
    let strm := { c.strm with top := c.strm.top.reset }
    ({ conn := { c.conn with fd }, strm, gen := c.gen + 1 },
      [.connected (c.gen + 1) (strm.top.bytes ++ strm.next.bytes)])

/-- What the reader thread of a server does with a connection. -/
inductive ConnStep
  | connect (o : ConnectOutcome)
  | queuesend (call : SendCall)
  | disconnect
  | lastFlush (ok : Bool) (sys : List SysOut)
  deriving DecidableEq, Repr

/-- A connection as a machine over these steps: `server.c:1226` connects where there is no
connection, `server.c:1355` flushes a last time and closes it. -/
def connStep (c : StrmConn) : ConnStep → Option (StrmConn × List StrmLog)
  | .connect o => if c.conn.fd < 0 then some (serverConnect c o) else some (c, [])
  | .queuesend call => strmQueuesend c call
  | .disconnect => some ({ c with conn := (serverDisconnect ⟨c.conn, [], []⟩).conn }, [])
  | .lastFlush ok sys =>
    if 0 ≤ c.conn.fd then
      match zStrmStep c.gen c.strm (.flush ok sys) with
      | none => none
      | some (strm, logs) =>
        some ({ c with conn := (serverDisconnect ⟨c.conn, [], []⟩).conn, strm }, logs)
    else some (c, [])

/-- A connection of a new server. -/
def newConn (codec : Option Codec) : StrmConn where
  conn := { fd := -1, alive := false, failure := 0, metrics := 0 }
  strm := { codec, top := ⟨[], 0⟩, next := ⟨[], 0⟩ }
  gen := 0

end CarbonRelay
