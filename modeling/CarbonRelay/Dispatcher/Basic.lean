import CarbonRelay.Lib.Machine
import CarbonRelay.Lib.Text

/-!
# Connections

The model of how `dispatcher.c` serves a connection. `dispatchReceivedMetrics` cuts the received
bytes into lines, cleans them and routes each one; `dispatchProcessDests` sends a routed metric to
its destinations, as far as these take it; `dispatchConnection` resumes what is left to send, reads,
and processes what was read. The router is a parameter (`route`), and what the system answers is an
input: the bytes that are read, the clock, the random delay, and whether `server_send` takes a
metric. A destination is any type. What happens is recorded as events.
-/

namespace CarbonRelay

universe u

/-- `struct timeval`. -/
structure Timeval where
  sec : Int
  usec : Int
  deriving DecidableEq, Repr

/-- `collector.h:27 timediff`, in microseconds. -/
def timediff (x y : Timeval) : Int :=
  if x.sec < y.sec then (y.sec - x.sec) * 1000000 + (y.usec - x.usec) else y.usec - x.usec

/-- The settings of a dispatcher. -/
structure Dispatcher where
  allowedChars : Text
  tagsSupported : Bool
  maxinplen : Int
  maxmetriclen : Int
  deriving DecidableEq, Repr

/-- `dispatcher.c:1797 dispatch_init`: tags are supported unless `;` is an allowed character. -/
def dispatchInit (allowedChars : Text) (maxinplen maxmetriclen : Int) : Dispatcher where
  allowedChars
  tagsSupported := !allowedChars.contains ';'
  maxinplen
  maxmetriclen

/-- The streams a connection reads from. -/
inductive Transport
  | plain
  | gzip
  | lz4
  | snappy
  deriving DecidableEq, Repr

/-- `dispatcher.c:84 struct _connection`. The first `buflen` bytes of the buffer are `buf`, and the
first `destlen` destinations are `dests`. -/
structure Connection (δ : Type u) where
  transport : Transport
  buf : Text
  bufsize : Nat
  dests : List δ
  lastwork : Timeval
  maxsenddelay : Int
  needmore : Bool
  isaggr : Bool
  isudp : Bool
  deriving DecidableEq

/-- A connection, the counters of its dispatcher, and how many questions the system has answered. -/
structure DispatchState (δ : Type u) where
  conn : Connection δ
  metrics : Nat
  discards : Nat
  blackholes : Nat
  tick : Nat
  deriving DecidableEq

/-- What the system answers to the question with a given number: whether `server_send` takes a
metric, by force or not, the time, and a random number. -/
structure DispatchEnv where
  send : Nat → Bool → Bool
  clock : Nat → Timeval
  rand : Nat → Nat

/-- What happens on a connection: a line is discarded, a metric is routed, a destination takes its
metric. -/
inductive DispatchEvent (δ : Type u)
  | discarded
  | routed (metric : Text) (firstspace : Nat) (dests : List δ)
  | sent (dest : δ)
  deriving DecidableEq

variable {δ : Type u}

/-! ## Sending -/

/-- `dispatcher.c:1395`, the destinations in turn, up to the first one that does not take its
metric. The result has the destinations that are left. -/
def sendDests (E : DispatchEnv) (force : Bool) :
    Nat → List δ → List δ × Nat × List (DispatchEvent δ)
  | tick, [] => ([], tick, [])
  | tick, d :: ds =>
    if E.send tick force then
      let (left, tick, es) := sendDests E force (tick + 1) ds
      (left, tick, .sent d :: es)
    else (d :: ds, tick + 1, [])

/-- `dispatcher.c:1384 dispatch_process_dests`. -/
def dispatchProcessDests (E : DispatchEnv) (now : Timeval) (s : DispatchState δ) :
    Bool × DispatchState δ × List (DispatchEvent δ) :=
  if s.conn.dests.isEmpty then (true, s, [])
  else
    let maxsenddelay : Int :=
      if s.conn.maxsenddelay = 0 then (E.rand s.tick % 750 + 250 : Nat) * 1000
      else s.conn.maxsenddelay
    let force := s.conn.isaggr || decide (maxsenddelay < timediff s.conn.lastwork now)
    let (left, tick, es) := sendDests E force (s.tick + 1) s.conn.dests
    if left.isEmpty then
      (true, { s with conn := { s.conn with dests := [], lastwork := now, maxsenddelay }, tick },
        es)
    else (false, { s with conn := { s.conn with dests := left, maxsenddelay }, tick }, es)

/-! ## Lines -/

/-- The line that is being built: what is in `conn->metric` before `q`, the offset of `firstspace`,
and `search_tags`. -/
structure LineState where
  metric : Text
  firstspace : Option Nat
  searchTags : Bool
  deriving DecidableEq, Repr

/-- At the start of a line. -/
def newLine (searchTags : Bool) : LineState := ⟨[], none, searchTags⟩

/-- What ends a line. -/
def isNewline (c : Char) : Bool := c = '\n' || c = '\r'

/-- `dispatcher.c:1486`, what separates the parts of a line. -/
def isSeparator (c : Char) : Bool := c = ' ' || c = '\t' || c = '.'

/-- Tabs are replaced in the buffer. -/
def tabToSpace (c : Char) : Char := if c = '\t' then ' ' else c

def LineState.push (l : LineState) (c : Char) : LineState := { l with metric := l.metric ++ [c] }

/-- `dispatcher.c:1496`, a separator within a line. -/
def pushSeparator (l : LineState) (c : Char) : LineState :=
  if c = ' ' ∧ l.firstspace = none then
    let metric := if l.metric.getLast? = some '.' then l.metric.dropLast else l.metric
    { l with metric := metric ++ [' '], firstspace := some metric.length }
  else if l.metric.getLast? ≠ some c ∧ l.firstspace ≠ some (l.metric.length - 1) then l.push c
  else l

/-- `dispatcher.c:1514`, the characters that are copied as they are. -/
def copied (D : Dispatcher) (l : LineState) (c : Char) : Bool :=
  c ≠ '\x00' && (l.firstspace.isSome || ('a' ≤ c && c ≤ 'z') || ('A' ≤ c && c ≤ 'Z') ||
    ('0' ≤ c && c ≤ '9') || D.allowedChars.contains c)

/-- `dispatcher.c:1486`, a character of a line, other than its end. A separator in front is skipped.
-/
def parseChar (D : Dispatcher) (l : LineState) (c : Char) : LineState :=
  if isSeparator c then if l.metric.isEmpty then l else pushSeparator l (tabToSpace c)
  else if l.searchTags && c = ';' then
    { metric := l.metric ++ [c], firstspace := some l.metric.length, searchTags := false }
  else if copied D l c then l.push c
  else l.push '_'

/-- `dispatcher.c:1445`, the end of a line: the metric with its newline and the offset of
`firstspace`, unless the line is discarded. -/
def lineEnd (D : Dispatcher) (l : LineState) : Option (Text × Nat) :=
  match l.firstspace with
  | none => none
  | some firstspace =>
    if l.metric.isEmpty ∨ D.maxinplen - 1 < l.metric.length ∨ D.maxmetriclen < firstspace then none
    else some (l.metric ++ ['\n'], firstspace)

/-! ## Received metrics -/

/-- `dispatcher.c:1530`, what is left in the buffer, and whether it is the start of a line. -/
def leaveBuffer (buf : Text) (needmore : Bool) (s : DispatchState δ) : DispatchState δ :=
  { s with conn := { s.conn with buf, needmore } }

/-- A routed metric: the destinations are those of the router, whatever was there before. -/
def routeMetric (E : DispatchEnv) (route : Text → Nat → List δ × Nat) (metric : Text)
    (firstspace : Nat) (s : DispatchState δ) : DispatchState δ :=
  let (dests, blackholed) := route metric firstspace
  { s with
    conn := { s.conn with dests, lastwork := E.clock s.tick, maxsenddelay := 0 }
    metrics := s.metrics + 1
    blackholes := s.blackholes + blackholed
    tick := s.tick + 1 }

/-- `dispatcher.c:1438`, the loop over the buffer: `kept` has what was passed behind `lastnl`, with
its tabs replaced. A discarded line leaves `search_tags` as it is. -/
def receivedLoop (D : Dispatcher) (E : DispatchEnv) (route : Text → Nat → List δ × Nat) :
    Text → Text → LineState → DispatchState δ → DispatchState δ × List (DispatchEvent δ)
  | [], kept, l, s => (leaveBuffer kept (!l.metric.isEmpty) s, [])
  | c :: rest, kept, l, s =>
    if isNewline c then
      match lineEnd D l with
      | none =>
        let (s, es) := receivedLoop D E route rest [] (newLine l.searchTags)
          { s with discards := s.discards + 1 }
        (s, .discarded :: es)
      | some (metric, firstspace) =>
        let s := routeMetric E route metric firstspace s
        let routed := DispatchEvent.routed metric firstspace s.conn.dests
        match dispatchProcessDests E s.conn.lastwork s with
        | (false, s, es) => (leaveBuffer rest false s, routed :: es)
        | (true, s, es) =>
          let (s, es') := receivedLoop D E route rest [] (newLine D.tagsSupported) s
          (s, routed :: es ++ es')
    else if isSeparator c && l.metric.isEmpty then receivedLoop D E route rest [] l s
    else receivedLoop D E route rest (kept ++ [tabToSpace c]) (parseChar D l c) s

/-- `dispatcher.c:1420 dispatch_received_metrics`. -/
def dispatchReceivedMetrics (D : Dispatcher) (E : DispatchEnv) (route : Text → Nat → List δ × Nat)
    (s : DispatchState δ) : DispatchState δ × List (DispatchEvent δ) :=
  receivedLoop D E route s.conn.buf [] (newLine D.tagsSupported) s

/-- Bytes that are read fit into the free part of the buffer, of which the last byte is not used. -/
def readInto (bytes : Text) (s : DispatchState δ) : Option (DispatchState δ) :=
  if bytes.isEmpty ∨ s.conn.bufsize - 1 < s.conn.buf.length + bytes.length then none
  else some { s with conn := { s.conn with buf := s.conn.buf ++ bytes } }

/-! ## Connections -/

/-- What `strmread` returns. -/
inductive ReadResult
  | data (bytes : Text)
  | eof
  | again
  | error
  deriving DecidableEq, Repr

/-- What the streams of a connection return while it is served once: `strmread`, and `strmreadbuf`
until it returns no more data, in the end because it is out of memory or not. -/
structure ReadInput where
  read : ReadResult
  readbuf : List Text
  enomem : Bool
  deriving DecidableEq, Repr

/-- What `dispatch_connection` returns: the connection is stalled or closed (0), it is to be tried
again (-1), or it was served (1). -/
inductive Served
  | stalled
  | closed
  | retry
  | done
  deriving DecidableEq, Repr

/-- `strmreadbuf` reads what a compressed stream still holds. Only `gzip` and `lz4` have something
there. -/
def Transport.buffered : Transport → Bool
  | .gzip | .lz4 => true
  | .plain | .snappy => false

/-- `dispatcher.c:1636`, the loop over what `strmreadbuf` returns. -/
def readbufLoop (D : Dispatcher) (E : DispatchEnv) (route : Text → Nat → List δ × Nat) :
    List Text → DispatchState δ → Option (DispatchState δ × List (DispatchEvent δ))
  | [], s => some (s, [])
  | bytes :: rest, s =>
    match readInto bytes s with
    | none => none
    | some s =>
      let (s, es) := dispatchReceivedMetrics D E route s
      match readbufLoop D E route rest s with
      | none => none
      | some (s, es') => some (s, es ++ es')

/-- `dispatcher.c:1634`, the buffer is processed, and what the stream still holds. -/
def processBuffer (D : Dispatcher) (E : DispatchEnv) (route : Text → Nat → List δ × Nat)
    (readbuf : List Text) (s : DispatchState δ) :
    Option (DispatchState δ × List (DispatchEvent δ)) :=
  let (s, es) := dispatchReceivedMetrics D E route s
  if s.conn.transport.buffered then
    match readbufLoop D E route readbuf s with
    | none => none
    | some (s, es') => some (s, es ++ es')
  else some (s, es)

/-- `dispatcher.c:1662`, the end of the stream or an error (`ended`). -/
def endConnection (ended : Bool) (s : DispatchState δ) : Served × DispatchState δ :=
  if ended || s.conn.isudp then
    if s.conn.isaggr || s.conn.isudp then (.retry, leaveBuffer [] true s)
    else if s.conn.dests.isEmpty then (.closed, s)
    else (.done, s)
  else (.done, s)

/-- `dispatcher.c:1603 dispatch_connection`. -/
def dispatchConnection (D : Dispatcher) (E : DispatchEnv) (route : Text → Nat → List δ × Nat)
    (start : Timeval) (input : ReadInput) (s : DispatchState δ) :
    Option (Served × DispatchState δ × List (DispatchEvent δ)) :=
  match dispatchProcessDests E start s with
  | (false, s, es) => some (.stalled, s, es)
  | (true, s, es) =>
    -- out of memory while reading from the buffer of the stream counts as an error
    let process (s : DispatchState δ) : Option
        (Served × DispatchState δ × List (DispatchEvent δ)) :=
      match processBuffer D E route input.readbuf s with
      | none => none
      | some (s, es') =>
        let (served, s) := endConnection (s.conn.transport.buffered && input.enomem) s
        some (served, s, es ++ es')
    if !s.conn.needmore && !s.conn.buf.isEmpty then process s
    else
      match input.read with
      | .data bytes => (readInto bytes s).bind process
      | .again => some (.retry, s, es)
      | .eof | .error =>
        let (served, s) := endConnection true s
        some (served, s, es)

end CarbonRelay
