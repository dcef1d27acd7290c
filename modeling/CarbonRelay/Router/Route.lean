import CarbonRelay.Router.Rewrite
import CarbonRelay.Cluster.Basic

/-!
# Routing a metric

`router_route` takes a metric through the routes of the table: every rule that matches sends it to
its destinations, and a rule with `stop` ends the run. A route made by the optimiser holds a group
of rules, and the stub route of an aggregate the rule for its own destinations;
`router_route_intern` calls itself for these. The model keeps a log of the rules that fire and of
what is handed to aggregators.
-/

namespace CarbonRelay

/-! ## Tables -/

/-- What `send to` can name: the cluster `blackhole`, or a cluster of servers. -/
inductive Target
  | blackhole
  | cluster (cl : Cluster)
  deriving DecidableEq, Repr

/-- A rule (`router.h struct _route`) with its list of destinations, which is not empty. Rules are
objects: `id` stands for the address. The stub rules of `router_add_stubroute` leave `nmatch` and
`masq` without a value, as `*` leaves `nmatch`; these fields are then arbitrary. -/
structure RuleOf (D : Type) extends Matcher where
  id : Nat
  stop : Bool
  masq : Option Text
  dest : D
  dests : List D
  deriving DecidableEq, Repr

/-- `router.h struct _validate`; the action is to log or to drop. -/
structure Validation where
  rule : Matcher
  log : Bool
  deriving DecidableEq, Repr

/-- A destination of a rule. An aggregator is known by a number and the names of its computes. -/
inductive Dest
  | target (t : Target)
  | aggregation (aggr : Nat) (templates : List Text)
  | rewrite (replacement : Text)
  | validation (v : Validation)
  | stub (routes : List (RuleOf Target))
  deriving DecidableEq, Repr

/-- A rule of the configuration. -/
abbrev Rule := RuleOf Dest

/-- An entry of the table: a rule, or a group of the optimiser with its name, which is the common
tail of its members in reverse. -/
inductive Route
  | rule (r : Rule)
  | group (name : Text) (members : List Rule)
  deriving DecidableEq, Repr

/-! ## Runs -/

/-- What a call is given besides the table and the metric: the regex library, the bytes around the
line, the contents of `pmatch` before it is used, the room for destinations, the source address and
the time for the formats, and what `ch_get_nodes` depends on. -/
structure RouteEnv where
  regex : Ere.Engine
  outside : Int → Char
  garbage : Nat → Span
  retsize : Nat
  srcaddr : Text
  now : Text
  hashpos : ChType → Text → Nat
  past : Nat
  fuel : Nat

/-- What happens while a metric is routed. A call of `aggregator_putmetric` is recorded with the
data of the metric and the output name for each compute, where it has one. -/
inductive RouteEvent
  | fired (rule : Nat)
  | aggregated (aggr : Nat) (data : Text) (names : List (Option Text))
  | logged (metric : Text)
  deriving DecidableEq, Repr

/-- The results of a run: `blackholed`, `ret` and the log. -/
structure RouteOut where
  blackholed : Bool
  ret : List (Server × Text)
  log : List RouteEvent
  deriving DecidableEq, Repr

/-- The variables of one call of `router_route_intern`. Of the pointer `q` it matters whether it is
set, and whether it points to the end of the name. -/
structure RouteFrame where
  metric : Text
  firstspace : Nat
  pmatch : Nat → Span
  q : Option Bool
  stop : Bool
  wassent : Bool

/-- The frame of a new call. -/
def RouteEnv.frame (env : RouteEnv) (metric : Text) (firstspace : Nat) : RouteFrame where
  metric
  firstspace
  pmatch := env.garbage
  q := none
  stop := false
  wassent := false

/-- How a part of a call ends: `full` when the destination slots are used up, which ends the call.
-/
structure RouteStep where
  full : Bool
  frame : RouteFrame
  out : RouteOut

/-! ## Formats -/

/-- A text that was formatted into `newmetric`, with the length that `snprintf` returns for it. -/
def formatted (t : Text) : Option Text :=
  if t.length < metricBufsiz then some t
  else if t.length = metricBufsiz then some (t.take (metricBufsiz - 1) ++ ['\x00'])
  else none

/-- `router.c:2913 router_format_linemodeip`. -/
def routerFormatLinemodeip (env : RouteEnv) (metric : Text) : Option Text :=
  formatted (env.srcaddr ++ [' '] ++ metric)

/-- `router.c:2924 router_format_syslog`. -/
def routerFormatSyslog (env : RouteEnv) (metric : Text) : Option Text :=
  formatted ("<30>1 ".toList ++ env.now ++ [' '] ++ env.srcaddr ++
    " carbon-c-relay - - - ".toList ++ metric)

/-- `router.c:3023 produce_metric`. -/
def produceMetric (env : RouteEnv) (metric : Text) (s : Server) : Option Text :=
  match s.type with
  | .syslogmode => routerFormatSyslog env metric
  | .linemode => some metric

/-! ## Destinations -/

/-- What a destination does besides changing the frame and the output: `full` ends the call, `skip`
the loop over the destinations. -/
structure DestStep where
  full : Bool
  skip : Bool
  frame : RouteFrame
  out : RouteOut

/-- `set_metric` for a list of servers, without a look at the slots. -/
def setMetrics (format : Server → Option Text) : List Server → RouteOut → Option RouteOut
  | [], out => some out
  | s :: l, out =>
    match format s with
    | none => none
    | some t => setMetrics format l { out with ret := out.ret ++ [(s, t)] }

/-- The loop over the servers of a `forward` or `file` cluster: whether the slots were used up. -/
def pushServers (retsize : Nat) (format : Server → Option Text) :
    List Server → RouteOut → Option (Bool × RouteOut)
  | [], out => some (false, out)
  | s :: l, out =>
    if retsize < out.ret.length + 1 then some (true, out)
    else
      match format s with
      | none => none
      | some t => pushServers retsize format l { out with ret := out.ret ++ [(s, t)] }

/-- One server, if there is one. -/
def pushServer (retsize : Nat) (format : Server → Option Text) (s : Option Server)
    (out : RouteOut) : Option (Bool × RouteOut) :=
  match s with
  | none => none
  | some s => pushServers retsize format [s] out

/-- The path that decides the nodes of a consistent-hash cluster: with `route using`, what the
rewriter makes of it. -/
def hashedPath {D : Type} (env : RouteEnv) (w : RuleOf D) (fr : RouteFrame) : Option Text :=
  match w.masq with
  | none => some (fr.metric.take fr.firstspace)
  | some masq =>
    (routerRewriteMetric env.outside fr.metric fr.firstspace masq w.nmatch fr.pmatch).map
      fun (line, firstspace) => line.take firstspace

/-- The nodes that `ch_get_nodes` puts into the slots. A slot that was not filled would be read. -/
def ringNodes (env : RouteEnv) (cl : Cluster) (path : Text) : Option (List Server) :=
  match cl.ring with
  | none => none
  | some ring =>
    (chGetNodes env.hashpos env.past env.fuel ring cl.replFactor path).filter
      fun nodes => nodes.length = cl.replFactor

/-- `router.c:3101`, a consistent-hash cluster: whether the slots were used up, and whether the
metric was sent. -/
def pushNodes {D : Type} (env : RouteEnv) (w : RuleOf D) (cl : Cluster) (fr : RouteFrame)
    (out : RouteOut) : Option (Bool × Bool × RouteOut) :=
  if env.retsize < out.ret.length + cl.replFactor then some (true, false, out)
  else
    match hashedPath env w fr with
    | none => some (false, false, out)
    | some path =>
      match ringNodes env cl path with
      | none => none
      | some nodes =>
        (setMetrics (produceMetric env fr.metric) nodes out).map fun out => (false, true, out)

/-- `router.c:3037`, the servers of a cluster: whether the slots were used up, and whether the
metric was sent. -/
def pushCluster {D : Type} (env : RouteEnv) (w : RuleOf D) (cl : Cluster) (fr : RouteFrame)
    (out : RouteOut) : Option (Bool × Bool × RouteOut) :=
  let produce := produceMetric env fr.metric
  match cl.type with
  | .filelogip =>
    (pushServers env.retsize (fun _ => routerFormatLinemodeip env fr.metric) cl.servers out).map
      fun (full, out) => (full, true, out)
  | .filelog | .forward =>
    (pushServers env.retsize produce cl.servers out).map fun (full, out) => (full, true, out)
  | .anyof =>
    let hash := Fnv1a.hash32 (fr.metric.take fr.firstspace) % cl.servers.length
    (pushServer env.retsize produce cl.servers[hash]? out).map fun (full, out) => (full, true, out)
  | .failover | .lb =>
    (pushServer env.retsize produce cl.servers[0]? out).map fun (full, out) => (full, true, out)
  | .carbonCh | .fnv1aCh | .jumpCh => pushNodes env w cl fr out

/-- A destination that `send to` names. -/
def targetStep {D : Type} (env : RouteEnv) (w : RuleOf D) (d : Target) (fr : RouteFrame)
    (out : RouteOut) : Option DestStep :=
  match d with
  | .blackhole => some ⟨false, false, fr, { out with blackholed := true }⟩
  | .cluster cl =>
    (pushCluster env w cl fr out).map fun (full, sent, out) =>
      ⟨full, false, { fr with wassent := fr.wassent || sent }, out⟩

/-! ## Rules -/

section
variable {D : Type}

/-- The loop over the destinations of a rule that matched. `step` does what one destination does; it
is told whether the destination is the last one. -/
def routeDests (step : RuleOf D → D → Bool → RouteFrame → RouteOut → Option DestStep)
    (w : RuleOf D) : List D → RouteFrame → RouteOut → Option RouteStep
  | [], fr, out => some ⟨false, fr, out⟩
  | d :: ds, fr, out =>
    match step w d ds.isEmpty fr out with
    | none => none
    | some s =>
      if s.full then some ⟨true, s.frame, s.out⟩
      else if s.skip then some ⟨false, s.frame, s.out⟩
      else routeDests step w ds s.frame s.out

/-- A rule, which does something only if it matches. -/
def routeRule (env : RouteEnv)
    (step : RuleOf D → D → Bool → RouteFrame → RouteOut → Option DestStep) (w : RuleOf D)
    (fr : RouteFrame) (out : RouteOut) : Option RouteStep :=
  let (ret, pmatch) :=
    routerMetricMatches env.regex env.outside w.toMatcher fr.metric fr.firstspace fr.pmatch
  if ret then
    routeDests step w (w.dest :: w.dests) { fr with pmatch, stop := w.stop }
      { out with log := out.log ++ [.fired w.id] }
  else some ⟨false, { fr with pmatch }, out⟩

/-- The loop of `router_route_intern` over rules. -/
def routeRules (env : RouteEnv)
    (step : RuleOf D → D → Bool → RouteFrame → RouteOut → Option DestStep) :
    List (RuleOf D) → RouteFrame → RouteOut → Option RouteStep
  | [], fr, out => some ⟨false, fr, out⟩
  | w :: r, fr, out =>
    match routeRule env step w fr out with
    | none => none
    | some s => if s.full ∨ s.frame.stop then some s else routeRules env step r s.frame s.out

/-- The end of a call: the value returned, and the outputs. -/
def RouteStep.finish (s : RouteStep) : Bool × RouteOut :=
  if s.full then (true, s.out)
  else
    (s.frame.stop, { s.out with blackholed := s.out.blackholed || !s.frame.wassent })

end

/-- The destinations of the rule of a stub: these are only clusters. -/
def stubStep (env : RouteEnv) (w : RuleOf Target) (d : Target) (_last : Bool) (fr : RouteFrame)
    (out : RouteOut) : Option DestStep :=
  targetStep env w d fr out

/-- What surrounds the rest of a line. -/
def RouteEnv.behind (env : RouteEnv) (line : Text) (n : Nat) : RouteEnv :=
  { env with outside := fun i => byteAt env.outside line (i + n) }

/-- `router.c:3168`, the rule behind a stub, for the metric without the stub. -/
def routeStub (env : RouteEnv) (w : Rule) (routes : List (RuleOf Target)) (fr : RouteFrame)
    (out : RouteOut) : Option RouteOut :=
  let n := w.pattern.length
  let env := env.behind fr.metric n
  (routeRules env (stubStep env) routes (env.frame (fr.metric.drop n) (fr.firstspace - n)) out).map
    fun s => s.finish.2

/-- `aggregator.c:199`, the name that a metric has in a compute. -/
def outputName (outside : Int → Char) (metric : Text) (firstspace : Nat) (nmatch : Nat)
    (pmatch : Nat → Span) (template : Text) : Option Text :=
  if nmatch = 0 then some template
  else
    (routerRewriteMetric outside metric firstspace template nmatch pmatch).map
      fun (line, firstspace) => line.take firstspace

/-- `router.c:3187`, whether the data of the metric is valid: the text between the first space and
the last byte of the line. -/
def validData (env : RouteEnv) (v : Validation) (fr : RouteFrame) : Bool × (Nat → Span) :=
  let start := fr.firstspace + 1
  routerMetricMatches env.regex (fun i => byteAt env.outside fr.metric (i + start)) v.rule
    (fr.metric.drop start) (fr.metric.length - 1 - start) fr.pmatch

/-- A destination of a rule. The source reads the data of a validation and of a stub from the first
destination, which is the only one that can be one. -/
def destStep (env : RouteEnv) (w : Rule) (d : Dest) (last : Bool) (fr : RouteFrame)
    (out : RouteOut) : Option DestStep :=
  match d with
  | .target t => targetStep env w t fr out
  | .aggregation aggr templates =>
    -- the destinations behind it are meant for the stub
    some ⟨false, true, { fr with wassent := true }, { out with log := out.log ++
      [.aggregated aggr (fr.metric.drop (fr.firstspace + 1)) (templates.map
        (outputName env.outside fr.metric fr.firstspace w.nmatch fr.pmatch))] }⟩
  | .rewrite replacement =>
    match routerRewriteMetric env.outside fr.metric fr.firstspace replacement w.nmatch
      fr.pmatch with
    | none => some ⟨false, false, fr, out⟩
    | some (metric, firstspace) => some ⟨false, false, { fr with metric, firstspace }, out⟩
  | .stub routes =>
    (routeStub env w routes fr out).map fun out =>
      ⟨false, false, { fr with wassent := fr.wassent || !out.blackholed }, out⟩
  | .validation v =>
    let (ret, pmatch) := validData env v fr
    if ret then some ⟨false, false, { fr with pmatch }, out⟩
    else
      let fr := { fr with pmatch, stop := fr.stop || last }
      if v.log then
        some ⟨false, true, { fr with wassent := true },
          { out with log := out.log ++ [.logged fr.metric] }⟩
      else some ⟨false, true, fr, out⟩

/-! ## The table -/

/-- Whether the name, read on, is what a path ends with at some place, read backwards. -/
def tailOccurs (name : Text) : Text → Bool
  | [] => false
  | c :: s => name.isPrefixOf (c :: s) || tailOccurs name s

/-- `router.c:2993`, the test for a group. For an empty path the loop is not entered, and `q` is
what it was before. -/
def groupTest (name : Text) (fr : RouteFrame) : Option Bool :=
  let path := fr.metric.take fr.firstspace
  if path = [] then fr.q else some (tailOccurs name path.reverse)

/-- The loop of `router_route_intern` over the table. -/
def routeTable (env : RouteEnv) : List Route → RouteFrame → RouteOut → Option RouteStep
  | [], fr, out => some ⟨false, fr, out⟩
  | .rule w :: r, fr, out =>
    match routeRule env (destStep env) w fr out with
    | none => none
    | some s => if s.full ∨ s.frame.stop then some s else routeTable env r s.frame s.out
  | .group name members :: r, fr, out =>
    match groupTest name fr with
    | none => none
    | some false =>
      let fr := { fr with q := some false }
      if fr.stop then some ⟨false, fr, out⟩ else routeTable env r fr out
    | some true =>
      match routeRules env (destStep env) members (env.frame fr.metric fr.firstspace) out with
      | none => none
      | some s =>
        let (stop, out) := s.finish
        -- the line is the buffer of the caller, its length is not
        let fr := { fr with q := some true, stop, metric := s.frame.metric }
        if stop then some ⟨false, fr, out⟩ else routeTable env r fr out

/-- `router.c:3238 router_route`: whether the metric counts as blackholed, and the outputs. -/
def routerRoute (env : RouteEnv) (routes : List Route) (metric : Text) (firstspace : Nat) :
    Option RouteOut :=
  (routeTable env routes (env.frame metric firstspace) ⟨false, [], []⟩).map fun s => s.finish.2

end CarbonRelay
