import CarbonRelay.Lib.Fnv1a
import CarbonRelay.Lib.Machine
import CarbonRelay.Lib.Traverse

/-!
# Aggregators

The model of `aggregator.c`: an aggregator collects values in buckets of `interval` seconds, one row
of buckets for each output name (an invocation), and writes one aggregate for each bucket when it is
old enough. Its three operations are atomic steps here: taking in a metric (`aggregatorPutmetric`),
the pass that marks and writes expired buckets (`aggregatorExpire`), and the pass that recycles them
(`aggregatorCleanup`). What the steps do is recorded as events. The arithmetic of `double` and the
sorting routine are parameters; so are the clock, the outcomes of the allocations and the random
splay, which are inputs of the steps. A step that reads outside of a bucket array or divides by zero
has no meaning (`none`). A read outside of the values of a bucket has one, since the relay goes on
with what it finds there: the aggregate is then not a value (`none` in the event).
-/

namespace CarbonRelay

universe u

/-- The operations on values of type `double`. `sq` is `pow(x, 2)`, `cmpEntry` the comparator of the
values, and `junk` what is in memory that was not written. `rank` is the rank of a percentile among
`cnt` values, `(int)(percentile / 100.0 * cnt + 0.9)`: rounding can move it by one, but not out of
the range it has in exact arithmetic. -/
structure FloatOps (V : Type u) where
  add : V → V → V
  sub : V → V → V
  div : V → V → V
  ofNat : Nat → V
  sq : V → V
  sqrt : V → V
  lt : V → V → Bool
  cmpEntry : V → V → Int
  junk : V
  rank : Nat → Nat → Nat
  rank_pos_iff : ∀ {percentile cnt}, percentile < 100 →
    (0 < rank percentile cnt ↔ 10 ≤ percentile * cnt)
  rank_le : ∀ {percentile cnt}, percentile < 100 → rank percentile cnt ≤ cnt

/-- The rank of a percentile in exact arithmetic. -/
def exactRank (percentile cnt : Nat) : Nat := (percentile * cnt + 90) / 100

theorem exactRank_pos_iff {percentile cnt : Nat} :
    0 < exactRank percentile cnt ↔ 10 ≤ percentile * cnt := by
  rw [exactRank, Nat.div_pos_iff]
  omega

theorem exactRank_le {percentile cnt : Nat} (h : percentile < 100) :
    exactRank percentile cnt ≤ cnt := by
  have hmul : percentile * cnt ≤ 100 * cnt := Nat.mul_le_mul_right cnt (by omega)
  rw [exactRank]
  omega

/-- `aggregator.h enum _aggr_compute_type`. -/
inductive ComputeType
  | sum
  | cnt
  | max
  | min
  | avg
  | medn
  | pctl
  | var
  | sdev
  deriving DecidableEq, Repr

/-- `aggregator.h enum _aggr_timestamp`. -/
inductive AggrTimestamp
  | start
  | middle
  | «end»
  deriving DecidableEq, Repr

/-- `aggregator.h:47`, the state of a bucket. -/
inductive BucketState
  | «open»
  | expire
  deriving DecidableEq, Repr

/-- `aggregator.h struct _aggr_bucket`. The array of values has one cell for each allocated place,
without a value where nothing was written yet. -/
structure Bucket (V : Type u) where
  state : BucketState
  start : Int
  cnt : Nat
  sum : V
  max : V
  min : V
  values : List (Option V)
  deriving DecidableEq

/-- `aggregator.h struct _aggr_invocations`. -/
structure Invocation (V : Type u) where
  metric : Text
  hash : Nat
  expire : Nat
  buckets : List (Bucket V)
  deriving DecidableEq

/-- `aggregator.h struct _aggr_computes`. The hash table is the list of its chains. -/
structure Compute (V : Type u) where
  type : ComputeType
  metric : Text
  invocationsHt : List (List (Invocation V))
  entriesNeeded : Bool
  percentile : Nat
  deriving DecidableEq

/-- `aggregator.h struct _aggregator`. -/
structure Aggregator (V : Type u) where
  interval : Nat
  expire : Nat
  tswhen : AggrTimestamp
  bucketcnt : Nat
  received : Nat
  sent : Nat
  dropped : Nat
  computes : List (Compute V)
  deriving DecidableEq

/-- What a step does: a value is counted in the bucket of compute `i`, name `metric` and time
`start`, with the outcome of the `realloc` of its values, if one is made; an aggregate is written
for that bucket, without a value if it is read from outside of the values; a metric is dropped. -/
inductive AggrEvent (V : Type u)
  | accepted (i : Nat) (metric : Text) (start epoch : Int) (val : V) (growth : Option Bool)
  | emitted (i : Nat) (metric : Text) (start ts : Int) (val : Option V)
  | dropped (i : Nat) (metric : Text)
  deriving DecidableEq

variable {V : Type u}

/-! ## Set-up -/

/-- `aggregator.h AGGR_HT_POW_SIZE`. -/
def aggrHtPowSize : Nat := 12

/-- `aggregator.c:48 aggregator_new`. The fields are narrower than the arguments. -/
def aggregatorNew (interval expire : Nat) (tswhen : AggrTimestamp) : Aggregator V where
  interval := interval % 2 ^ 16
  expire := expire % 2 ^ 16
  tswhen
  bucketcnt := ((expire + (interval - 1)) / interval + 1 + 1) % 2 ^ 8
  received := 0
  sent := 0
  dropped := 0
  computes := []

/-- The types of computes that keep all values. -/
def ComputeType.store : ComputeType → Bool
  | .medn | .pctl | .var | .sdev => true
  | _ => false

/-- The percentile of a compute, in a field of seven bits. A median is the 50th percentile. -/
def ComputeType.percentile (act : ComputeType) (pctl : Nat) : Nat :=
  (if act = .medn then 50 else pctl) % 2 ^ 7

/-- A compute without invocations. -/
def newCompute (metric : Text) (act : ComputeType) (pctl : Nat) : Compute V where
  type := act
  metric
  invocationsHt := List.replicate (2 ^ aggrHtPowSize) []
  entriesNeeded := act.store
  percentile := act.percentile pctl

/-- `aggregator.c:96 aggregator_add_compute`. -/
def aggregatorAddCompute (s : Aggregator V) (metric : Text) (act : ComputeType) (pctl : Nat) :
    Aggregator V :=
  { s with computes := s.computes ++ [newCompute metric act pctl] }

/-! ## Taking in a metric -/

/-- What the system answers while a metric is put into one compute. -/
structure PutOracle where
  invocationAlloc : Bool
  metricAlloc : Bool
  bucketsAlloc : Bool
  realloc : Bool
  rand : Nat
  deriving DecidableEq, Repr

/-- The chain of the hash table for a name with this hash. -/
def omhtbucket (omhash : Nat) : Nat :=
  (omhash >>> aggrHtPowSize ^^^ omhash) &&& (2 ^ aggrHtPowSize - 1)

/-- `aggregator.c:272`, a new invocation with its buckets, starting in the past. -/
def newInvocation (F : FloatOps V) (s : Aggregator V) (now : Int) (ometric : Text) (rand : Nat) :
    Invocation V where
  metric := ometric
  hash := Fnv1a.hash32 ometric
  expire := (s.expire + rand % s.interval) % 2 ^ 16
  buckets := (List.range s.bucketcnt).map fun (i : Nat) =>
    { state := .open
      start := (now - s.expire).tdiv s.interval * s.interval + i * s.interval
      cnt := 0
      sum := F.junk
      max := F.junk
      min := F.junk
      values := [] }

/-- `aggregator.c:345`, the array of values of a bucket with a place for the next one, if it can
grow. -/
def growValues (realloc : Bool) (b : Bucket V) : List (Option V) :=
  if b.cnt = b.values.length ∧ realloc then b.values ++ List.replicate 64 none else b.values

/-- The outcome of the `realloc` for a value put into the bucket, if its array has to grow. -/
def growth (entriesNeeded realloc : Bool) (b : Bucket V) : Option Bool :=
  if entriesNeeded ∧ b.cnt = b.values.length then some realloc else none

/-- `aggregator.c:333`, the value in its bucket. It is counted also where it has no place. -/
def putBucket (F : FloatOps V) (entriesNeeded realloc : Bool) (val : V) (b : Bucket V) : Bucket V :=
  { b with
    cnt := b.cnt + 1
    sum := if b.cnt = 0 then val else F.add b.sum val
    max := if b.cnt = 0 ∨ F.lt b.max val then val else b.max
    min := if b.cnt = 0 ∨ F.lt val b.min then val else b.min
    values := if entriesNeeded then (growValues realloc b).set b.cnt (some val) else b.values }

/-- `aggregator.c:303`, the value in the bucket of its time, unless it is too old, too new, or the
bucket is expired. -/
def putInvocation (F : FloatOps V) (s : Aggregator V) (i : Nat) (entriesNeeded realloc : Bool)
    (epoch : Int) (val : V) (inv : Invocation V) : Option (Invocation V × List (AggrEvent V)) :=
  match inv.buckets.head? with
  | none => none
  | some b₀ =>
    let itime := epoch - b₀.start
    if itime < 0 then some (inv, [.dropped i inv.metric])
    else if s.bucketcnt * s.interval ≤ itime then some (inv, [.dropped i inv.metric])
    else
      let k := (itime / s.interval).toNat
      match inv.buckets[k]? with
      | none => none
      | some b =>
        if b.state = .expire then some (inv, [.dropped i inv.metric])
        else
          some ({ inv with buckets := inv.buckets.set k (putBucket F entriesNeeded realloc val b) },
            [.accepted i inv.metric b.start epoch val (growth entriesNeeded realloc b)])

/-- An invocation is the one of a name if the hash and the name are equal. -/
def Invocation.isFor (ometric : Text) (inv : Invocation V) : Bool :=
  inv.hash = Fnv1a.hash32 ometric ∧ inv.metric = ometric

/-- The first invocation of the name in its chain takes the value. -/
def putChain (F : FloatOps V) (s : Aggregator V) (i : Nat) (entriesNeeded realloc : Bool)
    (epoch : Int) (val : V) (ometric : Text) : List (Invocation V) →
    Option (List (Invocation V) × List (AggrEvent V))
  | [] => some ([], [])
  | inv :: chain =>
    if inv.isFor ometric then
      match putInvocation F s i entriesNeeded realloc epoch val inv with
      | none => none
      | some (inv, es) => some (inv :: chain, es)
    else
      match putChain F s i entriesNeeded realloc epoch val ometric chain with
      | none => none
      | some (chain, es) => some (inv :: chain, es)

/-- The chain with an invocation of the name in it, which is added in front if there is none and
memory can be allocated. -/
def findOrAdd (F : FloatOps V) (s : Aggregator V) (now : Int) (ometric : Text) (o : PutOracle)
    (chain : List (Invocation V)) : Option (List (Invocation V)) :=
  if chain.any (Invocation.isFor ometric) then some chain
  else if ¬ (o.invocationAlloc ∧ o.metricAlloc) then some chain
  else if s.interval = 0 then none
  else if ¬ o.bucketsAlloc then some chain
  else some (newInvocation F s now ometric o.rand :: chain)

/-- The turn of the loop of `aggregator_putmetric` for compute `i`. `rewrite` gives the output name
for a template: the template itself, or what `router_rewrite_metric` makes of it, if it fits. -/
def putCompute (F : FloatOps V) (s : Aggregator V) (now : Int) (epoch : Int) (val : V)
    (rewrite : Text → Option Text) (o : PutOracle) (i : Nat) (c : Compute V) :
    Option (Compute V × List (AggrEvent V)) :=
  match rewrite c.metric with
  | none => some (c, [])
  | some ometric =>
    let k := omhtbucket (Fnv1a.hash32 ometric)
    match c.invocationsHt[k]? with
    | none => none
    | some chain =>
      match findOrAdd F s now ometric o chain with
      | none => none
      | some chain =>
        match putChain F s i c.entriesNeeded o.realloc epoch val ometric chain with
        | none => none
        | some (chain, es) => some ({ c with invocationsHt := c.invocationsHt.set k chain }, es)

/-- The value and the time of a metric, from the text behind its first space. `atof` reads a number.
-/
def parseData (atof : Text → V) (data : Text) : Option (V × Int) :=
  match data.dropWhile (· ≠ ' ') with
  | [] => none
  | _ :: rest => some (atof data, (Text.strtol rest).1)

def AggrEvent.isDropped : AggrEvent V → Bool
  | .dropped _ _ => true
  | _ => false

/-- `aggregator.c:156 aggregator_putmetric`, for the text `data` behind the first space of the
metric. -/
def aggregatorPutmetric (F : FloatOps V) (atof : Text → V) (running : Bool) (now : Int)
    (data : Text) (rewrite : Text → Option Text) (oracle : Nat → PutOracle) (s : Aggregator V) :
    Option (Aggregator V × List (AggrEvent V)) :=
  if ¬ running then some (s, [])
  else
    match parseData atof data with
    | none => some (s, [])
    | some (val, epoch) =>
      match mapEmit (fun i c => putCompute F s now epoch val rewrite (oracle i) i c) 0
          s.computes with
      | none => none
      | some (computes, es) =>
        some ({ s with
          received := s.received + 1, dropped := s.dropped + es.countP AggrEvent.isDropped
          computes }, es)

/-! ## Writing aggregates -/

/-- `aggregator.c:436`, the value of a rank. The source reads at `k - 1`, which is before the array
for rank zero. -/
def valueAtRank (values : List V) : Nat → Option V
  | 0 => none
  | k + 1 => values[k]?

section
variable (F : FloatOps V) (qsort : (V → V → Int) → List V → List V)

/-- `aggregator.c:404`, the aggregate of a bucket, from its fields and from its values, which are
there if all of them were kept. -/
def computeValue (type : ComputeType)
    (percentile cnt : Nat) (sum max min : V) (values : Option (List V)) : Option V :=
  match type with
  | .sum => some sum
  | .cnt => some (F.ofNat cnt)
  | .max => some max
  | .min => some min
  | .avg => some (F.div sum (F.ofNat cnt))
  | .medn | .pctl =>
    values.bind fun vs => valueAtRank (qsort F.cmpEntry vs) (F.rank percentile cnt)
  | .var | .sdev => values.map fun vs =>
    let avg := F.div sum (F.ofNat cnt)
    let ksum := vs.foldl (fun ksum v => F.add ksum (F.sq (F.sub v avg))) (F.ofNat 0)
    let ksum := F.div ksum (F.ofNat cnt)
    if type = .var then ksum else F.sqrt ksum

/-- The first `cnt` values of an array, if all of them were kept. -/
def readValues (values : List (Option V)) (cnt : Nat) : Option (List V) :=
  if cnt ≤ values.length then (values.take cnt).mapM id else none

/-- The array after a median or a percentile, which sort it in place. -/
def sortedValues (type : ComputeType) (b : Bucket V) : List (Option V) :=
  match type, readValues b.values b.cnt with
  | .medn, some vs | .pctl, some vs => (qsort F.cmpEntry vs).map some ++ b.values.drop b.cnt
  | _, _ => b.values

/-- `aggregator.c:377 write_metric`: the aggregate of the bucket, and the bucket after it. -/
def writeMetric (c : Compute V) (b : Bucket V) : Option V × Bucket V :=
  (computeValue F qsort c.type c.percentile b.cnt b.sum b.max b.min (readValues b.values b.cnt),
    { b with values := sortedValues F qsort c.type b })

/-- The timestamp of an aggregate. -/
def aggrTime (s : Aggregator V) (start : Int) : Int :=
  match s.tswhen with
  | .start => start
  | .middle => start + (s.interval / 2 : Nat)
  | .end => start + s.interval

/-- `aggregator.c:512`, the scan of the buckets of an invocation: those that are past `limit`
seconds are marked, and written if they hold a value. -/
def scanBuckets (s : Aggregator V) (i : Nat) (c : Compute V) (metric : Text) (limit now : Int) :
    List (Bucket V) → Option (List (Bucket V) × List (AggrEvent V))
  | [] => none
  | b :: bs =>
    if b.start + limit < now then
      match scanBuckets s i c metric limit now bs with
      | none => none
      | some (bs, es) =>
        if b.state = .expire then some (b :: bs, es)
        else if 0 < b.cnt then
          let (val, b) := writeMetric F qsort c b
          some ({ b with state := .expire } :: bs,
            .emitted i metric b.start (aggrTime s b.start) val :: es)
        else some ({ b with state := .expire } :: bs, es)
    else some (b :: bs, [])

/-- The scan of one invocation. When the relay shuts down, the splay is left out. -/
def scanInvocation (s : Aggregator V)
    (running : Bool) (now : Int) (i : Nat) (c : Compute V) (inv : Invocation V) :
    Option (Invocation V × List (AggrEvent V)) :=
  match scanBuckets F qsort s i c inv.metric (if running then inv.expire else s.expire) now
      inv.buckets with
  | none => none
  | some (buckets, es) => some ({ inv with buckets }, es)

/-- The scan of all invocations of compute `i`. -/
def scanCompute (s : Aggregator V) (running : Bool) (now : Int) (i : Nat) (c : Compute V) :
    Option (Compute V × List (AggrEvent V)) :=
  match mapEmit (fun _ chain =>
    mapEmit (fun _ inv => scanInvocation F qsort s running now i c inv) 0
      chain) 0 c.invocationsHt with
  | none => none
  | some (invocationsHt, es) => some ({ c with invocationsHt }, es)

/-- `aggregator.c:498`, the pass of `aggregator_expire` that writes the aggregates of expired
buckets. `sent k` is whether the pipe took the `k`-th of them. -/
def aggregatorExpire (running : Bool) (now : Int) (sent : Nat → Bool) (s : Aggregator V) :
    Option (Aggregator V × List (AggrEvent V)) :=
  let now := now + if running then 0 else (s.expire : Int) - s.interval
  match mapEmit (scanCompute F qsort s running now) 0 s.computes with
  | none => none
  | some (computes, es) =>
    let ok := (List.range es.length).countP sent
    some ({ s with
      sent := s.sent + ok, dropped := s.dropped + (es.length - ok)
      computes }, es)

end

/-! ## Recycling buckets -/

/-- The bucket put behind the others in place of the first, `b`: `memmove` leaves the contents of
the last one there, and the array of values of `b` is used again. -/
def recycle (interval : Nat) (b last : Bucket V) : Bucket V :=
  { last with state := .open, start := last.start + interval, cnt := 0, values := b.values }

/-- `aggregator.c:546`, the first bucket moved behind the others, while it is expired. -/
def rotateBuckets (interval : Nat) : Nat → List (Bucket V) → List (Bucket V)
  | n + 1, b :: bs =>
    if b.state = .expire then
      rotateBuckets interval n (bs ++ [recycle interval b (bs.getLast?.getD b)])
    else b :: bs
  | _, bs => bs

/-- `aggregator.c:543`, the clean-up of one invocation: gone if it is empty. -/
def cleanInvocation (interval : Nat) (inv : Invocation V) : Option (Invocation V) :=
  let buckets := rotateBuckets interval inv.buckets.length inv.buckets
  if buckets.all fun b => b.cnt = 0 then none else some { inv with buckets }

/-- `aggregator.c:536`, the pass of `aggregator_expire` that cleans up. -/
def aggregatorCleanup (s : Aggregator V) : Aggregator V :=
  { s with
    computes := s.computes.map fun c =>
      { c with
        invocationsHt := c.invocationsHt.map fun chain =>
          chain.filterMap (cleanInvocation s.interval) } }

/-! ## Runs -/

/-- A step of an aggregator, with what the system answers. -/
inductive AggrStep
  | putmetric (running : Bool) (now : Int) (data : Text) (rewrite : Text → Option Text)
      (oracle : Nat → PutOracle)
  | expire (running : Bool) (now : Int) (sent : Nat → Bool)
  | cleanup

/-- The aggregator as a machine over its steps. -/
def aggrStep (F : FloatOps V) (atof : Text → V) (qsort : (V → V → Int) → List V → List V)
    (s : Aggregator V) : AggrStep → Option (Aggregator V × List (AggrEvent V))
  | .putmetric running now data rewrite oracle =>
    aggregatorPutmetric F atof running now data rewrite oracle s
  | .expire running now sent => aggregatorExpire F qsort running now sent s
  | .cleanup => some (aggregatorCleanup s, [])

end CarbonRelay
