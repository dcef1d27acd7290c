import CarbonRelay.Lib.Machine
import CarbonRelay.Lib.Meter
import Mathlib.Algebra.BigOperators.Group.List.Basic

/-!
# Interval statistics

The accessors that end in `_sub` return the difference of a counter to the value it had at the last
call. Servers and dispatchers keep that value beside the counter; for the aggregators, whose
counters are summed up, it is in static variables. `Ledger` counts what the calls should return: the
increments since the last call. A call falls short of that in two cases. A reload replaces the
aggregators by new ones that start at zero, and leaves the static variables. And `dispatch_new` does
not set `prevdiscards`. Every call of a run is exact if and only if it is not short, and there were
less than `2 ^ 64` increments (`subs_exact_iff`).
-/

namespace CarbonRelay

open Function List Option
open Machine

/-- `size_t`. -/
abbrev SizeT := BitVec 64

/-- A counter, and the field with `prev` in front of its name. -/
abbrev Stat := Meter SizeT

/-! ## Servers -/

/-- The counters of a server and of its connections. -/
inductive ServerField
  | dropped
  | stalls
  | requeue
  | metrics (n : Nat)
  | ticks (n : Nat)
  deriving DecidableEq, Repr

/-- The counters of a server with `nconns` connections. -/
structure ServerStats where
  nconns : Nat
  stat : ServerField → Stat

/-- There is such a connection. -/
def ServerStats.has (s : ServerStats) : ServerField → Bool
  | .metrics n | .ticks n => n < s.nconns
  | _ => true

/-- `server.c:1412 server_new`. -/
def ServerStats.new (nconns : Nat) : ServerStats where
  nconns
  stat _ := ⟨0, 0⟩

/-- `server.c:1917 server_swap_queue`, the statistics. Those of `r` stay as they are. -/
def ServerStats.swapQueue (l r : ServerStats) : ServerStats where
  nconns := l.nconns
  stat
    | .dropped => r.stat .dropped
    | .stalls => r.stat .stalls
    | .requeue => r.stat .requeue
    | .metrics i => if i < l.nconns ∧ i < r.nconns then r.stat (.metrics i) else l.stat (.metrics i)
    | .ticks i => if i < l.nconns ∧ i < r.nconns then r.stat (.ticks i) else l.stat (.ticks i)

def ServerStats.set (s : ServerStats) (f : ServerField) (x : Stat) : ServerStats :=
  { s with stat := update s.stat f x }

/-- An increment of a counter, by an atomic addition. -/
def ServerStats.count (s : ServerStats) (f : ServerField) (n : Nat) : Option ServerStats :=
  if s.has f then some (s.set f ((s.stat f).add n)) else none

/-- The accessors of servers. There is no check of the number of the connection. -/
def ServerStats.sub (s : ServerStats) (f : ServerField) : Option (SizeT × ServerStats) :=
  if s.has f then some ((s.stat f).read.1, s.set f (s.stat f).read.2) else none

/-- `server.c:2026 server_get_ticks_sub`. -/
def serverGetTicksSub (s : ServerStats) (n : Nat) : Option (SizeT × ServerStats) := s.sub (.ticks n)

/-- `server.c:2068 server_get_metrics_sub`. -/
def serverGetMetricsSub (s : ServerStats) (n : Nat) : Option (SizeT × ServerStats) :=
  s.sub (.metrics n)

/-- `server.c:2093 server_get_dropped_sub`. -/
def serverGetDroppedSub (s : ServerStats) : Option (SizeT × ServerStats) := s.sub .dropped

/-- `server.c:2118 server_get_requeue_sub`. -/
def serverGetRequeueSub (s : ServerStats) : Option (SizeT × ServerStats) := s.sub .requeue

/-- `server.c:2151 server_get_stalls_sub`. -/
def serverGetStallsSub (s : ServerStats) : Option (SizeT × ServerStats) := s.sub .stalls

/-- The accessor of each counter. -/
def serverGetSub (s : ServerStats) : ServerField → Option (SizeT × ServerStats)
  | .dropped => serverGetDroppedSub s
  | .stalls => serverGetStallsSub s
  | .requeue => serverGetRequeueSub s
  | .metrics n => serverGetMetricsSub s n
  | .ticks n => serverGetTicksSub s n

/-! ## Dispatchers -/

/-- The counters of a dispatcher. -/
inductive DispatcherField
  | metrics
  | blackholes
  | discards
  | ticks
  | sleeps
  deriving DecidableEq, Repr

abbrev DispatcherStats := DispatcherField → Stat

/-- `dispatcher.c:1708 dispatch_new`. What `malloc` returns has some value for `prevdiscards`. -/
def dispatchNew (prevdiscards : SizeT) : DispatcherStats
  | .metrics => ⟨0, 0⟩
  | .blackholes => ⟨0, 0⟩
  | .discards => ⟨0, prevdiscards⟩
  | .ticks => ⟨0, 0⟩
  | .sleeps => ⟨0, 0⟩

/-- The accessors of dispatchers. -/
def DispatcherStats.sub (s : DispatcherStats) (f : DispatcherField) : SizeT × DispatcherStats :=
  ((s f).read.1, update s f (s f).read.2)

/-- `dispatcher.c:2021 dispatch_get_ticks_sub`. -/
def dispatchGetTicksSub (s : DispatcherStats) : SizeT × DispatcherStats := s.sub .ticks

/-- `dispatcher.c:2043 dispatch_get_sleeps_sub`. -/
def dispatchGetSleepsSub (s : DispatcherStats) : SizeT × DispatcherStats := s.sub .sleeps

/-- `dispatcher.c:2064 dispatch_get_metrics_sub`. -/
def dispatchGetMetricsSub (s : DispatcherStats) : SizeT × DispatcherStats := s.sub .metrics

/-- `dispatcher.c:2086 dispatch_get_blackholes_sub`. -/
def dispatchGetBlackholesSub (s : DispatcherStats) : SizeT × DispatcherStats := s.sub .blackholes

/-- `dispatcher.c:2107 dispatch_get_discards_sub`. -/
def dispatchGetDiscardsSub (s : DispatcherStats) : SizeT × DispatcherStats := s.sub .discards

def dispatchGetSub (s : DispatcherStats) : DispatcherField → SizeT × DispatcherStats
  | .metrics => dispatchGetMetricsSub s
  | .blackholes => dispatchGetBlackholesSub s
  | .discards => dispatchGetDiscardsSub s
  | .ticks => dispatchGetTicksSub s
  | .sleeps => dispatchGetSleepsSub s

/-! ## Aggregators -/

/-- The counters of an aggregator. -/
inductive AggrField
  | received
  | sent
  | dropped
  deriving DecidableEq, Repr

abbrev AggrStats := AggrField → SizeT

/-- `aggregator.c:48 aggregator_new`. -/
def AggrStats.new : AggrStats := fun _ => 0

/-- A counter of all aggregators: `aggregator.c:705 aggregator_get_received` and the ones like it.
-/
def aggregatorGet (f : AggrField) (a : List AggrStats) : SizeT := (a.map (· f)).sum

/-- The accessors of aggregators, with the static variable before and after the call. -/
def aggregatorSub (f : AggrField) (aggrs : List AggrStats) (prev : SizeT) : SizeT × SizeT :=
  let r := aggregatorGet f aggrs - prev
  (r, prev + r)

/-- `aggregator.c:720 aggregator_get_received_sub`. -/
def aggregatorGetReceivedSub (aggrs : List AggrStats) (prevreceived : SizeT) : SizeT × SizeT :=
  aggregatorSub .received aggrs prevreceived

/-- `aggregator.c:746 aggregator_get_sent_sub`. -/
def aggregatorGetSentSub (aggrs : List AggrStats) (prevsent : SizeT) : SizeT × SizeT :=
  aggregatorSub .sent aggrs prevsent

/-- `aggregator.c:774 aggregator_get_dropped_sub`. -/
def aggregatorGetDroppedSub (aggrs : List AggrStats) (prevdropped : SizeT) : SizeT × SizeT :=
  aggregatorSub .dropped aggrs prevdropped

def aggregatorGetSub (aggrs : List AggrStats) (prev : SizeT) : AggrField → SizeT × SizeT
  | .received => aggregatorGetReceivedSub aggrs prev
  | .sent => aggregatorGetSentSub aggrs prev
  | .dropped => aggregatorGetDroppedSub aggrs prev

/-! ## Runs -/

/-- What has an accessor. -/
inductive Counter
  | server (i : Nat) (f : ServerField)
  | dispatcher (d : Nat) (f : DispatcherField)
  | aggregators (f : AggrField)
  deriving DecidableEq, Repr

/-- All counters of the process. Servers and dispatchers are known by numbers, and `prev` has the
static variables of the aggregators. -/
structure StatsState where
  server : Nat → ServerStats
  dispatcher : Nat → DispatcherStats
  aggregators : List AggrStats
  prev : AggrField → SizeT

/-- The start, where nothing was counted. -/
def StatsState.init (prevdiscards : Nat → SizeT) (aggregators : Nat) : StatsState where
  server _ := .new 0
  dispatcher d := dispatchNew (prevdiscards d)
  aggregators := List.replicate aggregators .new
  prev _ := 0

/-- Increments, calls, and what is done in a reload: new servers are made, some of them take over
the queue of an old one, and the aggregators are replaced. -/
inductive StatsStep
  | serverCount (i : Nat) (f : ServerField) (n : Nat)
  | dispatcherCount (d : Nat) (f : DispatcherField) (n : Nat)
  | aggregatorCount (k : Nat) (f : AggrField) (n : Nat)
  | sub (c : Counter)
  | serverNew (i nconns : Nat)
  | swapQueue (l r : Nat)
  | reload (aggregators : Nat)
  deriving DecidableEq, Repr

/-- A call of an accessor, with the value it returns. -/
structure SubCall where
  counter : Counter
  value : SizeT
  deriving DecidableEq, Repr

def StatsState.setServer (s : StatsState) (i : Nat) (x : ServerStats) : StatsState :=
  { s with server := update s.server i x }

def StatsState.setDispatcher (s : StatsState) (d : Nat) (x : DispatcherStats) : StatsState :=
  { s with dispatcher := update s.dispatcher d x }

/-- A call. -/
def StatsState.sub (s : StatsState) : Counter → Option (StatsState × SizeT)
  | .server i f => (serverGetSub (s.server i) f).map fun x => (s.setServer i x.2, x.1)
  | .dispatcher d f =>
    let x := dispatchGetSub (s.dispatcher d) f
    some (s.setDispatcher d x.2, x.1)
  | .aggregators f =>
    let x := aggregatorGetSub s.aggregators (s.prev f) f
    some ({ s with prev := update s.prev f x.2 }, x.1)

/-- The statistics as a machine, which puts out the calls. -/
def StatsState.step (s : StatsState) : StatsStep → Option (StatsState × List SubCall)
  | .serverCount i f n => ((s.server i).count f n).map fun x => (s.setServer i x, [])
  | .dispatcherCount d f n =>
    some (s.setDispatcher d (update (s.dispatcher d) f ((s.dispatcher d f).add n)), [])
  | .aggregatorCount k f n =>
    s.aggregators[k]?.map fun a =>
      ({ s with aggregators := s.aggregators.set k (update a f (a f + n)) }, [])
  | .sub c => (s.sub c).map fun x => (x.1, [⟨c, x.2⟩])
  | .serverNew i nconns => some (s.setServer i (.new nconns), [])
  | .swapQueue l r => some (s.setServer l ((s.server l).swapQueue (s.server r)), [])
  | .reload n => some ({ s with aggregators := List.replicate n .new }, [])

/-! ## What the calls should return -/

/-- The increments since the last call, and what the next call is short of them. -/
structure Entry where
  since : Nat
  short : SizeT
  deriving DecidableEq, Repr

/-- An entry for each counter. -/
abbrev Ledger := Counter → Entry

def Ledger.init (prevdiscards : Nat → SizeT) : Ledger
  | .dispatcher d .discards => ⟨0, prevdiscards d⟩
  | _ => ⟨0, 0⟩

def Ledger.add (L : Ledger) (c : Counter) (n : Nat) : Ledger :=
  update L c { L c with since := (L c).since + n }

def Ledger.setServer (L : Ledger) (i : Nat) (g : ServerField → Entry) : Ledger
  | .server j f => if j = i then g f else L (.server j f)
  | c => L c

/-- A queue swap moves the counters of the old server to the new one, with what is not reported yet.
A reload takes away what the aggregators had counted. -/
def Ledger.step (L : Ledger) (s : StatsState) : StatsStep → Ledger
  | .serverCount i f n => L.add (.server i f) n
  | .dispatcherCount d f n => L.add (.dispatcher d f) n
  | .aggregatorCount _ f n => L.add (.aggregators f) n
  | .sub c => update L c ⟨0, 0⟩
  | .serverNew i _ => L.setServer i fun _ => ⟨0, 0⟩
  | .swapQueue l r => L.setServer l fun f =>
      if (s.server l).has f && (s.server r).has f then L (.server r f) else L (.server l f)
  | .reload _ => fun
    | .aggregators f =>
      { L (.aggregators f) with
        short := (L (.aggregators f)).short + aggregatorGet f s.aggregators }
    | c => L c

/-- The counters, and what the calls should return. -/
structure Watched where
  stats : StatsState
  ledger : Ledger

def Watched.init (prevdiscards : Nat → SizeT) (aggregators : Nat) : Watched where
  stats := .init prevdiscards aggregators
  ledger := .init prevdiscards

/-- A call, and the increments since the last one. -/
structure WatchedCall extends SubCall where
  increments : Nat
  deriving DecidableEq, Repr

/-- The call returns the increments since the last one. -/
def WatchedCall.Exact (e : WatchedCall) : Prop := e.value.toNat = e.increments

/-- A step, with what its call should return. -/
def Watched.step (s : Watched) (a : StatsStep) : Option (Watched × List WatchedCall) :=
  (s.stats.step a).map fun x =>
    (⟨x.1, s.ledger.step s.stats a⟩, x.2.map fun e => ⟨e, (s.ledger e.counter).since⟩)

/-- When a call is exact. Only the discards of a dispatcher and the counters of the aggregators can
be short. -/
def Telescopes (s : Watched) : StatsStep → Prop
  | .sub (.server i f) => (s.ledger (.server i f)).since < 2 ^ 64
  | .sub (.dispatcher d f) =>
    (s.ledger (.dispatcher d f)).since < 2 ^ 64 ∧
      (f = .discards → (s.ledger (.dispatcher d f)).short = 0)
  | .sub (.aggregators f) =>
    (s.ledger (.aggregators f)).since < 2 ^ 64 ∧ (s.ledger (.aggregators f)).short = 0
  | _ => True

instance decidableTelescopes : (s : Watched) → (a : StatsStep) → Decidable (Telescopes s a)
  | s, .sub (.server i f) => inferInstanceAs (Decidable ((s.ledger (.server i f)).since < 2 ^ 64))
  | s, .sub (.dispatcher d f) =>
    inferInstanceAs (Decidable ((s.ledger (.dispatcher d f)).since < 2 ^ 64 ∧
      (f = .discards → (s.ledger (.dispatcher d f)).short = 0)))
  | s, .sub (.aggregators f) =>
    inferInstanceAs (Decidable ((s.ledger (.aggregators f)).since < 2 ^ 64 ∧
      (s.ledger (.aggregators f)).short = 0))
  | _, .serverCount .. | _, .dispatcherCount .. | _, .aggregatorCount .. | _, .serverNew ..
  | _, .swapQueue .. | _, .reload _ => isTrue trivial

/-! ## Steps -/

/-- Every counter as a meter. -/
def StatsState.meter (s : StatsState) : Counter → Stat
  | .server i f => (s.server i).stat f
  | .dispatcher d f => s.dispatcher d f
  | .aggregators f => ⟨aggregatorGet f s.aggregators, s.prev f⟩

section
variable {s s' : StatsState} {L : Ledger}

theorem serverGetSub_eq (s : ServerStats) (f : ServerField) : serverGetSub s f = s.sub f := by
  cases f <;> rfl

theorem dispatchGetSub_eq (s : DispatcherStats) (f : DispatcherField) :
    dispatchGetSub s f = s.sub f := by
  cases f <;> rfl

theorem aggregatorGetSub_eq (aggrs : List AggrStats) (prev : SizeT) (f : AggrField) :
    aggregatorGetSub aggrs prev f = aggregatorSub f aggrs prev := by
  cases f <;> rfl

theorem ServerStats.swapQueue_stat (l r : ServerStats) (f : ServerField) :
    (l.swapQueue r).stat f = if l.has f && r.has f then r.stat f else l.stat f := by
  cases f <;> simp [ServerStats.swapQueue, ServerStats.has]

theorem StatsState.meter_setServer (s : StatsState) (i : Nat) (x : ServerStats) (j : Nat)
    (f : ServerField) :
    (s.setServer i x).meter (.server j f) = if j = i then x.stat f else s.meter (.server j f) := by
  simp only [meter, setServer, update_apply]
  split
  · rfl
  · rfl

/-- One counter of a server is set. -/
theorem StatsState.meter_set (s : StatsState) (i : Nat) (f : ServerField) (x : Stat) :
    (s.setServer i ((s.server i).set f x)).meter = update s.meter (.server i f) x := by
  funext c
  cases c with
  | server j g =>
    rw [meter_setServer]
    rcases eq_or_ne j i with rfl | hj
    · simp [update_apply, ServerStats.set, meter]
    · simp [hj]
  | dispatcher d g => simp [setServer, meter]
  | aggregators g => simp [setServer, meter]

/-- One counter of a dispatcher is set. -/
theorem StatsState.meter_setDispatcher (s : StatsState) (d : Nat) (f : DispatcherField) (x : Stat) :
    (s.setDispatcher d (update (s.dispatcher d) f x)).meter =
      update s.meter (.dispatcher d f) x := by
  funext c
  cases c with
  | server j g => simp [setDispatcher, meter]
  | dispatcher e g =>
    rcases eq_or_ne e d with rfl | he
    · simp [update_apply, setDispatcher, meter]
    · simp [setDispatcher, meter, he]
  | aggregators g => simp [setDispatcher, meter]

/-- The static variable of a counter of the aggregators is set. -/
theorem StatsState.meter_prev (s : StatsState) (f : AggrField) (x : SizeT) :
    StatsState.meter { s with prev := update s.prev f x } =
      update s.meter (.aggregators f) ⟨aggregatorGet f s.aggregators, x⟩ := by
  funext c
  cases c with
  | server j g => simp [meter]
  | dispatcher d g => simp [meter]
  | aggregators g =>
    rcases eq_or_ne g f with rfl | hg
    · simp [meter]
    · simp [meter, hg]

/-- An aggregator counts. -/
theorem aggregatorGet_set {aggrs : List AggrStats} {k : Nat} {a : AggrStats}
    (hk : aggrs[k]? = some a)
    (f g : AggrField) (n : Nat) : aggregatorGet g (aggrs.set k (update a f (a f + n))) =
      if g = f then aggregatorGet g aggrs + n else aggregatorGet g aggrs := by
  induction aggrs generalizing k with
  | nil => cases hk
  | cons b aggrs ih =>
    cases k with
    | zero =>
      cases hk
      rcases eq_or_ne g f with rfl | hg
      · simp [aggregatorGet, add_right_comm]
      · simp [aggregatorGet, hg]
    | succ k =>
      have hih := ih (k := k) (by simpa using hk)
      simp only [aggregatorGet, set_cons_succ, map_cons, sum_cons] at hih ⊢
      rw [hih]
      split
      · rw [add_assoc]
      · rfl

theorem StatsState.meter_aggregators {k : Nat} {a : AggrStats} (s : StatsState)
    (hk : s.aggregators[k]? = some a) (f : AggrField) (n : Nat) :
    StatsState.meter { s with aggregators := s.aggregators.set k (update a f (a f + n)) } =
      update s.meter (.aggregators f) ((s.meter (.aggregators f)).add n) := by
  funext c
  cases c with
  | server j g => simp [meter]
  | dispatcher d g => simp [meter]
  | aggregators g =>
    have hget := aggregatorGet_set hk f g n
    rcases eq_or_ne g f with rfl | hg
    · rw [if_pos rfl] at hget
      rw [update_self]
      exact congrArg (Meter.mk · (s.prev g)) hget
    · rw [if_neg hg] at hget
      rw [update_of_ne (by simpa using hg)]
      exact congrArg (Meter.mk · (s.prev g)) hget

variable {c : Counter}

/-- A call reads the meter of its counter. -/
theorem StatsState.sub_eq {v : SizeT} (h : s.sub c = some (s', v)) :
    v = (s.meter c).read.1 ∧ s'.meter = update s.meter c (s.meter c).read.2 := by
  cases c with
  | server i f =>
    obtain ⟨x, hx, hs⟩ := map_eq_some_iff.1 h
    rw [serverGetSub_eq, ServerStats.sub] at hx
    split at hx
    · cases hx
      cases hs
      exact ⟨rfl, s.meter_set i f _⟩
    · cases hx
  | dispatcher d f =>
    simp only [StatsState.sub, dispatchGetSub_eq] at h
    cases h
    exact ⟨rfl, s.meter_setDispatcher d f _⟩
  | aggregators f =>
    simp only [StatsState.sub, aggregatorGetSub_eq] at h
    cases h
    exact ⟨rfl, s.meter_prev f _⟩

/-! ## Keeping the ledger -/

/-- The ledger has what the meters are short of. -/
structure Watched.Inv (s : Watched) : Prop where
  tracks : ∀ c, (s.stats.meter c).Tracks (s.ledger c).since (s.ledger c).short
  server : ∀ i f, (s.ledger (.server i f)).short = 0
  dispatcher : ∀ d f, f ≠ .discards → (s.ledger (.dispatcher d f)).short = 0

theorem aggregatorGet_new (f : AggrField) (n : Nat) :
    aggregatorGet f (List.replicate n .new) = 0 := by
  simp [aggregatorGet, AggrStats.new]

theorem Watched.init_inv (prevdiscards : Nat → SizeT) (aggregators : Nat) :
    (Watched.init prevdiscards aggregators).Inv where
  tracks c := by
    cases c with
    | server i f => exact Meter.tracks_new 0
    | dispatcher d f => cases f <;> exact Meter.tracks_new _
    | aggregators f =>
      have hmeter : (Watched.init prevdiscards aggregators).stats.meter (.aggregators f) = ⟨0, 0⟩ :=
        congrArg (Meter.mk · 0) (aggregatorGet_new f aggregators)
      rw [hmeter]
      exact Meter.tracks_new 0
  server _ _ := rfl
  dispatcher d f hf := by
    cases f with
    | discards => exact absurd rfl hf
    | _ => rfl

/-- One counter is changed, and its entry. -/
theorem tracks_update {m : Counter → Stat} (h : ∀ c, (m c).Tracks (L c).since (L c).short)
    (c : Counter) {x : Stat} {e : Entry} (hx : x.Tracks e.since e.short) (k : Counter) :
    (update m c x k).Tracks (update L c e k).since (update L c e k).short := by
  rcases eq_or_ne k c with rfl | hk
  · rw [update_self, update_self]
    exact hx
  · rw [update_of_ne hk, update_of_ne hk]
    exact h k

theorem Ledger.add_short (L : Ledger) (c k : Counter) (n : Nat) :
    (L.add c n k).short = (L k).short := by
  simp only [Ledger.add, update_apply]
  split
  · next h => rw [h]
  · rfl

variable {w : Watched}

/-- A counter is incremented. -/
theorem Watched.Inv.count (h : w.Inv) {n : Nat}
    (hmeter : s'.meter = update w.stats.meter c ((w.stats.meter c).add n)) :
    Watched.Inv ⟨s', w.ledger.add c n⟩ where
  tracks k := by
    rw [hmeter]
    exact tracks_update h.tracks c ((h.tracks c).add n) k
  server i f := (w.ledger.add_short c (.server i f) n).trans (h.server i f)
  dispatcher d f hf := (w.ledger.add_short c (.dispatcher d f) n).trans (h.dispatcher d f hf)

/-- A call. -/
theorem Watched.Inv.sub (h : w.Inv)
    (hmeter : s'.meter = update w.stats.meter c (w.stats.meter c).read.2) :
    Watched.Inv ⟨s', update w.ledger c ⟨0, 0⟩⟩ where
  tracks k := by
    have hread : (w.stats.meter c).read.2.Tracks ((0 : Nat)) 0 := Meter.Tracks.read
    rw [hmeter]
    exact tracks_update h.tracks c (e := ⟨0, 0⟩) hread k
  server i f := by
    simp only [update_apply]
    split
    · rfl
    · exact h.server i f
  dispatcher d f hf := by
    simp only [update_apply]
    split
    · rfl
    · exact h.dispatcher d f hf

/-- The counters of a server are replaced. -/
theorem Watched.Inv.setServer (h : w.Inv) {i : Nat} {x : ServerStats}
    {g : ServerField → Entry} (hx : ∀ f, (x.stat f).Tracks (g f).since 0)
    (hg : ∀ f, (g f).short = 0) :
    Watched.Inv ⟨w.stats.setServer i x, w.ledger.setServer i g⟩ where
  tracks c := by
    cases c with
    | server j f =>
      rw [StatsState.meter_setServer]
      simp only [Ledger.setServer]
      split
      · rw [hg]
        exact hx f
      · exact h.tracks (.server j f)
    | dispatcher d f => exact h.tracks (.dispatcher d f)
    | aggregators f => exact h.tracks (.aggregators f)
  server j f := by
    simp only [Ledger.setServer]
    split
    · exact hg f
    · exact h.server j f
  dispatcher := h.dispatcher

/-- A server takes over the counters of another one. -/
theorem Watched.Inv.swapQueue (h : w.Inv) (l r : Nat) :
    Watched.Inv ⟨w.stats.setServer l ((w.stats.server l).swapQueue (w.stats.server r)),
      w.ledger.step w.stats (.swapQueue l r)⟩ := by
  have htracks : ∀ i f, ((w.stats.server i).stat f).Tracks (w.ledger (.server i f)).since 0 :=
    fun i f => h.server i f ▸ h.tracks (.server i f)
  refine h.setServer (fun f => ?_) fun f => ?_
  · rw [ServerStats.swapQueue_stat]
    split
    · exact htracks r f
    · exact htracks l f
  · split
    · exact h.server r f
    · exact h.server l f

/-- The aggregators are replaced. -/
theorem Watched.Inv.reload (h : w.Inv) (n : Nat) :
    Watched.Inv ⟨{ w.stats with aggregators := List.replicate n .new },
      w.ledger.step w.stats (.reload n)⟩ where
  tracks c := by
    cases c with
    | server i f => exact h.tracks (.server i f)
    | dispatcher d f => exact h.tracks (.dispatcher d f)
    | aggregators f =>
      have hmeter : StatsState.meter { w.stats with aggregators := List.replicate n .new }
          (.aggregators f) =
          ⟨0, w.stats.prev f⟩ := congrArg (Meter.mk · (w.stats.prev f)) (aggregatorGet_new f n)
      rw [hmeter]
      exact (h.tracks (.aggregators f)).restart
  server := h.server
  dispatcher := h.dispatcher

end

section
variable {w w' : Watched} {a : StatsStep} {es : List WatchedCall}

/-- The ledger is kept by every step. -/
theorem Watched.Inv.step (h : w.Inv) (hstep : w.step a = some (w', es)) : w'.Inv := by
  obtain ⟨⟨s', calls⟩, hstats, hw⟩ := map_eq_some_iff.1 hstep
  cases hw
  cases a with
  | serverCount i f n =>
    obtain ⟨x, hx, hs⟩ := map_eq_some_iff.1 hstats
    rw [ServerStats.count] at hx
    split at hx
    · cases hx
      cases hs
      exact h.count (w.stats.meter_set i f _)
    · cases hx
  | dispatcherCount d f n =>
    cases hstats
    exact h.count (w.stats.meter_setDispatcher d f _)
  | aggregatorCount k f n =>
    obtain ⟨x, hx, hs⟩ := map_eq_some_iff.1 hstats
    cases hs
    exact h.count (w.stats.meter_aggregators hx f n)
  | sub c =>
    obtain ⟨x, hx, hs⟩ := map_eq_some_iff.1 hstats
    cases hs
    exact h.sub (StatsState.sub_eq hx).2
  | serverNew i nconns =>
    cases hstats
    exact h.setServer (fun _ => Meter.tracks_new 0) fun _ => rfl
  | swapQueue l r =>
    cases hstats
    exact h.swapQueue l r
  | reload n =>
    cases hstats
    exact h.reload n

/-- Which calls are exact, by the ledger. -/
theorem Watched.Inv.telescopes_iff (h : w.Inv) (c : Counter) :
    Telescopes w (.sub c) ↔ (w.ledger c).since < 2 ^ 64 ∧ (w.ledger c).short = 0 := by
  cases c with
  | server i f => simp [Telescopes, h.server i f]
  | dispatcher d f =>
    rcases eq_or_ne f .discards with rfl | hf
    · simp [Telescopes]
    · simp [Telescopes, hf, h.dispatcher d f hf]
  | aggregators f => exact Iff.rfl

/-- What a step returns is exact if and only if it is not short. -/
theorem Watched.Inv.exact_iff (h : w.Inv) (hstep : w.step a = some (w', es)) :
    (∀ e ∈ es, e.Exact) ↔ Telescopes w a := by
  obtain ⟨⟨s', calls⟩, hstats, hw⟩ := map_eq_some_iff.1 hstep
  cases hw
  cases a with
  | sub c =>
    obtain ⟨⟨_, v⟩, hx, hs⟩ := map_eq_some_iff.1 hstats
    cases hs
    obtain ⟨hv, -⟩ := StatsState.sub_eq hx
    rw [h.telescopes_iff, ← (h.tracks c).read_exact_iff, ← hv, map_singleton, forall_mem_singleton]
    exact Iff.rfl
  | serverCount i f n =>
    obtain ⟨_, _, hs⟩ := map_eq_some_iff.1 hstats
    cases hs
    exact iff_of_true nofun trivial
  | aggregatorCount k f n =>
    obtain ⟨_, _, hs⟩ := map_eq_some_iff.1 hstats
    cases hs
    exact iff_of_true nofun trivial
  | dispatcherCount | serverNew | swapQueue | reload =>
    cases hstats
    exact iff_of_true nofun trivial

end

/-- Over every run, the calls return the increments since the last call if and only if each is made
with less than `2 ^ 64` of them, the first call for the discards of a dispatcher finds a zero in
`prevdiscards`, and what the aggregators had counted that were replaced since the last call comes to
zero. -/
theorem subs_exact_iff {prevdiscards : Nat → SizeT} {aggregators : Nat} {acts : List StatsStep}
    {w : Watched} {os : List (List WatchedCall)}
    (h : run Watched.step (.init prevdiscards aggregators) acts = some (w, os)) :
    (∀ e ∈ os.flatten, e.Exact) ↔
      Along Watched.step Telescopes (.init prevdiscards aggregators) acts :=
  run_exact (fun _ _ _ _ hinv hstep => ⟨hinv.exact_iff hstep, fun _ => hinv.step hstep⟩)
    (Watched.init_inv prevdiscards aggregators) h

/-- A server takes over the queue of another one between two calls, and aggregators are replaced
before they count anything. -/
def swappedSteps : List StatsStep :=
  [.serverNew 0 1, .serverCount 0 (.metrics 0) 5, .sub (.server 0 (.metrics 0)),
    .serverCount 0 (.metrics 0) 2, .serverNew 1 2, .swapQueue 1 0, .serverCount 1 (.metrics 0) 1,
    .sub (.server 1 (.metrics 0)), .reload 2, .aggregatorCount 1 .received 4,
      .sub (.aggregators .received),
    .sub (.dispatcher 0 .discards)]

theorem subs_exact_swapped : ∃ w os,
    run Watched.step (.init (fun _ => 0) 1) swappedSteps = some (w, os) ∧ ∀ e ∈ os.flatten,
      e.Exact := by
  obtain ⟨w, os, hrun⟩ : ∃ w os, run Watched.step (.init (fun _ => 0) 1) swappedSteps =
    some (w, os) :=
    ⟨_, _, rfl⟩
  exact ⟨w, os, hrun, (subs_exact_iff hrun).2 (by decide)⟩

/-- The first call after a reload, and the first call for discards. Nothing was counted since. -/
theorem subs_wrapped :
    (∃ w, run Watched.step (.init (fun _ => 0) 1)
      [.aggregatorCount 0 .received 5, .sub (.aggregators .received), .reload 1,
        .sub (.aggregators .received)] =
      some (w, [[], [⟨⟨.aggregators .received, 5⟩, 5⟩], [],
        [⟨⟨.aggregators .received, 18446744073709551611⟩, 0⟩]])) ∧
    ∃ w, run Watched.step (.init (fun _ => 7) 0) [.sub (.dispatcher 0 .discards)] =
      some (w, [[⟨⟨.dispatcher 0 .discards, 18446744073709551609⟩, 0⟩]]) :=
  ⟨⟨_, rfl⟩, _, rfl⟩

end CarbonRelay
