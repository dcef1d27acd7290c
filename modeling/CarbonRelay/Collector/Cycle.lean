import CarbonRelay.Collector.Counters
import CarbonRelay.Server.Basic
import Mathlib.Algebra.Order.BigOperators.Group.List
import Mathlib.Algebra.Order.Ring.Nat

/-!
# The servers in a cycle of the collector

In every cycle `collector_runner` sends the statistics of the internal submission server, of each
server and its connections, and the totals. The variables that sum up the connections are set to
zero for every server, except `failures`: it starts with the failures of the submission server and
goes on growing. So what is sent as the failures of a server has those of all servers in front of it
in it, and the total has them over and over. The failures are right exactly if only the last server
has any (`failures_right_iff`).
-/

namespace CarbonRelay

open List
open Machine

/-! ## Reading the counters -/

/-- `router.h col_mode`. -/
inductive ColMode
  | sub
  | cum
  deriving DecidableEq, Repr

/-- `server.c:2014 server_get_ticks` and the others like it. -/
def ServerStats.get (s : ServerStats) (f : ServerField) : Option SizeT :=
  if s.has f then some (s.stat f).total else none

/-- The functions that the collector calls, `s_ticks` and the others. -/
def ColMode.read (mode : ColMode) (s : ServerStats) (f : ServerField) :
    Option (SizeT × ServerStats) :=
  match mode with
  | .sub => serverGetSub s f
  | .cum => (s.get f).map fun v => (v, s)

/-- A server as the collector sees it. `failure` has the failures of its connections, which are
chars. -/
structure CollectedServer where
  server : Server
  stats : ServerStats
  failure : Nat → BitVec 8
  queued : SizeT

/-- The failures of a connection: a negative number counts as none. -/
def failureCount (c : BitVec 8) : Nat := if c.toInt < 1 then 0 else c.toInt.toNat

/-- `server.c:2040 server_get_failure`. -/
def serverGetFailure (d : CollectedServer) (n : Nat) : Option SizeT :=
  if n < d.stats.nconns then some (failureCount (d.failure n) : SizeT) else none

/-- `collector.c:268`, the name of a destination. The other kinds of servers are not expected. -/
def destbuf (s : Server) : Option Text :=
  let underscores := List.map fun c => if c = '.' then '_' else c
  match s.ctype with
  | .file | .pipe => some (underscores s.ip)
  | .tcp => some (underscores (s.ip ++ [':'] ++ (toString s.port).toList))
  | .udp => some (underscores (s.ip ++ [':'] ++ (toString s.port).toList ++ "-udp".toList))
  | .unix => none

/-! ## What is sent -/

/-- `destinations.<name>.sent` and the others. -/
inductive DestStat
  | sent
  | queued
  | stalls
  | dropped
  | requeue
  | wallTime
  | failures
  deriving DecidableEq, Repr

/-- `destinations.<name>.connections.<n>.sent` and the others. -/
inductive ConnStat
  | sent
  | wallTime
  | failures
  deriving DecidableEq, Repr

/-- `metricsSent`, `metricsQueued`, `metricStalls`, `metricsDropped`, `server_wallTime_us` and
`server_failures`. -/
inductive TotalStat
  | sent
  | queued
  | stalls
  | dropped
  | wallTime
  | failures
  deriving DecidableEq, Repr

inductive StatName
  | destination (dest : Text) (k : DestStat)
  | connection (dest : Text) (n : Nat) (k : ConnStat)
  | total (k : TotalStat)
  deriving DecidableEq, Repr

/-- A line that the collector sends. -/
structure StatLine where
  name : StatName
  value : SizeT
  deriving DecidableEq, Repr

/-- `collector.c:214 send_server_metrics`. -/
def sendServerMetrics (dest : Text) (ticks metrics queued stalls dropped requeue failures : SizeT) :
    List StatLine :=
  [⟨.destination dest .sent, metrics⟩, ⟨.destination dest .queued, queued⟩,
    ⟨.destination dest .stalls, stalls⟩, ⟨.destination dest .dropped, dropped⟩,
    ⟨.destination dest .requeue, requeue⟩, ⟨.destination dest .wallTime, ticks⟩,
    ⟨.destination dest .failures, failures⟩]

/-- `collector.c:237 send_server_conn_metrics`. -/
def sendServerConnMetrics (dest : Text) (n : Nat) (ticks metrics failures : SizeT) :
    List StatLine :=
  [⟨.connection dest n .sent, metrics⟩, ⟨.connection dest n .wallTime, ticks⟩,
    ⟨.connection dest n .failures, failures⟩]

/-! ## The cycle -/

/-- The variables that are kept from one connection or server to the next. -/
structure CycleVars where
  ticks : SizeT
  failures : SizeT
  metrics : SizeT
  totticks : SizeT
  totfailures : SizeT
  totmetrics : SizeT
  totqueued : SizeT
  totstalls : SizeT
  totdropped : SizeT
  deriving DecidableEq, Repr

/-- `collector.c:295`, a connection of a server. -/
def connTurn (mode : ColMode) (dest : Text) (s : CollectedServer × CycleVars) (n : Nat) :
    Option ((CollectedServer × CycleVars) × List StatLine) :=
  match mode.read s.1.stats (.ticks n) with
  | none => none
  | some (nticks, stats) =>
    match serverGetFailure s.1 n with
    | none => none
    | some nfailures =>
      match mode.read stats (.metrics n) with
      | none => none
      | some (nmetrics, stats) =>
        some (({ s.1 with stats },
            { s.2 with
              ticks := s.2.ticks + nticks
              failures := s.2.failures + nfailures
              metrics := s.2.metrics + nmetrics }),
          sendServerConnMetrics dest n nticks nmetrics nfailures)

/-- The counters of a server that are read before its connections, and the server after that. -/
def readStalled (mode : ColMode) (s : ServerStats) :
    Option ((SizeT × SizeT × SizeT) × ServerStats) :=
  match mode.read s .stalls with
  | none => none
  | some (stalls, s) =>
    match mode.read s .dropped with
    | none => none
    | some (dropped, s) =>
      match mode.read s .requeue with
      | none => none
      | some (requeue, s) => some ((stalls, dropped, requeue), s)

/-- `collector.c:267`, a server. -/
def serverTurn (mode : ColMode) (v : CycleVars) (d : CollectedServer) :
    Option ((CollectedServer × CycleVars) × List StatLine) :=
  match destbuf d.server with
  | none => none
  | some dest =>
    match readStalled mode d.stats with
    | none => none
    | some ((stalls, dropped, requeue), stats) =>
      -- `failures` is not set here
      let v := { v with
        totqueued := v.totqueued + d.queued
        totstalls := v.totstalls + stalls
        totdropped := v.totdropped + dropped
        ticks := 0
        metrics := 0 }
      match run (connTurn mode dest) ({ d with stats }, v) (List.range d.stats.nconns) with
      | none => none
      | some ((d', v), lines) =>
        some ((d', { v with
            totticks := v.totticks + v.ticks
            totfailures := v.totfailures + v.failures
            totmetrics := v.totmetrics + v.metrics }),
          lines.flatten ++
            sendServerMetrics dest v.ticks v.metrics d.queued stalls dropped requeue v.failures)

/-- `collector.c:267`, the loop over the servers. -/
def serverLoop (mode : ColMode) : CycleVars → List CollectedServer →
    Option ((List CollectedServer × CycleVars) × List StatLine)
  | v, [] => some (([], v), [])
  | v, d :: srvs =>
    match serverTurn mode v d with
    | none => none
    | some ((d, v), lines) =>
      match serverLoop mode v srvs with
      | none => none
      | some ((srvs, v), more) => some ((d :: srvs, v), lines ++ more)

/-- `collector.c:311`, the totals. -/
def sendTotals (v : CycleVars) : List StatLine :=
  [⟨.total .sent, v.totmetrics⟩, ⟨.total .queued, v.totqueued⟩, ⟨.total .stalls, v.totstalls⟩,
    ⟨.total .dropped, v.totdropped⟩, ⟨.total .wallTime, v.totticks⟩,
      ⟨.total .failures, v.totfailures⟩]

/-- `collector.c:249`, the servers in a cycle: the submission server and the servers after it, and
what is sent. -/
def collectServers (mode : ColMode) (submission : CollectedServer) (srvs : List CollectedServer) :
    Option ((CollectedServer × List CollectedServer) × List StatLine) :=
  match mode.read submission.stats (.ticks 0) with
  | none => none
  | some (ticks, stats) =>
    match serverGetFailure submission 0 with
    | none => none
    | some failures =>
      match mode.read stats (.metrics 0) with
      | none => none
      | some (metrics, stats) =>
        match mode.read stats .stalls with
        | none => none
        | some (stalls, stats) =>
          match mode.read stats .dropped with
          | none => none
          | some (dropped, stats) =>
            match serverLoop mode ⟨ticks, failures, metrics, 0, 0, 0, 0, 0, 0⟩ srvs with
            | none => none
            | some ((srvs, v), lines) =>
              some (({ submission with stats }, srvs),
                sendServerMetrics submission.server.ip ticks metrics submission.queued
                  stalls dropped 0 failures ++ lines ++ sendTotals v)

/-! ## What the failures should be -/

/-- The failures of the connections of a server. -/
def CollectedServer.failures (d : CollectedServer) : Nat :=
  ((List.range d.stats.nconns).map fun n => failureCount (d.failure n)).sum

/-- The failures of destinations that are sent. -/
def failureLines (lines : List StatLine) : List (Text × SizeT) :=
  lines.filterMap fun
    | ⟨.destination dest .failures, v⟩ => some (dest, v)
    | _ => none

/-- The totals of failures that are sent. -/
def failureTotals (lines : List StatLine) : List SizeT :=
  lines.filterMap fun
    | ⟨.total .failures, v⟩ => some v
    | _ => none

/-- The failures that are sent behind those of the submission server are those of the connections of
each server, and the total is their sum. -/
structure FailuresRight (srvs : List CollectedServer) (lines : List StatLine) : Prop where
  destinations : (failureLines lines).tail.map (fun l => (some l.1, l.2.toNat)) =
    srvs.map fun d => (destbuf d.server, d.failures)
  total : (failureTotals lines).map BitVec.toNat = [(srvs.map CollectedServer.failures).sum]

/-! ## A turn -/

section
variable {mode : ColMode} {dest : Text} {d d' : CollectedServer} {v v' : CycleVars}
  {lines : List StatLine}

theorem failureLines_append (l m : List StatLine) :
    failureLines (l ++ m) = failureLines l ++ failureLines m := filterMap_append

theorem failureTotals_append (l m : List StatLine) :
    failureTotals (l ++ m) = failureTotals l ++ failureTotals m := filterMap_append

/-- What turns leave and add: failures of connections, and no lines for the failures of
destinations. -/
structure ConnsAdd (d d' : CollectedServer) (v v' : CycleVars) (n : Nat) (lines : List StatLine) :
    Prop where
  failure : d'.failure = d.failure
  failures : v'.failures = v.failures + n
  totfailures : v'.totfailures = v.totfailures
  noLine : failureLines lines = []
  noTotal : failureTotals lines = []

theorem connTurn_adds {n : Nat} (h : connTurn mode dest (d, v) n = some ((d', v'), lines)) :
    ConnsAdd d d' v v' (failureCount (d.failure n)) lines := by
  rw [connTurn] at h
  split at h
  · cases h
  · split at h
    · cases h
    · next nfailures hfailures =>
      split at h
      · cases h
      · cases h
        rw [serverGetFailure] at hfailures
        split at hfailures
        · cases hfailures
          exact ⟨rfl, rfl, rfl, rfl, rfl⟩
        · cases hfailures

theorem connLoop_adds {ns : List Nat} {lines : List (List StatLine)}
    (h : run (connTurn mode dest) (d, v) ns = some ((d', v'), lines)) :
    ConnsAdd d d' v v' (ns.map fun n => failureCount (d.failure n)).sum lines.flatten := by
  induction ns generalizing d v lines with
  | nil =>
    cases h
    exact ⟨rfl, by simp, rfl, rfl, rfl⟩
  | cons n ns ih =>
    obtain ⟨⟨d₁, v₁⟩, o, os, hturn, hrun, rfl⟩ := run_cons_eq_some.1 h
    have hadds := connTurn_adds hturn
    have hih := ih hrun
    refine ⟨hih.failure.trans hadds.failure, ?_, hih.totfailures.trans hadds.totfailures, ?_, ?_⟩
    · rw [hih.failures, hadds.failures, hadds.failure, map_cons, sum_cons, Nat.cast_add, add_assoc]
    · rw [flatten_cons, failureLines_append, hadds.noLine, hih.noLine, append_nil]
    · rw [flatten_cons, failureTotals_append, hadds.noTotal, hih.noTotal, append_nil]

/-- A server: its failures go on top of what was there. -/
theorem serverTurn_failures (h : serverTurn mode v d = some ((d', v'), lines)) :
    v'.failures = v.failures + d.failures ∧ v'.totfailures = v.totfailures + v'.failures ∧
      (failureLines lines).map (fun l => (some l.1, l.2)) = [(destbuf d.server, v'.failures)] ∧
      failureTotals lines = [] := by
  rw [serverTurn] at h
  split at h
  · cases h
  · next dest hdest =>
    split at h
    · cases h
    · dsimp only at h
      split at h
      · cases h
      · next hrun =>
        cases h
        have hadds := connLoop_adds hrun
        refine ⟨hadds.failures, ?_, ?_, ?_⟩
        · rw [← hadds.totfailures]
        · rw [failureLines_append, hadds.noLine, hdest]
          rfl
        · rw [failureTotals_append, hadds.noTotal]
          rfl

/-- The failures that are sent, one server after the other. -/
def runningFailures : SizeT → List CollectedServer → List (Option Text × SizeT)
  | _, [] => []
  | f, d :: srvs => (destbuf d.server, f + d.failures) :: runningFailures (f + d.failures) srvs

theorem serverLoop_failures {srvs srvs' : List CollectedServer}
    (h : serverLoop mode v srvs = some ((srvs', v'), lines)) :
    (failureLines lines).map (fun l => (some l.1, l.2)) = runningFailures v.failures srvs ∧
      v'.totfailures = v.totfailures + ((runningFailures v.failures srvs).map Prod.snd).sum ∧
      failureTotals lines = [] := by
  induction srvs generalizing v srvs' lines with
  | nil =>
    cases h
    exact ⟨rfl, by simp [runningFailures], rfl⟩
  | cons d srvs ih =>
    rw [serverLoop] at h
    split at h
    · cases h
    · next v₁ lines₁ hturn =>
      split at h
      · cases h
      · next hloop =>
        cases h
        obtain ⟨hfailures, htotal, hlines, htotals⟩ := serverTurn_failures hturn
        obtain ⟨hlines', htotal', htotals'⟩ := ih hloop
        rw [hfailures] at htotal hlines hlines' htotal'
        refine ⟨?_, ?_, ?_⟩
        · rw [failureLines_append, map_append, hlines, hlines']
          rfl
        · rw [htotal', htotal, runningFailures, map_cons, sum_cons, add_assoc]
        · rw [failureTotals_append, htotals, htotals', append_nil]

/-- What a cycle sends of failures. -/
theorem collectServers_failures {submission submission' : CollectedServer}
    {srvs srvs' : List CollectedServer}
    (h : collectServers mode submission srvs = some ((submission', srvs'), lines)) :
    ∃ f : SizeT, f = failureCount (submission.failure 0) ∧
      (failureLines lines).tail.map (fun l => (some l.1, l.2)) = runningFailures f srvs ∧
      failureTotals lines = [((runningFailures f srvs).map Prod.snd).sum] := by
  rw [collectServers] at h
  split at h
  · cases h
  · split at h
    · cases h
    · next f hf =>
      split at h
      · cases h
      · split at h
        · cases h
        · split at h
          · cases h
          · split at h
            · cases h
            · next hloop =>
              cases h
              obtain ⟨hlines, htotal, htotals⟩ := serverLoop_failures hloop
              refine ⟨f, ?_, ?_, ?_⟩
              · rw [serverGetFailure] at hf
                split at hf
                · exact (Option.some.inj hf).symm
                · cases hf
              · rw [failureLines_append, failureLines_append]
                rw [show failureLines (sendTotals _) = [] from rfl, append_nil]
                exact hlines
              · rw [failureTotals_append, failureTotals_append, htotals]
                simp [sendServerMetrics, sendTotals, failureTotals, htotal]

end

/-! ## When the failures are right -/

theorem failureCount_le (c : BitVec 8) : failureCount c ≤ 127 := by
  have h := BitVec.toInt_lt (x := c)
  rw [failureCount]
  split
  · exact Nat.zero_le _
  · omega

/-- The number of connections is a short, so the failures of a server fit into a word. -/
theorem CollectedServer.failures_lt {d : CollectedServer} (h : d.stats.nconns < 2 ^ 16) :
    d.failures < 2 ^ 64 := by
  have hle : d.failures ≤ d.stats.nconns * 127 := by
    have hsum := sum_le_card_nsmul
      ((List.range d.stats.nconns).map fun n => failureCount (d.failure n)) 127
      (forall_mem_map.2 fun n _ => failureCount_le (d.failure n))
    rw [length_map, length_range] at hsum
    exact hsum
  omega

section
variable {srvs : List CollectedServer} {f : SizeT}

/-- The failures of a server are right if there was nothing before. -/
theorem toNat_add_failures_iff {d : CollectedServer} (h : d.stats.nconns < 2 ^ 16) (f : SizeT) :
    (f + d.failures).toNat = d.failures ↔ f = 0 := by
  have hlt := CollectedServer.failures_lt h
  have hcast : (d.failures : SizeT).toNat = d.failures := Nat.mod_eq_of_lt hlt
  constructor
  · intro heq
    have hword : f + d.failures = (d.failures : SizeT) :=
      BitVec.eq_of_toNat_eq (heq.trans hcast.symm)
    exact add_eq_right.1 hword
  · rintro rfl
    rw [zero_add]
    exact hcast

theorem cast_failures_eq_zero_iff {d : CollectedServer} (h : d.stats.nconns < 2 ^ 16) :
    (d.failures : SizeT) = 0 ↔ d.failures = 0 := by
  have hcast : (d.failures : SizeT).toNat = d.failures :=
    Nat.mod_eq_of_lt (CollectedServer.failures_lt h)
  constructor
  · intro hzero
    rw [← hcast, hzero]
    rfl
  · intro hzero
    rw [hzero]
    rfl

/-- All servers but the last one have no failures. -/
theorem runningFailures_right_iff (hconns : ∀ d ∈ srvs, d.stats.nconns < 2 ^ 16) :
    (runningFailures f srvs).map (fun l => (l.1, l.2.toNat)) =
        srvs.map (fun d => (destbuf d.server, d.failures)) ↔
      srvs = [] ∨ f = 0 ∧ ∀ d ∈ srvs.dropLast, d.failures = 0 := by
  induction srvs generalizing f with
  | nil => simp [runningFailures]
  | cons d srvs ih =>
    have hd := hconns d mem_cons_self
    have hih := ih (f := f + d.failures) fun e he => hconns e (mem_cons_of_mem d he)
    simp only [runningFailures, map_cons, cons.injEq, Prod.mk.injEq, true_and, hih,
      toNat_add_failures_iff hd, reduceCtorEq, false_or]
    refine and_congr_right fun hf => ?_
    subst hf
    rw [zero_add, cast_failures_eq_zero_iff hd]
    cases srvs with
    | nil => simp
    | cons e srvs => simp [dropLast_cons_of_ne_nil]

/-- The total is right if only the last server has failures. -/
theorem runningFailures_sum (hconns : ∀ d ∈ srvs, d.stats.nconns < 2 ^ 16)
    (hlast : ∀ d ∈ srvs.dropLast, d.failures = 0) :
    ((runningFailures 0 srvs).map Prod.snd).sum.toNat =
      (srvs.map CollectedServer.failures).sum := by
  induction srvs with
  | nil => rfl
  | cons d srvs ih =>
    have hd := hconns d mem_cons_self
    rw [runningFailures, zero_add, map_cons, sum_cons, map_cons, sum_cons]
    cases srvs with
    | nil =>
      simp only [runningFailures, map_nil, sum_nil, add_zero]
      exact Nat.mod_eq_of_lt (CollectedServer.failures_lt hd)
    | cons e srvs =>
      rw [dropLast_cons_of_ne_nil (cons_ne_nil e srvs)] at hlast
      obtain ⟨hzero, hlast⟩ := forall_mem_cons.1 hlast
      have hih := ih (fun x hx => hconns x (mem_cons_of_mem d hx)) hlast
      rw [hzero, Nat.cast_zero, zero_add, zero_add]
      exact hih

end

/-- In a cycle the failures that are sent are right exactly if there are no servers, or neither the
submission server nor any server but the last one has failures. -/
theorem failures_right_iff {mode : ColMode} {submission submission' : CollectedServer}
    {srvs srvs' : List CollectedServer} {lines : List StatLine}
    (hconns : ∀ d ∈ srvs, d.stats.nconns < 2 ^ 16)
    (h : collectServers mode submission srvs = some ((submission', srvs'), lines)) :
    FailuresRight srvs lines ↔
      srvs = [] ∨ failureCount (submission.failure 0) = 0 ∧ ∀ d ∈ srvs.dropLast,
        d.failures = 0 := by
  obtain ⟨f, hf, hlines, htotals⟩ := collectServers_failures h
  have hzero : f = 0 ↔ failureCount (submission.failure 0) = 0 := by
    have hle := failureCount_le (submission.failure 0)
    have hcast : f.toNat = failureCount (submission.failure 0) := by
      rw [hf]
      exact Nat.mod_eq_of_lt (by omega)
    rw [← hcast]
    exact ⟨fun h => h ▸ rfl, fun h => BitVec.eq_of_toNat_eq h⟩
  have hdest : (failureLines lines).tail.map (fun l => (some l.1, l.2.toNat)) =
      (runningFailures f srvs).map fun l => (l.1, l.2.toNat) := by
    rw [← hlines, map_map]
    rfl
  rw [← hzero]
  constructor
  · intro hright
    exact (runningFailures_right_iff hconns).1 (hdest ▸ hright.destinations)
  · intro hcond
    refine ⟨hdest.trans ((runningFailures_right_iff hconns).2 hcond), ?_⟩
    rw [htotals, map_singleton, singleton_inj]
    rcases hcond with rfl | ⟨rfl, hlast⟩
    · rfl
    · exact runningFailures_sum hconns hlast

/-- A server with one connection and some failures. -/
def CollectedServer.failing (id : Nat) (failure : BitVec 8) : CollectedServer :=
  ⟨.tcp id "relay".toList (2003 + id), .new 1, fun _ => failure, 0⟩

/-- Only the last server has failures. -/
theorem failures_right_last : ∃ r lines,
    collectServers .sub (.failing 9 0) [.failing 0 0, .failing 1 3] = some (r, lines) ∧
    FailuresRight [.failing 0 0, .failing 1 3] lines := by
  obtain ⟨r, lines, h⟩ : ∃ r lines,
      collectServers .sub (.failing 9 0) [.failing 0 0, .failing 1 3] = some (r, lines) :=
        ⟨_, _, rfl⟩
  refine ⟨r, lines, h, (failures_right_iff ?_ h).2 (.inr (by decide))⟩
  simp [CollectedServer.failing, ServerStats.new]

/-- The first of two servers has a failure. It is sent for both of them, and the total is two. -/
theorem failures_counted_again : ∃ r lines,
    collectServers .cum (.failing 9 0) [.failing 0 1, .failing 1 0] = some (r, lines) ∧
    (failureLines lines).map Prod.snd = [0, 1, 1] ∧ failureTotals lines = [2] ∧
    ¬FailuresRight [.failing 0 1, .failing 1 0] lines := by
  refine ⟨_, _, rfl, rfl, rfl, fun hright => ?_⟩
  exact absurd hright.total (by decide)

end CarbonRelay
