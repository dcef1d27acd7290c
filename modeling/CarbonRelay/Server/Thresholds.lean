import CarbonRelay.Lib.Machine
import CarbonRelay.Server.Calls

/-!
# The thresholds of an overloaded server

A server counts as overloaded from when its queue has less room than `threshold_start` until it has
as much as `threshold_end`. The threshold in force is `qfree_threshold`, which a call of
`server_queueread` switches between the two.

The two come from the options of the relay, as numbers of metrics, or from the cluster, where they
are percentages that nothing converts; the threshold in force starts as that of the relay
(`server_new`). Where a cluster has thresholds of its own, it is therefore neither of the two, in
general, and is never switched; and where it has only an end, that may be below the start.
`hysteresis_iff` says for which settings all goes well.
-/

namespace CarbonRelay

open List

/-! ## The settings -/

/-- `relay.c:637` and `relay.c:642`, an option as a number of metrics, with its default. -/
def queuefreeCount (option : Int) (default queuesize : Nat) : Nat :=
  if option = 0 then default else option.toNat * queuesize / 100

/-- `relay.c:629`, the thresholds of the relay from the options `-b`, `-q`, `-S` and `-F`: the
percentages become numbers of metrics. Nothing is left if the relay ends with an error, or if an
`int` overflows. -/
def queuefreeThresholds (batchsize queuesize : Nat) (start stop : Int) : Option (Nat × Nat) :=
  if start < 0 ∨ 100 < start ∨ stop < 0 ∨ 100 < stop then none
  else
    let queuefreeStart := queuefreeCount start (2 * batchsize) queuesize
    let queuefreeEnd := queuefreeCount stop (3 * batchsize) queuesize
    if 2 ^ 31 ≤ queuefreeStart ∨ 2 ^ 31 ≤ queuefreeEnd then none
    else if queuefreeEnd ≤ queuefreeStart then none
    else if queuesize < batchsize then none
    else some (queuefreeStart, queuefreeEnd)

/-- `server.c:1387 cluster_set_threshold`, with 0 for what the cluster does not set. -/
def clusterSetThreshold (start stop : Int) : Option (Nat × Nat) :=
  if start < 0 ∨ 100 < start ∨ stop < 0 ∨ 100 < stop then none
  else if stop < start then none
  else some (start.toNat, stop.toNat)

/-- `server.c:1453` and `server.c:1519`, what `server_new` does to the thresholds. -/
def serverNewThresholds (queuefree cl : Nat × Nat) (s : ServerState) : ServerState :=
  { s with
    thresholdStart := if cl.1 < 1 then queuefree.1 else cl.1
    thresholdEnd := if cl.2 < 1 then queuefree.2 else cl.2
    qfreeThreshold := queuefree.1 }

theorem queuefreeThresholds_lt {batchsize queuesize : Nat} {start stop : Int}
    {queuefree : Nat × Nat}
    (h : queuefreeThresholds batchsize queuesize start stop = some queuefree) :
    queuefree.1 < queuefree.2 := by
  rw [queuefreeThresholds] at h
  split at h
  case isTrue => cases h
  case isFalse =>
    dsimp only at h
    split at h
    case isTrue => cases h
    case isFalse =>
      split at h
      case isTrue => cases h
      case isFalse hlt =>
        split at h
        case isTrue => cases h
        case isFalse =>
          cases h
          exact not_le.1 hlt

theorem clusterSetThreshold_le {start stop : Int} {cl : Nat × Nat}
    (h : clusterSetThreshold start stop = some cl) : cl.1 ≤ cl.2 := by
  rw [clusterSetThreshold] at h
  split at h
  case isTrue => cases h
  case isFalse =>
    split at h
    case isTrue => cases h
    case isFalse hle =>
      cases h
      exact Int.toNat_le_toNat (not_lt.1 hle)

/-! ## Runs -/

/-- A call of `server_queueread`, or anything that happens to the queues. -/
inductive LoadAct
  | read (self n : Nat) (shutdown : KeepRunning) (idle : Nat) (io : ReadIO)
  | levels (queues : Nat → Queue Text)

/-- The threshold in force before and after a call, which found this much room. -/
structure ThresholdEvent where
  server : Nat
  qfree : Nat
  before : Nat
  after : Nat
  deriving DecidableEq

/-- The servers as a machine, which puts out their thresholds. -/
def loadStep (P : Pool) : LoadAct → Option (Pool × List ThresholdEvent)
  | .read self n shutdown idle io =>
    (serverQueueread self n shutdown idle io P).map fun q =>
      (q.pool, [⟨self, queueFree (P.queueOf self), (P.servers self).qfreeThreshold,
        (q.pool.servers self).qfreeThreshold⟩])
  | .levels queues => some ({ P with queues }, [])

/-- The threshold in force is one of the server's own. -/
def ServerState.Within (s : ServerState) : Prop :=
  s.qfreeThreshold = s.thresholdStart ∨ s.qfreeThreshold = s.thresholdEnd

/-- A call switches between the two thresholds, to the end if there is less room than the start, and
back if there is as much as the end. -/
structure ThresholdEvent.Tame (start stop : Nat) (e : ThresholdEvent) : Prop where
  before : e.before = start ∨ e.before = stop
  after : e.after = start ∨ e.after = stop
  starts : start ≠ stop → e.before = start → e.after = stop → e.qfree < start
  ends : start ≠ stop → e.before = stop → e.after = start → stop ≤ e.qfree

section
variable {P P' : Pool} {i : Nat}

theorem Kept.limits {self n : Nat} (h : Kept self n P P') (j : Nat) :
    (P'.servers j).qfreeThreshold = (P.servers j).qfreeThreshold ∧
      (P'.servers j).thresholdStart = (P.servers j).thresholdStart ∧
      (P'.servers j).thresholdEnd = (P.servers j).thresholdEnd := by
  obtain ⟨c, d, r, hj, -⟩ := h j
  rw [hj]
  exact ⟨rfl, rfl, rfl⟩

/-- The first lines of a call, for a server whose threshold in force is one of its own. -/
theorem throttle_tame {s : ServerState} (h : s.Within) (self qfree : Nat) :
    (throttle qfree s).thresholdStart = s.thresholdStart ∧
      (throttle qfree s).thresholdEnd = s.thresholdEnd ∧
        ThresholdEvent.Tame s.thresholdStart s.thresholdEnd
        ⟨self, qfree, s.qfreeThreshold, (throttle qfree s).qfreeThreshold⟩ := by
  rw [ServerState.Within] at h
  rw [throttle, queueFreeCritical]
  split
  case isTrue hcrit =>
    have hlt : qfree < s.qfreeThreshold := of_decide_eq_true hcrit
    split
    case isTrue hstart =>
      exact ⟨rfl, rfl, h, .inr rfl, fun _ _ _ => hstart ▸ hlt, fun hne _ heq => absurd heq.symm hne⟩
    case isFalse hstart =>
      exact ⟨rfl, rfl, h, h, fun _ heq => absurd heq hstart, fun _ _ heq => absurd heq hstart⟩
  case isFalse hcrit =>
    have hle : s.qfreeThreshold ≤ qfree := not_lt.1 fun hlt => hcrit (decide_eq_true hlt)
    split
    case isTrue hend =>
      exact ⟨rfl, rfl, h, .inl rfl, fun hne _ heq => absurd heq hne, fun _ _ _ => hend ▸ hle⟩
    case isFalse hend =>
      exact ⟨rfl, rfl, h, h, fun _ _ heq => absurd heq hend, fun _ heq => absurd heq hend⟩

/-- Server `i` still has its thresholds, and one of them is in force. -/
structure Limits (i start stop : Nat) (P : Pool) : Prop where
  start_eq : (P.servers i).thresholdStart = start
  stop_eq : (P.servers i).thresholdEnd = stop
  within : (P.servers i).Within

theorem Limits.step {start stop : Nat} (h : Limits i start stop P) {a : LoadAct}
    {es : List ThresholdEvent} (hstep : loadStep P a = some (P', es)) :
    Limits i start stop P' ∧ ∀ e ∈ es, e.server = i → e.Tame start stop := by
  obtain ⟨rfl, rfl, hwithin⟩ := h
  cases a with
  | levels queues =>
    cases hstep
    exact ⟨⟨rfl, rfl, hwithin⟩, nofun⟩
  | read self n shutdown idle io =>
    obtain ⟨q, hread, hq⟩ := Option.map_eq_some_iff.1 hstep
    cases hq
    obtain ⟨hthreshold, hstart, hend⟩ := (serverQueueread_kept hread).limits i
    by_cases hi : i = self
    · subst hi
      have htame : (throttled P i).servers i = P.servers i ∨
          (throttled P i).servers i = throttle (queueFree (P.queueOf i)) (P.servers i) := by
        rw [throttled]
        split
        · exact .inr (Function.update_self ..)
        · exact .inl rfl
      rcases htame with hsame | hsame
      · rw [hsame] at hthreshold hstart hend
        refine ⟨⟨hstart, hend, ?_⟩, fun e he _ => ?_⟩
        · rw [ServerState.Within, hthreshold, hstart, hend]
          exact hwithin
        · cases mem_singleton.1 he
          rw [hthreshold]
          refine ⟨hwithin, hwithin, fun hne hb ha => absurd (hb.symm.trans ha) hne,
            fun hne hb ha => absurd (ha.symm.trans hb) hne⟩
      · obtain ⟨hs, he, htame⟩ := throttle_tame hwithin i (queueFree (P.queueOf i))
        rw [hsame] at hthreshold hstart hend
        refine ⟨⟨hstart.trans hs, hend.trans he, ?_⟩, fun e hmem _ => ?_⟩
        · rw [ServerState.Within, hthreshold, hstart, hend, hs, he]
          exact htame.after
        · cases mem_singleton.1 hmem
          rw [hthreshold]
          exact htame
    · rw [throttled_servers_ne hi] at hthreshold hstart hend
      refine ⟨⟨hstart, hend, ?_⟩, fun e he hserver => ?_⟩
      · rw [ServerState.Within, hthreshold, hstart, hend]
        exact hwithin
      · cases mem_singleton.1 he
        exact absurd hserver.symm hi

end

/-! ## When all goes well -/

/-- What is expected of server `i`: the start is not above the end, and in every run the threshold
in force is one of the two and is switched at the right times. -/
structure Hysteresis (P : Pool) (i : Nat) : Prop where
  ordered : (P.servers i).thresholdStart ≤ (P.servers i).thresholdEnd
  within : ∀ acts P' es, Machine.run loadStep P acts = some (P', es) → (P'.servers i).Within
  tame : ∀ acts P' es, Machine.run loadStep P acts = some (P', es) → ∀ e ∈ es.flatten,
    e.server = i → e.Tame (P.servers i).thresholdStart (P.servers i).thresholdEnd

/-- The settings of a cluster that suit those of the relay: none at all, an end that is not below
the start of the relay, or a start or an end that happens to be that start. -/
def ThresholdsAgree (queuefree cl : Nat × Nat) : Prop :=
  if cl.1 = 0 then cl.2 = 0 ∨ queuefree.1 ≤ cl.2 else queuefree.1 = cl.1 ∨ queuefree.1 = cl.2

/-- For all accepted settings of the relay and of a cluster, the thresholds of a new server work
exactly if the two agree. -/
theorem hysteresis_iff {batchsize queuesize : Nat} {start stop clStart clStop : Int}
    {queuefree cl : Nat × Nat} {P : Pool} {i : Nat} {s : ServerState}
    (hqueuefree : queuefreeThresholds batchsize queuesize start stop = some queuefree)
    (hcl : clusterSetThreshold clStart clStop = some cl)
    (hnew : P.servers i = serverNewThresholds queuefree cl s) :
    Hysteresis P i ↔ ThresholdsAgree queuefree cl := by
  have hlt := queuefreeThresholds_lt hqueuefree
  have hle := clusterSetThreshold_le hcl
  have hagree : ThresholdsAgree queuefree cl ↔ (P.servers i).Within ∧
      (P.servers i).thresholdStart ≤ (P.servers i).thresholdEnd := by
    rw [hnew, ThresholdsAgree, ServerState.Within, serverNewThresholds]
    dsimp only
    split_ifs <;> omega
  rw [hagree]
  constructor
  · intro h
    exact ⟨h.within [] P [] rfl, h.ordered⟩
  · rintro ⟨hwithin, hordered⟩
    have hrun : ∀ acts P' es, Machine.run loadStep P acts = some (P', es) →
        Limits i (P.servers i).thresholdStart (P.servers i).thresholdEnd P' ∧
          ∀ e ∈ [] ++ es.flatten, e.server = i →
            e.Tame (P.servers i).thresholdStart (P.servers i).thresholdEnd := by
      intro acts P' es hrun
      refine Machine.run_trace_invariant (p := fun _ => True)
        (I := fun tr P' => Limits i (P.servers i).thresholdStart (P.servers i).thresholdEnd P' ∧
          ∀ e ∈ tr, e.server = i →
            e.Tame (P.servers i).thresholdStart (P.servers i).thresholdEnd)
        ?_ (fun _ _ => trivial) ⟨⟨rfl, rfl, hwithin⟩, fun e he => absurd he not_mem_nil⟩ hrun
      intro tr P₁ a P₂ es₁ _ ⟨hlimits, htr⟩ hstep
      obtain ⟨hlimits', hes⟩ := hlimits.step hstep
      exact ⟨hlimits', forall_mem_append.2 ⟨htr, hes⟩⟩
    exact ⟨hordered, fun acts P' es h => (hrun acts P' es h).1.within,
      fun acts P' es h => (hrun acts P' es h).2⟩

/-- One server with the default settings of the relay, and these of its cluster. -/
def defaultPool (cl : Nat × Nat) : Pool where
  servers _ := serverNewThresholds (5000, 7500) cl { aloneServer with secondaries := [0, 1] }
  queues _ := queueNew 25000

/-- With the default settings and none of the cluster, the thresholds work. -/
theorem hysteresis_default : Hysteresis (defaultPool (0, 0)) 0 :=
  (hysteresis_iff (s := { aloneServer with secondaries := [0, 1] })
    (show queuefreeThresholds 2500 25000 0 0 = some (5000, 7500) by decide)
    (show clusterSetThreshold 0 0 = some (0, 0) by decide) rfl).2 (.inl rfl)

/-- A cluster with `threshold_start 10` and `threshold_end 20`: the threshold in force is 5000,
before and after a call that finds an empty queue. With `threshold_end 20` alone, the start is 5000
and the end 20. -/
theorem cluster_threshold_ignored :
    queuefreeThresholds 2500 25000 0 0 = some (5000, 7500) ∧
      clusterSetThreshold 10 20 = some (10, 20) ∧ clusterSetThreshold 0 20 = some (0, 20) ∧
      (∃ P' es, Machine.run loadStep (defaultPool (10, 20)) [.read 0 0 .stop 0 ⟨.connected 5, []⟩] =
          some (P', es) ∧ es = [[⟨0, 25000, 5000, 5000⟩]] ∧ (P'.servers 0).thresholdStart = 10 ∧
        (P'.servers 0).thresholdEnd = 20 ∧ ¬(P'.servers 0).Within) ∧
      ((defaultPool (0, 20)).servers 0).thresholdStart = 5000 ∧
      ((defaultPool (0, 20)).servers 0).thresholdEnd = 20 := by
  refine ⟨by decide, by decide, by decide, ⟨_, _, rfl, rfl, rfl, rfl, ?_⟩, rfl, rfl⟩
  exact show ¬((5000 : Nat) = 10 ∨ 5000 = 20) by decide

end CarbonRelay
