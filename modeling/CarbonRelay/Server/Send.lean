import CarbonRelay.Queue.Refinement
import CarbonRelay.Server.Reader

/-!
# Putting a metric in the queue of a server

The model of `server_send` (`server.c:1747`): a metric for a server goes to its queue, or to that of
a secondary which has more room; where there is no room, the call is refused for a while (a stall),
and then the oldest metric makes place. A call is taken to be atomic. Between two calls other
threads may do to the queues, and to the state of the connections, whatever they do (`SendAct`).

A call that takes the metric puts it in one queue and counts what it displaces there; one that
refuses it changes no queue and is counted as a stall, and there are no more than `maxstalls` of
them while no call finds room (`serverSend_accounts`).
-/

namespace CarbonRelay

open Function List

/-! ## The model -/

/-- `server.h:26 SERVER_STALL_BITS`, the width of `maxstalls`. -/
def serverStallBits : Nat := 4

/-- A server with the fields that `server_send` uses besides those of the readers. -/
structure Destination extends ServerState where
  maxstalls : Nat
  stallseq : Nat
  stalls : Nat

/-- All servers with all queues. -/
structure Destinations where
  servers : Nat → Destination
  queues : Nat → Queue Text

namespace Destinations

def setServer (D : Destinations) (i : Nat) (s : Destination) : Destinations :=
  { D with servers := update D.servers i s }

def setQueue (D : Destinations) (k : Nat) (q : Queue Text) : Destinations :=
  { D with queues := update D.queues k q }

@[simp] theorem setServer_queues (D : Destinations) (i : Nat) (s : Destination) :
    (D.setServer i s).queues = D.queues := rfl

@[simp] theorem setServer_self (D : Destinations) (i : Nat) (s : Destination) :
    (D.setServer i s).servers i = s := update_self ..

theorem setServer_ne (D : Destinations) {i j : Nat} (s : Destination) (h : j ≠ i) :
    (D.setServer i s).servers j = D.servers j := update_of_ne h ..

@[simp] theorem setQueue_servers (D : Destinations) (k : Nat) (q : Queue Text) :
    (D.setQueue k q).servers = D.servers := rfl

@[simp] theorem setQueue_self (D : Destinations) (k : Nat) (q : Queue Text) :
    (D.setQueue k q).queues k = q := update_self ..

theorem setQueue_ne (D : Destinations) {k k' : Nat} (q : Queue Text) (h : k' ≠ k) :
    (D.setQueue k q).queues k' = D.queues k' := update_of_ne h ..

/-- The room in the queue of a server. -/
def free (D : Destinations) (i : Nat) : Nat := queueFree (D.queues (D.servers i).queue)

/-- `server_failed` of a server. -/
def failed (D : Destinations) (i : Nat) : Bool := serverFailed (D.servers i).toServerState ≠ 0

def running (D : Destinations) (i : Nat) : Bool := (D.servers i).keepRunning = .keepRunning

end Destinations

/-- `server.c:1758`, the loop over the secondaries: the queue with the most room so far, and its
room. It is the server itself that is asked whether it has failed. -/
def selectQueue (D : Destinations) (i : Nat) : List Nat → Nat × Nat → Nat × Nat
  | [], sel => sel
  | j :: js, (squeue, maxqfree) =>
    if i ≠ j ∧ D.failed i = false ∧ D.running j = true then
      let sqfree := D.free j
      if maxqfree < sqfree then selectQueue D i js ((D.servers j).queue, sqfree)
      else selectQueue D i js (squeue, maxqfree)
    else selectQueue D i js (squeue, maxqfree)

/-- `server.c:1752`, the queue of a secondary that takes the metric, if there is one. -/
def offloadQueue (D : Destinations) (i : Nat) (force : Bool) : Option Nat :=
  let s := D.servers i
  let qfree := D.free i
  if force = false ∧ s.secondaries ≠ [] ∧
      (D.failed i = true ∨ queueFreeCritical qfree s.toServerState = true) then
    let squeue := (selectQueue D i s.secondaries (s.queue, qfree + 4 * s.bsize)).1
    if squeue ≠ s.queue then some squeue else none
  else none

/-- `server.c:1776`, whether the oldest metric of a full queue makes place: the server has failed,
and there is no other to back it up, or the metric has to be taken, or there were enough stalls. -/
def makesPlace (D : Destinations) (i : Nat) (force : Bool) : Bool :=
  let s := D.servers i
  let failure :=
    if force = false ∧ s.secondaries.any (fun j => D.failed j = false) then false else D.failed i
  failure || force || s.stallseq = s.maxstalls

/-- What a call did: the room it found in the queue of the server, the queue that took the metric,
if it returned 1, and the metrics that made place there. -/
structure SendEvent where
  server : Nat
  metric : Text
  qfree : Nat
  queue : Option Nat
  displaced : List Text
  deriving DecidableEq

/-- The call that puts the metric in queue `k`. -/
def enqueueIn (D : Destinations) (i : Nat) (d : Text) (qfree k : Nat) :
    Option (Destinations × SendEvent) :=
  match queueEnqueue (D.queues k) d with
  | none => none
  | some (q, displaced) => some (D.setQueue k q, ⟨i, d, qfree, some k, displaced⟩)

/-- `server.c:1747 server_send`. -/
def serverSend (D : Destinations) (i : Nat) (d : Text) (force : Bool) :
    Option (Destinations × SendEvent) :=
  let s := D.servers i
  let qfree := D.free i
  match offloadQueue D i force with
  | some squeue =>
    let requeue := if D.failed i then s.requeue else s.requeue + 1
    enqueueIn (D.setServer i { s with requeue }) i d qfree squeue
  | none =>
    if qfree = 0 then
      if makesPlace D i force then
        enqueueIn (D.setServer i { s with dropped := s.dropped + 1 }) i d qfree s.queue
      else
        -- `stallseq` is a byte
        some (D.setServer i { s with stallseq := (s.stallseq + 1) % 2 ^ 8, stalls := s.stalls + 1 },
          ⟨i, d, qfree, none, []⟩)
    else enqueueIn (D.setServer i { s with stallseq := 0 }) i d qfree s.queue

/-- A call, or what other threads do: to a queue, and to the state of a server. -/
inductive SendAct
  | send (i : Nat) (d : Text) (force : Bool)
  | queue (k : Nat) (op : QueueOp Text)
  | reader (i : Nat) (conns : Nat → ServerConn) (qfreeThreshold : Nat) (state : KeepRunning)

/-- The servers as a machine. -/
def sendAct (D : Destinations) : SendAct → Option (Destinations × List SendEvent)
  | .send i d force => (serverSend D i d force).map fun r => (r.1, [r.2])
  | .queue k op => (queueStep (D.queues k) op).map fun r => (D.setQueue k r.1, [])
  | .reader i conns qfreeThreshold state =>
    some (D.setServer i { D.servers i with conns, qfreeThreshold, keepRunning := state }, [])

/-! ## Where a metric goes -/

section
variable {D : Destinations} {i : Nat} {force : Bool}

/-- The loop keeps what it starts with, or finds a secondary with more room. -/
theorem selectQueue_cases (js : List Nat) (sel : Nat × Nat) : selectQueue D i js sel = sel ∨
    ∃ j ∈ js, i ≠ j ∧ D.failed i = false ∧ D.running j = true ∧ sel.2 < D.free j ∧
      selectQueue D i js sel = ((D.servers j).queue, D.free j) := by
  induction js generalizing sel with
  | nil => exact .inl rfl
  | cons j js ih =>
    rw [selectQueue]
    split
    case isTrue hcan =>
      dsimp only
      split
      case isTrue hlt =>
        refine .inr ?_
        rcases ih ((D.servers j).queue, D.free j) with heq |
          ⟨j', hj', hne, hfailed, hrun, hlt', heq⟩
        · exact ⟨j, mem_cons_self, hcan.1, hcan.2.1, hcan.2.2, hlt, heq⟩
        · exact ⟨j', mem_cons_of_mem j hj', hne, hfailed, hrun, hlt.trans hlt', heq⟩
      case isFalse =>
        rcases ih sel with heq | ⟨j', hj', h⟩
        · exact .inl heq
        · exact .inr ⟨j', mem_cons_of_mem j hj', h⟩
    case isFalse =>
      rcases ih sel with heq | ⟨j', hj', h⟩
      · exact .inl heq
      · exact .inr ⟨j', mem_cons_of_mem j hj', h⟩

variable {k : Nat}

/-- A queue that a metric is offloaded to is one of a secondary, which has room. -/
theorem offloadQueue_eq_some (h : offloadQueue D i force = some k) :
    force = false ∧ D.failed i = false ∧ k ≠ (D.servers i).queue ∧
      ∃ j ∈ (D.servers i).secondaries, i ≠ j ∧ D.running j = true ∧ k = (D.servers j).queue ∧
        D.free i + 4 * (D.servers i).bsize < D.free j := by
  rw [offloadQueue] at h
  split at h
  case isFalse => cases h
  case isTrue hcan =>
    dsimp only at h
    split at h
    case isFalse => cases h
    case isTrue hne =>
      cases h
      rcases selectQueue_cases (D := D) (i := i) (D.servers i).secondaries
        ((D.servers i).queue, D.free i + 4 * (D.servers i).bsize) with
        heq | ⟨j, hj, hij, hfailed, hrun, hlt, heq⟩
      · rw [heq] at hne
        exact absurd rfl hne
      · rw [heq] at hne ⊢
        exact ⟨hcan.1, hfailed, hne, j, hj, hij, hrun, rfl, hlt⟩

/-! ## What a call does -/

/-- The queues are well formed, and no server has more stalls in a row than allowed. -/
structure DestOK (D : Destinations) : Prop where
  queues : ∀ k, ∃ xs, (D.queues k).Represents xs
  stallseq_le : ∀ i, (D.servers i).stallseq ≤ (D.servers i).maxstalls
  maxstalls_lt : ∀ i, (D.servers i).maxstalls < 2 ^ serverStallBits

/-- The metric is put in one queue, and what is displaced there is counted; or no queue is changed,
and a stall is counted. -/
structure Accounts (D D' : Destinations) (i : Nat) (d : Text) (e : SendEvent) : Prop where
  others : ∀ j ≠ i, D'.servers j = D.servers j
  taken : ∀ k, e.queue = some k → (∃ xs, (D.queues k).Represents xs ∧
      e.displaced = xs.take e.displaced.length ∧
      (D'.queues k).Represents (xs.drop e.displaced.length ++ [d])) ∧
    (∀ k' ≠ k, D'.queues k' = D.queues k') ∧
    (D'.servers i).dropped = (D.servers i).dropped + e.displaced.length ∧
    (D'.servers i).stalls = (D.servers i).stalls
  refused : e.queue = none → D'.queues = D.queues ∧
    (D'.servers i).dropped = (D.servers i).dropped ∧
    (D'.servers i).stalls = (D.servers i).stalls + 1

variable {D' : Destinations} {d : Text} {e : SendEvent}

theorem Queue.Represents.queueFree_eq_zero {α : Type*} {q : Queue α} {xs : List α}
    (h : q.Represents xs) : queueFree q = 0 ↔ xs.length = q.size := by
  have hle := h.length_le
  rw [queueFree, queueLen, h.len_eq]
  omega

/-- The number of entries that a new one displaces. -/
def queueDisplaces {α : Type*} (q : Queue α) : Nat := if queueFree q = 0 then 1 else 0

/-- `queue_enqueue` appends, and displaces the first entries. -/
theorem Queue.Represents.enqueue_displaces {α : Type*} {q : Queue α} {xs : List α}
    (h : q.Represents xs) (x : α) :
    ∃ q', queueEnqueue q x = some (q', xs.take (queueDisplaces q)) ∧
      q'.Represents (xs.drop (queueDisplaces q) ++ [x]) ∧ queueDisplaces q ≤ xs.length := by
  obtain ⟨q', henq, -, hq'⟩ := h.enqueue x
  have hpos := h.size_pos
  refine ⟨q', ?_⟩
  by_cases hfull : xs.length = q.size
  · rw [queueDisplaces, if_pos (h.queueFree_eq_zero.2 hfull), drop_one]
    rw [if_pos hfull] at henq hq'
    exact ⟨henq, hq', by omega⟩
  · rw [queueDisplaces, if_neg (fun hfree => hfull (h.queueFree_eq_zero.1 hfree))]
    rw [if_neg hfull] at henq hq'
    exact ⟨henq, hq', Nat.zero_le _⟩

theorem DestOK.setServer (hD : DestOK D) {s : Destination} (hle : s.stallseq ≤ s.maxstalls)
    (hlt : s.maxstalls < 2 ^ serverStallBits) : DestOK (D.setServer i s) := by
  refine ⟨hD.queues, fun j => ?_, fun j => ?_⟩
  · by_cases hj : j = i
    · rw [hj, D.setServer_self]
      exact hle
    · rw [D.setServer_ne s hj]
      exact hD.stallseq_le j
  · by_cases hj : j = i
    · rw [hj, D.setServer_self]
      exact hlt
    · rw [D.setServer_ne s hj]
      exact hD.maxstalls_lt j

theorem DestOK.setQueue (hD : DestOK D) {q : Queue Text} {xs : List Text}
    (hq : q.Represents xs) : DestOK (D.setQueue k q) := by
  refine ⟨fun k' => ?_, hD.stallseq_le, hD.maxstalls_lt⟩
  by_cases hk' : k' = k
  · rw [hk', D.setQueue_self]
    exact ⟨xs, hq⟩
  · rw [D.setQueue_ne q hk']
    exact hD.queues k'

/-- A metric that is put in queue `k`, by a call that changes the counters of server `i`. -/
theorem enqueueIn_accounts (hD : DestOK D) {s : Destination} (d : Text) (qfree : Nat)
    (hdropped : s.dropped = (D.servers i).dropped + queueDisplaces (D.queues k))
    (hstalls : s.stalls = (D.servers i).stalls) (hle : s.stallseq ≤ s.maxstalls)
    (hlt : s.maxstalls < 2 ^ serverStallBits) :
    ∃ D' displaced, enqueueIn (D.setServer i s) i d qfree k =
        some (D', ⟨i, d, qfree, some k, displaced⟩) ∧
      D'.servers i = s ∧ Accounts D D' i d ⟨i, d, qfree, some k, displaced⟩ ∧ DestOK D' := by
  obtain ⟨xs, hq⟩ := hD.queues k
  obtain ⟨q', henq, hq', hlen⟩ := hq.enqueue_displaces d
  have htake : (xs.take (queueDisplaces (D.queues k))).length = queueDisplaces (D.queues k) :=
    length_take_of_le hlen
  refine ⟨(D.setServer i s).setQueue k q', xs.take (queueDisplaces (D.queues k)), ?_,
    D.setServer_self i s, ⟨?_, ?_, nofun⟩, (hD.setServer hle hlt).setQueue hq'⟩
  · rw [enqueueIn, D.setServer_queues, henq]
  · exact fun j hj => D.setServer_ne s hj
  · intro k' hk'
    cases hk'
    dsimp only
    rw [htake, Destinations.setQueue_self, Destinations.setQueue_servers, D.setServer_self]
    exact ⟨⟨xs, hq, rfl, hq'⟩, fun k' hk' => Destinations.setQueue_ne _ q' hk', hdropped, hstalls⟩

/-- What is known of the stalls of a server after a call: a stall adds one, and only a call that
finds room starts over. -/
structure Stalls (D D' : Destinations) (i : Nat) (e : SendEvent) : Prop where
  server : e.server = i
  maxstalls_eq : (D'.servers i).maxstalls = (D.servers i).maxstalls
  stalled : e.queue = none → (D'.servers i).stallseq = (D.servers i).stallseq + 1
  full : e.queue ≠ none → e.qfree = 0 → (D'.servers i).stallseq = (D.servers i).stallseq

/-- A call does what it should, in every state. -/
theorem DestOK.serverSend (hD : DestOK D) (i : Nat) (d : Text) (force : Bool) :
    ∃ D' e, serverSend D i d force = some (D', e) ∧ Accounts D D' i d e ∧ Stalls D D' i e ∧
      DestOK D' := by
  have hle := hD.stallseq_le i
  have hlt := hD.maxstalls_lt i
  rw [CarbonRelay.serverSend]
  dsimp only
  split
  case h_1 k hk =>
    obtain ⟨-, -, -, j, -, -, -, hkj, hroom⟩ := offloadQueue_eq_some hk
    have hdisplaces : queueDisplaces (D.queues k) = 0 := by
      rw [hkj]
      exact if_neg (Nat.ne_of_gt (Nat.zero_lt_of_lt hroom))
    obtain ⟨D', displaced, henq, hs, hacc, hD'⟩ := enqueueIn_accounts hD (i := i) (k := k)
      (s := { D.servers i with
        requeue := if D.failed i then (D.servers i).requeue else (D.servers i).requeue + 1 })
      d (D.free i) (by rw [hdisplaces]; rfl) rfl hle hlt
    exact ⟨D', _, henq, hacc, ⟨rfl, by rw [hs], nofun, fun _ _ => by rw [hs]⟩, hD'⟩
  case h_2 =>
    split
    case isTrue hfull =>
      split
      case isTrue =>
        have hdisplaces : queueDisplaces (D.queues (D.servers i).queue) = 1 := if_pos hfull
        obtain ⟨D', displaced, henq, hs, hacc, hD'⟩ := enqueueIn_accounts hD (i := i)
          (k := (D.servers i).queue)
            (s := { D.servers i with dropped := (D.servers i).dropped + 1 })
          d (D.free i) (by rw [hdisplaces]) rfl hle hlt
        exact ⟨D', _, henq, hacc, ⟨rfl, by rw [hs], nofun, fun _ _ => by rw [hs]⟩, hD'⟩
      case isFalse hplace =>
        have hne : (D.servers i).stallseq ≠ (D.servers i).maxstalls := by
          intro heq
          refine hplace ?_
          rw [makesPlace]
          simp [heq]
        have hmod : ((D.servers i).stallseq + 1) % 2 ^ 8 = (D.servers i).stallseq + 1 := by
          rw [serverStallBits] at hlt
          omega
        refine ⟨_, _, rfl, ⟨fun j hj => D.setServer_ne _ hj, nofun, fun _ => ?_⟩,
          ⟨rfl, ?_, fun _ => ?_, fun h => absurd rfl h⟩, hD.setServer ?_ hlt⟩
        · rw [D.setServer_self]
          exact ⟨rfl, rfl, rfl⟩
        · rw [D.setServer_self]
        · rw [D.setServer_self]
          exact hmod
        · dsimp only
          rw [hmod]
          omega
    case isFalse hroom =>
      have hdisplaces : queueDisplaces (D.queues (D.servers i).queue) = 0 := if_neg hroom
      obtain ⟨D', displaced, henq, hs, hacc, hD'⟩ := enqueueIn_accounts hD (i := i)
        (k := (D.servers i).queue) (s := { D.servers i with stallseq := 0 })
        d (D.free i) (by rw [hdisplaces]; rfl) rfl (Nat.zero_le _) hlt
      exact ⟨D', _, henq, hacc, ⟨rfl, by rw [hs], nofun, fun _ hfull => absurd hfull hroom⟩, hD'⟩

/-! ## Runs -/

/-- The step is a call that does what it should, or one of other threads. -/
def CallAccounts (D : Destinations) : SendAct → Prop
  | .send i d force => ∃ D' e, serverSend D i d force = some (D', e) ∧ Accounts D D' i d e
  | .queue .. | .reader .. => True

/-- The calls for server `i` that were refused. -/
def refusals (i : Nat) (tr : List SendEvent) : Nat :=
  tr.countP fun e => e.server = i ∧ e.queue = none

/-- No call for server `i` found room in its queue. -/
def SeesNoRoom (i : Nat) (tr : List SendEvent) : Prop := ∀ e ∈ tr, e.server = i → e.qfree = 0

variable {tr es : List SendEvent} {a : SendAct}

theorem Queue.Represents.queueStep {α : Type*} {q : Queue α} {xs : List α} (h : q.Represents xs)
    (op : QueueOp α) : ∃ q' out xs', queueStep q op = some (q', out) ∧ q'.Represents xs' := by
  cases op with
  | enqueue p =>
    obtain ⟨q', hq, -, hrep⟩ := h.enqueue p
    exact ⟨q', _, _, by rw [CarbonRelay.queueStep, hq]; rfl, hrep⟩
  | dequeue =>
    obtain ⟨q', hq, -, hrep⟩ := h.dequeue
    exact ⟨q', _, _, by rw [CarbonRelay.queueStep, hq]; rfl, hrep⟩
  | dequeueVector len =>
    obtain ⟨q', hq, -, hrep⟩ := h.dequeueVector len
    exact ⟨q', _, _, by rw [CarbonRelay.queueStep, hq]; rfl, hrep⟩
  | putback p =>
    obtain ⟨q', hq, -, hrep⟩ := h.putback p
    exact ⟨q', _, _, by rw [CarbonRelay.queueStep, hq]; rfl, hrep⟩

/-- What a step leaves of the stalls of every server. -/
structure StepOK (D D' : Destinations) (es : List SendEvent) : Prop where
  ok : DestOK D'
  maxstalls_eq : ∀ i, (D'.servers i).maxstalls = (D.servers i).maxstalls
  stallseq_eq : ∀ i, SeesNoRoom i es →
    (D'.servers i).stallseq = (D.servers i).stallseq + refusals i es

theorem DestOK.sendAct (hD : DestOK D) (a : SendAct) :
    ∃ D' es, sendAct D a = some (D', es) ∧ StepOK D D' es ∧ CallAccounts D a := by
  cases a with
  | send i d force =>
    obtain ⟨D', e, hsend, hacc, hstalls, hD'⟩ := hD.serverSend i d force
    refine ⟨D', [e], by rw [CarbonRelay.sendAct, hsend]; rfl, ⟨hD', fun j => ?_, fun j hroom => ?_⟩,
      D', e, hsend, hacc⟩
    · by_cases hj : j = i
      · rw [hj]
        exact hstalls.maxstalls_eq
      · rw [hacc.others j hj]
    · by_cases hj : j = i
      · subst hj
        cases hqueue : e.queue with
        | none =>
          rw [hstalls.stalled hqueue, refusals, countP_singleton, if_pos]
          simp [hstalls.server, hqueue]
        | some k =>
          have hfull := hroom e mem_cons_self hstalls.server
          rw [hstalls.full (by rw [hqueue]; nofun) hfull, refusals, countP_singleton, if_neg]
          · rfl
          · simp [hqueue]
      · rw [hacc.others j hj, refusals, countP_singleton, if_neg]
        · rfl
        · simp [hstalls.server, Ne.symm hj]
  | queue k op =>
    obtain ⟨xs, hq⟩ := hD.queues k
    obtain ⟨q', out, xs', hstep, hq'⟩ := hq.queueStep op
    exact ⟨D.setQueue k q', [], by rw [CarbonRelay.sendAct, hstep]; rfl,
      ⟨hD.setQueue hq', fun _ => rfl, fun _ _ => rfl⟩, trivial⟩
  | reader i conns qfreeThreshold state =>
    refine ⟨_, [], rfl, ⟨hD.setServer (hD.stallseq_le i) (hD.maxstalls_lt i), fun j => ?_,
      fun j _ => ?_⟩, trivial⟩
    · by_cases hj : j = i
      · rw [hj, D.setServer_self]
      · rw [D.setServer_ne _ hj]
    · by_cases hj : j = i
      · rw [hj, D.setServer_self]
        rfl
      · rw [D.setServer_ne _ hj]
        rfl

theorem StepOK.append {D'' : Destinations} {es' : List SendEvent} (h : StepOK D D' es)
    (h' : StepOK D' D'' es') : StepOK D D'' (es ++ es') where
  ok := h'.ok
  maxstalls_eq i := (h'.maxstalls_eq i).trans (h.maxstalls_eq i)
  stallseq_eq i hroom := by
    obtain ⟨hes, hes'⟩ := forall_mem_append.1 hroom
    rw [h'.stallseq_eq i hes', h.stallseq_eq i hes, refusals, refusals, refusals, countP_append,
      Nat.add_assoc]

end

/-- In every run from a state in which the queues are well formed, every call is accounted for. No
server ever has more than `maxstalls` stalls in a row, so that at most as many calls are refused
while none finds room. -/
theorem serverSend_accounts {D : Destinations} (hD : DestOK D) (acts : List SendAct) :
    ∃ D' es, Machine.run sendAct D acts = some (D', es) ∧
      Machine.Along sendAct CallAccounts D acts ∧
      (∀ i, (D'.servers i).stallseq ≤ (D'.servers i).maxstalls) ∧
      ∀ i, SeesNoRoom i es.flatten → refusals i es.flatten ≤ (D.servers i).maxstalls := by
  have hstep : ∀ D a D' es, DestOK D → sendAct D a = some (D', es) → StepOK D D' es := by
    intro D a D' es hD h
    obtain ⟨D₁, es₁, h₁, hok, -⟩ := hD.sendAct a
    cases h.symm.trans h₁
    exact hok
  obtain ⟨D', es, hrun, hD'⟩ := Machine.exists_run_of_invariant (I := DestOK)
    (fun D a hD => by
      obtain ⟨D', es, h, hok, -⟩ := hD.sendAct a
      exact ⟨D', es, h, hok.ok⟩) acts hD
  have halong : Machine.Along sendAct CallAccounts D acts :=
    Machine.along_of_invariant (fun D a hD => by
      obtain ⟨_, _, -, -, hcall⟩ := hD.sendAct a
      exact hcall) (fun D a D' es hD h => (hstep D a D' es hD h).ok) acts hD
  have hok : StepOK D D' ([] ++ es.flatten) :=
    Machine.run_trace_invariant (I := fun tr D' => StepOK D D' tr) (p := fun _ => True)
      (fun tr D₁ a D₂ es₁ _ h h₁ => h.append (hstep D₁ a D₂ es₁ h.ok h₁)) (fun _ _ => trivial)
      ⟨hD, fun _ => rfl, fun _ _ => rfl⟩ hrun
  refine ⟨D', es, hrun, halong, hD'.stallseq_le, fun i hroom => ?_⟩
  have hseq := hok.stallseq_eq i hroom
  have hle := hD'.stallseq_le i
  rw [hok.maxstalls_eq i] at hle
  rw [nil_append] at hseq
  omega

/-- A server with one connection and batches of one metric, which may stall once. -/
def plainDestination (queue failure : Nat) (secondaries : List Nat) : Destination where
  queue := queue
  sharedQueue := false
  bsize := 1
  qfreeThreshold := 2
  thresholdStart := 2
  thresholdEnd := 2
  ttl := 0
  ctype := .tcp
  nconns := 1
  conns := fun _ => ⟨-1, false, failure, 0⟩
  secondaries := secondaries
  failover := false
  keepRunning := .keepRunning
  dropped := 0
  requeue := 0
  maxstalls := 1
  stallseq := 0
  stalls := 0

/-- Three metrics for a server with a queue of one: the second stalls, the third displaces the
first. -/
theorem serverSend_accounts_three :
    ∃ D' es, Machine.run sendAct ⟨fun _ => plainDestination 0 0 [], fun _ => queueNew 1⟩
        [.send 0 ['a'] false, .send 0 ['b'] false, .send 0 ['c'] false] = some (D', es) ∧
      es = [[⟨0, ['a'], 1, some 0, []⟩], [⟨0, ['b'], 0, none, []⟩],
        [⟨0, ['c'], 0, some 0, [['a']]⟩]] ∧
      (D'.servers 0).stallseq ≤ (D'.servers 0).maxstalls := by
  have hD : DestOK ⟨fun _ => plainDestination 0 0 [], fun _ => queueNew 1⟩ :=
    ⟨fun _ => ⟨[], Queue.represents_queueNew Nat.one_pos⟩, fun _ => Nat.zero_le _,
      fun _ => show 1 < 2 ^ serverStallBits by decide⟩
  obtain ⟨D', es, hrun, -, hle, -⟩ := serverSend_accounts hD
    [.send 0 ['a'] false, .send 0 ['b'] false, .send 0 ['c'] false]
  have hes := congrArg (Option.map Prod.snd) hrun
  refine ⟨D', es, hrun, (Option.some.inj hes).symm, hle 0⟩

end CarbonRelay
