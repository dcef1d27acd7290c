import CarbonRelay.Server.Conservation
import CarbonRelay.Server.Draining
import Mathlib.Order.Bounds.Basic

/-!
# The order of a failover cluster

The servers of a `failover` cluster share one queue. A server behind the first is to take metrics
from it only if the queue is nearly full, or if every server in front of it is down, that is, if
none of its connections works any more. `server_failed` (`server.c:1124`) is to tell this by the
connection that fares best, but it returns the count of the one that fares worst
(`le_serverFailed_iff`). A server with one connection at `FAIL_WAIT_COUNT` thus counts as down while
others have failed but once.

`failover_order_iff` says when the order is kept nevertheless, and when `server_failed` returns the
least count.
-/

namespace CarbonRelay

open Function List

/-! ## The connections of a server -/

/-- The failures of the connections. -/
def ServerState.failures (s : ServerState) : List Nat :=
  (List.range s.nconns).map fun i => (s.conns i).failure

/-- The loop of `server_failed` reaches a count if no connection is without failure and one has that
many. -/
theorem le_failedLoop_iff {k : Nat} (hk : 0 < k) (l : List Nat) (m : Nat) :
    k ≤ failedLoop l m ↔ 0 ∉ l ∧ (k ≤ m ∨ ∃ f ∈ l, k ≤ f) := by
  induction l generalizing m with
  | nil => simp [failedLoop]
  | cons f l ih =>
    rw [failedLoop]
    by_cases hf : f = 0
    · simp only [hf, if_true, mem_cons, true_or, not_true_eq_false, false_and, iff_false]
      omega
    · have hmax : k ≤ (if m = 0 ∨ m < f then f else m) ↔ k ≤ m ∨ k ≤ f := by
        split <;> omega
      rw [if_neg hf, ih, hmax, mem_cons, exists_mem_cons_iff, or_assoc]
      have hne : ¬0 = f := fun h => hf h.symm
      simp [hne]

/-- `server_failed` is at least `k` if every connection failed and one did at least `k` times. -/
theorem le_serverFailed_iff {k : Nat} (hk : 0 < k) (s : ServerState) :
    k ≤ serverFailed s ↔ 0 ∉ s.failures ∧ ∃ f ∈ s.failures, k ≤ f := by
  rw [serverFailed, le_failedLoop_iff hk, ← ServerState.failures]
  simp [Nat.not_le.2 hk]

theorem serverFailed_eq_zero {s : ServerState} (h : 0 ∈ s.failures) : serverFailed s = 0 := by
  by_contra hne
  exact ((le_serverFailed_iff (Nat.pos_of_ne_zero hne) s).1 (Nat.le_refl _)).1 h

/-- All connections of a server agree, or one has not failed at all. -/
def ServerState.Alike (s : ServerState) : Prop :=
  0 ∈ s.failures ∨ ∀ f ∈ s.failures, ∀ g ∈ s.failures, f = g

/-- `server_failed` is the least count if and only if all agree, or one is 0. -/
theorem isLeast_serverFailed_iff {s : ServerState} (hconns : 0 < s.nconns) :
    IsLeast {f | f ∈ s.failures} (serverFailed s) ↔ s.Alike := by
  by_cases hzero : 0 ∈ s.failures
  · rw [serverFailed_eq_zero hzero]
    exact iff_of_true ⟨hzero, fun _ _ => Nat.zero_le _⟩ (.inl hzero)
  have hpos : ∀ f ∈ s.failures, 0 < f := fun f hf =>
    Nat.pos_of_ne_zero fun h => hzero (h ▸ hf)
  have hle : ∀ f ∈ s.failures, f ≤ serverFailed s := fun f hf =>
    (le_serverFailed_iff (hpos f hf) s).2 ⟨hzero, f, hf, Nat.le_refl f⟩
  constructor
  · intro hleast
    have heq : ∀ f ∈ s.failures, f = serverFailed s := fun f hf =>
      Nat.le_antisymm (hle f hf) (hleast.2 hf)
    exact .inr fun f hf g hg => (heq f hf).trans (heq g hg).symm
  · rintro (h | halike)
    · exact absurd h hzero
    · have hfirst : (s.conns 0).failure ∈ s.failures := mem_map.2 ⟨0, mem_range.2 hconns, rfl⟩
      have hfailed : 0 < serverFailed s := (hpos _ hfirst).trans_le (hle _ hfirst)
      obtain ⟨-, g, hg, hge⟩ := (le_serverFailed_iff hfailed s).1 (Nat.le_refl _)
      have heq : serverFailed s = g := Nat.le_antisymm hge (hle g hg)
      rw [heq]
      exact ⟨hg, fun f hf => (halike g hg f hf).le⟩

/-! ## A call that takes metrics -/

/-- Metrics are waiting, and a connection is closed or can be polled. -/
structure CanTake (P : Pool) (i n : Nat) : Prop where
  conn : n < (P.servers i).nconns
  fd : ((P.servers i).conns n).fd ≠ 0
  waiting : queueLen (P.queueOf i) ≠ 0

section
variable {P : Pool} {self n : Nat}

/-- A batch whose metrics the stream all accepts. -/
theorem sendLoop_written (batch : List Text) (c : SendCounts) (conn : ServerConn)
    (ops : List StrmOp) (rest : List SendOutcome) :
    sendLoop batch c ⟨conn, List.replicate batch.length (.write .written) ++ rest, ops⟩ =
      some (⟨c.sended + batch.length, c.total + batch.length, c.flushed⟩,
        ⟨conn, rest, ops ++ batch.map .write⟩) := by
  induction batch generalizing c ops with
  | nil => simp [sendLoop]
  | cons m batch ih =>
    rw [length_cons, replicate_succ, cons_append, sendLoop]
    simp only [SendState.accept]
    rw [ih]
    simp [Nat.add_assoc, Nat.add_comm 1]

variable {xs : List Text} {q : Queueread}

/-- On an open connection a batch can be sent. -/
theorem exists_serverQueuesend {conn : ServerConn} (hfd : 0 < conn.fd) {bsize : Nat}
    (hbsize : 0 < bsize)
    {squeue : Queue Text} (hq : squeue.Represents xs) (hne : xs ≠ []) (dropped : Nat) :
    ∃ outs r, serverQueuesend conn bsize squeue dropped outs = some r ∧ 0 ≤ r.ret := by
  obtain ⟨q', hvector, -⟩ := hq.dequeueVector bsize
  have htake : xs.take bsize ≠ [] := by
    simp [hne, hbsize.ne']
  have hlen : 0 < (xs.take bsize).length := length_pos_of_ne_nil htake
  refine ⟨.poll .ready :: (List.replicate (xs.take bsize).length (.write .written) ++
      [.poll .ready, .flush true]),
    { ret := ((xs.take bsize).map some).length
      conn := { conn with alive := true, failure := conn.failure - 1 }
      squeue := q', dropped, ops := (xs.take bsize).map .write ++ [.flush true]
      freed := xs.take bsize }, ?_, Int.natCast_nonneg _⟩
  have hbatch : (xs.take bsize).map some ≠ [] := fun h => htake (map_eq_nil_iff.1 h)
  simp only [serverQueuesend, serverPoll, hfd, if_true, Option.bind_eq_bind, Option.bind_some,
    sendBatch, hvector]
  rw [if_pos hbatch, batchOf_map_some, sendLoop_written]
  simp only [Option.bind_some, finalFlush, serverPoll, Nat.zero_add, hlen, hfd, if_true,
    Option.bind_eq_bind, SendState.flush, finishBatch]
  rw [if_pos hfd.le]
  rfl

/-- A reader with an open connection can take a batch of a queue that is shared. -/
theorem exists_sendAll (self n : Nat) (st : ReadState)
    (hfd : 0 < ((st.pool.servers self).conns n).fd) (hbsize : 0 < (st.pool.servers self).bsize)
    (hshared : (st.pool.servers self).sharedQueue = true)
    (hq : (st.pool.queueOf self).Represents xs) (hne : xs ≠ []) :
    ∃ sends q, sendAll self n (queueFree (st.pool.queueOf self)) sends st = some q ∧
      q.pool.queueOf self ≠ st.pool.queueOf self := by
  have hpos : 0 < xs.length := length_pos_of_ne_nil hne
  have hroom : queueFree (st.pool.queueOf self) < queueSize (st.pool.queueOf self) := by
    have hadd := hq.queueLen_add_queueFree
    rw [queueLen, hq.len_eq] at hadd
    rw [queueSize]
    omega
  obtain ⟨outs, r, hr, hret⟩ :=
    exists_serverQueuesend hfd hbsize hq hne (st.pool.servers self).dropped
  have hfrom : ∃ P', sendFrom self self n outs st.pool = some (P', r.ret) := by
    rw [sendFrom, hr]
    exact ⟨_, rfl⟩
  obtain ⟨P', hfrom⟩ := hfrom
  have hframe := (sendFrom_levels hfrom hret).1
  have hall : sendAll self n (queueFree (st.pool.queueOf self)) [outs] st =
      some ⟨P', r.ret.toNat, if st.moved = 0 then 0 else st.idle, st.moved ≠ 0⟩ := by
    rw [sendAll, sendOwn, if_pos hroom]
    simp only [hfrom, Option.map_some, not_lt.2 hret, if_false, hframe.sharedQueue, hshared,
      Bool.true_eq_false, false_and, Option.elim]
  refine ⟨_, _, hall, fun heq => ?_⟩
  obtain ⟨-, hlevels⟩ := sendAll_levels (Frame.refl self st.pool) rfl hall (Int.natCast_nonneg _)
  have hlen := congrFun hlevels (st.pool.servers self).queue
  dsimp only [sentLevels] at hlen heq
  rw [if_pos hroom, if_neg (by simp [hshared]), takeBatch, update_self, Pool.levels,
    ← hframe.queue self, ← Pool.queueOf, heq, Pool.levels, hframe.queue self,
      ← Pool.queueOf, queueLen,
    hq.len_eq] at hlen
  omega

/-- A reader that does not leave the queue to others takes a batch, if it is able to. -/
theorem exists_serverQueueread (hnot : ¬LeavesToOthers P self) (hcan : CanTake P self n)
    (hbsize : 0 < (P.servers self).bsize) (hshared : (P.servers self).sharedQueue = true)
    (hq : (P.queueOf self).Represents xs) :
    ∃ io q, serverQueueread self n .keepRunning 0 io P = some q ∧ q.pool.queueOf self ≠
      P.queueOf self := by
  have hne : xs ≠ [] := by
    rintro rfl
    exact hcan.waiting hq.len_eq
  have hempty : queueFree (P.queueOf self) ≠ queueSize (P.queueOf self) := by
    have hadd := hq.queueLen_add_queueFree
    have hwaiting := hcan.waiting
    rw [queueSize]
    omega
  obtain ⟨t, ht⟩ := exists_throttled_eq P self
  have hconns : ((throttled P self).servers self).conns = (P.servers self).conns := by
    rw [ht]
  have hqueue := throttled_queueOf P self
  have hread : ∀ io, serverQueueread self n .keepRunning 0 io P =
      connectAndSend self n (queueFree (P.queueOf self)) io ⟨throttled P self, 0, 0⟩ := by
    intro io
    rw [serverQueueread_eq]
    dsimp only
    rw [if_neg hnot, if_neg hempty]
  simp only [hread, connectAndSend]
  rcases lt_or_gt_of_ne hcan.fd with hclosed | hopen
  · set c : ServerConn := { (P.servers self).conns n with fd := 3 } with hc
    have hserver : ((throttled P self).setConn self n c).servers self =
        { (throttled P self).servers self with
          conns := update ((throttled P self).servers self).conns n c } :=
      update_self ..
    have hqueue' : ((throttled P self).setConn self n c).queueOf self = P.queueOf self := by
      rw [Pool.queueOf, hserver]
      exact hqueue
    obtain ⟨sends, q, hsend, hdiff⟩ := exists_sendAll self n
      ⟨(throttled P self).setConn self n c, 0, 0⟩ (by rw [hserver]; simp [hc])
      (by rw [hserver, ht]; exact hbsize) (by rw [hserver, ht]; exact hshared)
      (by rw [hqueue']; exact hq) hne
    dsimp only at hsend hdiff
    rw [hqueue'] at hsend hdiff
    refine ⟨⟨.connected 3, sends⟩, q, ?_, hdiff⟩
    dsimp only
    rw [hconns, if_pos hclosed, readerConnect]
    exact hsend
  · obtain ⟨sends, q, hsend, hdiff⟩ := exists_sendAll self n ⟨throttled P self, 0, 0⟩
      (by rw [hconns]; exact hopen) (by rw [ht]; exact hbsize)
      (by rw [ht]; exact hshared) (by rw [hqueue]; exact hq) hne
    dsimp only at hsend hdiff
    rw [hqueue] at hsend hdiff
    refine ⟨⟨.connected 3, sends⟩, q, ?_, hdiff⟩
    dsimp only
    rw [hconns, if_neg (not_lt.2 hopen.le)]
    exact hsend

/-- With a descriptor that is not polled, a call of `server_queuesend` fails and leaves the queue
alone. -/
theorem sendFrom_of_fd_zero {outs : List SendOutcome} {P' : Pool} {ret : Int}
    (hfd : ((P.servers self).conns n).fd = 0) (h : sendFrom self self n outs P = some (P', ret)) :
    ret < 0 ∧ P'.queueOf self = P.queueOf self := by
  rw [sendFrom] at h
  split at h
  case h_1 => cases h
  case h_2 r hr =>
    cases h
    have hpoll : serverPoll ⟨(P.servers self).conns n, outs, []⟩ =
        some (false, ⟨(P.servers self).conns n, outs, []⟩) :=
      if_neg (by simp [hfd])
    simp only [serverQueuesend, hpoll, Option.bind_eq_bind, Option.bind_some, Bool.false_eq_true,
      if_false] at hr
    split at hr
    case isFalse => cases hr
    case isTrue =>
      cases hr
      exact ⟨show (-1 : Int) < 0 by decide, update_self ..⟩

/-- Nothing is taken from a shared queue that is empty, nor with a descriptor that is not polled. -/
theorem sendAll_queueOf {qfree : Nat} {sends : List (List SendOutcome)} {st : ReadState}
    (hshared : (st.pool.servers self).sharedQueue = true)
    (hnot : ((st.pool.servers self).conns n).fd = 0 ∨ queueSize (st.pool.queueOf self) ≤ qfree)
    (h : sendAll self n qfree sends st = some q) : q.pool.queueOf self = st.pool.queueOf self := by
  unfold sendAll sendOwn at h
  by_cases hroom : qfree < queueSize (st.pool.queueOf self)
  · have hfd := hnot.resolve_right (not_le.2 hroom)
    rw [if_pos hroom] at h
    cases sends with
    | nil => cases h
    | cons outs sends =>
      dsimp only at h
      cases hfrom : sendFrom self self n outs st.pool with
      | none =>
        rw [hfrom] at h
        cases h
      | some r =>
        obtain ⟨P', ret⟩ := r
        obtain ⟨hret, hqueue⟩ := sendFrom_of_fd_zero hfd hfrom
        rw [hfrom] at h
        simp only [Option.map_some, if_pos hret] at h
        split at h
        case isFalse => cases h
        case isTrue =>
          cases h
          exact hqueue
  · rw [if_neg hroom] at h
    simp only [Int.lt_irrefl, if_false, hshared, Bool.true_eq_false, false_and] at h
    split at h
    case h_2 => cases h
    case h_1 heq =>
      cases heq
      cases h
      rfl

theorem connectAndSend_queueOf {qfree : Nat} {io : ReadIO} {st : ReadState}
    (hshared : (st.pool.servers self).sharedQueue = true)
    (hnot : ((st.pool.servers self).conns n).fd = 0 ∨ queueSize (st.pool.queueOf self) ≤ qfree)
    (h : connectAndSend self n qfree io st = some q) :
    q.pool.queueOf self = st.pool.queueOf self := by
  rw [connectAndSend] at h
  dsimp only at h
  split at h
  case isFalse => exact sendAll_queueOf hshared hnot h
  case isTrue hclosed =>
    have hempty := hnot.resolve_left hclosed.ne
    set c := (readerConnect ((st.pool.servers self).conns n) io.connect).1
    have hserver : (st.pool.setConn self n c).servers self =
        { st.pool.servers self with conns := update (st.pool.servers self).conns n c } :=
      update_self ..
    have hqueue : (st.pool.setConn self n c).queueOf self = st.pool.queueOf self := by
      rw [Pool.queueOf, hserver]
      rfl
    split at h
    case isTrue =>
      rw [← hqueue]
      exact sendAll_queueOf (by rw [hserver]; exact hshared) (.inr (by rw [hqueue]; exact hempty)) h
    case isFalse =>
      split at h
      case isFalse => cases h
      case isTrue =>
        cases h
        exact hqueue

/-- A call that changes the queue is one of a reader that is able to, and does not leave the queue
to others. -/
theorem canTake_of_queueread {shutdown : KeepRunning} {idle : Nat} {io : ReadIO}
    (hshared : (P.servers self).sharedQueue = true)
    (hq : (P.queueOf self).Represents xs) (hn : n < (P.servers self).nconns)
    (h : serverQueueread self n shutdown idle io P = some q)
    (hdiff : q.pool.queueOf self ≠ P.queueOf self) : ¬LeavesToOthers P self ∧ CanTake P self n := by
  have hframe := Frame.throttled self P
  have hidle := hframe.trans (.closeIdle self n ⟨throttled P self, idle, 0⟩)
  have hidleQueue := closeIdle_queueOf P self n idle
  rw [serverQueueread_eq] at h
  dsimp only at h
  split at h
  case isTrue =>
    cases h
    exact absurd hidleQueue hdiff
  case isFalse hnot =>
    refine ⟨hnot, ?_⟩
    split at h
    case isTrue hempty =>
      split at h
      case isTrue =>
        cases h
        exact absurd hidleQueue hdiff
      case isFalse =>
        have hsame := connectAndSend_queueOf (by rw [hidle.sharedQueue]; exact hshared)
          (.inr (by rw [hidleQueue]; exact hempty.ge)) h
        exact absurd (hsame.trans hidleQueue) hdiff
    case isFalse hempty =>
      refine ⟨hn, fun hfd => ?_, fun hlen => ?_⟩
      · obtain ⟨t, ht⟩ := exists_throttled_eq P self
        have hsame := connectAndSend_queueOf (by rw [hframe.sharedQueue]; exact hshared)
          (.inl (by rw [ht]; exact hfd)) h
        exact absurd (hsame.trans (throttled_queueOf P self)) hdiff
      · have hadd := hq.queueLen_add_queueFree
        rw [hlen, Nat.zero_add] at hadd
        exact hempty hadd

/-- The walk ends at a server in front of this one that does not count as down. -/
theorem standsBy_iff (js : List Nat) : standsBy P self js = true ↔
    ∃ j ∈ js.takeWhile (self ≠ ·), serverFailed (P.servers j) < failWaitCount := by
  induction js with
  | nil => simp [standsBy]
  | cons j js ih =>
    rw [standsBy]
    by_cases hj : self = j
    · simp [hj]
    · rw [if_neg hj, takeWhile_cons_of_pos (by simpa using hj), exists_mem_cons_iff, ← ih]
      split
      case isTrue hlt => simp [hlt]
      case isFalse hlt => simp [hlt]

end

/-! ## The order of the servers -/

/-- The servers of a failover cluster as `router_add_cluster` leaves them: each knows all of them,
they share queue `k`, and all but the first are marked. -/
structure FailoverCluster (P : Pool) (members : List Nat) (k : Nat) : Prop where
  secondaries : ∀ i ∈ members, (P.servers i).secondaries = members
  failover : ∀ i ∈ members, (P.servers i).failover = decide (members.head? ≠ some i)
  queue : ∀ i ∈ members, (P.servers i).queue = k
  sharedQueue : ∀ i ∈ members, (P.servers i).sharedQueue = true
  bsize : ∀ i ∈ members, 0 < (P.servers i).bsize
  nconns : ∀ i ∈ members, 0 < (P.servers i).nconns
  represents : ∃ xs, (P.queues k).Represents xs

/-- All connections of a server are down. -/
def Down (s : ServerState) : Prop := ∀ f ∈ s.failures, failWaitCount ≤ f

/-- No connection of a server is without failure, and one of them is down. -/
def CountsAsDown (s : ServerState) : Prop := 0 ∉ s.failures ∧ ∃ f ∈ s.failures, failWaitCount ≤ f

/-- A call of `server_queueread` on connection `n` may change the queue of the server. -/
def MayTake (P : Pool) (self n : Nat) : Prop :=
  ∃ shutdown idle io q, serverQueueread self n shutdown idle io P = some q ∧
    q.pool.queueOf self ≠ P.queueOf self

/-- A server takes metrics only if the queue is nearly full or all servers in front of it are down.
-/
def KeepsOrder (P : Pool) (self : Nat) (members : List Nat) : Prop :=
  ∀ n < (P.servers self).nconns, MayTake P self n →
    queueFreeCritical (queueFree (P.queueOf self)) (P.servers self) = true ∨
      ∀ j ∈ members.takeWhile (self ≠ ·), Down (P.servers j)

/-- If a server is able to take metrics, and all servers in front of it count as down, they are. -/
def OrderSafe (P : Pool) (self : Nat) (members : List Nat) : Prop :=
  (∃ n, CanTake P self n) → queueFreeCritical (queueFree (P.queueOf self)) (P.servers self) =
    false → (∀ j ∈ members.takeWhile (self ≠ ·), CountsAsDown (P.servers j)) →
      ∀ j ∈ members.takeWhile (self ≠ ·), Down (P.servers j)

section
variable {P : Pool} {self k : Nat} {members : List Nat}

theorem not_leavesToOthers_iff (h : FailoverCluster P members k) (hself : self ∈ members)
    (hlater : members.head? ≠ some self)
    (hcrit : queueFreeCritical (queueFree (P.queueOf self)) (P.servers self) = false) :
    ¬LeavesToOthers P self ↔ ∀ j ∈ members.takeWhile (self ≠ ·), CountsAsDown (P.servers j) := by
  have hfailover : (P.servers self).failover = true := by
    rw [h.failover self hself]
    exact decide_eq_true hlater
  have hne : (P.servers self).secondaries ≠ [] := by
    rw [h.secondaries self hself]
    exact ne_nil_of_mem hself
  have hcounts : ∀ s : ServerState, CountsAsDown s ↔ ¬serverFailed s < failWaitCount := by
    intro s
    rw [not_lt, le_serverFailed_iff (by decide)]
    rfl
  have hleaves : LeavesToOthers P self ↔
      ∃ j ∈ members.takeWhile (self ≠ ·), serverFailed (P.servers j) < failWaitCount := by
    rw [← standsBy_iff, ← h.secondaries self hself]
    exact ⟨fun hall => hall.2.2.2, fun hstands => ⟨hne, hfailover, hcrit, hstands⟩⟩
  rw [hleaves, not_exists]
  simp only [hcounts, not_and]

/-- Of a failover cluster, with any number of connections and failures: a server behind the first
keeps the order exactly if the servers in front of it that count as down are down; and
`server_failed` returns the least count of a server exactly if all its connections agree, or one has
not failed. -/
theorem failover_order_iff (h : FailoverCluster P members k) (hself : self ∈ members)
    (hlater : members.head? ≠ some self) :
    (KeepsOrder P self members ↔ OrderSafe P self members) ∧
      ∀ j ∈ members, (IsLeast {f | f ∈ (P.servers j).failures} (serverFailed (P.servers j)) ↔
        (P.servers j).Alike) := by
  obtain ⟨xs, hq⟩ := h.represents
  rw [← h.queue self hself] at hq
  have hshared := h.sharedQueue self hself
  refine ⟨⟨?_, ?_⟩, fun j hj => isLeast_serverFailed_iff (h.nconns j hj)⟩
  · rintro horder ⟨n, hcan⟩ hcrit hdown
    have hnot := (not_leavesToOthers_iff h hself hlater hcrit).2 hdown
    obtain ⟨io, q, hread, hdiff⟩ := exists_serverQueueread hnot hcan (h.bsize self hself) hshared hq
    rcases horder n hcan.conn ⟨_, _, io, q, hread, hdiff⟩ with htrue | hall
    · rw [hcrit] at htrue
      cases htrue
    · exact hall
  · rintro hsafe n hn ⟨shutdown, idle, io, q, hread, hdiff⟩
    obtain ⟨hnot, hcan⟩ := canTake_of_queueread hshared hq hn hread hdiff
    cases hcrit : queueFreeCritical (queueFree (P.queueOf self)) (P.servers self) with
    | true => exact .inl rfl
    | false =>
      exact .inr (hsafe ⟨n, hcan⟩ hcrit ((not_leavesToOthers_iff h hself hlater hcrit).1 hnot))

end

/-- Two servers with one metric in their queue. The connections of the first have these failures. -/
def failoverPair (f₀ f₁ : Nat) : Pool where
  servers j := { aloneServer with
    sharedQueue := true
    nconns := 2
    conns := fun i => ⟨-1, false, if j = 0 then (if i = 0 then f₀ else f₁) else 0, 0⟩
    secondaries := [0, 1]
    failover := j ≠ 0 }
  queues _ := ⟨[some ['a'], none], 2, 1, 0, 1⟩

theorem failoverCluster_failoverPair (f₀ f₁ : Nat) :
    FailoverCluster (failoverPair f₀ f₁) [0, 1] 0 where
  secondaries _ _ := rfl
  failover := by simp [failoverPair]
  queue _ _ := rfl
  sharedQueue _ _ := rfl
  bsize _ _ := Nat.one_pos
  nconns _ _ := Nat.two_pos
  represents := by
    obtain ⟨q, hq, -, hrep⟩ := (Queue.represents_queueNew (by decide : 0 < 2)).enqueue ['a']
    cases hq
    exact ⟨[['a']], hrep⟩

/-- With both connections of the first server down, the second takes over in order. -/
theorem failover_order_down : KeepsOrder (failoverPair 6 6) 1 [0, 1] ∧
    IsLeast {f | f ∈ ((failoverPair 6 6).servers 0).failures}
      (serverFailed ((failoverPair 6 6).servers 0)) := by
  obtain ⟨horder, hleast⟩ := failover_order_iff (failoverCluster_failoverPair 6 6)
    (show 1 ∈ [0, 1] by decide) (by decide)
  refine ⟨horder.2 fun _ _ _ j hj => ?_, (hleast 0 (by decide)).2 (.inr ?_)⟩
  · obtain rfl : j = 0 := by simpa using hj
    exact show ∀ f ∈ [6, 6], 6 ≤ f by decide
  · exact show ∀ f ∈ [6, 6], ∀ g ∈ [6, 6], f = g by decide

/-- One connection of the first server has failed but once. The second server takes the metric all
the same, for `server_failed` returns 6. -/
theorem second_takes_early :
    (∃ q, serverQueueread 1 0 .keepRunning 0
        ⟨.connected 5, [[.poll .ready, .write .written, .poll .ready, .flush true]]⟩
          (failoverPair 6 1) = some q ∧ q.ret = 1 ∧ queueLen (q.pool.queueOf 1) = 0) ∧
      queueFreeCritical (queueFree ((failoverPair 6 1).queueOf 1)) ((failoverPair 6 1).servers 1) =
        false ∧
      ((failoverPair 6 1).servers 0).failures = [6, 1] ∧
      serverFailed ((failoverPair 6 1).servers 0) = 6 ∧
        ¬KeepsOrder (failoverPair 6 1) 1 [0, 1] := by
  refine ⟨⟨_, rfl, rfl, rfl⟩, rfl, rfl, rfl, fun horder => ?_⟩
  have htake : MayTake (failoverPair 6 1) 1 0 := by
    refine ⟨.keepRunning, 0, ⟨.connected 5,
      [[.poll .ready, .write .written, .poll .ready, .flush true]]⟩, _, rfl, fun heq => ?_⟩
    have hlen : (0 : Nat) = 1 := congrArg queueLen heq
    cases hlen
  rcases horder 0 Nat.two_pos htake with hcrit | hdown
  · cases hcrit
  · have hall : ∀ f ∈ [6, 1], 6 ≤ f := hdown 0 (by simp)
    exact absurd (hall 1 (by simp)) (by decide)

end CarbonRelay
