import CarbonRelay.Server.Reader

/-!
# What a call of server_queueread does to the queues

A call of `server_queueread` changes the connections and the threshold of its own server, counters,
and what is in the queues (`Frame`). How full the queues are after a call that does not fail depends
on the numbers of metrics before it alone (`levelsAfter`, `serverQueueread_levels`).
-/

namespace CarbonRelay

open Function List Option

/-! ## Queue levels -/

/-- The number of metrics in each queue. -/
def Pool.levels (P : Pool) (k : Nat) : Nat := queueLen (P.queues k)

/-- The room in the queue of a server at given levels. -/
def roomAt (P : Pool) (L : Nat → Nat) (j : Nat) : Nat :=
  queueSize (P.queueOf j) - L (P.servers j).queue

/-- `readsFrom` at given levels. -/
def readsFromAt (P : Pool) (L : Nat → Nat) (self qfree j : Nat) : Bool :=
  self ≠ j ∧ roomAt P L j < qfree ∧
    (queueFreeCritical (roomAt P L j) (P.servers j) ∨ serverFailed (P.servers j) ≠ 0)

/-- One batch of a server is taken from a queue. -/
def takeBatch (P : Pool) (self k : Nat) (L : Nat → Nat) : Nat → Nat :=
  update L k (L k - (P.servers self).bsize)

/-- The levels behind the loop over the secondaries. -/
def secondaryLevels (P : Pool) (self qfree : Nat) : List Nat → (Nat → Nat) → Nat → Nat
  | [], L => L
  | j :: js, L =>
    if readsFromAt P L self qfree j then
      secondaryLevels P self qfree js (takeBatch P self (P.servers j).queue L)
    else secondaryLevels P self qfree js L

/-- The levels after the own queue and those of the secondaries were sent from. -/
def sentLevels (P : Pool) (self qfree : Nat) : Nat → Nat :=
  let s := P.servers self
  let L := if qfree < queueSize (P.queueOf self) then takeBatch P self s.queue
    P.levels else P.levels
  if s.sharedQueue = false ∧ s.secondaries ≠ [] then secondaryLevels P self qfree s.secondaries L
  else L

/-- The levels after a call of `server_queueread` that did not fail, on a server that is told to
stop. -/
def levelsAfter (P : Pool) (self : Nat) : Nat → Nat :=
  let s := P.servers self
  let qfree := roomAt P P.levels self
  if s.secondaries ≠ [] ∧ s.failover = true ∧ queueFreeCritical qfree s = false ∧
      standsBy P self s.secondaries = true then P.levels
  else if qfree = queueSize (P.queueOf self) ∧ nothingToDo P self .stop = true then P.levels
  else sentLevels P self qfree

/-! ## What a call leaves alone -/

/-- A call of a reader of server `i` changes only its own connections and threshold, counters, and
what is in the queues. -/
structure Frame (i : Nat) (P P' : Pool) : Prop where
  size : ∀ k, queueSize (P'.queues k) = queueSize (P.queues k)
  queue : ∀ j, (P'.servers j).queue = (P.servers j).queue
  sharedQueue : ∀ j, (P'.servers j).sharedQueue = (P.servers j).sharedQueue
  bsize : ∀ j, (P'.servers j).bsize = (P.servers j).bsize
  secondaries : ∀ j, (P'.servers j).secondaries = (P.servers j).secondaries
  nconns : ∀ j, i ≠ j → (P'.servers j).nconns = (P.servers j).nconns
  conns : ∀ j, i ≠ j → (P'.servers j).conns = (P.servers j).conns
  qfreeThreshold : ∀ j, i ≠ j → (P'.servers j).qfreeThreshold = (P.servers j).qfreeThreshold

section
variable {self n j : Nat} {P P' P'' : Pool} {L : Nat → Nat}

theorem Frame.refl (self : Nat) (P : Pool) : Frame self P P :=
  ⟨fun _ => rfl, fun _ => rfl, fun _ => rfl, fun _ => rfl, fun _ => rfl, fun _ _ => rfl,
    fun _ _ => rfl, fun _ _ => rfl⟩

theorem Frame.trans (h : Frame self P P') (h' : Frame self P' P'') : Frame self P P'' where
  size k := (h'.size k).trans (h.size k)
  queue j := (h'.queue j).trans (h.queue j)
  sharedQueue j := (h'.sharedQueue j).trans (h.sharedQueue j)
  bsize j := (h'.bsize j).trans (h.bsize j)
  secondaries j := (h'.secondaries j).trans (h.secondaries j)
  nconns j hj := (h'.nconns j hj).trans (h.nconns j hj)
  conns j hj := (h'.conns j hj).trans (h.conns j hj)
  qfreeThreshold j hj := (h'.qfreeThreshold j hj).trans (h.qfreeThreshold j hj)

/-- A server is replaced by one that agrees with it on what a frame fixes. -/
theorem Frame.setServer {i : Nat} {s : ServerState} (hqueue : s.queue = (P.servers i).queue)
    (hshared : s.sharedQueue = (P.servers i).sharedQueue) (hbsize : s.bsize = (P.servers i).bsize)
    (hsecondaries : s.secondaries = (P.servers i).secondaries)
    (hother : self ≠ i → s.nconns = (P.servers i).nconns ∧ s.conns = (P.servers i).conns ∧
      s.qfreeThreshold = (P.servers i).qfreeThreshold) : Frame self P (P.setServer i s) := by
  have hcases : ∀ j, (j = i ∧ (P.setServer i s).servers j = s) ∨
      (P.setServer i s).servers j = P.servers j := by
    intro j
    by_cases hj : j = i
    · subst hj
      exact .inl ⟨rfl, update_self ..⟩
    · exact .inr (update_of_ne hj _ _)
  constructor
  case size => exact fun k => rfl
  all_goals
    intro j
    rcases hcases j with ⟨rfl, hs⟩ | hs
    all_goals rw [hs]
  · exact hqueue
  · exact hshared
  · exact hbsize
  · exact hsecondaries
  · exact fun hj => (hother hj).1
  · exact fun _ => rfl
  · exact fun hj => (hother hj).2.1
  · exact fun _ => rfl
  · exact fun hj => (hother hj).2.2
  · exact fun _ => rfl

theorem Frame.setConn (self n : Nat) (c : ServerConn) (P : Pool) :
    Frame self P (P.setConn self n c) :=
  .setServer rfl rfl rfl rfl fun h => absurd rfl h

theorem Frame.closeIdle (self n : Nat) (st : ReadState) :
    Frame self st.pool (closeIdle self n st).pool := by
  rw [CarbonRelay.closeIdle]
  dsimp only
  split
  · split
    · exact .setConn self n _ st.pool
    · exact .refl self st.pool
  · exact .refl self st.pool

theorem exists_throttle_eq (qfree : Nat) (s : ServerState) :
    ∃ t, throttle qfree s = { s with qfreeThreshold := t } := by
  rw [throttle]
  split
  · split
    · exact ⟨_, rfl⟩
    · exact ⟨_, rfl⟩
  · split
    · exact ⟨_, rfl⟩
    · exact ⟨_, rfl⟩

theorem Frame.throttle (self qfree : Nat) (P : Pool) :
    Frame self P (P.setServer self (throttle qfree (P.servers self))) := by
  obtain ⟨t, ht⟩ := exists_throttle_eq qfree (P.servers self)
  rw [ht]
  exact .setServer rfl rfl rfl rfl fun h => absurd rfl h

theorem closeIdle_queues (self n : Nat) (st : ReadState) :
    (closeIdle self n st).pool.queues = st.pool.queues := by
  rw [closeIdle]
  dsimp only
  split
  · split
    · rfl
    · rfl
  · rfl

section
variable (h : Frame self P P')
include h

theorem Frame.serverFailed (hj : self ≠ j) :
    serverFailed (P'.servers j) = serverFailed (P.servers j) := by
  rw [CarbonRelay.serverFailed, CarbonRelay.serverFailed, h.nconns j hj, h.conns j hj]

theorem Frame.serverAlive (hj : self ≠ j) :
    serverAlive (P'.servers j) = serverAlive (P.servers j) := by
  rw [CarbonRelay.serverAlive, CarbonRelay.serverAlive, h.nconns j hj, h.conns j hj]

theorem Frame.roomAt : roomAt P' L j = roomAt P L j := by
  rw [CarbonRelay.roomAt, CarbonRelay.roomAt, Pool.queueOf, h.queue, h.size, Pool.queueOf]

theorem Frame.readsFromAt {qfree : Nat} :
    readsFromAt P' L self qfree j = readsFromAt P L self qfree j := by
  by_cases hj : self = j
  · simp [CarbonRelay.readsFromAt, hj]
  · refine decide_eq_decide.2 ?_
    rw [h.roomAt, queueFreeCritical, queueFreeCritical, h.serverFailed hj, h.qfreeThreshold j hj]

theorem Frame.takeBatch {k : Nat} : takeBatch P' self k L = takeBatch P self k L := by
  rw [CarbonRelay.takeBatch, CarbonRelay.takeBatch, h.bsize]

theorem Frame.standsBy (js : List Nat) : standsBy P' self js = standsBy P self js := by
  induction js with
  | nil => rfl
  | cons j js ih =>
    rw [CarbonRelay.standsBy, CarbonRelay.standsBy]
    by_cases hj : self = j
    · rw [if_pos hj, if_pos hj]
    · rw [if_neg hj, if_neg hj, h.serverFailed hj, ih]

theorem Frame.queueOf (hqueues : P'.queues = P.queues) : P'.queueOf j = P.queueOf j := by
  rw [Pool.queueOf, Pool.queueOf, h.queue, hqueues]

theorem Frame.nothingToDo {shutdown : KeepRunning}
    (hqueues : P'.queues = P.queues) :
    nothingToDo P' self shutdown = nothingToDo P self shutdown := by
  simp only [CarbonRelay.nothingToDo, h.secondaries, h.queueOf hqueues]

end

/-- The servers behind the first lines of a call, in which the threshold may change. -/
def throttled (P : Pool) (self : Nat) : Pool :=
  if (P.servers self).secondaries ≠ [] then
    P.setServer self (throttle (queueFree (P.queueOf self)) (P.servers self))
  else P

theorem Frame.throttled (self : Nat) (P : Pool) : Frame self P (throttled P self) := by
  rw [CarbonRelay.throttled]
  split
  · exact .throttle self _ P
  · exact .refl self P

theorem exists_throttled_eq (P : Pool) (self : Nat) :
    ∃ t, (throttled P self).servers self = { P.servers self with qfreeThreshold := t } := by
  rw [throttled]
  split
  · obtain ⟨t, ht⟩ := exists_throttle_eq (queueFree (P.queueOf self)) (P.servers self)
    exact ⟨t, by rw [ht]; exact update_self ..⟩
  · exact ⟨_, rfl⟩

theorem throttled_queues (P : Pool) (self : Nat) : (throttled P self).queues = P.queues := by
  rw [throttled]
  split <;> rfl

theorem throttled_queueOf (P : Pool) (self : Nat) :
    (throttled P self).queueOf self = P.queueOf self :=
  (Frame.throttled self P).queueOf (throttled_queues P self)

theorem closeIdle_queueOf (P : Pool) (self n idle : Nat) :
    (closeIdle self n ⟨throttled P self, idle, 0⟩).pool.queueOf self = P.queueOf self :=
  ((Frame.throttled self P).trans (.closeIdle self n ⟨throttled P self, idle, 0⟩)).queueOf
    ((closeIdle_queues ..).trans (throttled_queues P self))

/-- Whether the reader of a failover cluster leaves the queue to a server in front of its own. -/
def LeavesToOthers (P : Pool) (self : Nat) : Prop :=
  let s := P.servers self
  s.secondaries ≠ [] ∧ s.failover = true ∧ queueFreeCritical (queueFree (P.queueOf self)) s =
    false ∧ standsBy P self s.secondaries = true

instance (P : Pool) (self : Nat) : Decidable (LeavesToOthers P self) :=
  inferInstanceAs (Decidable (_ ∧ _))

/-- A call of `server_queueread`, with its conditions on the servers as they are before it. -/
theorem serverQueueread_eq (shutdown : KeepRunning) (idle : Nat) (io : ReadIO) :
    serverQueueread self n shutdown idle io P =
      let st := closeIdle self n ⟨throttled P self, idle, 0⟩
      let qfree := queueFree (P.queueOf self)
      if LeavesToOthers P self then some ⟨st.pool, 0, st.idle, false⟩
      else if qfree = queueSize (P.queueOf self) then
        if nothingToDo P self shutdown then some ⟨st.pool, 0, st.idle, false⟩
        else connectAndSend self n qfree io st
      else connectAndSend self n qfree io ⟨throttled P self, idle, 0⟩ := by
  have hframe := Frame.throttled self P
  have hqueues := throttled_queues P self
  rw [serverQueueread]
  dsimp only
  rw [← throttled, hframe.standsBy, hframe.queueOf hqueues, hframe.nothingToDo hqueues]
  rfl

theorem roomAt_levels (P : Pool) (j : Nat) : roomAt P P.levels j = queueFree (P.queueOf j) := rfl

theorem readsFromAt_levels (P : Pool) (self qfree j : Nat) :
    readsFromAt P P.levels self qfree j = readsFrom P self qfree j := rfl

end

/-! ## The levels after a call -/

section
variable {α : Type*} {q q' : Queue α} {v : List (Option α)}

theorem next_len {p : Option α} (h : q.next = some (q', p)) :
    q'.len = q.len ∧ q'.size = q.size := by
  rw [Queue.next] at h
  split at h
  case h_1 => cases h
  case h_2 =>
    cases h
    rw [Queue.wrapRead]
    split <;> exact ⟨rfl, rfl⟩

theorem queueDequeueLoop_len {i : Nat} (h : queueDequeueLoop i q = some (q', v)) :
    q'.len = q.len ∧ q'.size = q.size := by
  induction i generalizing q v with
  | zero => cases h; exact ⟨rfl, rfl⟩
  | succ i ih =>
    rw [queueDequeueLoop] at h
    split at h
    case h_1 => cases h
    case h_2 q₁ p hnext =>
      split at h
      case h_1 => cases h
      case h_2 q₂ ret hloop =>
        cases h
        obtain ⟨hlen, hsize⟩ := next_len hnext
        rw [← hlen, ← hsize]
        exact ih hloop

theorem queueDequeueVector_len {len : Nat} (h : queueDequeueVector q len = some (q', v)) :
    q'.len = q.len - len ∧ q'.size = q.size := by
  rw [queueDequeueVector] at h
  split at h
  case isTrue hnil => cases h; exact ⟨by omega, rfl⟩
  case isFalse =>
    dsimp only at h
    split at h
    case h_1 => cases h
    case h_2 q₁ ret hloop =>
      cases h
      obtain ⟨hlen, hsize⟩ := queueDequeueLoop_len hloop
      refine ⟨?_, hsize⟩
      show q₁.len - _ = _
      rw [hlen]
      split <;> omega

end

theorem neg_one_not_nonneg : ¬ (0 : Int) ≤ -1 := by decide

/-- A call of `server_queuesend` that does not fail takes one batch from the queue. -/
theorem serverQueuesend_len {conn : ServerConn} {bsize dropped : Nat} {squeue : Queue Text}
    {outs : List SendOutcome} {r : SendResult}
    (h : serverQueuesend conn bsize squeue dropped outs = some r) (hret : 0 ≤ r.ret) :
    r.squeue.len = squeue.len - bsize ∧ r.squeue.size = squeue.size := by
  rw [serverQueuesend] at h
  obtain ⟨⟨ok, st⟩, -, h⟩ := bind_eq_some_iff.1 h
  cases ok with
  | false =>
    simp only [Bool.false_eq_true, if_false] at h
    split at h
    case isTrue => cases h; exact absurd hret neg_one_not_nonneg
    case isFalse => cases h
  | true =>
    simp only [if_true, sendBatch] at h
    obtain ⟨⟨squeue', vector⟩, hdequeue, h⟩ := bind_eq_some_iff.1 h
    dsimp only at h
    split at h
    case isTrue =>
      obtain ⟨⟨c, st₁⟩, -, h⟩ := bind_eq_some_iff.1 h
      obtain ⟨st₂, -, h⟩ := bind_eq_some_iff.1 h
      split at h
      case isFalse => cases h
      case isTrue =>
        rw [finishBatch] at h
        split at h
        case isTrue => cases h; exact queueDequeueVector_len hdequeue
        case isFalse =>
          obtain ⟨lost, -, h⟩ := bind_eq_some_iff.1 h
          cases h
          exact absurd hret neg_one_not_nonneg
    case isFalse =>
      split at h
      case isTrue => cases h; exact queueDequeueVector_len hdequeue
      case isFalse => cases h

section
variable {self n qfree : Nat} {P P₀ P' : Pool} {L : Nat → Nat} {ret : Int}

theorem sendFrom_levels {source : Nat} {outs : List SendOutcome}
    (h : sendFrom self source n outs P = some (P', ret)) (hret : 0 ≤ ret) :
    Frame self P P' ∧ P'.levels = takeBatch P self (P.servers source).queue P.levels := by
  rw [sendFrom] at h
  split at h
  case h_1 => cases h
  case h_2 r hr =>
    cases h
    obtain ⟨hlen, hsize⟩ := serverQueuesend_len hr hret
    set P₁ := P.setConn self n r.conn with hP₁
    have hframe₁ : Frame self P P₁ := .setConn self n r.conn P
    have hframe₂ : Frame self P₁
        (P₁.setServer source { P₁.servers source with dropped := r.dropped }) :=
      .setServer rfl rfl rfl rfl fun _ => ⟨rfl, rfl, rfl⟩
    have hframe := hframe₁.trans hframe₂
    have hqueue := hframe.queue source
    constructor
    · refine { hframe with size := fun k => ?_ }
      show queueSize (update P.queues _ r.squeue k) = _
      rw [hqueue]
      by_cases hk : k = (P.servers source).queue
      · subst hk
        rw [update_self]
        exact hsize
      · rw [update_of_ne hk]
    · funext k
      show queueLen (update P.queues _ r.squeue k) = _
      rw [hqueue, takeBatch]
      by_cases hk : k = (P.servers source).queue
      · subst hk
        rw [update_self, update_self]
        exact hlen
      · rw [update_of_ne hk, update_of_ne hk]
        rfl

theorem sendSecondaries_levels {js : List Nat} {len total : Nat}
    {sends rest : List (List SendOutcome)} (hframe : Frame self P₀ P)
    (h : sendSecondaries self n qfree js len sends P = some (P', some total, rest)) :
    Frame self P₀ P' ∧ P'.levels = secondaryLevels P₀ self qfree js P.levels := by
  induction js generalizing len sends P with
  | nil => cases h; exact ⟨hframe, rfl⟩
  | cons j js ih =>
    unfold sendSecondaries at h
    rw [secondaryLevels, ← hframe.readsFromAt, readsFromAt_levels]
    by_cases hreads : readsFrom P self qfree j = true
    · rw [if_pos hreads] at h ⊢
      split at h
      case h_1 => cases h
      case h_2 outs sends =>
        split at h
        case h_1 => cases h
        case h_2 P₁ ret hsend =>
          dsimp only at h
          split at h
          case isTrue => cases h
          case isFalse hret =>
            obtain ⟨hframe₁, hlevels⟩ := sendFrom_levels hsend (not_lt.1 hret)
            have hframe₂ : Frame self P₁ (P₁.setServer j
                { P₁.servers j with requeue := (P₁.servers j).requeue + ret.toNat }) :=
              .setServer rfl rfl rfl rfl fun _ => ⟨rfl, rfl, rfl⟩
            rw [← hframe.queue, ← hframe.takeBatch, ← hlevels]
            have hrest := ih ((hframe.trans hframe₁).trans hframe₂) h
            exact hrest
    · rw [if_neg hreads] at h ⊢
      exact ih hframe h

theorem sendOwn_levels {sends rest : List (List SendOutcome)} (hframe : Frame self P₀ P)
    (hlevels : P.levels = P₀.levels) (h : sendOwn self n qfree sends P = some (P', ret, rest))
    (hret : 0 ≤ ret) : Frame self P₀ P' ∧ P'.levels = if qfree < queueSize (P₀.queueOf self) then
      takeBatch P₀ self (P₀.servers self).queue P₀.levels else P₀.levels := by
  have hsize : queueSize (P.queueOf self) = queueSize (P₀.queueOf self) := by
    rw [Pool.queueOf, hframe.queue, hframe.size, Pool.queueOf]
  unfold sendOwn at h
  rw [hsize] at h
  split at h
  case isTrue hroom =>
    rw [if_pos hroom]
    split at h
    case h_1 => cases h
    case h_2 outs sends =>
      obtain ⟨⟨P₁, ret₁⟩, hsend, hr⟩ := map_eq_some_iff.1 h
      cases hr
      obtain ⟨hframe₁, hlevels₁⟩ := sendFrom_levels hsend hret
      rw [hlevels₁, hframe.takeBatch, hframe.queue, hlevels]
      exact ⟨hframe.trans hframe₁, rfl⟩
  case isFalse hroom =>
    cases h
    rw [if_neg hroom]
    exact ⟨hframe, hlevels⟩

theorem sendAll_levels {sends : List (List SendOutcome)} {st : ReadState} {q : Queueread}
    (hframe : Frame self P₀ st.pool) (hlevels : st.pool.levels = P₀.levels)
    (h : sendAll self n qfree sends st = some q) (hret : 0 ≤ q.ret) :
    Frame self P₀ q.pool ∧ q.pool.levels = sentLevels P₀ self qfree := by
  rw [sendAll] at h
  split at h
  case h_1 => cases h
  case h_2 P₁ len sends₁ hown =>
    split at h
    case isTrue =>
      split at h
      case isTrue => cases h; exact absurd hret neg_one_not_nonneg
      case isFalse => cases h
    case isFalse hlen =>
      obtain ⟨hframe₁, hlevels₁⟩ := sendOwn_levels hframe hlevels hown (not_lt.1 hlen)
      dsimp only [sentLevels] at h ⊢
      rw [← hlevels₁, ← hframe₁.sharedQueue, ← hframe₁.secondaries]
      split at h
      case h_2 => cases h
      case h_1 P₂ total hsec =>
        cases h
        split at hsec
        case isTrue hbusy =>
          rw [if_pos hbusy]
          cases total with
          | none => exact absurd hret neg_one_not_nonneg
          | some total => exact sendSecondaries_levels hframe₁ hsec
        case isFalse hbusy =>
          cases hsec
          rw [if_neg hbusy]
          exact ⟨hframe₁, rfl⟩

theorem connectAndSend_levels {io : ReadIO} {st : ReadState} {q : Queueread}
    (hframe : Frame self P₀ st.pool) (hlevels : st.pool.levels = P₀.levels)
    (h : connectAndSend self n qfree io st = some q) (hret : 0 ≤ q.ret) :
    Frame self P₀ q.pool ∧ q.pool.levels = sentLevels P₀ self qfree := by
  rw [connectAndSend] at h
  dsimp only at h
  split at h
  case isFalse => exact sendAll_levels hframe hlevels h hret
  case isTrue =>
    split at h
    case isTrue =>
      have hset := hframe.trans (.setConn self n
        (readerConnect ((st.pool.servers self).conns n) io.connect).1 st.pool)
      exact @sendAll_levels _ _ _ _ _ { st with pool := _ } _ hset hlevels h hret
    case isFalse =>
      split at h
      case isTrue => cases h; exact absurd hret neg_one_not_nonneg
      case isFalse => cases h

/-- What a call of `server_queueread` that does not fail does to the queues of a server that is told
to stop. -/
theorem serverQueueread_levels {idle : Nat} {io : ReadIO} {q : Queueread}
    (h : serverQueueread self n .stop idle io P = some q) (hret : 0 ≤ q.ret) :
    Frame self P q.pool ∧ q.pool.levels = levelsAfter P self := by
  have hframe := Frame.throttled self P
  have hidleFrame := hframe.trans (.closeIdle self n ⟨throttled P self, idle, 0⟩)
  have hlevels : (throttled P self).levels = P.levels := by
    funext k
    rw [Pool.levels, throttled_queues, Pool.levels]
  have hidleLevels : (closeIdle self n ⟨throttled P self, idle, 0⟩).pool.levels = P.levels := by
    rw [← hlevels]
    funext k
    rw [Pool.levels, closeIdle_queues, Pool.levels]
  rw [serverQueueread_eq] at h
  dsimp only at h
  rw [levelsAfter, roomAt_levels]
  split at h
  case isTrue hstands =>
    cases h
    unfold LeavesToOthers at hstands
    rw [if_pos hstands]
    exact ⟨hidleFrame, hidleLevels⟩
  case isFalse hstands =>
    unfold LeavesToOthers at hstands
    rw [if_neg hstands]
    split at h
    case isTrue hempty =>
      split at h
      case isTrue hnothing =>
        cases h
        rw [if_pos ⟨hempty, hnothing⟩]
        exact ⟨hidleFrame, hidleLevels⟩
      case isFalse hnothing =>
        rw [if_neg fun hboth => hnothing hboth.2]
        exact connectAndSend_levels hidleFrame hidleLevels h hret
    case isFalse hempty =>
      rw [if_neg fun hboth => hempty hboth.1]
      exact connectAndSend_levels hframe hlevels h hret

end

/-- A server for lines over TCP, without secondaries, that sends one metric at a time. -/
def aloneServer : ServerState where
  queue := 0
  sharedQueue := false
  bsize := 1
  qfreeThreshold := 0
  thresholdStart := 0
  thresholdEnd := 0
  ttl := 0
  ctype := .tcp
  nconns := 1
  conns := fun _ => ⟨-1, false, 0, 0⟩
  secondaries := []
  failover := false
  keepRunning := .keepRunning
  dropped := 0
  requeue := 0

end CarbonRelay
