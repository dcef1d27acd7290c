import CarbonRelay.Server.Conservation

/-!
# The order of what is put back

When a connection is closed on a failure, `server_queuesend` puts the metrics it could not send back
to the front of the queue, one after the other from the first on. Each goes in front of the one
before it, so that afterwards they are in the queue in the opposite order
(`serverQueuesend_represents`). The order is kept exactly if they read the same from both ends
(`order_kept_iff`), such as a single metric does.
-/

namespace CarbonRelay

open List

theorem Queue.Represents.unique {α : Type*} {q : Queue α} {xs ys : List α} (h : q.Represents xs)
    (h' : q.Represents ys) : xs = ys :=
  map_injective_iff.2 (Option.some_injective α) (h.entries_eq.symm.trans h'.entries_eq)

/-- Metrics that are all put back stand in front of the others, the last of them first. -/
theorem requeue_of_room : ∀ (batch : List Text) {q : Queue Text} {rest : List Text},
    q.Represents rest → batch.length + rest.length ≤ q.size →
    ∃ q', requeue batch q = some (q', []) ∧ q'.Represents (batch.reverse ++ rest)
  | [], q, _, hq, _ => ⟨q, rfl, hq⟩
  | m :: batch, q, rest, hq, hroom => by
    rw [length_cons] at hroom
    have hne : rest.length ≠ q.size := by omega
    obtain ⟨q₁, hput, hsize, hq₁⟩ := hq.putback m
    rw [if_neg hne] at hq₁
    rw [decide_eq_true hne] at hput
    obtain ⟨q', hback, hq'⟩ := requeue_of_room batch hq₁ (by rw [hsize, length_cons]; omega)
    refine ⟨q', ?_, ?_⟩
    · simp only [requeue, hput, hback, Option.bind_eq_bind, Option.bind_some,
        Option.pure_def, if_true]
    · rw [reverse_cons, append_assoc]
      exact hq'

/-- A list put back in front of another is in its order exactly if it is its own reverse. -/
theorem Queue.Represents.order_iff {α : Type*} {q : Queue α} {unsent rest : List α}
    (h : q.Represents (unsent.reverse ++ rest)) :
    q.Represents (unsent ++ rest) ↔ unsent.reverse = unsent := by
  constructor
  · intro h'
    exact append_cancel_right (h.unique h')
  · intro heq
    rwa [heq] at h

section
variable {len bsize dropped : Nat} {batch rest xs : List Text} {c : SendCounts}
  {st st₁ st₂ : SendState} {squeue : Queue Text} {r : SendResult}

theorem finishBatch_represents (hq : squeue.Represents rest) (hfd : st.conn.fd < 0)
    (hroom : (batch.drop c.flushed).length + rest.length ≤ squeue.size)
    (h : finishBatch len batch c st squeue dropped = some r) :
    r.squeue.Represents ((batch.drop c.flushed).reverse ++ rest) ∧
      (replay r.ops).1 = (replay st.ops).1 := by
  obtain ⟨q', hback, hq'⟩ := requeue_of_room _ hq hroom
  rw [finishBatch, if_neg (not_le.2 hfd), hback] at h
  cases h
  exact ⟨hq', by rw [replay_concat]; rfl⟩

/-- With the connection closed at the end, the metrics counted as flushed are those that went out.
-/
theorem sent_of_closed (hfd : 0 < st.conn.fd) (hops : st.ops = [])
    (hloop : sendLoop batch ⟨0, 0, 0⟩ st = some (c, st₁)) (hflush : finalFlush c st₁ = some st₂)
    (hclosed : st₂.conn.fd < 0) : (replay st₂.ops).1 = batch.take c.flushed ∧
      c.flushed ≤ batch.length := by
  have hstart : Sending [] ⟨0, 0, 0⟩ st.ops := ⟨rfl, rfl, by rw [hops]; rfl⟩
  have hexit := sendLoop_exit hstart hfd hloop
  obtain ⟨hsent, hle⟩ := hexit.sent_eq
  refine ⟨Eq.trans ?_ hsent, hle⟩
  rcases hexit.fd with hopen | hclosed₁
  · by_cases hlt : c.flushed < c.total
    · obtain ⟨-, hopen₂, -⟩ | ⟨_, -, -, hopen₂, -⟩ | ⟨-, -, hops₂⟩ :=
        finalFlush_cases hlt hopen hflush
      · omega
      · omega
      · exact hops₂
    · rw [finalFlush, if_neg hlt] at hflush
      cases hflush
      rfl
  · rw [finalFlush_closed hclosed₁] at hflush
    cases hflush
    rfl

/-- A call that ends with the connection closed: what did not go out of the metrics it took is back
in front of the queue, in the opposite order. -/
theorem serverQueuesend_represents {conn : ServerConn} {outs : List SendOutcome}
    (hq : squeue.Represents xs) (h : serverQueuesend conn bsize squeue dropped outs = some r)
    (hclosed : r.conn.fd < 0) :
    r.squeue.Represents (((dequeued conn bsize outs xs).drop (replay r.ops).1.length).reverse ++
      xs.drop (dequeued conn bsize outs xs).length) := by
  cases serverQueuesend_path h with
  | unready hready _ _ _ hsqueue =>
    rw [dequeued, if_neg hready, hsqueue]
    simpa using hq
  | empty squeue' hfd _ _ hr =>
    subst hr
    exact absurd hclosed (not_lt.2 hfd.le)
  | batch squeue' vector outs' c st₁ st₂ hfd houts hvector hne hloop hflush hnil hfinish =>
    obtain ⟨q₁, hq₁, hsize, -⟩ := hq.dequeueVector bsize
    obtain ⟨rfl, hq'⟩ := hq.of_dequeueVector hvector
    cases hvector.symm.trans hq₁
    rw [batchOf_map_some] at hloop hfinish
    subst houts
    rw [dequeued, if_pos ⟨hfd, rfl⟩, drop_length_take]
    have hclosed₂ : st₂.conn.fd < 0 := by
      by_contra hopen
      rw [finishBatch, if_pos (not_lt.1 hopen)] at hfinish
      cases hfinish
      exact hopen hclosed
    obtain ⟨hsent, hle⟩ := sent_of_closed hfd rfl hloop hflush hclosed₂
    have hroom : ((xs.take bsize).drop c.flushed).length + (xs.drop bsize).length ≤
        squeue'.size := by
      have hfits := hq.length_le
      rw [length_drop, length_take, length_drop, hsize]
      omega
    obtain ⟨hrep, hops⟩ := finishBatch_represents hq' hclosed₂ hroom hfinish
    rwa [hops, hsent, length_take_of_le hle]

end

/-- The metrics put back are in their order exactly if they are the same from both ends: at the end
of every batch, whatever the queue holds by then, if it has room for them, and so for every call. -/
theorem order_kept_iff {squeue : Queue Text} {xs : List Text} (hq : squeue.Represents xs)
    (dropped : Nat) (r : SendResult) :
    (∀ len batch c st, st.conn.fd < 0 → (batch.drop c.flushed).length + xs.length ≤ squeue.size →
      finishBatch len batch c st squeue dropped = some r →
      (r.squeue.Represents (batch.drop c.flushed ++ xs) ↔
        (batch.drop c.flushed).reverse = batch.drop c.flushed)) ∧
    ∀ conn bsize outs unsent, serverQueuesend conn bsize squeue dropped outs = some r →
      r.conn.fd < 0 → unsent = (dequeued conn bsize outs xs).drop (replay r.ops).1.length →
      (r.squeue.Represents (unsent ++ xs.drop (dequeued conn bsize outs xs).length) ↔
        unsent.reverse = unsent) := by
  constructor
  · intro len batch c st hfd hroom h
    exact (finishBatch_represents hq hfd hroom h).1.order_iff
  · rintro conn bsize outs unsent h hclosed rfl
    exact (serverQueuesend_represents hq h hclosed).order_iff

/-- A batch of one metric whose flush fails is put back in front of the metric that was left in the
queue. -/
theorem order_kept_single : ∃ r, serverQueuesend ⟨4, false, 0, 0⟩ 1
      ⟨[some ['a'], some ['b']], 2, 2, 0, 2⟩ 0
      [.poll .ready, .write .written, .poll .ready, .flush false] = some r ∧
    r.squeue.Represents ([['a']] ++ [['b']]) := by
  have hq : Queue.Represents ⟨[some ['a'], some ['b']], 2, 2, 0, 2⟩ [['a'], ['b']] := by
    obtain ⟨q, hq, -, hrep⟩ := (Queue.represents_queueNew (by decide : 0 < 2)).enqueue ['a']
    cases hq
    obtain ⟨q, hq, -, hrep⟩ := hrep.enqueue ['b']
    cases hq
    exact hrep
  refine Machine.exists_some rfl fun r hr => ?_
  have hclosed : r.conn.fd < 0 := by
    cases hr
    decide
  exact ((order_kept_iff hq _ r).2 _ _ _ [['a']] hr hclosed (by cases hr; rfl)).2 rfl

/-- Two metrics in a queue of two, and a flush at the end of the batch that fails: both are put
back, the second in front of the first. -/
theorem requeue_reverses : ∃ r, serverQueuesend ⟨4, false, 0, 0⟩ 2
      ⟨[some ['a'], some ['b']], 2, 2, 0, 2⟩ 0
      [.poll .ready, .write .written, .write .written, .poll .ready, .flush false] = some r ∧
    r.conn.fd = -1 ∧ (replay r.ops).1 = [] ∧ r.dropped = 0 ∧
    Queue.entries ⟨[some ['a'], some ['b']], 2, 2, 0, 2⟩ = [some ['a'], some ['b']] ∧
    r.squeue.entries = [some ['b'], some ['a']] :=
  ⟨_, rfl, rfl, rfl, rfl, rfl, rfl⟩

end CarbonRelay
