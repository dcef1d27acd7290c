import CarbonRelay.Server.Queuesend
import CarbonRelay.Queue.Refinement

/-!
# No metric is lost silently, if the connection is closed on failure

A metric of a batch is accounted for when its bytes were in a flush that succeeded, when it is back
in the queue, or when it was freed and counted as dropped (`Conserved`). `server_queuesend` decides
between freeing and putting back the batch by whether the connection is open, but a hang-up reported
by `poll` and a flush that fails in the middle of the batch leave it open. `Lossless` says of the
outcomes of a call that neither decides its end, and it is exactly when the batch is conserved
(`conserved_iff_lossless`).
-/

namespace CarbonRelay

open List Option

/-! ## What reaches the peer -/

/-- The metrics that went out with a flush that succeeded, and those in the buffer. -/
def strmStep : List Text × List Text → StrmOp → List Text × List Text
  | (sent, buf), .write m => (sent, buf ++ [m])
  | (sent, buf), .flush true => (sent ++ buf, [])
  | (sent, buf), .flush false => (sent, buf)
  | (sent, _), .close | (sent, _), .reset => (sent, [])

/-- The metrics of a call that went out, and those in the buffer, after the operations `ops`. -/
def replay (ops : List StrmOp) : List Text × List Text := ops.foldl strmStep ([], [])

theorem replay_concat (ops : List StrmOp) (op : StrmOp) :
    replay (ops ++ [op]) = strmStep (replay ops) op := by
  rw [replay, foldl_append, foldl_cons, foldl_nil, ← replay]

/-- Every metric of the batch went out, or is back in front of the queue `rest`, or was freed and
counted; and only metrics that went out or were counted have been freed. -/
def Conserved (batch rest : List Text) (dropped : Nat) (r : SendResult) : Prop :=
  ∃ back lost, batch.Perm ((replay r.ops).1 ++ back ++ lost) ∧
    r.squeue.Represents (back.reverse ++ rest) ∧ r.dropped = dropped + lost.length ∧
    r.freed.Perm ((replay r.ops).1 ++ lost)

/-! ## Failures and polls -/

section
variable {st st' : SendState}

@[simp] theorem serverAddFailure_outs : (serverAddFailure st).outs = st.outs := by
  unfold serverAddFailure; split <;> rfl

@[simp] theorem serverAddFailure_ops : (serverAddFailure st).ops = st.ops := by
  unfold serverAddFailure; split <;> rfl

@[simp] theorem serverAddFailure_fd : (serverAddFailure st).conn.fd = st.conn.fd := by
  unfold serverAddFailure; split <;> rfl

@[simp] theorem serverAddFailure_metrics :
    (serverAddFailure st).conn.metrics = st.conn.metrics := by
  unfold serverAddFailure; split <;> rfl

@[simp] theorem serverDisconnect_outs : (serverDisconnect st).outs = st.outs := by
  unfold serverDisconnect; split <;> rfl

@[simp] theorem serverDisconnect_fd : (serverDisconnect st).conn.fd = -1 := by
  unfold serverDisconnect; split
  · rfl
  · next h => exact not_not.1 h

theorem serverDisconnect_of_open (hfd : 0 < st.conn.fd) : serverDisconnect st =
    { st with conn := { st.conn with fd := -1 }, ops := st.ops ++ [.close] } := by
  rw [serverDisconnect, if_pos (by omega)]

/-- Closing the connection takes nothing back that went out. -/
@[simp] theorem replay_serverDisconnect :
    (replay (serverDisconnect st).ops).1 = (replay st.ops).1 := by
  unfold serverDisconnect; split
  · rw [replay_concat]; rfl
  · rfl

/-- What a call of `server_poll` leaves of an open connection. -/
theorem serverPoll_eq_some (hfd : 0 < st.conn.fd) {ok : Bool} (h : serverPoll st = some (ok, st')) :
    ∃ o, st.outs = .poll o :: st'.outs ∧
      (ok = true ∧ o = .ready ∧ st'.conn = st.conn ∧ st'.ops = st.ops ∨
        ok = false ∧ o ≠ .ready ∧ st'.conn.metrics = st.conn.metrics ∧
          (0 < st'.conn.fd ∧ st'.ops = st.ops ∨
            st'.conn.fd = -1 ∧ st'.ops = st.ops ++ [.close])) := by
  rw [serverPoll, if_pos hfd] at h
  split at h
  case h_2 => cases h
  case h_1 o outs houts =>
    have hopen : 0 < ({ st with outs } : SendState).conn.fd := hfd
    refine ⟨o, ?_⟩
    cases o with
    | ready => cases h; exact ⟨houts, .inl ⟨rfl, rfl, rfl, rfl⟩⟩
    | hangup | event =>
      cases h
      exact ⟨by simpa using houts, .inr ⟨rfl, nofun, by simp, .inl ⟨by simpa using hfd, by simp⟩⟩⟩
    | timeout | error =>
      dsimp only at h
      rw [serverDisconnect_of_open hopen] at h
      cases h
      exact ⟨houts, .inr ⟨rfl, nofun, rfl, .inr ⟨rfl, rfl⟩⟩⟩

/-- What `server_poll` does with an open connection. -/
theorem serverPoll_cases (hfd : 0 < st.conn.fd) {ok : Bool} (h : serverPoll st = some (ok, st')) :
    (st.outs = .poll .ready :: st'.outs ∧ ok = true ∧ st'.conn = st.conn ∧ st'.ops = st.ops) ∨
    (∃ o, (o = .hangup ∨ o = .event) ∧ st.outs = .poll o :: st'.outs ∧ ok = false ∧
      0 < st'.conn.fd ∧ st'.ops = st.ops) ∨
    (∃ o, (o = .timeout ∨ o = .error) ∧ st.outs = .poll o :: st'.outs ∧ ok = false ∧
      st'.conn.fd = -1 ∧ (replay st'.ops).1 = (replay st.ops).1) := by
  rw [serverPoll, if_pos hfd] at h
  split at h
  · next o outs houts =>
    cases o with
    | ready => cases h; exact .inl ⟨houts, rfl, rfl, rfl⟩
    | hangup => cases h; exact .inr (.inl
      ⟨_, .inl rfl, by simpa using houts, rfl, by simpa, by simp⟩)
    | event => cases h; exact .inr (.inl
      ⟨_, .inr rfl, by simpa using houts, rfl, by simpa, by simp⟩)
    | timeout => cases h; exact .inr (.inr
      ⟨_, .inl rfl, by simpa using houts, rfl, by simp, by simp⟩)
    | error => cases h; exact .inr (.inr ⟨_, .inr rfl, by simpa using houts, rfl, by simp, by simp⟩)
  · cases h

/-- On a closed connection `server_poll` only fails. -/
theorem serverPoll_closed (hfd : st.conn.fd = -1) : serverPoll st = some (false, st) := by
  rw [serverPoll, if_neg (by omega)]

end

/-! ## The loop -/

/-- In the loop `done` is written, of which the first `flushed` went out. -/
structure Sending (done : List Text) (c : SendCounts) (ops : List StrmOp) : Prop where
  total_eq : c.total = done.length
  flushed_add : c.flushed + c.sended = c.total
  replay_eq : replay ops = (done.take c.flushed, done.drop c.flushed)

namespace Sending

variable {done : List Text} {c : SendCounts} {ops : List StrmOp}

section
variable (h : Sending done c ops)
include h

theorem flushed_le : c.flushed ≤ done.length := by
  have := h.total_eq
  have := h.flushed_add
  omega

/-- A write that the stream accepts. -/
theorem write (m : Text) :
    Sending (done ++ [m]) { c with sended := c.sended + 1, total := c.total + 1 }
      (ops ++ [.write m]) := by
  refine ⟨?_, ?_, ?_⟩
  · rw [length_append, length_singleton, ← h.total_eq]
  · have := h.flushed_add
    dsimp only
    omega
  · rw [replay_concat, h.replay_eq, strmStep, take_append_of_le_length h.flushed_le,
      drop_append_of_le_length h.flushed_le]

/-- A flush that succeeds. -/
theorem flush :
    Sending done { c with flushed := c.flushed + c.sended, sended := 0 }
      (ops ++ [.flush true]) := by
  have hlen : done.length ≤ c.flushed + c.sended := by rw [h.flushed_add, h.total_eq]
  refine ⟨h.total_eq, h.flushed_add, ?_⟩
  rw [replay_concat, h.replay_eq, strmStep, take_append_drop, take_of_length_le hlen,
    drop_of_length_le hlen]

/-- A flush that fails. -/
theorem flush_failed : Sending done c (ops ++ [.flush false]) := by
  refine ⟨h.total_eq, h.flushed_add, ?_⟩
  rw [replay_concat, h.replay_eq, strmStep]

/-- What went out of a batch that was written in part. -/
theorem sent_eq {batch : List Text} (hdone : done <+: batch) :
    (replay ops).1 = batch.take c.flushed := by
  obtain ⟨t, rfl⟩ := hdone
  rw [h.replay_eq, take_append_of_le_length h.flushed_le]

end

end Sending

/-- The outcomes that make `server_queuesend` close the connection in its loop. -/
def SendOutcome.closes : SendOutcome → Bool
  | .write .failed | .write .enobufs | .poll .timeout | .poll .error => true
  | _ => false

/-- How the loop over the rest `batch` of a batch ends, when it starts with the counters `c₀` and
the outcomes `outs` to come. -/
inductive LoopExit (done batch : List Text) (c₀ : SendCounts) (outs : List SendOutcome)
    (c : SendCounts) (st : SendState) : Prop
  /-- Everything was written. -/
  | complete (used : List SendOutcome) (houts : outs = used ++ st.outs)
      (hsending : Sending (done ++ batch) c st.ops) (hfd : 0 < st.conn.fd)
      (hsended : (batch = [] ∧ c = c₀ ∧ used = []) ∨ 0 < c.sended) (hflush : .flush false ∉ used)
  /-- The connection was closed. -/
  | closed (used : List SendOutcome) (last : SendOutcome) (houts : outs = used ++ last :: st.outs)
      (hlast : last.closes = true) (hfd : st.conn.fd = -1)
        (hle : c.flushed ≤ (done ++ batch).length)
      (hsent : (replay st.ops).1 = (done ++ batch).take c.flushed)
  /-- The buffer was full and could not be flushed. -/
  | flushFailed (used : List SendOutcome) (written : List Text)
      (houts : outs = used ++ .write .enobufs :: .flush false :: st.outs)
      (hsending : Sending written c st.ops) (hfd : 0 < st.conn.fd)
      (hwritten : written <+: done ++ batch) (hlt : written.length < (done ++ batch).length)
  /-- The peer hung up after a flush. -/
  | hungUp (used : List SendOutcome) (o : PollOutcome) (ho : o = .hangup ∨ o = .event)
      (written : List Text) (houts : outs = used ++ .poll o :: st.outs)
      (hsending : Sending written c st.ops) (hfd : 0 < st.conn.fd) (hflushed : c.flushed = c.total)
      (hwritten : written <+: done ++ batch) (hlt : written.length < (done ++ batch).length)

variable {done batch : List Text} {c₀ c : SendCounts} {outs : List SendOutcome} {st : SendState}

/-- An exit of the loop behind a metric that was written is one of the whole loop. -/
theorem LoopExit.cons {c₁ : SendCounts} {outs' : List SendOutcome}
    {m : Text} (h : LoopExit (done ++ [m]) batch c₁ outs' c st)
    (hpos : 0 < c₁.sended) (pre : List SendOutcome) (houts' : outs = pre ++ outs')
    (hpre : .flush false ∉ pre) : LoopExit done (m :: batch) c₀ outs c st := by
  have happend : done ++ [m] ++ batch = done ++ m :: batch := by simp
  subst houts'
  cases h with
  | complete used houts hs hfd hsended hflush =>
    refine .complete (pre ++ used) (by rw [houts, append_assoc]) (happend ▸ hs) hfd (.inr ?_) ?_
    · rcases hsended with ⟨_, rfl, _⟩ | hsended
      · exact hpos
      · exact hsended
    · rw [mem_append, not_or]
      exact ⟨hpre, hflush⟩
  | closed used last houts hlast hfd hle hsent =>
    rw [happend] at hle hsent
    exact .closed (pre ++ used) last (by rw [houts, append_assoc]) hlast hfd hle hsent
  | flushFailed used written houts hs hfd hwritten hlt =>
    rw [happend] at hwritten hlt
    exact .flushFailed (pre ++ used) written (by rw [houts, append_assoc]) hs hfd hwritten hlt
  | hungUp used o ho written houts hs hfd hflushed hwritten hlt =>
    rw [happend] at hwritten hlt
    exact .hungUp (pre ++ used) o ho written
      (by rw [houts, append_assoc]) hs hfd hflushed hwritten hlt

/-- The exit of the loop that closes the connection. -/
theorem LoopExit.of_closed
    {ops : List StrmOp} (hs : Sending done c ops)
    (hops : (replay st.ops).1 = (replay ops).1) (hfd : st.conn.fd = -1) (used : List SendOutcome)
    (last : SendOutcome) (houts : outs = used ++ last :: st.outs) (hlast : last.closes = true) :
    LoopExit done batch c₀ outs c st := by
  have hle := hs.flushed_le
  refine .closed used last houts hlast hfd (by rw [length_append]; omega) ?_
  rw [hops, hs.replay_eq, take_append_of_le_length hle]

/-- The loop ends in one of these ways. -/
theorem sendLoop_exit : ∀ {done : List Text} {c c' : SendCounts}
    {st st' : SendState}, Sending done c st.ops → 0 < st.conn.fd →
    sendLoop batch c st = some (c', st') → LoopExit done batch c st.outs c' st' := by
  induction batch with
  | nil =>
    intro done c c' st st' hs hfd h
    cases h
    exact .complete [] rfl (by rwa [append_nil]) hfd (.inl ⟨rfl, rfl, rfl⟩) not_mem_nil
  | cons m batch ih =>
    intro done c c' st st' hs hfd h
    have hstart : done <+: done ++ m :: batch := prefix_append _ _
    have hlength : done.length < (done ++ m :: batch).length := by simp
    rw [sendLoop] at h
    split at h
    · next outs houts =>
      have hexit : LoopExit (done ++ [m]) batch _ outs c' st' := ih (hs.write m) (by exact hfd) h
      exact hexit.cons (Nat.succ_pos _) [.write .written] houts (by simp)
    · next outs houts =>
      obtain ⟨⟨ok, st₁⟩, hpoll, hrest⟩ := bind_eq_some_iff.1 h
      have hs₁ := hs.flush
      obtain ⟨houts₁, rfl, hconn, hops⟩ | ⟨o, ho, houts₁, rfl, hfd₁, hops⟩ |
        ⟨o, ho, houts₁, rfl, hfd₁, hops⟩ := serverPoll_cases (by exact hfd) hpoll
      · obtain rfl : outs = .poll .ready :: st₁.outs := houts₁
        have hfd₁ : 0 < st₁.conn.fd := by rw [hconn]; exact hfd
        have hs₂ : Sending done { c with flushed := c.flushed + c.sended, sended := 0 }
            st₁.ops := by
          rw [hops]; exact hs₁
        simp only [if_true] at hrest
        split at hrest
        · next outs₂ houts₂ =>
          have hexit : LoopExit (done ++ [m]) batch _ outs₂ c' st' :=
            ih (hs₂.write m) (by exact hfd₁) hrest
          refine hexit.cons (Nat.succ_pos _)
            [.write .enobufs, .flush true, .poll .ready, .write .written] ?_ (by simp)
          rw [houts, houts₂]
          rfl
        · next o outs₂ hne houts₂ =>
          cases hrest
          refine .of_closed hs₂ (by simp) (by simp) [.write .enobufs, .flush true, .poll .ready]
            (.write o) ?_ ?_
          · rw [houts, houts₂]
            simp
          · cases o with
            | written => exact absurd rfl hne
            | enobufs | failed => rfl
        · cases hrest
      · obtain rfl : outs = .poll o :: st₁.outs := houts₁
        cases hrest
        exact .hungUp [.write .enobufs, .flush true] o ho done houts (by rw [hops]; exact hs₁) hfd₁
          hs.flushed_add hstart hlength
      · obtain rfl : outs = .poll o :: st₁.outs := houts₁
        cases hrest
        refine .of_closed hs₁ hops hfd₁ [.write .enobufs, .flush true] (.poll o) houts ?_
        rcases ho with rfl | rfl <;> rfl
    · next outs houts =>
      cases h
      exact .flushFailed [] done houts hs.flush_failed hfd hstart hlength
    · next outs houts =>
      cases h
      exact .of_closed hs (by simp) (by simp) [] (.write .failed) (by simpa using houts) rfl
    · cases h

/-- However the loop ends, the metrics counted as flushed are those that went out. -/
theorem LoopExit.sent_eq (h : LoopExit [] batch c₀ outs c st) :
    (replay st.ops).1 = batch.take c.flushed ∧ c.flushed ≤ batch.length := by
  have hsending : ∀ {written}, Sending written c st.ops → written <+: batch →
      (replay st.ops).1 = batch.take c.flushed ∧ c.flushed ≤ batch.length :=
    fun hs hwritten => ⟨hs.sent_eq hwritten, hs.flushed_le.trans hwritten.length_le⟩
  cases h with
  | complete _ _ hs => exact hsending hs prefix_rfl
  | closed _ _ _ _ _ hle hsent => exact ⟨hsent, hle⟩
  | flushFailed _ _ _ hs _ hwritten => exact hsending hs hwritten
  | hungUp _ _ _ _ _ hs _ _ hwritten => exact hsending hs hwritten

theorem LoopExit.fd (h : LoopExit done batch c₀ outs c st) : 0 < st.conn.fd ∨ st.conn.fd = -1 := by
  cases h with
  | complete _ _ _ hfd => exact .inl hfd
  | closed _ _ _ _ hfd => exact .inr hfd
  | flushFailed _ _ _ _ hfd => exact .inl hfd
  | hungUp _ _ _ _ _ _ hfd => exact .inl hfd

/-! ## The end of a call -/

/-- Putting metrics back prepends those that fit, and the others are counted. -/
theorem requeue_represents : ∀ (batch : List Text) {q : Queue Text} {rest : List Text},
    q.Represents rest → ∃ q' back lost, requeue batch q = some (q', lost) ∧
      batch.Perm (back ++ lost) ∧ q'.Represents (back.reverse ++ rest)
  | [], q, rest, hq => ⟨q, [], [], rfl, .refl _, hq⟩
  | m :: batch, q, rest, hq => by
    obtain ⟨q₁, hput, -, hq₁⟩ := hq.putback m
    obtain ⟨q', back, lost, hback, hperm, hq'⟩ := requeue_represents batch hq₁
    simp only [requeue, hput, hback, bind_eq_bind, bind_some, Option.pure_def]
    by_cases hfull : rest.length = q.size
    · refine ⟨q', back, m :: lost, by simp [hfull], ?_, by simpa [hfull] using hq'⟩
      exact (hperm.cons m).trans perm_middle.symm
    · refine ⟨q', m :: back, lost, by simp [hfull], hperm.cons m, ?_⟩
      simpa [hfull] using hq'

section
variable {len dropped : Nat} {batch rest : List Text} {c : SendCounts} {st : SendState}
  {squeue : Queue Text} {r : SendResult}

section
variable (hq : squeue.Represents rest)
include hq

/-- With the connection closed behind what went out, the batch is conserved. -/
theorem conserved_of_closed (h : finishBatch len batch c st squeue dropped = some r)
    (hfd : st.conn.fd = -1)
    (hsent : (replay st.ops).1 = batch.take c.flushed) : Conserved batch rest dropped r := by
  obtain ⟨q', back, lost, hback, hperm, hq'⟩ := requeue_represents (batch.drop c.flushed) hq
  rw [finishBatch, if_neg (by omega), hback] at h
  cases h
  have hops : (replay (st.ops ++ [.reset])).1 = batch.take c.flushed := by
    rw [replay_concat, ← hsent]; rfl
  refine ⟨back, lost, ?_, hq', rfl, by rw [hops]⟩
  rw [hops, append_assoc]
  conv_lhs => rw [← take_append_drop c.flushed batch]
  exact hperm.append_left _

/-- With the connection open the batch is freed, so it is conserved only if all of it went out. -/
theorem conserved_iff_of_open
    (h : finishBatch len batch c st squeue dropped = some r) (hfd : 0 < st.conn.fd) :
    Conserved batch rest dropped r ↔ batch.Perm (replay st.ops).1 := by
  rw [finishBatch, if_pos (by omega)] at h
  cases h
  constructor
  · rintro ⟨back, lost, hperm, hq', hdropped, _⟩
    have hback : back.length = 0 := by
      have := hq'.len_eq.symm.trans hq.len_eq
      rw [length_append, length_reverse] at this
      omega
    have hlost : lost.length = 0 := by
      dsimp only at hdropped
      omega
    rw [eq_nil_of_length_eq_zero hback, eq_nil_of_length_eq_zero hlost, append_nil,
      append_nil] at hperm
    exact hperm
  · intro hperm
    exact ⟨[], [], by simpa using hperm, hq, rfl, by simpa using hperm⟩

/-- With the connection open and a part of the batch unsent, the batch is not conserved. -/
theorem not_conserved_of_open
    (h : finishBatch len batch c st squeue dropped = some r) (hfd : 0 < st.conn.fd)
    (hlt : (replay st.ops).1.length < batch.length) : ¬ Conserved batch rest dropped r := by
  rw [conserved_iff_of_open hq h hfd]
  exact fun hperm => Nat.lt_irrefl _ (hperm.length_eq ▸ hlt)

end

end

/-- What the outcomes of a call must be for the batch to be conserved: behind the first poll, the
last outcome is not a hang-up or another event; when the last is a flush that succeeded, none has
failed; and when the last is a flush that failed, it is the one at the end of the batch, behind a
poll, and not one in the middle, behind a write that did not fit. -/
def Lossless (outs : List SendOutcome) : Prop :=
  match outs.tail.reverse with
  | .poll .hangup :: _ | .poll .event :: _ => False
  | .flush true :: before => .flush false ∉ before
  | .flush false :: .write _ :: _ => False
  | _ => True

section
variable {first last : SendOutcome} {used : List SendOutcome}

theorem lossless_of_closes (h : last.closes = true) : Lossless (first :: (used ++ [last])) := by
  rw [Lossless, tail_cons, reverse_append, reverse_singleton, singleton_append]
  rcases last with o | o | ok
  · cases o <;> trivial
  · trivial
  · cases h

theorem lossless_flush_iff : Lossless (first :: (used ++ [.flush true])) ↔ .flush false ∉ used := by
  simp [Lossless]

theorem lossless_final_flush : Lossless (first :: (used ++ [.poll .ready, .flush false])) := by
  simp [Lossless]

theorem not_lossless_full : ¬ Lossless (first :: (used ++ [.write .enobufs, .flush false])) := by
  simp [Lossless]

theorem not_lossless_hangup {o : PollOutcome} (h : o = .hangup ∨ o = .event) :
    ¬ Lossless (first :: (used ++ [.poll o])) := by
  rcases h with rfl | rfl <;> simp [Lossless]

end

/-- How the flush at the end of a batch ends. -/
theorem finalFlush_cases {st' : SendState} (hlt : c.flushed < c.total)
    (hfd : 0 < st.conn.fd) (h : finalFlush c st = some st') :
    (st.outs = .poll .ready :: .flush true :: st'.outs ∧ 0 < st'.conn.fd ∧
      st'.ops = st.ops ++ [.flush true]) ∨
    (∃ o, (o = .hangup ∨ o = .event) ∧ st.outs = .poll o :: st'.outs ∧ 0 < st'.conn.fd ∧
      st'.ops = st.ops) ∨
    ((st.outs = .poll .ready :: .flush false :: st'.outs ∨
        ∃ o, (o = .timeout ∨ o = .error) ∧ st.outs = .poll o :: st'.outs) ∧
      st'.conn.fd = -1 ∧ (replay st'.ops).1 = (replay st.ops).1) := by
  rw [finalFlush, if_pos hlt] at h
  obtain ⟨⟨ok, st₁⟩, hpoll, h⟩ := bind_eq_some_iff.1 h
  obtain ⟨houts, rfl, hconn, hops⟩ | ⟨o, ho, houts, rfl, hfd₁, hops⟩ |
    ⟨o, ho, houts, rfl, hfd₁, hops⟩ := serverPoll_cases hfd hpoll
  · simp only [if_true] at h
    split at h
    · next outs houts₁ =>
      cases h
      refine .inl ⟨by rw [houts, houts₁]; rfl, ?_, by rw [SendState.flush, hops]⟩
      rw [SendState.flush, hconn]
      exact hfd
    · next outs houts₁ =>
      cases h
      refine .inr (.inr ⟨.inl ?_, by simp, ?_⟩)
      · rw [houts, houts₁]
        simp [SendState.flush]
      · simp only [replay_serverDisconnect, serverAddFailure_ops, SendState.flush,
          replay_concat, hops]
        rfl
    · cases h
  · cases h
    exact .inr (.inl ⟨o, ho, houts, hfd₁, hops⟩)
  · cases h
    exact .inr (.inr ⟨.inr ⟨o, ho, houts⟩, hfd₁, hops⟩)

/-- A closed connection is not flushed. -/
theorem finalFlush_closed (hfd : st.conn.fd = -1) : finalFlush c st = some st := by
  rw [finalFlush, serverPoll_closed hfd]
  split <;> rfl

section
variable {len dropped : Nat} {batch rest written : List Text} {c : SendCounts}
  {st st₁ st₂ : SendState} {squeue : Queue Text} {r : SendResult}

/-- The end of a batch of which `written` is in the buffer or went out: the whole batch, if no flush
has failed. -/
theorem finalFlush_conserved_iff (first : SendOutcome) {used : List SendOutcome}
    (hq : squeue.Represents rest) (hs : Sending written c st₁.ops) (hwritten : written <+: batch)
    (hall : written = batch ↔ .flush false ∉ used) (hlt : c.flushed < c.total)
    (hfd : 0 < st₁.conn.fd) (hflush : finalFlush c st₁ = some st₂) (houts : st₂.outs = [])
    (h : finishBatch len batch c st₂ squeue dropped = some r) :
    Conserved batch rest dropped r ↔ Lossless (first :: (used ++ st₁.outs)) := by
  have hlen : c.flushed < batch.length := by
    have := hs.total_eq
    have := hwritten.length_le
    omega
  obtain ⟨houts₁, hfd₂, hops₂⟩ | ⟨o, ho, houts₁, hfd₂, hops₂⟩ | ⟨houts₁, hfd₂, hops₂⟩ :=
    finalFlush_cases hlt hfd hflush
  · have hsent : replay st₂.ops = (written, []) := by
      rw [hops₂, replay_concat, hs.replay_eq, strmStep, take_append_drop]
    have hiff : batch.Perm written ↔ written = batch :=
      ⟨fun hperm => hwritten.eq_of_length hperm.length_eq.symm, fun heq => .of_eq heq.symm⟩
    have hused : used ++ [.poll .ready, .flush true] = used ++ [.poll .ready] ++ [.flush true] := by
      simp
    rw [conserved_iff_of_open hq h hfd₂, hsent, hiff, hall, houts₁, houts, hused,
      lossless_flush_iff]
    simp
  · have hnot := not_conserved_of_open hq h hfd₂
      (by rw [hops₂, hs.sent_eq hwritten, length_take]; omega)
    rw [houts₁, houts]
    exact iff_of_false hnot (not_lossless_hangup ho)
  · have hcons := conserved_of_closed hq h hfd₂ (hops₂.trans (hs.sent_eq hwritten))
    refine iff_of_true hcons ?_
    rcases houts₁ with houts₁ | ⟨o, ho, houts₁⟩
    · rw [houts₁, houts]
      exact lossless_final_flush
    · rw [houts₁, houts]
      exact lossless_of_closes (by rcases ho with rfl | rfl <;> rfl)

/-- The part of a call behind the dequeue of a batch. -/
theorem sendLoop_conserved_iff (first : SendOutcome) {outs : List SendOutcome}
    (hq : squeue.Represents rest) (hbatch : batch ≠ []) (hfd : 0 < st.conn.fd) (hops : st.ops = [])
    (hst : st.outs = outs) (hloop : sendLoop batch ⟨0, 0, 0⟩ st = some (c, st₁))
    (hflush : finalFlush c st₁ = some st₂) (houts : st₂.outs = [])
    (h : finishBatch len batch c st₂ squeue dropped = some r) :
    Conserved batch rest dropped r ↔ Lossless (first :: outs) := by
  subst hst
  have hstart : Sending [] ⟨0, 0, 0⟩ st.ops := ⟨rfl, rfl, by rw [hops]; rfl⟩
  have hskip : ¬ c.flushed < c.total → st₂ = st₁ := fun hnlt => by
    rw [finalFlush, if_neg hnlt] at hflush
    exact (Option.some.inj hflush).symm
  cases sendLoop_exit hstart hfd hloop with
  | complete used hused hs hfd₁ hsended hnone =>
    have hpos := hsended.resolve_left fun h => hbatch h.1
    have hlt : c.flushed < c.total := by have := hs.flushed_add; omega
    rw [hused]
    exact finalFlush_conserved_iff first hq hs (prefix_refl _) (iff_of_true rfl hnone) hlt hfd₁
      hflush houts h
  | closed used last hused hlast hfd₁ hle hsent =>
    rw [finalFlush_closed hfd₁] at hflush
    cases hflush
    rw [hused, houts]
    exact iff_of_true (conserved_of_closed hq h hfd₁ hsent) (lossless_of_closes hlast)
  | flushFailed used written hused hs hfd₁ hwritten hlength =>
    rw [nil_append] at hwritten hlength
    have hne : written ≠ batch := fun heq => Nat.lt_irrefl _ (heq ▸ hlength)
    rcases Nat.lt_or_ge c.flushed c.total with hlt | hge
    · have hused' : st.outs = used ++ [.write .enobufs, .flush false] ++ st₁.outs := by
        rw [hused]; simp
      rw [hused']
      exact finalFlush_conserved_iff first hq hs hwritten
        (iff_of_false hne (by simp)) hlt hfd₁ hflush houts h
    · obtain rfl := hskip (Nat.not_lt.2 hge)
      have hnot := not_conserved_of_open hq h hfd₁
        (by rw [hs.sent_eq hwritten, length_take]; have := hs.flushed_le; omega)
      rw [hused, houts]
      exact iff_of_false hnot not_lossless_full
  | hungUp used o ho written hused hs hfd₁ hflushed hwritten hlength =>
    rw [nil_append] at hwritten hlength
    obtain rfl := hskip (by omega)
    have hnot := not_conserved_of_open hq h hfd₁
      (by rw [hs.sent_eq hwritten, length_take]; have := hs.flushed_le; omega)
    rw [hused, houts]
    exact iff_of_false hnot (not_lossless_hangup ho)

theorem batchOf_map_some : ∀ l : List Text, batchOf (l.map some) = l
  | [] => rfl
  | m :: l => by rw [map_cons, batchOf, batchOf_map_some l]

/-- Nothing that is taken out is conserved when nothing is done. -/
theorem conserved_nil (hq : r.squeue.Represents rest) (hdropped : r.dropped = dropped)
    (hsent : (replay r.ops).1 = []) (hfreed : r.freed = []) : Conserved [] rest dropped r :=
  ⟨[], [], by simp [hsent], hq, hdropped, by simp [hsent, hfreed]⟩

end

/-- How a call of `server_queuesend` goes. -/
inductive SendPath (conn : ServerConn) (bsize : Nat) (squeue : Queue Text) (dropped : Nat)
    (outs : List SendOutcome) (r : SendResult) : Prop
  /-- The connection is not ready, and the queue is left alone. -/
  | unready (hready : ¬ (0 < conn.fd ∧ outs.head? = some (.poll .ready)))
      (houts : outs = [] ∨ ∃ o, outs = [.poll o]) (hops : r.ops = [] ∨ r.ops = [.close])
      (hmetrics : r.conn.metrics = conn.metrics) (hsqueue : r.squeue = squeue)
      (hdropped : r.dropped = dropped) (hfreed : r.freed = [])
      (hhead : outs.head? ≠ some (.poll .ready)) (hret : r.ret = -1)
  /-- There is nothing in the queue. -/
  | empty (squeue' : Queue Text) (hfd : 0 < conn.fd) (houts : outs = [.poll .ready])
      (hvector : queueDequeueVector squeue bsize = some (squeue', []))
      (hr : r = { ret := 0, conn, squeue := squeue', dropped, ops := [], freed := [] })
  /-- A batch is taken out. -/
  | batch (squeue' : Queue Text) (vector : List (Option Text)) (outs' : List SendOutcome)
      (c : SendCounts) (st₁ st₂ : SendState) (hfd : 0 < conn.fd)
        (houts : outs = .poll .ready :: outs')
      (hvector : queueDequeueVector squeue bsize = some (squeue', vector)) (hne : vector ≠ [])
      (hloop : sendLoop (batchOf vector) ⟨0, 0, 0⟩ ⟨{ conn with alive := true }, outs', []⟩ =
        some (c, st₁))
      (hflush : finalFlush c st₁ = some st₂) (hnil : st₂.outs = [])
      (hfinish : finishBatch vector.length (batchOf vector) c st₂ squeue' dropped = some r)

/-- The part of a call behind the first poll. -/
theorem sendBatch_path {conn : ServerConn} {bsize dropped : Nat} {squeue : Queue Text}
    {r : SendResult} (hfd : 0 < conn.fd)
    (h : sendBatch bsize squeue dropped ⟨conn, outs, []⟩ = some r) :
    SendPath conn bsize squeue dropped (.poll .ready :: outs) r := by
  obtain ⟨⟨squeue', vector⟩, hvector, h⟩ := bind_eq_some_iff.1 h
  dsimp only at h
  split at h
  case isTrue hne =>
    obtain ⟨⟨c, st₁⟩, hloop, h⟩ := bind_eq_some_iff.1 h
    obtain ⟨st₂, hflush, h⟩ := bind_eq_some_iff.1 h
    split at h
    case isFalse => cases h
    case isTrue hnil =>
      exact .batch squeue' vector outs c st₁ st₂ hfd rfl hvector hne hloop hflush hnil h
  case isFalse hvec =>
    split at h
    case isFalse => cases h
    case isTrue houts =>
      cases h
      cases not_not.1 hvec
      exact .empty squeue' hfd (by rw [show outs = [] from houts]) hvector rfl

theorem serverQueuesend_path {conn : ServerConn} {bsize dropped : Nat} {squeue : Queue Text}
    {r : SendResult} (h : serverQueuesend conn bsize squeue dropped outs = some r) :
    SendPath conn bsize squeue dropped outs r := by
  obtain ⟨⟨ok, st⟩, hpoll, hrest⟩ := bind_eq_some_iff.1 h
  have hunready : ok = false → (st.outs = [] → outs = [] ∨ ∃ o, outs = [.poll o] ∧ o ≠ .ready) →
      st.ops = [] ∨ st.ops = [.close] → st.conn.metrics = conn.metrics →
      SendPath conn bsize squeue dropped outs r := by
    rintro rfl houts hops hmetrics
    simp only [Bool.false_eq_true, if_false] at hrest
    split at hrest
    case isFalse => cases hrest
    case isTrue hnil =>
      cases hrest
      have hhead : outs.head? ≠ some (.poll .ready) := by
        rcases houts hnil with rfl | ⟨o, rfl, ho⟩
        · simp
        · simpa using ho
      exact .unready (fun hready => hhead hready.2)
        ((houts hnil).imp_right (Exists.imp fun _ ho => ho.1)) hops hmetrics rfl rfl rfl hhead rfl
  by_cases hfd : 0 < conn.fd
  · obtain ⟨o, houts, hcase⟩ := serverPoll_eq_some (by exact hfd) hpoll
    obtain rfl : outs = .poll o :: st.outs := houts
    rcases hcase with ⟨rfl, rfl, hconn, hops⟩ | ⟨hok, hne, hmetrics, hops⟩
    · obtain ⟨_, _, _⟩ := st
      cases hconn
      cases hops
      exact sendBatch_path hfd hrest
    · exact hunready hok (fun hnil =>
        .inr ⟨o, by rw [hnil], hne⟩) (hops.imp And.right And.right) hmetrics
  · rw [serverPoll, if_neg (by exact hfd)] at hpoll
    cases hpoll
    exact hunready rfl .inl (.inl rfl) rfl

/-- The metrics that a call takes out of a queue with the entries `xs`: none if the first poll does
not find the connection ready. -/
def dequeued (conn : ServerConn) (bsize : Nat) (outs : List SendOutcome) (xs : List Text) :
    List Text :=
  if 0 < conn.fd ∧ outs.head? = some (.poll .ready) then xs.take bsize else []

theorem drop_length_take {α : Type*} (l : List α) (n : Nat) :
    l.drop (l.take n).length = l.drop n := by
  rw [length_take]
  rcases Nat.le_total n l.length with hle | hle
  · rw [Nat.min_eq_left hle]
  · rw [Nat.min_eq_right hle, drop_length, drop_of_length_le hle]

/-- A call of `server_queuesend` conserves the metrics it takes out of the queue exactly when its
outcomes are lossless. -/
theorem conserved_iff_lossless (conn : ServerConn) (bsize : Nat) (squeue : Queue Text)
    (xs : List Text) (hq : squeue.Represents xs) (dropped : Nat) (outs : List SendOutcome)
    (r : SendResult) (h : serverQueuesend conn bsize squeue dropped outs = some r) :
    Conserved (dequeued conn bsize outs xs) (xs.drop (dequeued conn bsize outs xs).length)
      dropped r ↔ Lossless outs := by
  cases serverQueuesend_path h with
  | unready hready houts hops _ hsqueue hdropped hfreed =>
    have hsent : (replay r.ops).1 = [] := by rcases hops with hops | hops <;> rw [hops] <;> rfl
    have hlossless : Lossless outs := by rcases houts with rfl | ⟨o, rfl⟩ <;> trivial
    rw [dequeued, if_neg hready]
    exact iff_of_true (conserved_nil (hsqueue ▸ hq) hdropped hsent hfreed) hlossless
  | empty squeue' hfd houts hvector hr =>
    obtain ⟨hnil, hq'⟩ := hq.of_dequeueVector hvector
    subst houts hr
    rw [dequeued, if_pos ⟨hfd, rfl⟩, drop_length_take, map_eq_nil_iff.1 hnil.symm]
    exact iff_of_true (conserved_nil hq' rfl rfl rfl) trivial
  | batch squeue' vector outs' c st₁ st₂ hfd houts hvector hne hloop hflush hnil hfinish =>
    obtain ⟨rfl, hq'⟩ := hq.of_dequeueVector hvector
    subst houts
    rw [batchOf_map_some] at hloop hfinish
    rw [dequeued, if_pos ⟨hfd, rfl⟩, drop_length_take]
    exact sendLoop_conserved_iff _ hq'
      (fun h => hne (by rw [h]; rfl)) hfd rfl rfl hloop hflush hnil hfinish

/-- A batch of one metric that is written and flushed. -/
theorem conserved_flushed : ∃ r,
    serverQueuesend ⟨4, false, 0, 0⟩ 1 ⟨[some ['a'], none], 2, 1, 0, 1⟩ 0
      [.poll .ready, .write .written, .poll .ready, .flush true] = some r ∧
        Conserved [['a']] [] 0 r := by
  have hq : Queue.Represents ⟨[some ['a'], none], 2, 1, 0, 1⟩ [['a']] := by
    obtain ⟨q, hq, -, hrep⟩ := (Queue.represents_queueNew (by decide : 0 < 2)).enqueue ['a']
    cases hq
    exact hrep
  exact Machine.exists_some rfl fun r hr =>
    (conserved_iff_lossless _ _ _ _ hq _ _ r hr).2 (by simp [Lossless])

/-- A peer that hangs up before the last flush: the metric is freed, without having gone out, being
put back or being counted. -/
theorem hangup_loses_metric : ∃ r,
    serverQueuesend ⟨4, false, 0, 0⟩ 1 ⟨[some ['a'], none], 2, 1, 0, 1⟩ 0
      [.poll .ready, .write .written, .poll .hangup] = some r ∧
    r.freed = [['a']] ∧ (replay r.ops).1 = [] ∧ r.squeue.entries = [] ∧ r.dropped = 0 := by
  refine ⟨_, rfl, rfl, rfl, rfl, rfl⟩

end CarbonRelay
