import CarbonRelay.Lib.Machine
import CarbonRelay.Server.Conservation

/-!
# The counter of the metrics sent

`conns[n].metrics` is to count the metrics that went out with a flush that succeeded. It is
increased where a full buffer is flushed in the middle of a batch, by the metrics that the call has
written since the flush before. The flush at the end of a batch does not increase it, nor does a
flush count the metrics that an earlier call left in the buffer. So the counter never runs ahead,
and it is exact over a run of calls exactly if neither occurs in it (`metrics_exact_iff`); a batch
that is sent without a failure always ends with a flush that is not counted.
-/

namespace CarbonRelay

open List

/-- The metrics that went out, and those in the buffer, after the operations `ops` on a stream with
`buf` in its buffer. -/
def replayFrom (buf : List Text) (ops : List StrmOp) : List Text × List Text :=
  ops.foldl strmStep ([], buf)

theorem replayFrom_concat (buf : List Text) (ops : List StrmOp) (op : StrmOp) :
    replayFrom buf (ops ++ [op]) = strmStep (replayFrom buf ops) op := by
  rw [replayFrom, foldl_append, foldl_cons, foldl_nil, ← replayFrom]

/-- A connection, with the metrics in the buffer of its stream. -/
structure Sender where
  conn : ServerConn
  buf : List Text
  deriving DecidableEq

/-- What is done with a connection: it is made, with an empty buffer, or a batch is sent. -/
inductive SenderStep
  | connect (fd : Int)
  | queuesend (bsize : Nat) (squeue : Queue Text) (dropped : Nat) (outs : List SendOutcome)

/-- A connection as a machine that puts out the metrics that go out. -/
def senderStep (s : Sender) : SenderStep → Option (Sender × List Text)
  | .connect fd => some (if s.conn.fd < 0 then ⟨{ s.conn with fd }, []⟩ else s, [])
  | .queuesend bsize squeue dropped outs =>
    match serverQueuesend s.conn bsize squeue dropped outs with
    | none => none
    | some r => some (⟨r.conn, (replayFrom s.buf r.ops).2⟩, (replayFrom s.buf r.ops).1)

/-- A call counts all it sends: it does not end with a flush that succeeds, and no flush sends what
was in the buffer before it. -/
def CountsAll (s : Sender) : SenderStep → Prop
  | .connect _ => True
  | .queuesend _ _ _ outs =>
    outs.getLast? ≠ some (.flush true) ∧ (s.buf = [] ∨ .flush true ∉ outs)

instance (s : Sender) (a : SenderStep) : Decidable (CountsAll s a) :=
  match a with
  | .connect _ => isTrue trivial
  | .queuesend .. => instDecidableAnd

/-! ## One call -/

/-- The counters of a call that met the outcomes `used` so far, on a stream with `buf` in its
buffer. -/
structure Counted (metrics : Nat) (buf : List Text) (used : List SendOutcome) (c : SendCounts)
    (st : SendState) : Prop where
  metrics_eq : st.conn.metrics = metrics + c.flushed
  total_eq : c.flushed + c.sended = c.total
  sent : (replayFrom buf st.ops).1.length = (if .flush true ∈ used then buf.length else 0) +
    c.flushed
  held : 0 < st.conn.fd → (replayFrom buf st.ops).2.length =
    (if .flush true ∈ used then 0 else buf.length) + c.sended

section
variable {metrics : Nat} {buf : List Text} {used : List SendOutcome} {c : SendCounts}
  {st st' : SendState}

section
variable (h : Counted metrics buf used c st)
include h

/-- A write that the stream accepts. -/
theorem Counted.write (hfd : 0 < st.conn.fd) (m : Text) (outs : List SendOutcome) :
    Counted metrics buf used
      { c with sended := c.sended + 1, total := c.total + 1 } (st.accept m outs) where
  metrics_eq := h.metrics_eq
  total_eq := by rw [← h.total_eq, Nat.add_assoc]
  sent := by
    rw [SendState.accept, replayFrom_concat]
    exact h.sent
  held _ := by
    rw [SendState.accept, replayFrom_concat, strmStep, length_append, h.held hfd, Nat.add_assoc]
    rfl

/-- A flush that succeeds in the middle of a batch. -/
theorem Counted.flush (hfd : 0 < st.conn.fd)
    (outs : List SendOutcome) : Counted metrics buf (used ++ [.flush true])
      { c with flushed := c.flushed + c.sended, sended := 0 }
      { st.flush true outs with
        conn := { st.conn with metrics := st.conn.metrics + c.sended } } where
  metrics_eq := by
    dsimp only
    rw [h.metrics_eq, Nat.add_assoc]
  total_eq := h.total_eq
  sent := by
    have hmem : SendOutcome.flush true ∈ used ++ [.flush true] := by simp
    rw [SendState.flush, replayFrom_concat, strmStep, length_append, h.sent, h.held hfd,
      if_pos hmem]
    dsimp only
    split <;> omega
  held _ := by
    rw [SendState.flush, replayFrom_concat]
    simp [strmStep]

/-- A flush that fails. -/
theorem Counted.flush_failed (hfd : 0 < st.conn.fd)
    (outs : List SendOutcome) : Counted metrics buf used c (st.flush false outs) where
  metrics_eq := h.metrics_eq
  total_eq := h.total_eq
  sent := by
    rw [SendState.flush, replayFrom_concat]
    exact h.sent
  held _ := by
    rw [SendState.flush, replayFrom_concat]
    exact h.held hfd

/-- Nothing is sent, and the connection may be closed. -/
theorem Counted.congr (hmetrics : st'.conn.metrics = st.conn.metrics)
    (hops : 0 < st.conn.fd ∧ st'.ops = st.ops ∨ st'.conn.fd = -1 ∧ st'.ops = st.ops ++ [.close]) :
    Counted metrics buf used c st' where
  metrics_eq := hmetrics.trans h.metrics_eq
  total_eq := h.total_eq
  sent := by
    rcases hops with ⟨-, hops⟩ | ⟨-, hops⟩
    · rw [hops]
      exact h.sent
    · rw [hops, replayFrom_concat]
      exact h.sent
  held hopen := by
    rcases hops with ⟨hfd, hops⟩ | ⟨hfd, -⟩
    · rw [hops]
      exact h.held hfd
    · rw [hfd] at hopen
      cases hopen

theorem Counted.setOuts (outs : List SendOutcome) : Counted metrics buf used c { st with outs } :=
  ⟨h.metrics_eq, h.total_eq, h.sent, h.held⟩

theorem Counted.close (hfd : 0 < st.conn.fd) :
    Counted metrics buf used c (serverDisconnect (serverAddFailure st)) := by
  have hopen : 0 < (serverAddFailure st).conn.fd := by simpa using hfd
  rw [serverDisconnect_of_open hopen]
  exact h.congr (by simp) (.inr ⟨rfl, by simp⟩)

end

/-- The counters of a call that meets the outcomes `outs`, of which `st.outs` are to come. The last
outcome was not a flush that succeeded: such a flush in the middle of a batch is followed by a poll.
-/
def CountedIn (metrics : Nat) (buf : List Text) (outs : List SendOutcome) (c : SendCounts)
    (st : SendState) : Prop :=
  ∃ used, outs = used ++ st.outs ∧ used.getLast? ≠ some (.flush true) ∧
    Counted metrics buf used c st

variable {outs : List SendOutcome}

/-- The last outcome is one that nothing is sent for. -/
theorem Counted.countedIn (h : Counted metrics buf used c st) (o : SendOutcome)
    (ho : o ≠ .flush true)
    (houts : outs = used ++ o :: st.outs) : CountedIn metrics buf outs c st := by
  have hmem : .flush true ∈ used ++ [o] ↔ .flush true ∈ used := by simp [ho.symm]
  refine ⟨used ++ [o], by rw [houts, append_assoc]; rfl, ?_, h.metrics_eq, h.total_eq, ?_, ?_⟩
  · rw [getLast?_concat]
    exact fun heq => ho (Option.some.inj heq)
  · simpa only [hmem] using h.sent
  · simpa only [hmem] using h.held

theorem sendLoop_counted {batch : List Text} : ∀ {c c' : SendCounts}
    {st st' : SendState}, CountedIn metrics buf outs c st → 0 < st.conn.fd →
    sendLoop batch c st = some (c', st') →
      CountedIn metrics buf outs c' st' ∧ (0 < st'.conn.fd ∨ st'.conn.fd = -1) := by
  induction batch with
  | nil =>
    intro c c' st st' h hfd hloop
    cases hloop
    exact ⟨h, .inl hfd⟩
  | cons m batch ih =>
    rintro c c' st st' ⟨used, hused, -, h⟩ hfd hloop
    rw [sendLoop] at hloop
    split at hloop
    · next outs₁ houts =>
      have hwrite : CountedIn metrics buf outs _ (st.accept m outs₁) :=
        (h.write hfd m outs₁).countedIn (.write .written) (by simp) (by rw [hused, houts]; rfl)
      exact ih hwrite hfd hloop
    · next outs₁ houts =>
      obtain ⟨⟨ok, st₁⟩, hpoll, hrest⟩ := Option.bind_eq_some_iff.1 hloop
      obtain ⟨used₁, hused₁, -, hfull⟩ : CountedIn metrics buf outs c
          { st with outs := .flush true :: outs₁ } :=
        (h.setOuts _).countedIn (.write .enobufs) (by simp) (by rw [hused, houts])
      have hflush := hfull.flush hfd outs₁
      obtain ⟨o, houts₁, hcase⟩ := serverPoll_eq_some (by exact hfd) hpoll
      obtain rfl : outs₁ = .poll o :: st₁.outs := houts₁
      have hused₂ : outs = used₁ ++ [.flush true] ++ .poll o :: st₁.outs := by
        rw [hused₁, append_assoc]
        rfl
      rcases hcase with ⟨rfl, rfl, hconn, hops⟩ | ⟨rfl, -, hmetrics, hops⟩
      · have hfd₁ : 0 < st₁.conn.fd := by rw [hconn]; exact hfd
        obtain ⟨used₂, hused₂, -, hpolled⟩ : CountedIn metrics buf outs _ st₁ :=
          (hflush.congr (congrArg ServerConn.metrics hconn) (.inl ⟨hfd, hops⟩)).countedIn
            (.poll .ready) (by simp) hused₂
        simp only [if_true] at hrest
        split at hrest
        · next outs₂ houts₂ =>
          have hwrite : CountedIn metrics buf outs _ (st₁.accept m outs₂) :=
            (hpolled.write hfd₁ m outs₂).countedIn (.write .written)
              (by simp) (by rw [hused₂, houts₂]; rfl)
          exact ih hwrite hfd₁ hrest
        · next o outs₂ _ houts₂ =>
          cases hrest
          exact ⟨((hpolled.setOuts outs₂).close hfd₁).countedIn (.write o) (by simp)
            (by rw [hused₂, houts₂]; simp), .inr (by simp)⟩
        · cases hrest
      · cases hrest
        refine ⟨(hflush.congr hmetrics ?_).countedIn (.poll o)
          (by simp) hused₂, hops.imp And.left And.left⟩
        exact hops.imp (fun hops => ⟨hfd, hops.2⟩) id
    · next outs₁ houts =>
      cases hloop
      obtain ⟨used₁, hused₁, -, hfull⟩ : CountedIn metrics buf outs c
          { st with outs := .flush false :: outs₁ } :=
        (h.setOuts _).countedIn (.write .enobufs) (by simp) (by rw [hused, houts])
      exact ⟨(hfull.flush_failed hfd outs₁).countedIn (.flush false) (by simp) hused₁, .inl hfd⟩
    · next outs₁ houts =>
      cases hloop
      exact ⟨((h.setOuts outs₁).close hfd).countedIn (.write .failed) (by simp)
        (by rw [hused, houts]; simp), .inr (by simp)⟩
    · cases hloop

/-- The flush at the end of a batch sends what is in the buffer, uncounted, or nothing. -/
theorem finalFlush_counted (h : CountedIn metrics buf outs c st)
    (hfd : 0 < st.conn.fd ∨ st.conn.fd = -1) (hflush : finalFlush c st = some st') :
    CountedIn metrics buf outs c st' ∨
      (∃ used, outs = used ++ .flush true :: st'.outs) ∧ c.flushed < c.total ∧
        st'.conn.metrics = metrics + c.flushed ∧
        (replayFrom buf st'.ops).1.length = buf.length + c.total := by
  by_cases hlt : c.flushed < c.total
  swap
  · rw [finalFlush, if_neg hlt] at hflush
    cases hflush
    exact .inl h
  rcases hfd with hfd | hclosed
  swap
  · rw [finalFlush_closed hclosed] at hflush
    cases hflush
    exact .inl h
  obtain ⟨used, hused, -, h⟩ := h
  rw [finalFlush, if_pos hlt] at hflush
  obtain ⟨⟨ok, st₁⟩, hpoll, hflush⟩ := Option.bind_eq_some_iff.1 hflush
  obtain ⟨o, houts, hcase⟩ := serverPoll_eq_some hfd hpoll
  rw [houts] at hused
  rcases hcase with ⟨rfl, rfl, hconn, hops⟩ | ⟨rfl, -, hmetrics, hops⟩
  · have hfd₁ : 0 < st₁.conn.fd := by rw [hconn]; exact hfd
    obtain ⟨used₁, hused₁, -, hpolled⟩ : CountedIn metrics buf outs c st₁ :=
      (h.congr (congrArg ServerConn.metrics hconn) (.inl ⟨hfd, hops⟩)).countedIn (.poll .ready)
        (by simp) hused
    simp only [if_true] at hflush
    split at hflush
    · next outs₁ houts₁ =>
      cases hflush
      refine .inr ⟨⟨used₁, hused₁.trans (by rw [houts₁]; rfl)⟩, hlt, hpolled.metrics_eq, ?_⟩
      have htotal := hpolled.total_eq
      rw [SendState.flush, replayFrom_concat, strmStep, length_append, hpolled.sent,
        hpolled.held hfd₁]
      split <;> omega
    · next outs₁ houts₁ =>
      cases hflush
      have hfailed := (hpolled.flush_failed hfd₁ outs₁).close hfd₁
      exact .inl (hfailed.countedIn (.flush false) (by simp)
        (by rw [hused₁, houts₁]; simp [SendState.flush]))
    · cases hflush
  · cases hflush
    refine .inl ((h.congr hmetrics ?_).countedIn (.poll o) (by simp) hused)
    exact hops.imp (fun hops => ⟨hfd, hops.2⟩) id

end

/-- A step counts at most what it sends, and all of it exactly if `all` holds. -/
def Counts (all : Prop) (s s' : Sender) (sent : List Text) : Prop :=
  s'.conn.metrics ≤ s.conn.metrics + sent.length ∧
    (s'.conn.metrics = s.conn.metrics + sent.length ↔ all)

section
variable {conn : ServerConn} {bsize dropped : Nat} {squeue : Queue Text} {outs : List SendOutcome}
  {r : SendResult} {buf : List Text}

variable {c : SendCounts} {st : SendState}

section
variable (hmetrics : r.conn.metrics = st.conn.metrics)
  (hsent : (replayFrom buf r.ops).1 = (replayFrom buf st.ops).1)
include hmetrics hsent

/-- A call that does not end with a flush leaves only the metrics of earlier calls uncounted. -/
theorem CountedIn.counts (h : CountedIn conn.metrics buf outs c st) (hnil : st.outs = []) :
    Counts (CountsAll ⟨conn, buf⟩ (.queuesend bsize squeue dropped outs)) ⟨conn, buf⟩
      ⟨r.conn, (replayFrom buf r.ops).2⟩ (replayFrom buf r.ops).1 := by
  obtain ⟨used, hused, hlast, h⟩ := h
  rw [hnil, append_nil] at hused
  subst hused
  have hlen := h.sent
  have hcount := h.metrics_eq
  rw [Counts, CountsAll, and_iff_right hlast, hsent]
  dsimp only
  rw [hmetrics, hcount, hlen, ← length_eq_zero_iff]
  split
  case isTrue hmem =>
    exact ⟨by omega, ⟨fun heq => .inl (by omega), fun hor => by
      have := hor.resolve_right (not_not.2 hmem)
      omega⟩⟩
  case isFalse hmem => exact ⟨by omega, iff_of_true (by omega) (.inr hmem)⟩

/-- A call that ends with a flush has not counted what it sent. -/
theorem counts_of_flush (hnil : st.outs = [])
    (houts : ∃ used, outs = used ++ .flush true :: st.outs) (hlt : c.flushed < c.total)
    (hcount : st.conn.metrics = conn.metrics + c.flushed)
    (hlen : (replayFrom buf st.ops).1.length = buf.length + c.total) :
    Counts (CountsAll ⟨conn, buf⟩ (.queuesend bsize squeue dropped outs)) ⟨conn, buf⟩
      ⟨r.conn, (replayFrom buf r.ops).2⟩ (replayFrom buf r.ops).1 := by
  obtain ⟨used, rfl⟩ := houts
  rw [hnil]
  rw [Counts, hsent, hlen]
  dsimp only
  rw [hmetrics, hcount]
  exact ⟨by omega, iff_of_false (by omega) fun hall => hall.1 getLast?_concat⟩

end

/-- The end of a call sends and counts nothing. -/
theorem finishBatch_counts {len : Nat} {batch : List Text}
    (h : finishBatch len batch c st squeue dropped = some r) (buf : List Text) :
    r.conn.metrics = st.conn.metrics ∧ (replayFrom buf r.ops).1 = (replayFrom buf st.ops).1 := by
  rw [finishBatch] at h
  split at h
  case isTrue => cases h; exact ⟨rfl, rfl⟩
  case isFalse =>
    obtain ⟨back, -, h⟩ := Option.bind_eq_some_iff.1 h
    cases h
    exact ⟨rfl, by rw [replayFrom_concat]; rfl⟩

theorem serverQueuesend_counts (h : serverQueuesend conn bsize squeue dropped outs = some r)
    (buf : List Text) : Counts (CountsAll ⟨conn, buf⟩ (.queuesend bsize squeue dropped outs))
      ⟨conn, buf⟩ ⟨r.conn, (replayFrom buf r.ops).2⟩ (replayFrom buf r.ops).1 := by
  cases serverQueuesend_path h with
  | unready _ houts hops hmetrics =>
    have hsent : (replayFrom buf r.ops).1 = [] := by
      rcases hops with hops | hops <;> rw [hops] <;> rfl
    have hall : CountsAll ⟨conn, buf⟩ (.queuesend bsize squeue dropped outs) := by
      rcases houts with rfl | ⟨o, rfl⟩ <;> simp [CountsAll]
    rw [Counts, hsent]
    exact ⟨hmetrics.le, iff_of_true hmetrics hall⟩
  | empty squeue' _ houts _ hr =>
    subst hr houts
    exact ⟨le_refl _, iff_of_true rfl (by simp [CountsAll])⟩
  | batch squeue' vector outs' c st₁ st₂ hfd houts _ _ hloop hflush hnil hfinish =>
    obtain ⟨hmetrics, hsent⟩ := finishBatch_counts hfinish buf
    have hstart : Counted conn.metrics buf [] ⟨0, 0, 0⟩ ⟨{ conn with alive := true }, outs', []⟩ :=
      ⟨rfl, rfl, rfl, fun _ => rfl⟩
    obtain ⟨hcounted, hfd₁⟩ := sendLoop_counted (hstart.countedIn (.poll .ready) nofun houts) hfd
      hloop
    rcases finalFlush_counted hcounted hfd₁ hflush with hcounted | ⟨hlast, hlt, hcount, hlen⟩
    · exact hcounted.counts hmetrics hsent hnil
    · exact counts_of_flush hmetrics hsent hnil hlast hlt hcount hlen

end

/-! ## Runs -/

theorem senderStep_counts {s s' : Sender} {a : SenderStep} {sent : List Text}
    (h : senderStep s a = some (s', sent)) : Counts (CountsAll s a) s s' sent := by
  cases a with
  | connect fd =>
    cases h
    rw [Counts, length_nil]
    split
    · exact ⟨le_refl _, iff_of_true rfl trivial⟩
    · exact ⟨le_refl _, iff_of_true rfl trivial⟩
  | queuesend bsize squeue dropped outs =>
    rw [senderStep] at h
    split at h
    case h_1 => cases h
    case h_2 r hr =>
      cases h
      exact serverQueuesend_counts hr s.buf

/-- Over a run of calls the counter grows by the number of metrics that went out, exactly if every
call counts all it sends. -/
theorem metrics_exact_iff {s s' : Sender} {steps : List SenderStep} {os : List (List Text)}
    (hrun : Machine.run senderStep s steps = some (s', os)) :
    s'.conn.metrics = s.conn.metrics + os.flatten.length ↔
      Machine.Along senderStep CountsAll s steps := by
  refine (Machine.run_along (K := Counts) ?_ ?_ ?_ hrun).2
  · exact fun s => ⟨le_refl _, iff_of_true rfl trivial⟩
  · rintro all all' s₁ s₂ s₃ sent sent' ⟨hle, hiff⟩ ⟨hle', hiff'⟩
    rw [Counts, length_append, ← hiff, ← hiff']
    omega
  · exact fun s a s' sent h => senderStep_counts h

/-- The queue with two metrics that the calls of the examples take out. -/
def queueOfTwo : Queue Text := ⟨[some ['a'], some ['b']], 2, 2, 0, 2⟩

/-- A full buffer is flushed and the connection then times out: the metric that went out is counted.
-/
theorem metrics_exact_timeout : ∃ s', Machine.run senderStep ⟨⟨4, false, 0, 0⟩, []⟩
      [.queuesend 2 queueOfTwo 0
        [.poll .ready, .write .written, .write .enobufs, .flush true, .poll .timeout]] =
        some (s', [[['a']]]) ∧ s'.conn.metrics = 0 + 1 := by
  obtain ⟨s', hrun⟩ : ∃ s', Machine.run senderStep ⟨⟨4, false, 0, 0⟩, []⟩
      [.queuesend 2 queueOfTwo 0
        [.poll .ready, .write .written, .write .enobufs, .flush true, .poll .timeout]] =
        some (s', [[['a']]]) := ⟨_, rfl⟩
  exact ⟨s', hrun, (metrics_exact_iff hrun).2 (by decide)⟩

/-- Two metrics that are written and flushed without a failure are not counted. -/
theorem sent_uncounted : ∃ s', Machine.run senderStep ⟨⟨4, false, 0, 0⟩, []⟩
    [.queuesend 2 queueOfTwo 0
        [.poll .ready, .write .written, .write .written, .poll .ready, .flush true]] =
        some (s', [[['a'], ['b']]]) ∧
    s'.conn.metrics = 0 :=
  ⟨_, rfl, rfl⟩

end CarbonRelay
