import CarbonRelay.Server.Calls
import CarbonRelay.Server.Conservation

/-!
# Connections that idle

A reader counts the calls of `server_queueread` that found nothing to send, and closes its
connection when they are more than `DISCONNECT_WAIT_TIME`. The call gets a pointer to the counter
and advances it by `*idle++` (`server.c:1182`, `server.c:1198`), which moves the pointer. So the
counter stays what it is, 0, and no connection is ever closed for being idle (`idle_closes_iff`);
and a call that goes on from there to send for a secondary writes its `*idle = 0` to the byte behind
the counter.
-/

namespace CarbonRelay

/-! ## A call -/

/-- A call that moves the pointer and then gets to the end: the connection is open, the queue is
empty, there is something to do for a secondary, and the connection is still open or made again. -/
def WritesBehind (P : Pool) (self n : Nat) (shutdown : KeepRunning) (idle : Nat) (io : ReadIO) :
    Prop :=
  let s := P.servers self
  ¬LeavesToOthers P self ∧ queueFree (P.queueOf self) = queueSize (P.queueOf self) ∧
    nothingToDo P self shutdown = false ∧ s.ctype = .tcp ∧ 0 ≤ (s.conns n).fd ∧
    (idle ≤ disconnectWaitTime ∨ (readerConnect (s.conns n) io.connect).2 = true)

section
variable {P : Pool} {self n qfree : Nat}

theorem readerConnect_snd (c c' : ServerConn) (o : ConnectOutcome) :
    (readerConnect c o).2 = (readerConnect c' o).2 := by
  cases o <;> rfl

variable {st : ReadState} {q : Queueread}

/-- The end of a call: the counter is reset, or the byte behind it. -/
theorem sendAll_idle {sends : List (List SendOutcome)}
    (h : sendAll self n qfree sends st = some q) : q.ret < 0 ∧ q.idle = st.idle ∧ q.stray = false ∨
      q.idle = (if st.moved = 0 then 0 else st.idle) ∧ q.stray = decide (st.moved ≠ 0) := by
  rw [sendAll] at h
  split at h
  case h_1 => cases h
  case h_2 P₁ len sends₁ hown =>
    split at h
    case isTrue =>
      split at h
      case isFalse => cases h
      case isTrue =>
        cases h
        exact .inl ⟨show (-1 : Int) < 0 by decide, rfl, rfl⟩
    case isFalse =>
      dsimp only at h
      split at h
      case h_2 => cases h
      case h_1 =>
        cases h
        exact .inr ⟨rfl, rfl⟩

/-- With an empty queue, the part behind the connect always gets to the end. -/
theorem sendAll_idle_of_empty {sends : List (List SendOutcome)}
    (hempty : queueSize (st.pool.queueOf self) ≤ qfree)
    (h : sendAll self n qfree sends st = some q) :
    q.idle = (if st.moved = 0 then 0 else st.idle) ∧ q.stray = decide (st.moved ≠ 0) := by
  unfold sendAll sendOwn at h
  rw [if_neg (not_lt.2 hempty)] at h
  dsimp only at h
  rw [if_neg (Int.lt_irrefl 0)] at h
  split at h
  case h_2 => cases h
  case h_1 =>
    cases h
    exact ⟨rfl, rfl⟩

variable {io : ReadIO}

theorem connectAndSend_idle_of_still
    (hmoved : st.moved = 0) (h : connectAndSend self n qfree io st = some q) :
    (0 < q.ret → q.idle = 0) ∧ q.stray = false := by
  have hall : ∀ {st' : ReadState}, st'.moved = 0 → sendAll self n qfree io.sends st' = some q →
      (0 < q.ret → q.idle = 0) ∧ q.stray = false := by
    intro st' hmoved' h'
    rcases sendAll_idle h' with ⟨hret, -, hstray⟩ | ⟨hidle, hstray⟩
    · exact ⟨fun hpos => absurd hpos (by omega), hstray⟩
    · rw [hmoved'] at hidle hstray
      exact ⟨fun _ => hidle, hstray⟩
  rw [connectAndSend] at h
  dsimp only at h
  split at h
  case isFalse => exact hall hmoved h
  case isTrue =>
    split at h
    case isTrue => exact hall (by exact hmoved) h
    case isFalse =>
      split at h
      case isFalse => cases h
      case isTrue =>
        cases h
        exact ⟨fun hpos => absurd hpos (show ¬(0 : Int) < -1 by decide), rfl⟩

theorem connectAndSend_stray (hmoved : st.moved ≠ 0)
    (hempty : queueSize (st.pool.queueOf self) ≤ qfree)
    (h : connectAndSend self n qfree io st = some q) :
    (q.stray = true ↔ 0 ≤ ((st.pool.servers self).conns n).fd ∨
      (readerConnect ((st.pool.servers self).conns n) io.connect).2 = true) ∧
      (q.stray = false → q.ret < 0) := by
  rw [connectAndSend] at h
  dsimp only at h
  split at h
  case isFalse hopen =>
    obtain ⟨-, hstray⟩ := sendAll_idle_of_empty hempty h
    rw [hstray, decide_eq_true hmoved]
    exact ⟨iff_of_true rfl (.inl (not_lt.1 hopen)), by simp⟩
  case isTrue hclosed =>
    split at h
    case isTrue hconn =>
      have hqueue : (st.pool.setConn self n
          (readerConnect ((st.pool.servers self).conns n) io.connect).1).queueOf self =
          st.pool.queueOf self := by
        rw [Pool.queueOf, Pool.setConn, Pool.setServer]
        dsimp only
        rw [Function.update_self]
        rfl
      obtain ⟨-, hstray⟩ := sendAll_idle_of_empty (by dsimp only; rw [hqueue]; exact hempty) h
      rw [hstray, decide_eq_true hmoved]
      exact ⟨iff_of_true rfl (.inr hconn), by simp⟩
    case isFalse hconn =>
      split at h
      case isFalse => cases h
      case isTrue =>
        cases h
        refine ⟨iff_of_false (fun h => by cases h) ?_, fun _ => show (-1 : Int) < 0 by decide⟩
        rintro (hopen | hconn')
        · exact absurd hopen (not_le.2 hclosed)
        · exact hconn hconn'

/-- What the lines for an idle connection do. -/
theorem closeIdle_cases (self n : Nat) (st : ReadState) :
    (¬((st.pool.servers self).ctype = .tcp ∧ 0 ≤ ((st.pool.servers self).conns n).fd) ∧
      closeIdle self n st = st) ∨
    ((st.pool.servers self).ctype = .tcp ∧ 0 ≤ ((st.pool.servers self).conns n).fd) ∧
      (closeIdle self n st).moved = st.moved + 1 ∧ (closeIdle self n st).idle = st.idle ∧
      (closeIdle self n st).pool = if disconnectWaitTime < st.idle then
        st.pool.setConn self n { (st.pool.servers self).conns n with fd := -1 } else st.pool := by
  rw [closeIdle]
  dsimp only
  split
  case isFalse hnot => exact .inl ⟨hnot, rfl⟩
  case isTrue hopen =>
    refine .inr ⟨hopen, ?_⟩
    have hne : ((st.pool.servers self).conns n).fd ≠ -1 := by
      have := hopen.2
      omega
    split
    · refine ⟨rfl, rfl, ?_⟩
      dsimp only
      rw [serverDisconnect, if_pos hne]
    · exact ⟨rfl, rfl, rfl⟩

/-- A call resets the counter when it has sent something, and writes nowhere else, exactly if it
does not go on behind the moved pointer. -/
theorem serverQueueread_idle_iff {shutdown : KeepRunning} {idle : Nat}
    (h : serverQueueread self n shutdown idle io P = some q) :
    ((0 < q.ret → q.idle = 0) ∧ q.stray = false) ↔ ¬WritesBehind P self n shutdown idle io := by
  have hzero : ¬(0 : Int) < 0 := by decide
  obtain ⟨t, ht⟩ := exists_throttled_eq P self
  rw [serverQueueread_eq] at h
  dsimp only at h
  split at h
  case isTrue hleaves =>
    cases h
    exact iff_of_true ⟨fun hpos => absurd hpos hzero, rfl⟩ fun hw => hw.1 hleaves
  case isFalse hleaves =>
    split at h
    case isFalse hempty =>
      exact iff_of_true (connectAndSend_idle_of_still rfl h) fun hw => hempty hw.2.1
    case isTrue hempty =>
      split at h
      case isTrue hnothing =>
        cases h
        refine iff_of_true ⟨fun hpos => absurd hpos hzero, rfl⟩ fun hw => ?_
        rw [hw.2.2.1] at hnothing
        cases hnothing
      case isFalse hnothing =>
        rcases closeIdle_cases self n ⟨throttled P self, idle, 0⟩ with
          ⟨hnot, hsame⟩ | ⟨hopen, hmoved, -, hpool⟩
        · rw [hsame] at h
          dsimp only at hnot
          rw [ht] at hnot
          exact iff_of_true (connectAndSend_idle_of_still rfl h) fun hw =>
            hnot ⟨hw.2.2.2.1, hw.2.2.2.2.1⟩
        · obtain ⟨hstray, hret⟩ := connectAndSend_stray (by rw [hmoved]; exact Nat.succ_ne_zero _)
            (by rw [closeIdle_queueOf]; exact hempty.ge) h
          dsimp only at hopen hpool
          rw [ht] at hopen
          have hwrites : q.stray = true ↔ WritesBehind P self n shutdown idle io := by
            have hall : WritesBehind P self n shutdown idle io ↔ idle ≤ disconnectWaitTime ∨
                (readerConnect ((P.servers self).conns n) io.connect).2 = true :=
              ⟨fun hw => hw.2.2.2.2.2,
                fun hor => ⟨hleaves, hempty, Bool.eq_false_iff.2 hnothing, hopen.1, hopen.2, hor⟩⟩
            rw [hstray, hpool, hall]
            by_cases hlong : disconnectWaitTime < idle
            · rw [if_pos hlong, Pool.setConn_conns, or_iff_right neg_one_not_nonneg,
                or_iff_right (not_le.2 hlong),
                readerConnect_snd]
            · rw [if_neg hlong, ht]
              exact iff_of_true (.inl hopen.2) (.inl (not_lt.1 hlong))
          rw [← hwrites, Bool.not_eq_true]
          exact ⟨And.right, fun hfalse =>
            ⟨fun hpos => absurd hpos (by have := hret hfalse; omega), hfalse⟩⟩

end

/-! ## Runs -/

/-- The reader of connection `n` of server `i` is in its loop, and the server is one for TCP,
without secondaries, that is not told to stop. -/
structure Reading (i n : Nat) (S : Readers) : Prop where
  running : (S.reader i n).running = true
  ctype : (S.pool.servers i).ctype = .tcp
  alone : (S.pool.servers i).secondaries = []
  keepRunning : (S.pool.servers i).keepRunning = .keepRunning

/-- The step is a pass of this reader. -/
def OwnPass (i n : Nat) : ReadersStep → Prop
  | .pass j m _ => j = i ∧ m = n
  | _ => False

instance decidableOwnPass (i n : Nat) : DecidablePred (OwnPass i n)
  | .pass j m _ => inferInstanceAs (Decidable (j = i ∧ m = n))
  | .enter .. | .enqueue .. | .shutdown .. => inferInstanceAs (Decidable False)

/-- The passes of this reader find the queue empty; between them, anything may happen but that the
reader is started anew or told to stop. -/
def Idles (i n : Nat) (S : Readers) : ReadersStep → Prop
  | .pass j m _ => j = i ∧ m = n →
      queueFree (S.pool.queueOf i) = queueSize (S.pool.queueOf i)
  | .enter j m _ => ¬(j = i ∧ m = n)
  | .enqueue .. => True
  | .shutdown j _ => j ≠ i

instance decidableIdles (i n : Nat) (S : Readers) : DecidablePred (Idles i n S)
  | .pass j m _ => inferInstanceAs (Decidable (j = i ∧ m = n →
      queueFree (S.pool.queueOf i) = queueSize (S.pool.queueOf i)))
  | .enter j m _ => inferInstanceAs (Decidable ¬(j = i ∧ m = n))
  | .enqueue .. => inferInstanceAs (Decidable True)
  | .shutdown j _ => inferInstanceAs (Decidable (j ≠ i))

/-- The step is not a pass of this reader that closes the connection for its age. -/
def Young (i n : Nat) (S : Readers) : ReadersStep → Prop
  | .pass j m inp => j = i ∧ m = n → ¬(0 < (S.pool.servers i).ttl ∧
      ((S.pool.servers i).ttl : Int) ≤
        (inp.ended - (readerSees .keepRunning inp.now (S.reader i n)).started) % 2 ^ 64)
  | _ => True

/-- A step that is not one of the reader leaves this alone. -/
structure SameReader (i n : Nat) (S S' : Readers) : Prop where
  reader : S'.reader i n = S.reader i n
  ctype : (S'.pool.servers i).ctype = (S.pool.servers i).ctype
  secondaries : (S'.pool.servers i).secondaries = (S.pool.servers i).secondaries
  keepRunning : (S'.pool.servers i).keepRunning = (S.pool.servers i).keepRunning
  conn : (S'.pool.servers i).conns n = (S.pool.servers i).conns n

section
variable {S S' S'' : Readers} {i j n m : Nat}

theorem SameReader.refl (i n : Nat) (S : Readers) : SameReader i n S S := ⟨rfl, rfl, rfl, rfl, rfl⟩

theorem SameReader.trans (h : SameReader i n S S') (h' : SameReader i n S' S'') :
    SameReader i n S S'' :=
  ⟨h'.reader.trans h.reader, h'.ctype.trans h.ctype, h'.secondaries.trans h.secondaries,
    h'.keepRunning.trans h.keepRunning, h'.conn.trans h.conn⟩

theorem Readers.setReader_self (S : Readers) (i n : Nat) (r : Reader) :
    (S.setReader i n r).reader i n = r := by
  simp [Readers.setReader]

theorem SameReader.setReader (hother : ¬(j = i ∧ m = n)) (r : Reader) :
    SameReader i n S (S.setReader j m r) := by
  refine ⟨?_, rfl, rfl, rfl, rfl⟩
  rw [Readers.setReader]
  dsimp only
  by_cases hj : i = j
  · subst hj
    rw [Function.update_self, Function.update_of_ne fun h => hother ⟨rfl, h.symm⟩]
  · rw [Function.update_of_ne hj]

variable {P : Pool}

theorem SameReader.of_kept (hother : ¬(j = i ∧ m = n)) (h : Kept j m S.pool P) :
    SameReader i n S { S with pool := P } := by
  obtain ⟨c, d, r, hserver, hconns⟩ := h i
  refine ⟨rfl, by rw [hserver], by rw [hserver], by rw [hserver], ?_⟩
  rw [hserver]
  refine hconns n ?_
  by_cases hij : i = j
  · exact .inr fun h => hother ⟨hij.symm, h.symm⟩
  · exact .inl hij

theorem SameReader.throttled (i n j : Nat) (S : Readers) :
    SameReader i n S { S with pool := throttled S.pool j } := by
  by_cases hij : i = j
  · subst hij
    obtain ⟨t, ht⟩ := exists_throttled_eq S.pool i
    exact ⟨rfl, by rw [ht], by rw [ht], by rw [ht], by rw [ht]⟩
  · have hsame : (CarbonRelay.throttled S.pool j).servers i = S.pool.servers i :=
      throttled_servers_ne hij
    exact ⟨rfl, by rw [hsame], by rw [hsame], by rw [hsame], by rw [hsame]⟩

variable {timeout : Int} {es : List ReaderExit}

/-- The pass of another reader. -/
theorem SameReader.readerPass {inp : PassInput}
    (hother : ¬(j = i ∧ m = n)) (h : readerPass timeout j m inp S = some (S', es)) :
    SameReader i n S S' := by
  have hconn : ∀ (T : Readers) (c : ServerConn),
      SameReader i n T { T with pool := T.pool.setConn j m c } :=
    fun T c => .of_kept hother (.setConn j m c T.pool)
  have hleave : ∀ T : Readers, SameReader i n T (leaveLoop j m T) :=
    fun T => (hconn T _).trans (.setReader hother _)
  have hexpired : ∀ T : Readers, SameReader i n T (closeExpired j m inp.ended T) := by
    intro T
    rw [closeExpired]
    split
    · exact (hconn T _).trans (.setReader hother _)
    · exact .refl i n T
  rw [CarbonRelay.readerPass] at h
  dsimp only at h
  split at h
  case isTrue =>
    cases h
    exact hleave S
  case isFalse =>
    split at h
    case h_1 => cases h
    case h_2 q hread =>
      have hcall : ∀ c r, SameReader i n S
          ({ S with pool := q.pool.setConn j m c }.setReader j m r) :=
        fun c r => ((SameReader.throttled i n j S).trans
          (.of_kept hother (serverQueueread_kept hread))).trans
            ((hconn { S with pool := q.pool } c).trans (.setReader hother r))
      split at h
      case isTrue =>
        split at h
        case isTrue =>
          cases h
          exact (hcall _ _).trans (hleave _)
        case isFalse =>
          split at h
          case isTrue =>
            cases h
            exact (hcall _ _).trans (hleave _)
          case isFalse =>
            cases h
            exact hcall _ _
      case isFalse =>
        cases h
        exact (hcall _ _).trans (hexpired _)

/-- A call that finds the queue empty, for a server without secondaries. -/
theorem serverQueueread_of_empty {idle : Nat} {io : ReadIO} {shutdown : KeepRunning}
    (halone : (P.servers i).secondaries = [])
    (hempty : queueFree (P.queueOf i) = queueSize (P.queueOf i)) :
    serverQueueread i n shutdown idle io P =
      some ⟨(closeIdle i n ⟨P, idle, 0⟩).pool, 0, (closeIdle i n ⟨P, idle, 0⟩).idle, false⟩ := by
  have hthrottled : throttled P i = P := if_neg fun h => h halone
  rw [serverQueueread_eq]
  dsimp only
  rw [if_neg (fun h => h.1 halone), if_pos hempty,
    if_pos (by simp [nothingToDo, halone]), hthrottled]

theorem closeIdle_idle (self n : Nat) (st : ReadState) : (closeIdle self n st).idle = st.idle := by
  rcases closeIdle_cases self n st with ⟨-, hsame⟩ | ⟨-, -, hidle, -⟩
  · rw [hsame]
  · exact hidle

/-- The connection stays open unless the counter is above its bound. -/
theorem closeIdle_fd {st : ReadState} (htcp : (st.pool.servers i).ctype = .tcp) :
    0 ≤ (((closeIdle i n st).pool.servers i).conns n).fd ↔
      0 ≤ ((st.pool.servers i).conns n).fd ∧ st.idle ≤ disconnectWaitTime := by
  rcases closeIdle_cases i n st with ⟨hnot, hsame⟩ | ⟨hopen, -, -, hpool⟩
  · have hclosed : ¬0 ≤ ((st.pool.servers i).conns n).fd := fun h => hnot ⟨htcp, h⟩
    rw [hsame]
    exact iff_of_false hclosed fun h => hclosed h.1
  · rw [hpool, and_iff_right hopen.2]
    split
    case isTrue hlong =>
      rw [Pool.setConn_conns]
      exact iff_of_false neg_one_not_nonneg (not_le.2 hlong)
    case isFalse hshort => exact iff_of_true hopen.2 (not_lt.1 hshort)

section
variable (h : Reading i n S)
include h

/-- Connection `n` of server `i` is changed, and the reader stays in its loop. -/
theorem Reading.setConn (hkept : Kept i n S.pool P) {r : Reader}
    (hrunning : r.running = true) : Reading i n ({ S with pool := P }.setReader i n r) := by
  obtain ⟨c, d, q, hserver, -⟩ := hkept i
  have hs : ({ S with pool := P }.setReader i n r).pool.servers i =
      { S.pool.servers i with conns := c, dropped := d, requeue := q } := hserver
  refine ⟨?_, by rw [hs]; exact h.ctype, by rw [hs]; exact h.alone, by rw [hs]; exact h.keepRunning⟩
  rw [Readers.setReader_self]
  exact hrunning

/-- The idle counter stays, and the connection stays open exactly on a condition. -/
structure OpenOn (i n : Nat) (S S' : Readers) (p : Prop) : Prop where
  idle : (S'.reader i n).idle = (S.reader i n).idle
  fd : 0 ≤ ((S'.pool.servers i).conns n).fd ↔ 0 ≤ ((S.pool.servers i).conns n).fd ∧ p

/-- The end of a pass: the connection is closed if it is old. -/
theorem Reading.closeExpired (ended : Int) : Reading i n (closeExpired i n ended S) ∧
    OpenOn i n S (closeExpired i n ended S) (¬(0 < (S.pool.servers i).ttl ∧
      ((S.pool.servers i).ttl : Int) ≤ (ended - (S.reader i n).started) % 2 ^ 64)) := by
  rw [CarbonRelay.closeExpired]
  split
  case isTrue hold =>
    refine ⟨h.setConn (.setConn i n _ S.pool) h.running, ?_, iff_of_false ?_ fun hyoung =>
      hyoung.2 hold⟩
    · rw [Readers.setReader_self]
    · rw [Readers.setReader, Pool.setConn_conns, serverDisconnect_fd]
      exact neg_one_not_nonneg
  case isFalse hyoung => exact ⟨h, rfl, (and_iff_left hyoung).symm⟩

/-- A pass of the reader that finds the queue empty. -/
theorem Reading.ownPass {inp : PassInput}
    (hempty : queueFree (S.pool.queueOf i) = queueSize (S.pool.queueOf i))
    (hpass : readerPass timeout i n inp S = some (S', es)) :
    Reading i n S' ∧ OpenOn i n S S'
      ((S.reader i n).idle ≤ disconnectWaitTime ∧ Young i n S (.pass i n inp)) := by
  have hsees : (readerSees .keepRunning inp.now (S.reader i n)).idle = (S.reader i n).idle ∧
      (readerSees .keepRunning inp.now (S.reader i n)).running = (S.reader i n).running := by
    rw [readerSees]
    split <;> exact ⟨rfl, rfl⟩
  rw [readerPass, h.keepRunning] at hpass
  dsimp only at hpass
  rw [serverQueueread_of_empty h.alone hempty, if_neg (by decide)] at hpass
  dsimp only at hpass
  rw [if_neg (by decide), closeIdle_idle] at hpass
  set r := readerSees .keepRunning inp.now (S.reader i n) with hr
  set st : ReadState := ⟨S.pool, r.idle, 0⟩ with hst
  have hkept : Kept i n S.pool ((closeIdle i n st).pool.setConn i n
      { ((closeIdle i n st).pool.servers i).conns n with alive := decide ((0 : Int) ≠ 0) }) :=
    (Kept.closeIdle i n st).trans (.setConn i n _ _)
  have hreading := h.setConn hkept (r := { r with idle := r.idle }) (hsees.2.trans h.running)
  obtain ⟨hreading', hidle, hfd⟩ := hreading.closeExpired inp.ended
  cases hpass
  refine ⟨hreading', ?_, hfd.trans ?_⟩
  · rw [hidle, Readers.setReader_self]
    exact hsees.1
  · obtain ⟨c, d, q, hserver, -⟩ := hkept i
    have httl : (((closeIdle i n st).pool.setConn i n
        { ((closeIdle i n st).pool.servers i).conns n with
        alive := decide ((0 : Int) ≠ 0) }).servers i).ttl = (S.pool.servers i).ttl := by
      rw [hserver]
    have hopen : 0 ≤ (((closeIdle i n st).pool.servers i).conns n).fd ↔
        0 ≤ ((S.pool.servers i).conns n).fd ∧ (S.reader i n).idle ≤ disconnectWaitTime := by
      rw [← hsees.1]
      exact closeIdle_fd h.ctype
    rw [Readers.setReader_self, Readers.setReader]
    dsimp only
    rw [httl, Pool.setConn_conns, hopen, and_assoc, Young, ← hr]
    simp only [and_self, true_implies]

theorem Reading.congr (hsame : SameReader i n S S') : Reading i n S' :=
  ⟨by rw [hsame.reader]; exact h.running, hsame.ctype.trans h.ctype,
    hsame.secondaries.trans h.alone,
    hsame.keepRunning.trans h.keepRunning⟩

/-- What one step of an idle reader, or between two of its passes, does to the connection. -/
theorem Reading.step {a : ReadersStep}
    (hidles : Idles i n S a) (hstep : readersStep timeout S a = some (S', es)) :
    Reading i n S' ∧ OpenOn i n S S'
      ((OwnPass i n a → (S.reader i n).idle ≤ disconnectWaitTime) ∧ Young i n S a) := by
  have hother : SameReader i n S S' → ¬OwnPass i n a → Young i n S a → Reading i n S' ∧
      OpenOn i n S S'
        ((OwnPass i n a → (S.reader i n).idle ≤ disconnectWaitTime) ∧ Young i n S a) := by
    intro hsame hnot hyoung
    refine ⟨h.congr hsame, by rw [hsame.reader], ?_⟩
    rw [hsame.conn]
    exact ⟨fun hopen => ⟨hopen, fun hown => absurd hown hnot, hyoung⟩, And.left⟩
  cases a with
  | enter j m now =>
    cases hstep
    refine hother ?_ id trivial
    exact (SameReader.of_kept hidles (.setConn j m _ S.pool)).trans (.setReader hidles _)
  | pass j m inp =>
    rw [readersStep] at hstep
    by_cases hown : j = i ∧ m = n
    · obtain ⟨rfl, rfl⟩ := hown
      rw [if_pos h.running] at hstep
      obtain ⟨hreading, hidle, hfd⟩ := h.ownPass (hidles ⟨rfl, rfl⟩) hstep
      refine ⟨hreading, hidle, hfd.trans ?_⟩
      simp [OwnPass]
    · refine hother ?_ hown fun hself => absurd hself hown
      split at hstep
      · exact .readerPass hown hstep
      · cases hstep
        exact .refl i n S
  | enqueue k metric =>
    rw [readersStep] at hstep
    split at hstep
    · cases hstep
    · cases hstep
      exact hother ⟨rfl, rfl, rfl, rfl, rfl⟩ id trivial
  | shutdown j swap =>
    cases hstep
    have hserver : (S.pool.setServer j (serverShutdown swap (S.pool.servers j))).servers i =
        S.pool.servers i := Function.update_of_ne (Ne.symm hidles) _ _
    exact hother ⟨rfl, by rw [hserver], by rw [hserver], by rw [hserver], by rw [hserver]⟩ id
      trivial

/-- A run of an idle reader, with anything between its passes. -/
theorem Reading.run {steps : List ReadersStep} {log : List (List ReaderExit)}
    (hidles : Machine.Along (readersStep timeout) (Idles i n) S steps)
    (hrun : Machine.run (readersStep timeout) S steps = some (S', log)) :
    OpenOn i n S S' (((∃ a ∈ steps, OwnPass i n a) → (S.reader i n).idle ≤ disconnectWaitTime) ∧
      Machine.Along (readersStep timeout) (Young i n) S steps) := by
  induction steps generalizing S log with
  | nil =>
    cases hrun
    exact ⟨rfl, by simp [Machine.Along]⟩
  | cons a steps ih =>
    obtain ⟨S₁, es, log', hstep, hrest, -⟩ := Machine.run_cons_eq_some.1 hrun
    rw [Machine.Along, hstep] at hidles
    obtain ⟨hreading, hidle, hfd⟩ := h.step hidles.1 hstep
    obtain ⟨hidle', hfd'⟩ := ih hreading hidles.2 hrest
    refine ⟨hidle'.trans hidle, ?_⟩
    rw [hfd', hfd, hidle, Machine.Along, hstep, List.exists_mem_cons_iff, or_imp]
    dsimp only
    tauto

end

end

/-- Of a reader with an open connection that finds its queue empty in `DISCONNECT_WAIT_TIME + 2`
calls or more: the counter does not change, and the connection is closed in the end exactly if the
counter was above `DISCONNECT_WAIT_TIME` from the start, or if it was closed for its age. Of every
call: it resets the counter when it has sent something and writes nowhere else exactly if it does
not get to its end behind the moved pointer. -/
theorem idle_closes_iff {timeout : Int} {steps : List ReadersStep} {log : List (List ReaderExit)}
    {S S' : Readers} {i n : Nat} (h : Reading i n S) (hopen : 0 ≤ ((S.pool.servers i).conns n).fd)
    (hidles : Machine.Along (readersStep timeout) (Idles i n) S steps)
    (hcount : disconnectWaitTime + 2 ≤ steps.countP (OwnPass i n))
    (hrun : Machine.run (readersStep timeout) S steps = some (S', log)) :
    (S'.reader i n).idle = (S.reader i n).idle ∧
    (((S'.pool.servers i).conns n).fd < 0 ↔ disconnectWaitTime < (S.reader i n).idle ∨
      ¬Machine.Along (readersStep timeout) (Young i n) S steps) ∧
    ∀ (P : Pool) (self n : Nat) (shutdown : KeepRunning) (idle : Nat) (io : ReadIO) (q : Queueread),
      serverQueueread self n shutdown idle io P = some q →
      (((0 < q.ret → q.idle = 0) ∧ q.stray = false) ↔ ¬WritesBehind P self n shutdown idle io) := by
  obtain ⟨hidle, hfd⟩ := h.run hidles hrun
  refine ⟨hidle, ?_, fun P self n shutdown idle io q hread => serverQueueread_idle_iff hread⟩
  have hpass : ∃ a ∈ steps, OwnPass i n a := by
    have hpos : 0 < steps.countP (OwnPass i n) := by omega
    obtain ⟨a, ha, hown⟩ := List.countP_pos_iff.1 hpos
    exact ⟨a, ha, of_decide_eq_true hown⟩
  rw [← not_le, hfd, and_iff_right hopen, forall_prop_of_true hpass,
    Classical.not_and_iff_not_or_not, not_le]

/-- Readers in their loop, with these secondaries for every server, and connections that may be this
old. -/
def idleReaders (secondaries : List Nat) (ttl : Nat) : Readers where
  pool := ⟨fun _ => { aloneServer with conns := fun _ => ⟨5, true, 0, 0⟩, secondaries, ttl },
    fun _ => queueNew 2⟩
  reader := fun _ _ => ⟨0, .keepRunning, 0, true⟩

/-- A pass in which nothing has to be sent. -/
def idlePass : PassInput := ⟨10, 10, ⟨.connected 5, []⟩⟩

/-- A connection that has become too old is closed. -/
theorem idle_closes_expired : ∃ S' log,
    Machine.run (readersStep 120) (idleReaders [] 5) (List.replicate 14 (.pass 0 0 idlePass)) =
      some (S', log) ∧ ((S'.pool.servers 0).conns 0).fd < 0 := by
  obtain ⟨⟨S', log⟩, hrun⟩ := Option.isSome_iff_exists.1
    (show (Machine.run (readersStep 120) (idleReaders [] 5)
      (List.replicate 14 (.pass 0 0 idlePass))).isSome = true by decide +kernel)
  have hcloses := idle_closes_iff (i := 0) (n := 0) ⟨rfl, rfl, rfl, rfl⟩ (by decide)
    (by decide +kernel) (by decide +kernel) hrun
  refine ⟨S', log, hrun, hcloses.2.1.2 (.inr fun hyoung => ?_)⟩
  rw [List.replicate_succ, Machine.Along] at hyoung
  exact hyoung.1 ⟨rfl, rfl⟩ (by decide)

/-- Fourteen calls that find the queue empty, from when a reader starts: the connection is open as
before. And with secondaries, a call of that kind writes behind the counter. -/
theorem idle_stays_open :
    (∃ S' log, Machine.run (readersStep 120) (idleReaders [] 0)
        (List.replicate 14 (.pass 0 0 idlePass)) = some (S', log) ∧
      Machine.Along (readersStep 120) (Idles 0 0) (idleReaders [] 0)
        (List.replicate 14 (.pass 0 0 idlePass)) ∧
      ((S'.pool.servers 0).conns 0).fd = 5 ∧ (S'.reader 0 0).idle = 0) ∧
    ∃ q, serverQueueread 0 0 .keepRunning 0 ⟨.connected 5, []⟩ (idleReaders [0, 1] 0).pool =
      some q ∧ q.stray = true := by
  refine ⟨?_, _, rfl, rfl⟩
  have hview : (Machine.run (readersStep 120) (idleReaders [] 0)
      (List.replicate 14 (.pass 0 0 idlePass))).map
        (fun r => (((r.1.pool.servers 0).conns 0).fd, (r.1.reader 0 0).idle)) = some (5, 0) := by
    decide +kernel
  obtain ⟨⟨S', log⟩, hrun, hr⟩ := Option.map_eq_some_iff.1 hview
  obtain ⟨hfd, hidle⟩ := Prod.mk.inj hr
  exact ⟨S', log, hrun, by decide +kernel, hfd, hidle⟩

end CarbonRelay
