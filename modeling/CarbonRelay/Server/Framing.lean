import CarbonRelay.Server.Conservation
import CarbonRelay.Server.Stream
import Mathlib.Data.List.Infix

/-!
# The bytes on a plain connection

What a plain socket accepts should be a prefix of what was written to the stream, each byte once. A
flush that gives up after the socket accepted some bytes keeps its whole buffer, so that these bytes
are sent again by the next flush on the connection. That is all that can go wrong (`framed_iff`): a
connection is in one of three states (`FrameState`), and only a flush that sends something behind
one that gave up leads to the last of them, from which there is no way back.
-/

namespace CarbonRelay

open List

/-! ## What a log says -/

/-- The bytes that were written to the stream. -/
def writtenBytes (log : List StrmLog) : List Octet :=
  log.flatMap fun
    | .written bytes => bytes
    | _ => []

/-- The bytes that the socket accepted. -/
def sentBytes (log : List StrmLog) : List Octet :=
  log.flatMap fun
    | .flushed _ _ sent => sent
    | _ => []

/-- A flush failed after the socket had accepted some bytes. -/
def StrmLog.gaveUp : StrmLog → Bool
  | .flushed _ false (_ :: _) => true
  | _ => false

/-- No byte was accepted. -/
def StrmLog.idle : StrmLog → Bool
  | .flushed _ _ (_ :: _) => false
  | _ => true

/-- The socket accepted a prefix of what was written, each byte once. -/
def Framed (log : List StrmLog) : Prop := sentBytes log <+: writtenBytes log

/-- Behind a flush that gave up, no byte was accepted on the connection. -/
def GivesUpLast (log : List StrmLog) : Prop :=
  log.Pairwise fun a b => a.gaveUp = true → b.idle = true

instance (log : List StrmLog) : Decidable (Framed log) := inferInstanceAs (Decidable (_ <+: _))

instance (log : List StrmLog) : Decidable (GivesUpLast log) :=
  inferInstanceAs (Decidable (List.Pairwise _ _))

section
variable {log log' : List StrmLog} {l : StrmLog}

theorem writtenBytes_append : writtenBytes (log ++ log') = writtenBytes log ++ writtenBytes log' :=
  flatMap_append

theorem sentBytes_append : sentBytes (log ++ log') = sentBytes log ++ sentBytes log' :=
  flatMap_append

@[simp] theorem writtenBytes_written (os : List Octet) :
    writtenBytes (log ++ [.written os]) = writtenBytes log ++ os := by
  rw [writtenBytes_append]
  exact congrArg _ (append_nil os)

@[simp] theorem writtenBytes_flushed (conn : Nat) (ok : Bool) (os : List Octet) :
    writtenBytes (log ++ [.flushed conn ok os]) = writtenBytes log := by
  rw [writtenBytes_append]
  exact append_nil _

@[simp] theorem sentBytes_written (os : List Octet) :
    sentBytes (log ++ [.written os]) = sentBytes log := by
  rw [sentBytes_append]
  exact append_nil _

@[simp] theorem sentBytes_flushed (conn : Nat) (ok : Bool) (os : List Octet) :
    sentBytes (log ++ [.flushed conn ok os]) = sentBytes log ++ os := by
  rw [sentBytes_append]
  exact congrArg _ (append_nil os)

theorem givesUpLast_concat : GivesUpLast (log ++ [l]) ↔
    GivesUpLast log ∧ ((∃ a ∈ log, a.gaveUp = true) → l.idle = true) := by
  rw [GivesUpLast, pairwise_append, ← GivesUpLast]
  simp only [pairwise_singleton, mem_singleton, forall_eq, true_and, forall_exists_index, and_imp]

/-! ## Flushes -/

/-- A flush sends its whole buffer, or gives up somewhere in front of its end. -/
theorem flushLoop_cases {cnt : Nat} {p sent : List Octet} {sys sys' : List SysOut} {ok : Bool}
    (hp : p ≠ []) (h : flushLoop cnt p sys = some (ok, sent, sys')) :
    (ok = true ∧ sent = p) ∨ (ok = false ∧ ∃ b rest, p = sent ++ b :: rest) := by
  fun_induction flushLoop cnt p sys generalizing ok sent sys' with
  | case1 p sys =>
    cases h
    obtain ⟨b, rest, rfl⟩ := exists_cons_of_ne_nil hp
    exact .inr ⟨rfl, b, rest, rfl⟩
  | case2 => cases h; exact .inl ⟨rfl, rfl⟩
  | case3 => cases h
  | case4 cnt p n sys _ hlt ok₁ sent₁ sys₁ hloop ih =>
    cases h
    have hdrop : p.drop n ≠ [] := by
      rw [← length_pos_iff, length_drop]
      omega
    rcases ih hdrop hloop with ⟨rfl, rfl⟩ | ⟨rfl, b, rest, hrest⟩
    · exact .inl ⟨rfl, take_append_drop n p⟩
    · refine .inr ⟨rfl, b, rest, ?_⟩
      rw [append_assoc, ← hrest, take_append_drop]
  | case5 => cases h
  | case6 cnt p sys ih => exact ih hp h
  | case7 =>
    cases h
    obtain ⟨b, rest, rfl⟩ := exists_cons_of_ne_nil hp
    exact .inr ⟨rfl, b, rest, rfl⟩
  | case8 => cases h

/-- What a flush of a socket stream does. -/
theorem sockflush_cases {o : Obuf} {sys : List SysOut} {r : Flushed Obuf}
    (h : sockflush o sys = some r) : (r.ok = true ∧ r.sent = o.bytes ∧ r.strm = o.reset) ∨
      (r.ok = false ∧ r.strm = o ∧ ∃ b rest, o.bytes = r.sent ++ b :: rest) := by
  rw [sockflush] at h
  split at h
  case isTrue hnil =>
    cases h
    refine .inl ⟨rfl, hnil.symm, ?_⟩
    rw [Obuf.reset, ← hnil]
  case isFalse hne =>
    split at h
    case h_1 => cases h
    case h_2 sent sys₁ hloop =>
      cases h
      rcases flushLoop_cases hne hloop with ⟨-, rfl⟩ | ⟨hok, -⟩
      · exact .inl ⟨rfl, rfl, rfl⟩
      · cases hok
    case h_3 sent sys₁ hloop =>
      cases h
      rcases flushLoop_cases hne hloop with ⟨hok, -⟩ | ⟨-, hsent⟩
      · cases hok
      · exact .inr ⟨rfl, rfl, hsent⟩

/-! ## The states of a connection -/

/-- The bytes in the buffer and those of the log: what was written is sent or buffered; or a flush
gave up, so that the front of the buffer is sent too; or something was sent again. -/
inductive FrameState (log : List StrmLog) (bytes : List Octet) : Prop
  | clean (hlog : ∀ l ∈ log, l.gaveUp = false)
    (hwritten : writtenBytes log = sentBytes log ++ bytes)
  | stuck (done sent : List Octet) (first next : Octet) (rest : List Octet)
      (hsent : sentBytes log = done ++ first :: sent)
        (hbytes : bytes = first :: sent ++ next :: rest)
      (hwritten : writtenBytes log = done ++ bytes) (hgave : ∃ l ∈ log, l.gaveUp = true)
      (hlast : GivesUpLast log)
  | broken (hsent : ¬ sentBytes log <+: writtenBytes log)
    (hwritten : ¬ writtenBytes log <+: sentBytes log)
      (hlast : ¬ GivesUpLast log)

variable {bytes : List Octet}

/-- In every state, the log is framed exactly if no byte was accepted behind a flush that gave up.
-/
theorem FrameState.framed_iff_givesUpLast (h : FrameState log bytes) :
    Framed log ↔ GivesUpLast log := by
  cases h with
  | clean hlog hwritten =>
    refine iff_of_true ⟨bytes, hwritten.symm⟩ ?_
    refine pairwise_of_forall_mem_list fun a ha b _ hgave => ?_
    rw [hlog a ha] at hgave
    cases hgave
  | stuck done sent first next rest hsent hbytes hwritten _ hlast =>
    refine iff_of_true ⟨next :: rest, ?_⟩ hlast
    rw [hwritten, hsent, hbytes, append_assoc]
  | broken hsent _ hlast => exact iff_of_false hsent hlast

/-- Two lists neither of which is a prefix of the other stay so when something is appended. -/
theorem not_prefix_append {α : Type*} {l m : List α} (hl : ¬ l <+: m) (hm : ¬ m <+: l)
    (x y : List α) : ¬ l ++ x <+: m ++ y := fun h =>
  (List.prefix_or_prefix_of_prefix ((prefix_append l x).trans h)
    (prefix_append m y)).elim hl hm

/-- From a broken state there is no way back. -/
theorem FrameState.broken_append (hsent : ¬ sentBytes log <+: writtenBytes log)
    (hwritten : ¬ writtenBytes log <+: sentBytes log) (hlast : ¬ GivesUpLast log) (l : StrmLog)
    (bytes : List Octet) : FrameState (log ++ [l]) bytes := by
  refine .broken ?_ ?_ fun h => hlast (givesUpLast_concat.1 h).1
  · rw [sentBytes_append, writtenBytes_append]
    exact not_prefix_append hsent hwritten _ _
  · rw [sentBytes_append, writtenBytes_append]
    exact not_prefix_append hwritten hsent _ _

/-- A metric is written to the stream. -/
theorem FrameState.write (h : FrameState log bytes) (os : List Octet) :
    FrameState (log ++ [.written os]) (bytes ++ os) := by
  cases h with
  | clean hlog hwritten =>
    refine .clean (fun l hl => ?_) (by simp [hwritten])
    rcases mem_append.1 hl with hl | hl
    · exact hlog l hl
    · cases mem_singleton.1 hl
      rfl
  | stuck done sent first next rest hsent hbytes hwritten hgave hlast =>
    refine .stuck done sent first next (rest ++ os) (by simp [hsent]) (by simp [hbytes])
      (by simp [hwritten]) ?_ ?_
    · obtain ⟨l, hl, hgave⟩ := hgave
      exact ⟨l, mem_append_left _ hl, hgave⟩
    · exact givesUpLast_concat.2 ⟨hlast, fun _ => rfl⟩
  | broken hsent hwritten hlast => exact .broken_append hsent hwritten hlast _ _

/-- Two lists that differ behind a common front. -/
theorem not_prefix_of_ne {α : Type*} {a b : α} (hne : a ≠ b) (l x y : List α) :
    ¬ l ++ a :: x <+: l ++ b :: y := fun h =>
  hne (cons_prefix_cons.1 ((prefix_append_right_inj l).1 h)).1

/-- A flush, which sends the whole buffer, or gives up in front of its end and keeps it. -/
theorem FrameState.flush (h : FrameState log bytes) (hnodup : (writtenBytes log).Nodup) (conn : Nat)
    {ok : Bool} {os bytes' : List Octet} (hflush : (ok = true ∧ os = bytes ∧ bytes' = []) ∨
      (ok = false ∧ bytes' = bytes ∧ ∃ b rest, bytes = os ++ b :: rest)) :
    FrameState (log ++ [.flushed conn ok os]) bytes' := by
  cases h with
  | clean hlog hwritten =>
    have hclean (hgave : (StrmLog.flushed conn ok os).gaveUp = false)
        (heq : writtenBytes log = sentBytes log ++ os ++ bytes') :
        FrameState (log ++ [.flushed conn ok os]) bytes' := by
      refine .clean (fun l hl => ?_) (by simp [heq])
      rcases mem_append.1 hl with hl | hl
      · exact hlog l hl
      · rw [mem_singleton.1 hl, hgave]
    rcases hflush with ⟨rfl, rfl, rfl⟩ | ⟨rfl, rfl, b, rest, hrest⟩
    · exact hclean rfl (by rw [hwritten, append_nil])
    · cases os with
      | nil => exact hclean rfl (by rw [hwritten, append_nil])
      | cons o os =>
        refine .stuck (sentBytes log) os o b rest (by simp) hrest (by simp [hwritten])
          ⟨_, mem_append_right _ mem_cons_self, rfl⟩ (givesUpLast_concat.2 ⟨?_, ?_⟩)
        · exact (FrameState.clean hlog hwritten).framed_iff_givesUpLast.1 ⟨bytes', hwritten.symm⟩
        · rintro ⟨l, hl, hgave⟩
          rw [hlog l hl] at hgave
          cases hgave
  | stuck done sent first next rest hsent hbytes hwritten hgave hlast =>
    cases os with
    | nil =>
      rcases hflush with ⟨-, rfl, -⟩ | ⟨rfl, rfl, -⟩
      · cases hbytes
      · refine .stuck done sent first next rest (by simp [hsent]) hbytes
          (by simp [hwritten]) ?_ (givesUpLast_concat.2 ⟨hlast, fun _ => rfl⟩)
        obtain ⟨l, hl, hgave⟩ := hgave
        exact ⟨l, mem_append_left _ hl, hgave⟩
    | cons o os =>
      have hfirst : o = first := by
        rcases hflush with ⟨-, heq, -⟩ | ⟨-, -, b, rest', hrest⟩
        · exact (cons.inj (heq.trans hbytes)).1
        · exact (cons.inj (hrest.symm.trans hbytes)).1
      have hne : first ≠ next := by
        rw [hwritten, hbytes] at hnodup
        exact (nodup_append.1 (nodup_append.1 hnodup).2.1).2.2 first mem_cons_self
          next mem_cons_self
      have hsent' : sentBytes (log ++ [.flushed conn ok (o :: os)]) =
          (done ++ first :: sent) ++ first :: os := by rw [sentBytes_flushed, hsent, hfirst]
      have hwritten' : writtenBytes (log ++ [.flushed conn ok (o :: os)]) =
          (done ++ first :: sent) ++ next :: rest := by
        rw [writtenBytes_flushed, hwritten, hbytes, append_assoc]
      refine .broken ?_ ?_ fun h => ?_
      · rw [hsent', hwritten']
        exact not_prefix_of_ne hne _ _ _
      · rw [hsent', hwritten']
        exact not_prefix_of_ne hne.symm _ _ _
      · cases (givesUpLast_concat.1 h).2 hgave
  | broken hsent hwritten hlast => exact .broken_append hsent hwritten hlast _ _

/-! ## Numbers of bytes -/

/-- The bytes written to the stream are numbered in their order, below the next number. -/
structure Numbered (log : List StrmLog) (count : Nat) : Prop where
  ascending : (writtenBytes log).Pairwise fun a b => a.pos < b.pos
  lt : ∀ o ∈ writtenBytes log, o.pos < count

variable {count : Nat}

theorem Numbered.nodup (h : Numbered log count) : (writtenBytes log).Nodup :=
  h.ascending.imp fun hlt heq => hlt.ne (congrArg Octet.pos heq)

theorem mem_octets {conn n : Nat} {buf : Text} {o : Octet} (h : o ∈ octets conn n buf) :
    o.conn = conn ∧ n ≤ o.pos ∧ o.pos < n + buf.length := by
  obtain ⟨⟨c, i⟩, hmem, rfl⟩ := mem_map.1 h
  obtain ⟨hle, hlt, -⟩ := mem_zipIdx hmem
  exact ⟨rfl, hle, hlt⟩

theorem length_octets (conn n : Nat) (buf : Text) : (octets conn n buf).length = buf.length := by
  rw [octets, length_map, length_zipIdx]

theorem octets_ascending (conn n : Nat) (buf : Text) :
    (octets conn n buf).Pairwise fun a b => a.pos < b.pos := by
  induction buf generalizing n with
  | nil => exact .nil
  | cons c buf ih =>
    refine pairwise_cons.2 ⟨fun o ho => ?_, ih (n + 1)⟩
    exact (mem_octets ho).2.1

theorem Numbered.write (h : Numbered log count) (conn : Nat) (m : Text) :
    Numbered (log ++ [.written (octets conn count m)]) (count + m.length) := by
  constructor
  · rw [writtenBytes_written, pairwise_append]
    refine ⟨h.ascending, octets_ascending conn count m, fun a ha b hb => ?_⟩
    exact (h.lt a ha).trans_le (mem_octets hb).2.1
  · intro o ho
    rw [writtenBytes_written] at ho
    rcases mem_append.1 ho with ho | ho
    · exact Nat.lt_add_right _ (h.lt o ho)
    · exact (mem_octets ho).2.2

theorem Numbered.flush (h : Numbered log count) (conn : Nat) (ok : Bool) (os : List Octet) :
    Numbered (log ++ [.flushed conn ok os]) count := by
  constructor
  · rw [writtenBytes_flushed]
    exact h.ascending
  · rw [writtenBytes_flushed]
    exact h.lt

end

/-! ## Calls on a plain stream -/

/-- What is known of a plain stream, while its connection is open. -/
structure StrmFramed (log : List StrmLog) (s : Strm) : Prop where
  plain : s.codec = none
  numbered : Numbered log s.top.count
  state : FrameState log s.top.bytes

section
variable {log l : List StrmLog} {s s' : Strm} {conn : Nat}

theorem StrmFramed.step (h : StrmFramed log s) {e : StrmEvent} (he : e ≠ .reset)
    (hstep : zStrmStep conn s e = some (s', l)) : StrmFramed (log ++ l) s' := by
  cases e with
  | reset => exact absurd rfl he
  | write m ok =>
    rcases zStrmStep_write hstep with ⟨rfl, rfl⟩ | ⟨rfl, rfl⟩
    · exact ⟨h.plain, h.numbered.write conn m, h.state.write _⟩
    · rwa [append_nil]
  | flush ok sys =>
    obtain ⟨sent, hflush, rfl⟩ := zStrmStep_flush hstep
    rw [strmflush, h.plain] at hflush
    obtain ⟨r, hr, hmk⟩ := Option.map_eq_some_iff.1 hflush
    obtain ⟨rfl, rfl, rfl, -⟩ := Flushed.mk.inj hmk
    have hcases : (r.ok = true ∧ r.sent = s.top.bytes ∧ r.strm.bytes = []) ∨
        (r.ok = false ∧ r.strm.bytes = s.top.bytes ∧ ∃ b rest,
          s.top.bytes = r.sent ++ b :: rest) := by
      rcases sockflush_cases hr with ⟨hok, hsent, hstrm⟩ | ⟨hok, hstrm, hsent⟩
      · exact .inl ⟨hok, hsent, by rw [hstrm, Obuf.reset]⟩
      · exact .inr ⟨hok, by rw [hstrm], hsent⟩
    have hcount : r.strm.count = s.top.count := by
      rcases sockflush_cases hr with ⟨-, -, hstrm⟩ | ⟨-, hstrm, -⟩ <;> rw [hstrm]
      rfl
    refine ⟨rfl, ?_, h.state.flush h.numbered.nodup conn hcases⟩
    show Numbered _ r.strm.count
    rw [hcount]
    exact h.numbered.flush conn r.ok r.sent

variable {evs : List StrmEvent}

theorem StrmFramed.run (h : StrmFramed log s) {ls : List (List StrmLog)}
    (hevs : ∀ e ∈ evs, e ≠ .reset) (hrun : Machine.run (zStrmStep conn) s evs = some (s', ls)) :
    StrmFramed (log ++ ls.flatten) s' :=
  Machine.run_trace_invariant (fun _ _ _ _ _ he h hstep => h.step he hstep) hevs h hrun

/-- The calls of `server_queuesend` on the stream are writes and flushes. -/
theorem callEvents_ne_reset {batch : List Text} {outs : List SendOutcome}
    {flushes : List (List SysOut)}
    (h : callEvents batch outs flushes = some evs) : ∀ e ∈ evs, e ≠ .reset := by
  fun_induction callEvents batch outs flushes generalizing evs with
  | case1 => cases h; exact nofun
  | case2 _ _ _ _ ih => exact ih h
  | case3 _ _ _ _ ih | case4 _ _ _ _ ih | case5 _ _ _ _ _ ih =>
    obtain ⟨evs', h', rfl⟩ := Option.map_eq_some_iff.1 h
    exact forall_mem_cons.2 ⟨by rintro ⟨⟩, ih h'⟩
  | case6 => cases h

/-! ## Connections -/

/-- A closed connection sends nothing. -/
theorem serverQueuesend_closed {conn : ServerConn} {bsize dropped : Nat} {squeue : Queue Text}
    {outs : List SendOutcome} {r : SendResult} (hfd : conn.fd ≤ 0)
    (h : serverQueuesend conn bsize squeue dropped outs = some r) :
    outs = [] ∧ r.conn = conn ∧ r.ops = [] := by
  rw [serverQueuesend, serverPoll, if_neg (by simpa using hfd)] at h
  simp only [Option.bind_eq_bind, Option.bind_some, Bool.false_eq_true, if_false] at h
  split at h
  case isTrue houts => cases h; exact ⟨houts, rfl, rfl⟩
  case isFalse => cases h

theorem callEvents_nil {batch : List Text} {flushes : List (List SysOut)}
    (h : callEvents batch [] flushes = some evs) : evs = [] := by
  cases flushes with
  | nil => cases h; rfl
  | cons => cases h

/-- What is known of a plain connection after the log of all steps since it was made. -/
structure ConnFramed (log : List StrmLog) (c : StrmConn) : Prop where
  framed_iff : Framed log ↔ GivesUpLast log
  opened : 0 ≤ c.conn.fd → StrmFramed log c.strm

variable {c c' : StrmConn}

theorem StrmFramed.connFramed (h : StrmFramed log c.strm) : ConnFramed log c :=
  ⟨h.state.framed_iff_givesUpLast, fun _ => h⟩

/-- Closing a connection. -/
theorem serverDisconnect_closed (conn : ServerConn) :
    (serverDisconnect ⟨conn, [], []⟩).conn.fd < 0 := by
  rw [serverDisconnect_fd]
  decide

theorem ConnFramed.queuesend (h : ConnFramed log c) {call : SendCall}
    (hsend : strmQueuesend c call = some (c', l)) : ConnFramed (log ++ l) c' := by
  obtain ⟨r, evs, strm, logs, hr, hevs, hrun, rfl, rfl⟩ := strmQueuesend_eq_some.1 hsend
  obtain ⟨strm₁, ls, ls', hrun₁, hrun₂, rfl⟩ := Machine.run_append_eq_some.1 hrun
  by_cases hfd : 0 < c.conn.fd
  · have hstrm := (h.opened hfd.le).run (callEvents_ne_reset hevs) hrun₁
    split at hrun₂
    case isTrue hclosed =>
      cases hrun₂
      refine ⟨?_, fun hopen => absurd hopen (not_le.2 hclosed.1)⟩
      rw [flatten_append]
      simpa using hstrm.state.framed_iff_givesUpLast
    case isFalse =>
      cases hrun₂
      rw [append_nil]
      exact hstrm.connFramed (c := ⟨r.conn, strm, c.gen⟩)
  · obtain ⟨houts, hconn, hops⟩ := serverQueuesend_closed (not_lt.1 hfd) hr
    rw [houts] at hevs
    cases callEvents_nil hevs
    rw [hops, if_neg fun hreset => not_mem_nil hreset.2] at hrun₂
    cases hrun₁
    cases hrun₂
    rw [hconn, append_nil, flatten_nil, append_nil]
    exact h

theorem ConnFramed.lastFlush (h : ConnFramed log c) {ok : Bool} {sys : List SysOut}
    (hstep : connStep c (.lastFlush ok sys) = some (c', l)) : ConnFramed (log ++ l) c' := by
  rw [connStep] at hstep
  split at hstep
  case isFalse => cases hstep; rwa [append_nil]
  case isTrue hopen =>
    split at hstep
    case h_1 => cases hstep
    case h_2 strm logs hflush =>
      cases hstep
      refine ⟨((h.opened hopen).step
        (by rintro ⟨⟩) hflush).state.framed_iff_givesUpLast, fun hfd => ?_⟩
      exact absurd hfd (not_le.2 (serverDisconnect_closed c.conn))

/-- Every step on a connection that is not a new connection. -/
theorem ConnFramed.step (h : ConnFramed log c) {a : ConnStep} (ha : ∀ o, a ≠ .connect o)
    (hstep : connStep c a = some (c', l)) : ConnFramed (log ++ l) c' := by
  cases a with
  | connect o => exact absurd rfl (ha o)
  | queuesend call => exact h.queuesend hstep
  | disconnect =>
    cases hstep
    rw [append_nil]
    exact ⟨h.framed_iff, fun hfd => absurd hfd (not_le.2 (serverDisconnect_closed c.conn))⟩
  | lastFlush ok sys => exact h.lastFlush hstep

end

/-! ## Short writes -/

/-- A queue of two metrics. -/
def twoMetrics (m₁ m₂ : Text) : Queue Text :=
  { queue := [some m₁, some m₂], size := 2, write := 0, read := 0, len := 2 }

/-- A batch of two metrics, the second of which does not fit in the buffer behind the first. The
socket accepts one byte and then fails, both in the flush that makes room and in the one at the end.
-/
def resendCall (m₁ m₂ : Text) : SendCall where
  bsize := 2
  squeue := twoMetrics m₁ m₂
  dropped := 0
  outs := [.poll .ready, .write .written, .write .enobufs, .flush false, .poll .ready, .flush false]
  flushes := [[.write (.wrote 1), .write .error], [.write (.wrote 1), .write .error]]

theorem flushLoop_one {o : Octet} {p : List Octet} (hp : p ≠ []) :
    flushLoop serverMaxSend (o :: p) [.write (.wrote 1), .write .error] =
      some (false, [o], []) := by
  have hlen : 1 < (o :: p).length := by
    rw [length_cons]
    have := length_pos_iff.2 hp
    omega
  rw [serverMaxSend, flushLoop, if_neg hlen.ne, if_pos hlen]
  rfl

/-- A flush of a plain stream whose first byte is accepted only. -/
theorem zStrmStep_one {s : Strm} {conn : Nat} {o : Octet} {p : List Octet} (hplain : s.codec = none)
    (hbytes : s.top.bytes = o :: p) (hp : p ≠ []) :
    zStrmStep conn s (.flush false [.write (.wrote 1), .write .error]) =
      some (s, [.flushed conn false [o]]) := by
  obtain ⟨codec, ⟨bytes, count⟩, next⟩ := s
  cases hplain
  cases hbytes
  simp [zStrmStep, strmflush, sockflush, flushLoop_one hp]

theorem run_resend (a : Char) {m₁ : Text} (m₂ : Text) (h₁ : m₁ ≠ [])
    (hfits : m₁.length < metricBufsiz) (hfull : metricBufsiz < (a :: m₁).length + m₂.length) :
    ∃ c, Machine.run connStep (serverConnect (newConn none) (.connected 5)).1
      [.queuesend (resendCall (a :: m₁) m₂)] = some (c, [[.written (octets 1 0 (a :: m₁)),
        .flushed 1 false [⟨1, 0, a⟩], .flushed 1 false [⟨1, 0, a⟩]]]) := by
  have hr : serverQueuesend ⟨5, false, 0, 0⟩ 2 (twoMetrics (a :: m₁) m₂) 0
      (resendCall (a :: m₁) m₂).outs = some
        { ret := -1
          conn := ⟨-1, true, 1, 0⟩
          squeue := twoMetrics m₂ (a :: m₁)
          dropped := 0
          ops := [.write (a :: m₁), .flush false, .flush false, .close, .reset]
          freed := [] } := rfl
  have hevs : callEvents (resendCall (a :: m₁) m₂).batch (resendCall (a :: m₁) m₂).outs
      (resendCall (a :: m₁) m₂).flushes = some [.write (a :: m₁) true, .write m₂ false,
        .flush false [.write (.wrote 1), .write .error],
        .flush false [.write (.wrote 1), .write .error]] := rfl
  have hne : octets 1 1 m₁ ≠ [] := by
    rw [← length_pos_iff, length_octets, length_pos_iff]
    exact h₁
  have hwrite : zStrmStep 1 (newConn none).strm (.write (a :: m₁) true) =
      some (⟨none, ⟨octets 1 0 (a :: m₁), 0 + (a :: m₁).length⟩, ⟨[], 0⟩⟩,
        [.written (octets 1 0 (a :: m₁))]) :=
    zStrmStep_write_fits (by rw [length_cons]; exact Nat.zero_add _ ▸ hfits)
  have hfull' : zStrmStep 1 ⟨none, ⟨octets 1 0 (a :: m₁), 0 + (a :: m₁).length⟩, ⟨[], 0⟩⟩
      (.write m₂ false) =
        some (⟨none, ⟨octets 1 0 (a :: m₁), 0 + (a :: m₁).length⟩, ⟨[], 0⟩⟩, []) :=
    zStrmStep_write_full (by rw [length_octets]; exact hfull)
  have hflush : zStrmStep 1 ⟨none, ⟨octets 1 0 (a :: m₁), 0 + (a :: m₁).length⟩, ⟨[], 0⟩⟩
      (.flush false [.write (.wrote 1), .write .error]) =
        some (⟨none, ⟨octets 1 0 (a :: m₁), 0 + (a :: m₁).length⟩, ⟨[], 0⟩⟩,
          [.flushed 1 false [⟨1, 0, a⟩]]) :=
    zStrmStep_one rfl rfl hne
  have hrun : Machine.run (zStrmStep 1) (newConn none).strm
      ([.write (a :: m₁) true, .write m₂ false, .flush false [.write (.wrote 1), .write .error],
        .flush false [.write (.wrote 1), .write .error]] ++ [.reset]) =
      some (⟨none, ⟨[], 0 + (a :: m₁).length⟩, ⟨[], 0⟩⟩, [[.written (octets 1 0 (a :: m₁))], [],
        [.flushed 1 false [⟨1, 0, a⟩]], [.flushed 1 false [⟨1, 0, a⟩]], []]) := by
    simp only [cons_append, nil_append, Machine.run, hwrite, hfull', hflush]
    rfl
  refine ⟨⟨⟨-1, true, 1, 0⟩, ⟨none, ⟨[], 0 + (a :: m₁).length⟩, ⟨[], 0⟩⟩, 1⟩, ?_⟩
  refine Machine.run_cons_eq_some.2 ⟨_, _, [], ?_, rfl, rfl⟩
  rw [connStep]
  have hreset : (-1 : Int) < 0 ∧ StrmOp.reset ∈
      [.write (a :: m₁), .flush false, .flush false, .close, .reset] := ⟨by decide, by simp⟩
  rw [← if_pos hreset (α := List StrmEvent) (t := [.reset]) (e := [])] at hrun
  exact strmQueuesend_eq_some.2 ⟨_, _, _, _, hr, hevs, hrun, rfl, rfl⟩

/-- On a plain connection, from the moment `server_connect` made it, the socket accepts a prefix of
what is written to the stream, each byte once, exactly if no byte is accepted behind a flush that
gave up after some bytes were. -/
theorem framed_iff {c₀ c₁ c : StrmConn} {fd : Int} {l : List StrmLog} {steps : List ConnStep}
    {log : List (List StrmLog)} (hplain : c₀.strm.codec = none)
    (hconnect : serverConnect c₀ (.connected fd) = (c₁, l))
    (hsteps : ∀ a ∈ steps, ∀ o, a ≠ .connect o)
    (hrun : Machine.run connStep c₁ steps = some (c, log)) :
    Framed log.flatten ↔ GivesUpLast log.flatten := by
  cases hconnect
  have hstart : StrmFramed [] { c₀.strm with top := c₀.strm.top.reset } := by
    refine ⟨hplain, ⟨.nil, nofun⟩, .clean ?_ rfl⟩
    exact nofun
  have hok : ConnFramed ([] ++ log.flatten) c :=
    Machine.run_trace_invariant (fun _ _ _ _ _ ha h hstep => h.step ha hstep) hsteps
      (hstart.connFramed (c := ⟨{ c₀.conn with fd }, _, c₀.gen + 1⟩)) hrun
  exact hok.framed_iff

/-- A metric of one byte that the socket takes at the second try. -/
theorem framed_iff_retried :
    ∃ c log, Machine.run connStep (serverConnect (newConn none) (.connected 5)).1
        [.queuesend ⟨1, { queue := [some ['a']], size := 1, write := 0, read := 0, len := 1 }, 0,
          [.poll .ready, .write .written, .poll .ready, .flush true],
          [[.write .again, .write (.wrote 1)]]⟩] = some (c, log) ∧
      (Framed log.flatten ↔ GivesUpLast log.flatten) := by
  have hconnect : serverConnect (newConn none) (.connected 5) =
      ((serverConnect (newConn none) (.connected 5)).1, [.connected 1 []]) := rfl
  refine Machine.exists_of_isSome
    (by decide +kernel) fun c log hrun => framed_iff rfl hconnect ?_ hrun
  intro a ha o
  cases mem_singleton.1 ha
  exact ConnStep.noConfusion

/-- After a short write the flush gives up, and the next one starts over: the first byte of the
batch is accepted twice. -/
theorem short_write_resent :
    ∃ c log, Machine.run connStep (serverConnect (newConn none) (.connected 5)).1
        [.queuesend (resendCall ('a' :: List.replicate 19999 'a') (List.replicate 20000 'b'))] =
          some (c, log) ∧ sentBytes log.flatten = [⟨1, 0, 'a'⟩, ⟨1, 0, 'a'⟩] ∧
            ¬ Framed log.flatten := by
  have hlen : (List.replicate 19999 'a').length = 19999 := length_replicate
  obtain ⟨c, hrun⟩ := run_resend 'a' (List.replicate 20000 'b')
    (ne_nil_of_length_pos (l := List.replicate 19999 'a') (by rw [hlen]; decide))
    (by rw [hlen]; decide) (by rw [length_cons, hlen, length_replicate]; decide)
  refine ⟨c, _, hrun, rfl, fun hframed => ?_⟩
  have hnumbered : Numbered [] 0 := ⟨.nil, nofun⟩
  have hnodup := (((hnumbered.write 1 ('a' :: List.replicate 19999 'a')).flush 1 false
    [⟨1, 0, 'a'⟩]).flush 1 false [⟨1, 0, 'a'⟩]).nodup
  have hsent : List.Nodup [(⟨1, 0, 'a'⟩ : Octet), ⟨1, 0, 'a'⟩] := hnodup.sublist hframed.sublist
  exact absurd hsent (by decide)

end CarbonRelay
