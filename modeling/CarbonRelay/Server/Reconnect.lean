import CarbonRelay.Server.Framing

/-!
# Streams after a new connection

A new connection should start with empty buffers, so that no byte of an earlier connection is sent
on it. `server_connect`, like the end of a failed `server_queuesend`, empties the buffer of the
first stream only. Without a compressor that is the only one; behind a compressor, the buffer of the
socket keeps what a failed flush left in it. Whether it does is seen from the outcomes of the
flushes alone: one that fails with output of the compressor leaves it behind, and one that succeeds
sends it (`fresh_iff`).
-/

namespace CarbonRelay

open List

/-- Nothing was buffered when the connection was made; what the socket accepted was written on its
own connection. -/
def StrmLog.Fresh : StrmLog → Prop
  | .written _ => True
  | .flushed conn _ sent => ∀ o ∈ sent, o.conn = conn
  | .connected _ buffered => buffered = []

/-- Every connection of a log started with empty buffers, and none sent a byte of an earlier one. -/
def Fresh (log : List StrmLog) : Prop := ∀ l ∈ log, l.Fresh

/-- When a connection is made, the buffer of the socket behind the compressor is empty. -/
def EmptyBehind (c : StrmConn) : ConnStep → Prop
  | .connect (.connected _) => c.conn.fd < 0 → c.strm.next.bytes = []
  | _ => True

theorem fresh_append {log log' : List StrmLog} : Fresh (log ++ log') ↔ Fresh log ∧ Fresh log' :=
  forall_mem_append

theorem fresh_nil : Fresh [] := nofun

/-! ## The bytes of a connection -/

/-- The bytes in the buffer were written on the connection. -/
def Obuf.Own (conn : Nat) (o : Obuf) : Prop := ∀ b ∈ o.bytes, b.conn = conn

/-- The bytes in both buffers were written on the connection. -/
structure Strm.Own (conn : Nat) (s : Strm) : Prop where
  top : s.top.Own conn
  next : s.next.Own conn

section
variable {conn : Nat} {o o' next next' : Obuf} {s s' : Strm} {sys sys' : List SysOut} {ok : Bool}

theorem Obuf.Own.reset (o : Obuf) : o.reset.Own conn := nofun

theorem Obuf.Own.octets (h : o.Own conn) (buf : Text) :
    Obuf.Own conn ⟨o.bytes ++ octets conn o.count buf, o.count + buf.length⟩ := by
  intro b hb
  rcases mem_append.1 hb with hb | hb
  · exact h b hb
  · exact (mem_octets hb).1

theorem Obuf.Own.sockwrite {buf : Text} (h : o.Own conn) (hwrite : sockwrite conn buf o = some o') :
    o'.Own conn := by
  rw [CarbonRelay.sockwrite] at hwrite
  split at hwrite
  · cases hwrite
  · cases hwrite
    exact h.octets buf

theorem Obuf.Own.gzipDeflate (h : next.Own conn)
    (hdeflate : gzipDeflate conn next sys = some (ok, next', sys')) : next'.Own conn := by
  fun_induction CarbonRelay.gzipDeflate conn next sys with
  | case1 => cases hdeflate; exact h
  | case2 => cases hdeflate; exact h
  | case3 _ _ _ _ hwrite ih => exact ih (h.sockwrite hwrite) hdeflate
  | case4 _ _ _ _ _ hwrite => cases hdeflate; exact h.sockwrite hwrite
  | case5 => cases hdeflate; exact h
  | case6 => cases hdeflate

theorem Obuf.Own.compressBlock (h : next.Own conn)
    (hblock : compressBlock conn next sys = some (ok, next', sys')) : next'.Own conn := by
  unfold CarbonRelay.compressBlock at hblock
  split at hblock
  case h_1 => cases hblock; exact h
  case h_2 =>
    split at hblock
    case h_1 => cases hblock; exact h
    case h_2 next₁ hwrite => cases hblock; exact h.sockwrite hwrite
  case h_3 => cases hblock

theorem Obuf.Own.sockflush {r : Flushed Obuf} (h : o.Own conn) (hflush : sockflush o sys = some r) :
    r.strm.Own conn ∧ ∀ b ∈ r.sent, b.conn = conn := by
  rcases sockflush_cases hflush with ⟨-, hsent, hstrm⟩ | ⟨-, hstrm, b, rest, hbytes⟩
  · rw [hsent, hstrm]
    exact ⟨.reset o, h⟩
  · rw [hstrm]
    refine ⟨h, fun b hb => h b ?_⟩
    rw [hbytes]
    exact mem_append_left _ hb

/-- A flush through a compressor, given what the compressor wrote to the next stream. -/
theorem Strm.Own.flushNext {r : Flushed Strm} {z : Option (Bool × Obuf × List SysOut)}
    (h : s.Own conn) (hz : ∀ ok next sys, z = some (ok, next, sys) → next.Own conn)
    (hflush : flushNext s z = some r) :
    r.strm.Own conn ∧ ∀ b ∈ r.sent, b.conn = conn := by
  unfold CarbonRelay.flushNext at hflush
  split at hflush
  case h_1 => cases hflush
  case h_2 next sys =>
    cases hflush
    exact ⟨⟨h.top, hz false next sys rfl⟩, nofun⟩
  case h_3 next sys =>
    split at hflush
    case h_1 => cases hflush
    case h_2 r₁ hnext =>
      cases hflush
      obtain ⟨hown, hsent⟩ := (hz true next sys rfl).sockflush hnext
      refine ⟨⟨?_, hown⟩, hsent⟩
      show Obuf.Own conn (if r₁.ok then s.top.reset else s.top)
      split
      · exact .reset s.top
      · exact h.top

theorem Strm.Own.strmflush {r : Flushed Strm} (h : s.Own conn)
    (hflush : strmflush conn s sys = some r) : r.strm.Own conn ∧ ∀ b ∈ r.sent, b.conn = conn := by
  have hgzip : ∀ ok next sys', gzipDeflate conn s.next sys = some (ok, next, sys') →
      next.Own conn :=
    fun _ _ _ => h.next.gzipDeflate
  have hblock : ∀ ok next sys', compressBlock conn s.next sys = some (ok, next, sys') →
      next.Own conn :=
    fun _ _ _ => h.next.compressBlock
  rw [CarbonRelay.strmflush] at hflush
  split at hflush
  case h_1 =>
    obtain ⟨r₁, hr₁, rfl⟩ := Option.map_eq_some_iff.1 hflush
    obtain ⟨hown, hsent⟩ := h.top.sockflush hr₁
    exact ⟨⟨hown, h.next⟩, hsent⟩
  case h_2 => exact h.flushNext hgzip hflush
  case h_3 =>
    rw [lzflush] at hflush
    split at hflush
    · cases hflush
      exact ⟨h, fun b hb => absurd hb not_mem_nil⟩
    · exact h.flushNext hblock hflush
  case h_4 => exact h.flushNext hblock hflush

theorem Strm.Own.step {e : StrmEvent} {l : List StrmLog} (h : s.Own conn)
    (hstep : zStrmStep conn s e = some (s', l)) : s'.Own conn ∧ Fresh l := by
  cases e with
  | write m ok =>
    rcases zStrmStep_write hstep with ⟨rfl, rfl⟩ | ⟨rfl, rfl⟩
    · refine ⟨⟨h.top.octets m, h.next⟩, fun l hl => ?_⟩
      cases mem_singleton.1 hl
      trivial
    · exact ⟨h, fresh_nil⟩
  | flush ok sys =>
    obtain ⟨sent, hflush, rfl⟩ := zStrmStep_flush hstep
    obtain ⟨hown, hsent⟩ := h.strmflush hflush
    refine ⟨hown, fun l hl => ?_⟩
    cases mem_singleton.1 hl
    exact hsent
  | reset =>
    cases hstep
    exact ⟨⟨.reset s.top, h.next⟩, fresh_nil⟩

theorem Strm.Own.run {es : List StrmEvent} {ls : List (List StrmLog)} (h : s.Own conn)
    (hrun : Machine.run (zStrmStep conn) s es = some (s', ls)) :
    s'.Own conn ∧ Fresh ls.flatten := by
  have hall := Machine.run_trace_invariant (I := fun log s => s.Own conn ∧ Fresh log)
    (p := fun _ => True) (fun log s e s' l _ hI hstep =>
      ⟨(hI.1.step hstep).1, fresh_append.2 ⟨hI.2, (hI.1.step hstep).2⟩⟩)
    (fun _ _ => trivial) ⟨h, fresh_nil⟩ hrun
  simpa using hall

end

/-! ## Runs of a connection -/

variable {l : List StrmLog}

/-- A step of a connection whose buffers hold only its own bytes. -/
theorem connStep_fresh {c c' : StrmConn} {a : ConnStep}
    (hstep : connStep c a = some (c', l)) (h : c.strm.Own c.gen) :
    (Fresh l ↔ EmptyBehind c a) ∧ (EmptyBehind c a → c'.strm.Own c'.gen) := by
  cases a with
  | connect o =>
    rw [connStep] at hstep
    split at hstep
    case isFalse hopen =>
      cases hstep
      have hempty : EmptyBehind c (.connect o) := by
        cases o with
        | connected fd => exact fun hclosed => absurd hclosed hopen
        | _ => trivial
      exact ⟨iff_of_true fresh_nil hempty, fun _ => h⟩
    case isTrue hclosed =>
      cases o with
      | unreachable counted =>
        cases counted <;> cases hstep <;> exact ⟨iff_of_true fresh_nil trivial, fun _ => h⟩
      | setupFailed =>
        cases hstep
        exact ⟨iff_of_true fresh_nil trivial, fun _ => ⟨.reset _, h.next⟩⟩
      | connected fd =>
        cases hstep
        have hiff : EmptyBehind c (.connect (.connected fd)) ↔ c.strm.next.bytes = [] :=
          ⟨fun hempty => hempty hclosed, fun hnil _ => hnil⟩
        rw [hiff]
        refine ⟨?_, fun hnil => ⟨.reset _, fun b hb => ?_⟩⟩
        · rw [Fresh, forall_mem_singleton]
          exact Iff.rfl
        · rw [show _ = _ from hnil] at hb
          exact absurd hb not_mem_nil
  | queuesend call =>
    obtain ⟨r, evs, strm, logs, -, -, hrun, rfl, rfl⟩ := strmQueuesend_eq_some.1 hstep
    obtain ⟨hown, hfresh⟩ := h.run hrun
    exact ⟨iff_of_true hfresh trivial, fun _ => hown⟩
  | disconnect =>
    cases hstep
    exact ⟨iff_of_true fresh_nil trivial, fun _ => h⟩
  | lastFlush ok sys =>
    rw [connStep] at hstep
    split at hstep
    case isFalse =>
      cases hstep
      exact ⟨iff_of_true fresh_nil trivial, fun _ => h⟩
    case isTrue =>
      split at hstep
      case h_1 => cases hstep
      case h_2 strm logs hflush =>
        cases hstep
        obtain ⟨hown, hfresh⟩ := h.step hflush
        exact ⟨iff_of_true hfresh trivial, fun _ => hown⟩

/-! ## What a flush leaves behind -/

/-- The compressor gave something that fits into the buffer of the socket. -/
def givesOutput (sys : List SysOut) : Bool :=
  sys.any fun
    | .compress (.out buf _) => buf ≠ [] ∧ buf.length ≤ metricBufsiz
    | _ => false

/-- Whether output of the compressor is left behind by a flush with these outcomes. A flush that
makes no call at all changes nothing. -/
def leftBehind (left : Bool) : Bool × List SysOut → Bool
  | (true, sys) => left && sys.isEmpty
  | (false, sys) => left || givesOutput sys

/-- The outcomes of the flushes of a call of `server_queuesend`. -/
def flushOutcomes (outs : List SendOutcome) (flushes : List (List SysOut)) :
    List (Bool × List SysOut) :=
  (outs.filterMap fun
    | .flush ok => some ok
    | _ => none).zip flushes

/-- The outcomes of the flushes of a step. -/
def ConnStep.flushes (c : StrmConn) : ConnStep → List (Bool × List SysOut)
  | .queuesend call => flushOutcomes call.outs call.flushes
  | .lastFlush ok sys => if 0 ≤ c.conn.fd then [(ok, sys)] else []
  | _ => []

/-- A connection, with what the outcomes so far say about output that is left behind. -/
def outcomeStep (s : StrmConn × Bool) (a : ConnStep) : Option ((StrmConn × Bool) × List StrmLog) :=
  (connStep s.1 a).map fun r => ((r.1, (a.flushes s.1).foldl leftBehind s.2), r.2)

/-- A connection is made only where no output of the compressor is left behind. -/
def NothingLeft (s : StrmConn × Bool) : ConnStep → Prop
  | .connect (.connected _) => s.1.conn.fd < 0 → s.2 = false
  | _ => True

instance (s : StrmConn × Bool) : ∀ a, Decidable (NothingLeft s a)
  | .connect (.connected _) => inferInstanceAs (Decidable (s.1.conn.fd < 0 → s.2 = false))
  | .connect (.unreachable _) | .connect .setupFailed | .queuesend _ | .disconnect | .lastFlush _
    _ =>
    isTrue trivial

section
variable {conn : Nat} {o o' next next' : Obuf} {s s' : Strm} {sys sys' : List SysOut}
  {ok left : Bool}

/-- Something is in the buffer of the socket, or comes from the compressor. -/
def Pending (next : Obuf) (sys : List SysOut) : Prop := next.bytes ≠ [] ∨ givesOutput sys = true

theorem pending_nil : Pending next [] ↔ next.bytes ≠ [] := by simp [Pending, givesOutput]

/-- Output that the buffer does not take is too long for it, or is not the first. -/
theorem pending_sockwrite_none {buf : Text} {more : Bool} (h : sockwrite conn buf next = none) :
    Pending next (.compress (.out buf more) :: sys) ↔ Pending next sys := by
  rw [sockwrite] at h
  split at h
  case isFalse => cases h
  case isTrue hfull =>
    by_cases hnil : next.bytes = []
    · have hbuf : ¬ buf.length ≤ metricBufsiz := by
        rw [hnil, length_nil] at hfull
        omega
      simp [Pending, givesOutput, hbuf]
    · exact iff_of_true (.inl hnil) (.inl hnil)

theorem pending_sockwrite {buf : Text} {more : Bool} (h : sockwrite conn buf next = some next') :
    Pending next (.compress (.out buf more) :: sys) ↔ Pending next' sys := by
  rw [sockwrite] at h
  split at h
  case isTrue => cases h
  case isFalse hfull =>
    cases h
    have hbuf : buf.length ≤ metricBufsiz := by omega
    have hoctets : octets conn next.count buf = [] ↔ buf = [] := by
      rw [← length_eq_zero_iff, ← length_eq_zero_iff, octets, length_map, length_zipIdx]
    simp only [Pending, givesOutput, any_cons, hbuf, and_true, Bool.or_eq_true, decide_eq_true_eq,
      ne_eq, append_eq_nil_iff, hoctets, not_and_or, or_assoc]

theorem pending_gzipDeflate (h : gzipDeflate conn next sys = some (ok, next', sys')) :
    Pending next sys ↔ Pending next' sys' := by
  fun_induction gzipDeflate conn next sys with
  | case1 => cases h; simp [Pending, givesOutput]
  | case2 _ _ _ _ hwrite => cases h; exact pending_sockwrite_none hwrite
  | case3 _ _ _ _ hwrite ih => exact (pending_sockwrite hwrite).trans (ih h)
  | case4 _ _ _ _ _ hwrite => cases h; exact pending_sockwrite hwrite
  | case5 => cases h; simp [Pending, givesOutput]
  | case6 => cases h

theorem pending_compressBlock (h : compressBlock conn next sys = some (ok, next', sys')) :
    Pending next sys ↔ Pending next' sys' := by
  unfold compressBlock at h
  split at h
  case h_1 => cases h; simp [Pending, givesOutput]
  case h_2 =>
    split at h
    case h_1 hwrite => cases h; exact pending_sockwrite_none hwrite
    case h_2 hwrite => cases h; exact pending_sockwrite hwrite
  case h_3 => cases h

/-- The socket calls no compressor. -/
theorem givesOutput_flushLoop {cnt : Nat} {p sent : List Octet}
    (h : flushLoop cnt p sys = some (ok, sent, sys')) : givesOutput sys = givesOutput sys' := by
  fun_induction flushLoop cnt p sys generalizing ok sent sys' with
  | case1 => cases h; rfl
  | case2 => cases h; simp [givesOutput]
  | case3 => cases h
  | case4 _ _ _ _ _ _ _ _ _ hloop ih => cases h; simpa [givesOutput] using ih hloop
  | case5 => cases h
  | case6 _ _ _ ih => simpa [givesOutput] using ih h
  | case7 => cases h; simp [givesOutput]
  | case8 => cases h

theorem givesOutput_sockflush {r : Flushed Obuf} (h : sockflush o sys = some r) :
    givesOutput sys = givesOutput r.sys := by
  rw [sockflush] at h
  split at h
  case isTrue => cases h; rfl
  case isFalse =>
    split at h
    case h_1 => cases h
    case h_2 hloop => cases h; exact givesOutput_flushLoop hloop
    case h_3 hloop => cases h; exact givesOutput_flushLoop hloop

/-- The flag tells whether the buffer of the socket behind the compressor is in use, which it never
is without one. -/
structure Strm.Left (left : Bool) (s : Strm) : Prop where
  behind : left = true ↔ s.next.bytes ≠ []
  plain : s.codec = none → left = false

/-- A flush through a compressor, which was called. -/
theorem Strm.Left.flushNext {r : Flushed Strm} {z : Option (Bool × Obuf × List SysOut)}
    (h : s.Left left) (hcodec : s.codec ≠ none) (hcalled : sys ≠ [])
    (hz : ∀ ok next sys', z = some (ok, next, sys') → (Pending s.next sys ↔ Pending next sys'))
    (hflush : flushNext s z = some r) (hsys : r.sys = []) :
    r.strm.Left (leftBehind left (r.ok, sys)) := by
  have hfails : leftBehind left (false, sys) = true ↔ Pending s.next sys := by
    rw [leftBehind, Bool.or_eq_true, h.behind]
    rfl
  unfold CarbonRelay.flushNext at hflush
  split at hflush
  case h_1 => cases hflush
  case h_2 next sys' =>
    cases hflush
    cases hsys
    exact ⟨hfails.trans ((hz _ _ _ rfl).trans pending_nil), fun hnone => absurd hnone hcodec⟩
  case h_3 next sys' =>
    split at hflush
    case h_1 => cases hflush
    case h_2 r₁ hnext =>
      cases hflush
      dsimp only at hsys ⊢
      refine ⟨?_, fun hnone => absurd hnone hcodec⟩
      rcases sockflush_cases hnext with ⟨hok, -, hstrm⟩ | ⟨hok, hstrm, -⟩
      · rw [hok, hstrm]
        simp [leftBehind, hcalled, Obuf.reset]
      · rw [hok, hstrm]
        refine hfails.trans ((hz _ _ _ rfl).trans ?_)
        have hnone : givesOutput sys' = false := by
          rw [givesOutput_sockflush hnext, hsys]
          rfl
        simp [Pending, hnone]

theorem Strm.Left.strmflush {r : Flushed Strm} (h : s.Left left)
    (hflush : strmflush conn s sys = some r) (hsys : r.sys = []) :
    r.strm.Left (leftBehind left (r.ok, sys)) := by
  have hcalled : ∀ {z : List SysOut → Option (Bool × Obuf × List SysOut)}, z [] = none →
      CarbonRelay.flushNext s (z sys) = some r → sys ≠ [] := by
    rintro z hz hsome rfl
    rw [hz] at hsome
    cases hsome
  rw [CarbonRelay.strmflush] at hflush
  split at hflush
  case h_1 hcodec =>
    obtain ⟨r₁, hr₁, rfl⟩ := Option.map_eq_some_iff.1 hflush
    have hleft : leftBehind left (r₁.ok, sys) = left := by
      have hnone : givesOutput sys = false := by
        rw [givesOutput_sockflush hr₁, show r₁.sys = [] from hsys]
        rfl
      rw [h.plain hcodec]
      cases r₁.ok <;> simp [leftBehind, hnone]
    dsimp only
    rw [hleft]
    exact ⟨h.behind, h.plain⟩
  case h_2 hcodec =>
    exact h.flushNext (by simp [hcodec]) (hcalled (z := gzipDeflate conn s.next) rfl hflush)
      (fun _ _ _ => pending_gzipDeflate) hflush hsys
  case h_3 hcodec =>
    rw [lzflush] at hflush
    split at hflush
    · cases hflush
      cases hsys
      rw [leftBehind, isEmpty_nil, Bool.and_true]
      exact h
    · exact h.flushNext (by simp [hcodec]) (hcalled (z := compressBlock conn s.next) rfl hflush)
        (fun _ _ _ => pending_compressBlock) hflush hsys
  case h_4 hcodec =>
    exact h.flushNext (by simp [hcodec]) (hcalled (z := compressBlock conn s.next) rfl hflush)
      (fun _ _ _ => pending_compressBlock) hflush hsys

/-- The outcome of a flush, as the outcomes of a step have it. -/
def StrmEvent.flushOutcome? : StrmEvent → Option (Bool × List SysOut)
  | .flush ok sys => some (ok, sys)
  | _ => none

theorem Strm.Left.run {es : List StrmEvent} {ls : List (List StrmLog)} (h : s.Left left)
    (hrun : Machine.run (zStrmStep conn) s es = some (s', ls)) :
    s'.Left ((es.filterMap StrmEvent.flushOutcome?).foldl leftBehind left) := by
  induction es generalizing s left ls with
  | nil => cases hrun; exact h
  | cons e es ih =>
    obtain ⟨s₁, l, ls, hstep, hrest, -⟩ := Machine.run_cons_eq_some.1 hrun
    cases e with
    | write m ok =>
      refine ih ?_ hrest
      rcases zStrmStep_write hstep with ⟨rfl, -⟩ | ⟨rfl, -⟩
      · exact ⟨h.behind, h.plain⟩
      · exact h
    | flush ok sys =>
      obtain ⟨sent, hflush, -⟩ := zStrmStep_flush hstep
      exact ih (h.strmflush hflush rfl) hrest
    | reset =>
      cases hstep
      exact @ih { s with top := s.top.reset } left ls ⟨h.behind, h.plain⟩ hrest

theorem callEvents_flushes {batch : List Text} {outs : List SendOutcome}
    {flushes : List (List SysOut)}
    {evs : List StrmEvent} (h : callEvents batch outs flushes = some evs) :
    evs.filterMap StrmEvent.flushOutcome? = flushOutcomes outs flushes := by
  fun_induction callEvents batch outs flushes generalizing evs with
  | case1 => cases h; rfl
  | case2 _ _ _ _ ih => exact ih h
  | case3 _ _ _ _ ih | case4 _ _ _ _ ih =>
    obtain ⟨evs', hevs', rfl⟩ := Option.map_eq_some_iff.1 h
    exact @ih evs' hevs'
  | case5 _ _ _ _ _ ih =>
    obtain ⟨evs', hevs', rfl⟩ := Option.map_eq_some_iff.1 h
    exact congrArg _ (ih hevs')
  | case6 => cases h

end

/-- The outcomes of a step tell what it leaves behind. -/
theorem connStep_left {c c' : StrmConn} {a : ConnStep} {left : Bool}
    (hstep : connStep c a = some (c', l)) (h : c.strm.Left left) :
    c'.strm.Left ((a.flushes c).foldl leftBehind left) := by
  cases a with
  | connect o =>
    rw [connStep] at hstep
    split at hstep
    case isFalse => cases hstep; exact h
    case isTrue =>
      cases o with
      | unreachable counted => cases counted <;> cases hstep <;> exact h
      | setupFailed => cases hstep; exact ⟨h.behind, h.plain⟩
      | connected fd => cases hstep; exact ⟨h.behind, h.plain⟩
  | queuesend call =>
    obtain ⟨r, evs, strm, logs, -, hevs, hrun, rfl, -⟩ := strmQueuesend_eq_some.1 hstep
    have hleft := h.run hrun
    have hreset : (if r.conn.fd < 0 ∧ StrmOp.reset ∈ r.ops then [StrmEvent.reset] else []).filterMap
        StrmEvent.flushOutcome? = [] := by
      split <;> rfl
    rw [filterMap_append, hreset, append_nil, callEvents_flushes hevs] at hleft
    exact hleft
  | disconnect => cases hstep; exact h
  | lastFlush ok sys =>
    rw [connStep] at hstep
    rw [ConnStep.flushes]
    split at hstep
    case isFalse hclosed => cases hstep; rw [if_neg hclosed]; exact h
    case isTrue hopen =>
      rw [if_pos hopen]
      split at hstep
      case h_1 => cases hstep
      case h_2 strm logs hflush =>
        cases hstep
        obtain ⟨sent, hflush, -⟩ := zStrmStep_flush hflush
        exact h.strmflush hflush rfl

theorem nothingLeft_iff {c : StrmConn} {left : Bool} (h : c.strm.Left left) (a : ConnStep) :
    NothingLeft (c, left) a ↔ EmptyBehind c a := by
  have hnil : left = false ↔ c.strm.next.bytes = [] := by
    rw [← Bool.not_eq_true, h.behind, not_not]
  cases a with
  | connect o =>
    cases o with
    | connected fd => exact imp_congr_right fun _ => hnil
    | _ => exact Iff.rfl
  | _ => exact Iff.rfl

/-- In every run of a new server's connection, each successful `server_connect` leaves all buffers
empty, and no byte of one connection is sent on another, exactly if no connection is made while
output of the compressor is left behind by a failed flush. -/
theorem fresh_iff {codec : Option Codec} {steps : List ConnStep} {c : StrmConn}
    {log : List (List StrmLog)}
    (hrun : Machine.run connStep (newConn codec) steps = some (c, log)) :
    Fresh log.flatten ↔ Machine.Along outcomeStep NothingLeft (newConn codec, false) steps := by
  have hnew : (newConn codec).strm.Own (newConn codec).gen ∧ (newConn codec).strm.Left false :=
    ⟨⟨.reset ⟨[], 0⟩, .reset ⟨[], 0⟩⟩, by simp [newConn], fun _ => rfl⟩
  have htracked : ∃ s, Machine.run outcomeStep (newConn codec, false) steps = some (s, log) ∧
      s.1 = c := by
    refine Machine.run_simulates (R := fun (s : StrmConn × Bool) c => s.1 = c) ?_ rfl hrun
    rintro ⟨_, left⟩ c a c' l rfl hstep
    exact ⟨_, Option.map_eq_some_iff.2 ⟨_, hstep, rfl⟩, rfl⟩
  obtain ⟨s, htracked, -⟩ := htracked
  refine Machine.run_exact (I := fun s : StrmConn × Bool => s.1.strm.Own s.1.gen ∧
    s.1.strm.Left s.2) ?_ hnew htracked
  rintro ⟨c, left⟩ a ⟨c', left'⟩ l ⟨hown, hleft⟩ hstep
  rw [outcomeStep] at hstep
  obtain ⟨⟨c₁, l₁⟩, hconn, heq⟩ := Option.map_eq_some_iff.1 hstep
  cases heq
  rw [nothingLeft_iff hleft]
  obtain ⟨hfresh, hkept⟩ := connStep_fresh hconn hown
  exact ⟨hfresh, fun hempty => ⟨hkept hempty, connStep_left hconn hleft⟩⟩

/-- The block that snappy makes of the metric `a`. -/
def snappyBlock : Text := ['\x01', '\x00', 'a']

/-- A call of `server_queuesend` that sends the metric `a` through snappy, with one call of
`write(2)`. -/
def sendBlock (r : WriteResult) (ok : Bool) : SendCall where
  bsize := 1
  squeue := { queue := [some ['a']], size := 1, write := 0, read := 0, len := 1 }
  dropped := 0
  outs := [.poll .ready, .write .written, .poll .ready, .flush ok]
  flushes := [[.compress (.out snappyBlock false), .write r]]

/-- Two connections with a snappy compressor, the first closed after a successful flush. -/
theorem fresh_snappy :
    ∃ c log, Machine.run connStep (newConn (some .snappy)) [.connect (.connected 5),
        .queuesend (sendBlock (.wrote 3) true), .disconnect, .connect (.connected 6)] =
          some (c, log) ∧ Fresh log.flatten :=
  Machine.exists_of_isSome (by decide +kernel) fun c log hrun =>
    (fresh_iff hrun).2 (by decide +kernel)

/-- The block that a snappy stream failed to send on the first connection is sent on the second, in
front of the one made there. -/
theorem stale_block_sent :
    ∃ c log, Machine.run connStep (newConn (some .snappy)) [.connect (.connected 5),
        .queuesend (sendBlock .error false), .connect (.connected 6),
        .queuesend (sendBlock (.wrote 6) true)] = some (c, log) ∧
      .connected 2 (octets 1 0 snappyBlock) ∈ log.flatten ∧
      .flushed 2 true (octets 1 0 snappyBlock ++ octets 2 3 snappyBlock) ∈ log.flatten ∧
      ¬ Fresh log.flatten := by
  refine @Machine.exists_of_outputs _ _ _ _ [[.connected 1 []],
    [.written [⟨1, 0, 'a'⟩], .flushed 1 false []], [.connected 2 (octets 1 0 snappyBlock)],
    [.written [⟨2, 1, 'a'⟩], .flushed 2 true (octets 1 0 snappyBlock ++ octets 2 3 snappyBlock)]]
    (by decide +kernel) fun c => ?_
  refine ⟨by simp, by simp, fun h => ?_⟩
  exact cons_ne_nil _ _ (h (.connected 2 (octets 1 0 snappyBlock)) (by simp))

end CarbonRelay
