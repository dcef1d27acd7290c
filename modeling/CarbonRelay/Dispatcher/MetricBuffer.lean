import CarbonRelay.Dispatcher.Cleansing
import CarbonRelay.Server.Basic

/-!
# The metric buffer

`dispatchReceivedMetrics` writes each line to `conn->metric`, an array of `METRIC_BUFSIZ` bytes,
without a check of its own. The bytes it writes for a buffer are at the places `bufferWrites` says,
up to the line that stalls (`prefix_metricWritesLoop`), so they are in the array as long as every
line fits (`bufferWrites_lt_iff`). A line is no longer than the receive buffer, which
`connection_strm_new` chooses: of the same size, but for `lz4`, where it is at least twice as large.
-/

namespace CarbonRelay

open List

universe u

variable {δ : Type u}

/-! ## The receive buffer -/

/-- `dispatcher.c:494 lznew`, the size of the buffer that is decompressed to. -/
def lznewOsize (compressBound : Nat → Nat) (isize : Nat) : Nat :=
  compressBound (if isize > 65536 then isize else 65536)

/-- `dispatcher.c:685 connection_strm_new`, the size of the receive buffer, unless a stream or the
buffer could not be allocated. `gzipnew` and `snappynew` leave the size as it is. -/
def connectionStrmNew (compressBound : Nat → Nat) (sockOk strmOk bufOk : Bool) :
    Transport → Option Nat
  | .plain => if sockOk && bufOk then some metricBufsiz else none
  | .gzip | .snappy => if sockOk && strmOk && bufOk then some metricBufsiz else none
  | .lz4 => if sockOk && strmOk && bufOk then some (lznewOsize compressBound metricBufsiz) else none

/-! ## The places that are written -/

/-- Where a character of a line is written, other than its end. -/
def charWrites (l : LineState) (c : Char) : List Nat :=
  if isSeparator c then
    if l.metric.isEmpty then []
    else if tabToSpace c = ' ' ∧ l.firstspace = none then
      -- `q` goes back over a trailing separator
      [if l.metric.getLast? = some '.' then l.metric.length - 1 else l.metric.length]
    else if l.metric.getLast? ≠ some (tabToSpace c) ∧ l.firstspace ≠ some (l.metric.length - 1) then
      [l.metric.length]
    else []
  else [l.metric.length]

/-- The places in `conn->metric` that the loop over a buffer writes: those of the characters, and at
the end of an accepted line the newline and the terminator. -/
def metricWritesLoop (D : Dispatcher) (E : DispatchEnv) (route : Text → Nat → List δ × Nat) :
    Text → LineState → DispatchState δ → List Nat
  | [], _, _ => []
  | c :: rest, l, s =>
    if isNewline c then
      match lineEnd D l with
      | none =>
        metricWritesLoop D E route rest (newLine l.searchTags) { s with discards := s.discards + 1 }
      | some (metric, firstspace) =>
        let s := routeMetric E route metric firstspace s
        [l.metric.length, l.metric.length + 1] ++
          match dispatchProcessDests E s.conn.lastwork s with
          | (false, _, _) => []
          | (true, s, _) => metricWritesLoop D E route rest (newLine D.tagsSupported) s
    else charWrites l c ++ metricWritesLoop D E route rest (parseChar D l c) s

/-- The places in `conn->metric` that `dispatch_received_metrics` writes. -/
def metricWrites (D : Dispatcher) (E : DispatchEnv) (route : Text → Nat → List δ × Nat)
    (s : DispatchState δ) : List Nat :=
  metricWritesLoop D E route s.conn.buf (newLine D.tagsSupported) s

/-- The bytes a line needs: those of its metric, and its newline and terminator if it is accepted.
-/
def lineRoom (D : Dispatcher) (l : LineState) : Nat :=
  l.metric.length + if (lineEnd D l).isSome then 2 else 0

/-- The lines of a buffer, and its tail, fit into `conn->metric`. -/
def MetricsFit (D : Dispatcher) : Bool → List Text → Text → Prop
  | b, [], t => (t.foldl (parseChar D) (newLine b)).metric.length ≤ metricBufsiz
  | b, l :: ls, t =>
    lineRoom D (parseLine D b l) ≤ metricBufsiz ∧ MetricsFit D (nextTags D (parseLine D b l)) ls t

/-! ## The places without regard to stalling -/

/-- The places that are written when nothing stalls. -/
def bufferWrites (D : Dispatcher) : Text → LineState → List Nat
  | [], _ => []
  | c :: rest, l =>
    if isNewline c then
      (if (lineEnd D l).isSome then [l.metric.length, l.metric.length + 1] else []) ++
        bufferWrites D rest (newLine (nextTags D l))
    else charWrites l c ++ bufferWrites D rest (parseChar D l c)

/-- The lines of a buffer of which the first one was begun, and its tail, fit into `conn->metric`.
-/
def MetricsFitFrom (D : Dispatcher) (l : LineState) : List Text × Text → Prop
  | ([], t) => (t.foldl (parseChar D) l).metric.length ≤ metricBufsiz
  | (x :: ls, t) =>
    let l := x.dropLast.foldl (parseChar D) l
    lineRoom D l ≤ metricBufsiz ∧ MetricsFit D (nextTags D l) ls t

section
variable {D : Dispatcher} {E : DispatchEnv} {route : Text → Nat → List δ × Nat} {l : LineState}
  {c : Char} {rest : Text} {s : DispatchState δ}

/-- A character is written behind what is there, or in place of the last separator, or not at all.
-/
theorem charWrites_cases (D : Dispatcher) (l : LineState) (c : Char) :
    charWrites l c = [] ∧ parseChar D l c = l ∨
      ∃ k, charWrites l c = [k] ∧ (parseChar D l c).metric.length = k + 1 ∧ l.metric.length ≤
        k + 1 := by
  have hpush (d : Char) : (l.push d).metric.length = l.metric.length + 1 := by
    rw [LineState.push, length_append]
    rfl
  rw [charWrites, parseChar]
  split
  · split
    · exact .inl ⟨rfl, rfl⟩
    · rw [pushSeparator]
      split
      case isTrue h =>
        refine .inr ⟨_, rfl, ?_⟩
        by_cases hdot : l.metric.getLast? = some '.'
        · have hpos := length_pos_iff.2 (ne_nil_of_mem (mem_of_getLast? hdot))
          simp only [if_pos hdot, length_append, length_dropLast, length_singleton]
          exact ⟨trivial, by omega⟩
        · simp only [if_neg hdot, length_append, length_singleton]
          exact ⟨trivial, Nat.le_succ _⟩
      case isFalse =>
        split
        · exact .inr ⟨_, rfl, hpush _, Nat.le_succ _⟩
        · exact .inl ⟨rfl, rfl⟩
  · refine .inr ⟨_, rfl, ?_, Nat.le_succ _⟩
    split
    · simp
    · split
      · exact hpush _
      · exact hpush _

theorem length_le_parseChar : l.metric.length ≤ (parseChar D l c).metric.length := by
  rcases charWrites_cases D l c with ⟨-, h⟩ | ⟨k, -, h, hle⟩
  · rw [h]
  · rw [h]
    exact hle

theorem length_le_foldl {x : Text} : l.metric.length ≤ (x.foldl (parseChar D) l).metric.length := by
  induction x generalizing l with
  | nil => exact Nat.le_refl _
  | cons c x ih => exact length_le_parseChar.trans ih

theorem metricsFitFrom_newLine (b : Bool) (r : List Text × Text) :
    MetricsFitFrom D (newLine b) r ↔ MetricsFit D b r.1 r.2 := by
  rcases r with ⟨_ | ⟨x, ls⟩, t⟩
  · exact Iff.rfl
  · exact Iff.rfl

theorem metricsFitFrom_newline (hc : isNewline c = true) :
    MetricsFitFrom D l (rawLines (c :: rest)) ↔
      lineRoom D l ≤ metricBufsiz ∧ MetricsFitFrom D (newLine (nextTags D l)) (rawLines rest) := by
  rw [rawLines, hc, metricsFitFrom_newLine]
  exact Iff.rfl

theorem metricsFitFrom_cons (hc : isNewline c = false) :
    MetricsFitFrom D l (rawLines (c :: rest)) ↔
      MetricsFitFrom D (parseChar D l c) (rawLines rest) := by
  rw [rawLines, hc]
  rcases hrest : rawLines rest with ⟨_ | ⟨x, ls⟩, t⟩
  · exact Iff.rfl
  · have hx : x ≠ [] := ne_nil_of_rawLines
      (rawLines_of_mem rest x (by rw [hrest]; exact mem_cons_self))
    simp only [Bool.false_eq_true, if_false, MetricsFitFrom, dropLast_cons_of_ne_nil hx, foldl_cons]

theorem length_le_of_metricsFitFrom {r : List Text × Text} (h : MetricsFitFrom D l r) :
    l.metric.length ≤ metricBufsiz := by
  rcases r with ⟨_ | ⟨x, ls⟩, t⟩
  · exact length_le_foldl.trans h
  · exact (length_le_foldl.trans (Nat.le_add_right _ _)).trans h.1

/-- All places are in the array exactly if the lines fit. By induction on the buffer. -/
theorem bufferWrites_lt_iff (hl : l.metric.length ≤ metricBufsiz) :
    (∀ i ∈ bufferWrites D rest l, i < metricBufsiz) ↔ MetricsFitFrom D l (rawLines rest) := by
  induction rest generalizing l with
  | nil => exact iff_of_true (fun i hi => nomatch hi) hl
  | cons c rest ih =>
    cases hc : isNewline c with
    | true =>
      rw [bufferWrites, if_pos hc, forall_mem_append, metricsFitFrom_newline hc,
        ih (l := newLine _) (Nat.zero_le _), lineRoom]
      refine and_congr_left fun _ => ?_
      split
      · simp only [forall_mem_cons, not_mem_nil, false_imp_iff, implies_true, and_true]
        omega
      · simpa using hl
    | false =>
      rw [bufferWrites, hc, if_neg Bool.false_ne_true, forall_mem_append, metricsFitFrom_cons hc]
      rcases charWrites_cases D l c with ⟨hnil, hsame⟩ | ⟨k, hk, hlength, -⟩
      · rw [hnil, hsame, ih hl]
        exact and_iff_right fun i hi => nomatch hi
      · rw [hk, forall_mem_singleton]
        constructor
        · rintro ⟨hlt, hrest⟩
          exact (ih (by omega)).1 hrest
        · intro hfit
          have hle := length_le_of_metricsFitFrom hfit
          exact ⟨by omega, (ih hle).2 hfit⟩

/-- What is written, stalled or not, is written when nothing stalls. -/
theorem prefix_metricWritesLoop (D : Dispatcher) (E : DispatchEnv)
    (route : Text → Nat → List δ × Nat) (rest : Text) (l : LineState) (s : DispatchState δ) :
    metricWritesLoop D E route rest l s <+: bufferWrites D rest l := by
  induction rest generalizing l s with
  | nil => exact prefix_rfl
  | cons c rest ih =>
    rw [metricWritesLoop, bufferWrites]
    split
    · cases hend : lineEnd D l with
      | none =>
        have htags : nextTags D l = l.searchTags := by rw [nextTags, hend]; rfl
        rw [htags]
        exact ih _ _
      | some r =>
        have htags : nextTags D l = D.tagsSupported := by rw [nextTags, hend]; rfl
        rw [htags]
        refine (prefix_append_right_inj _).2 ?_
        split
        · exact nil_prefix
        · exact ih _ _
    · exact (prefix_append_right_inj _).2 (ih _ _)

theorem metricWritesLoop_accepting (hE : E.Accepting) :
    metricWritesLoop D E route rest l s = bufferWrites D rest l := by
  induction rest generalizing l s with
  | nil => rfl
  | cons c rest ih =>
    rw [metricWritesLoop, bufferWrites]
    split
    · cases hend : lineEnd D l with
      | none =>
        have htags : nextTags D l = l.searchTags := by rw [nextTags, hend]; rfl
        rw [htags]
        exact ih
      | some r =>
        have htags : nextTags D l = D.tagsSupported := by rw [nextTags, hend]; rfl
        obtain ⟨s', es, hproc, -⟩ := dispatchProcessDests_accepting hE
          (routeMetric E route r.1 r.2 s).conn.lastwork (routeMetric E route r.1 r.2 s)
        simp only [htags, hproc, ih]
        rfl
    · rw [ih]

/-- The lines of a buffer that is shorter than `conn->metric` fit. -/
theorem metricsFitFrom_of_length (h : l.metric.length + rest.length ≤ metricBufsiz - 1) :
    MetricsFitFrom D l (rawLines rest) := by
  induction rest generalizing l with
  | nil =>
    show l.metric.length ≤ metricBufsiz
    omega
  | cons c rest ih =>
    rw [length_cons] at h
    cases hc : isNewline c with
    | true =>
      rw [metricsFitFrom_newline hc]
      refine ⟨?_, ih ?_⟩
      · rw [lineRoom]
        split
        · omega
        · omega
      · rw [newLine, length_nil]
        omega
    | false =>
      have hstep := length_parseChar_le D l c
      rw [metricsFitFrom_cons hc]
      exact ih (by omega)

/-- A long word is written one place behind the other. -/
theorem mem_bufferWrites_replicate {n i : Nat} (hle : l.metric.length ≤ i)
    (hlt : i < l.metric.length + n) : i ∈ bufferWrites D (List.replicate n 'a') l := by
  induction n generalizing l with
  | zero => omega
  | succ n ih =>
    have hstep : parseChar D l 'a' = l.push (cleanChar D l.firstspace 'a') :=
      parseChar_of_not_separator rfl fun _ => by decide
    have hlength : (parseChar D l 'a').metric.length = l.metric.length + 1 := by
      rw [hstep, LineState.push, length_append]
      rfl
    rw [replicate_succ, bufferWrites, if_neg (by decide), mem_append]
    rcases Nat.eq_or_lt_of_le hle with rfl | hgt
    · exact .inl (mem_singleton.2 rfl)
    · exact .inr (ih (by omega) (by omega))

end

/-- On a connection that was set up, with a buffer that it can hold, `conn->metric` is written
within its bounds exactly if the stream is not `lz4` or the lines fit. -/
theorem metricWrites_lt_iff {compressBound : Nat → Nat} {sockOk strmOk bufOk : Bool}
    {transport : Transport} {bufsize : Nat}
    (hnew : connectionStrmNew compressBound sockOk strmOk bufOk transport = some bufsize)
    (D : Dispatcher) {buf : Text} (hbuf : buf.length ≤ bufsize - 1) :
    (∀ (E : DispatchEnv) (route : Text → Nat → List δ × Nat) (s : DispatchState δ),
      s.conn.transport = transport → s.conn.bufsize = bufsize → s.conn.buf = buf →
      ∀ i ∈ metricWrites D E route s, i < metricBufsiz) ↔
    (transport ≠ .lz4 ∨ MetricsFit D D.tagsSupported (rawLines buf).1 (rawLines buf).2) := by
  rw [← metricsFitFrom_newLine, ← bufferWrites_lt_iff (Nat.zero_le _)]
  constructor
  · intro h
    refine .inr ?_
    let E : DispatchEnv := ⟨fun _ _ => true, fun _ => ⟨0, 0⟩, fun _ => 0⟩
    have haccept : E.Accepting := fun _ _ => rfl
    have hwrites := h E (fun _ _ => ([], 0))
      ⟨⟨transport, buf, bufsize, [], ⟨0, 0⟩, 0, false, false, false⟩, 0, 0, 0, 0⟩ rfl rfl rfl
    rwa [metricWrites, metricWritesLoop_accepting haccept] at hwrites
  · rintro hor E route s - - rfl i hi
    have hmem := (prefix_metricWritesLoop D E route s.conn.buf (newLine D.tagsSupported) s).subset
      hi
    rcases hor with hlz4 | hfit
    · have hsize : bufsize = metricBufsiz := by
        cases transport with
        | plain | gzip | snappy =>
          rw [connectionStrmNew] at hnew
          split at hnew
          · exact (Option.some.inj hnew).symm
          · cases hnew
        | lz4 => exact absurd rfl hlz4
      have hfit : MetricsFitFrom D (newLine D.tagsSupported) (rawLines s.conn.buf) :=
        metricsFitFrom_of_length (by rw [newLine, length_nil]; omega)
      exact (bufferWrites_lt_iff (Nat.zero_le _)).2 hfit i hmem
    · exact hfit i hmem

/-- A line on a plain connection. -/
theorem metricWrites_lt_plain :
    connectionStrmNew id true true true .plain = some 32768 ∧
    ((∀ (E : DispatchEnv) (route : Text → Nat → List Unit × Nat) (s : DispatchState Unit),
      s.conn.transport = .plain → s.conn.bufsize = 32768 → s.conn.buf = "a 1 2\n".toList →
      ∀ i ∈ metricWrites (dispatchInit "-_:#".toList 32768 32768) E route s, i < metricBufsiz) ↔
    (Transport.plain ≠ .lz4 ∨ MetricsFit (dispatchInit "-_:#".toList 32768 32768) true
      (rawLines "a 1 2\n".toList).1 (rawLines "a 1 2\n".toList).2)) := by
  have hnew : connectionStrmNew id true true true .plain = some 32768 := rfl
  exact ⟨hnew, metricWrites_lt_iff hnew (dispatchInit "-_:#".toList 32768 32768) (by decide)⟩

/-- On an `lz4` connection, a line of 32769 bytes is written behind the end of `conn->metric`, even
if `LZ4F_compressBound` asks for no more room than the data have. -/
theorem lz4_line_too_long :
    ∃ bufsize, connectionStrmNew id true true true .lz4 = some bufsize ∧
      ∃ s : DispatchState Unit, s.conn.transport = .lz4 ∧ s.conn.bufsize = bufsize ∧
        s.conn.buf.length ≤ bufsize - 1 ∧
        metricBufsiz ∈ metricWrites (dispatchInit "-_:#".toList 32768 32768)
          ⟨fun _ _ => true, fun _ => ⟨0, 0⟩, fun _ => 0⟩ (fun _ _ => ([], 0)) s := by
  refine ⟨65536, rfl, ⟨⟨.lz4, List.replicate 32769 'a', 65536, [], ⟨0, 0⟩, 0, false, false, false⟩,
    0, 0, 0, 0⟩, rfl, rfl, ?_, ?_⟩
  · rw [length_replicate]
    decide
  · rw [metricWrites, metricWritesLoop_accepting fun _ _ => rfl]
    exact mem_bufferWrites_replicate (Nat.zero_le _) (by decide)

end CarbonRelay
