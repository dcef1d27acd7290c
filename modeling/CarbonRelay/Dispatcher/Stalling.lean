import CarbonRelay.Dispatcher.Chunking
import CarbonRelay.Lib.Outbox

/-!
# Stalled connections

A destination that does not take its metric stalls the connection: the destinations that are left
stay in `conn->dests` until a later call sends to them. The destinations of a connection are an
outbox (`Outbox.Run`), to which a metric that is routed posts, and from which a send delivers.
`dispatchConnection` starts with the destinations that are left, so a plain connection is orderly.
The loop over what a compressed stream still holds does not look at them, and a metric that it
routes overwrites them (`CallOK` says when it does not).
-/

namespace CarbonRelay

open List Option

universe u

variable {δ : Type u}

/-- The destinations that took their metric, in order. -/
def sentOf (es : List (DispatchEvent δ)) : List δ :=
  es.flatMap fun
    | .sent dest => [dest]
    | _ => []

/-- The destinations of all metrics that were routed, in order. -/
def destsOf (es : List (DispatchEvent δ)) : List δ :=
  es.flatMap fun
    | .routed _ _ dests => dests
    | _ => []

/-- Every destination takes its metric once and in order, up to those that are pending, and all of
them have when the next metric is routed. -/
structure Orderly (es : List (DispatchEvent δ)) (pending : List δ) : Prop where
  once : sentOf es ++ pending = destsOf es
  settled : ∀ es₁ metric firstspace dests es₂, es = es₁ ++ .routed metric firstspace dests :: es₂ →
    sentOf es₁ = destsOf es₁

/-- No line in the buffer is accepted. -/
def NoMetric (D : Dispatcher) (buf : Text) : Prop :=
  ∀ r ∈ runLines D D.tagsSupported (rawLines buf).1, r = none

instance (D : Dispatcher) (buf : Text) : Decidable (NoMetric D buf) :=
  inferInstanceAs (Decidable (∀ r ∈ _, _))

/-- A call of `dispatch_connection`. The router may be another one in each call. -/
structure Call (δ : Type u) where
  route : Text → Nat → List δ × Nat
  start : Timeval
  input : ReadInput

/-- The connection when its buffer is to be processed, with what was read if anything had to be. -/
def bufferFor (input : ReadInput) (s : DispatchState δ) : Option (DispatchState δ) :=
  if !s.conn.needmore && !s.conn.buf.isEmpty then some s
  else
    match input.read with
    | .data bytes => readInto bytes s
    | .again | .eof | .error => none

/-- In a pass over the buffer with destinations pending, no line is accepted. -/
def PassOK (D : Dispatcher) (s : DispatchState δ) (bytes : Text) : Prop :=
  s.conn.dests = [] ∨ NoMetric D (s.conn.buf ++ bytes)

instance [DecidableEq δ] (D : Dispatcher) (s : DispatchState δ) (bytes : Text) :
    Decidable (PassOK D s bytes) :=
  inferInstanceAs (Decidable (_ ∨ _))

/-- The connection when what its stream still holds is read, if it comes to that. -/
def readbufStart (D : Dispatcher) (E : DispatchEnv) (s : DispatchState δ) (call : Call δ) :
    Option (DispatchState δ) :=
  match dispatchProcessDests E call.start s with
  | (false, _, _) => none
  | (true, s, _) =>
    ((bufferFor call.input s).map fun s => (dispatchReceivedMetrics D E call.route s).1).filter
      (·.conn.transport.buffered)

/-- No pass over what a compressed stream still holds accepts a line with destinations pending. -/
def CallOK (D : Dispatcher) (E : DispatchEnv) (s : DispatchState δ) (call : Call δ) : Prop :=
  ∀ s₁ ∈ readbufStart D E s call,
    Machine.Along (feedStep D E call.route) (PassOK D) s₁ call.input.readbuf

instance [DecidableEq δ] (D : Dispatcher) (E : DispatchEnv) (s : DispatchState δ) (call : Call δ) :
    Decidable (CallOK D E s call) :=
  inferInstanceAs (Decidable (∀ s₁ ∈ readbufStart D E s call, _))

/-- A connection is served until it is closed. -/
def connectionStep (D : Dispatcher) (E : DispatchEnv) (s : Served × DispatchState δ)
    (call : Call δ) : Option ((Served × DispatchState δ) × List (DispatchEvent δ)) :=
  if s.1 = .closed then none
  else
    (dispatchConnection D E call.route call.start call.input s.2).map fun (served, s, es) =>
      ((served, s), es)

/-! ## The outbox of a connection -/

/-- What an event does to the destinations of a connection. -/
def outboxEvent : DispatchEvent δ → Option (Outbox.Event δ)
  | .discarded => none
  | .routed _ _ dests => some (.posted dests)
  | .sent dest => some (.delivered dest)

/-- What events do to the destinations. -/
def outboxOf (es : List (DispatchEvent δ)) : List (Outbox.Event δ) := es.filterMap outboxEvent

section
variable {ok ok' : Prop} {s s₁ s₂ : DispatchState δ} {es es' : List (DispatchEvent δ)} {p : List δ}

theorem outboxOf_append : outboxOf (es ++ es') = outboxOf es ++ outboxOf es' := filterMap_append

theorem delivered_outboxOf (es : List (DispatchEvent δ)) :
    Outbox.delivered (outboxOf es) = sentOf es := by
  induction es with
  | nil => rfl
  | cons e es ih =>
    cases e with
    | discarded => exact ih
    | routed _ _ dests => exact ih
    | sent dest => exact congrArg (List.cons dest) ih

theorem posted_outboxOf (es : List (DispatchEvent δ)) :
    Outbox.posted (outboxOf es) = destsOf es := by
  induction es with
  | nil => rfl
  | cons e es ih =>
    cases e with
    | discarded => exact ih
    | routed _ _ dests => exact congrArg (dests ++ ·) ih
    | sent _ => exact ih

theorem orderly_iff : Orderly es p ↔ Outbox.Run [] (outboxOf es) p := by
  rw [Outbox.run_nil_iff, delivered_outboxOf, posted_outboxOf]
  constructor
  · intro h
    refine ⟨h.once, fun os₁ batch os₂ heq => ?_⟩
    obtain ⟨es₁, es₂, rfl, rfl, hcons⟩ := filterMap_eq_append_iff.1 heq
    obtain ⟨es₃, e, es₄, rfl, hnone, he, -⟩ := filterMap_eq_cons_iff.1 hcons
    cases e with
    | discarded => cases he
    | sent dest => cases he
    | routed metric firstspace dests =>
      have hskip : outboxOf es₃ = [] := filterMap_eq_nil_iff.2 hnone
      have hsettled := h.settled (es₁ ++ es₃) metric firstspace dests es₄ (by simp)
      rw [← delivered_outboxOf, ← posted_outboxOf, outboxOf_append, hskip, append_nil] at hsettled
      exact hsettled
  · rintro ⟨honce, hsettled⟩
    refine ⟨honce, ?_⟩
    rintro es₁ metric firstspace dests es₂ rfl
    rw [← delivered_outboxOf, ← posted_outboxOf]
    exact hsettled (outboxOf es₁) dests (outboxOf es₂) outboxOf_append

/-- The events from `s` to `s₁` are an orderly run of the outbox, exactly on a condition. The
transport stays the same. -/
structure Keeps (ok : Prop) (s s₁ : DispatchState δ) (es : List (DispatchEvent δ)) : Prop where
  run : ok → Outbox.Run s.conn.dests (outboxOf es) s₁.conn.dests
  not_run : ¬ ok → ∀ p, ¬ Outbox.Run s.conn.dests (outboxOf es) p
  transport : s₁.conn.transport = s.conn.transport

theorem Keeps.append (h : Keeps ok s s₁ es) (h' : Keeps ok' s₁ s₂ es') :
    Keeps (ok ∧ ok') s s₂ (es ++ es') where
  run := by
    rintro ⟨hok, hok'⟩
    rw [outboxOf_append]
    exact (h.run hok).append (h'.run hok')
  not_run := by
    intro hnot p hrun
    rw [outboxOf_append] at hrun
    obtain ⟨q, hrun₁, hrun₂⟩ := hrun.exists_append
    by_cases hok : ok
    · cases (h.run hok).det hrun₁
      exact h'.not_run (fun hok' => hnot ⟨hok, hok'⟩) p hrun₂
    · exact h.not_run hok q hrun₁
  transport := h'.transport.trans h.transport

theorem Keeps.congr (hiff : ok ↔ ok') (h : Keeps ok s s₁ es) : Keeps ok' s s₁ es :=
  ⟨fun hok => h.run (hiff.2 hok), fun hok => h.not_run fun h' => hok (hiff.1 h'), h.transport⟩

/-- A run that is orderly anyway. -/
theorem Keeps.of_run (hok : ok) (h : Outbox.Run s.conn.dests (outboxOf es) s₁.conn.dests)
    (htransport : s₁.conn.transport = s.conn.transport) : Keeps ok s s₁ es :=
  ⟨fun _ => h, fun hnot => absurd hok hnot, htransport⟩

/-- Only the destinations and the transport count at the end. -/
theorem Keeps.of_dests_eq (h : Keeps ok s s₁ es) (heq : s₂.conn.dests = s₁.conn.dests)
    (htransport : s₂.conn.transport = s₁.conn.transport) : Keeps ok s s₂ es :=
  ⟨fun hok => heq ▸ h.run hok, h.not_run, htransport.trans h.transport⟩

theorem Keeps.refl (s : DispatchState δ) : Keeps True s s [] := .of_run trivial .nil rfl

/-! ## What the functions keep -/

variable {D : Dispatcher} {E : DispatchEnv} {route : Text → Nat → List δ × Nat}

/-- The destinations in front take their metric, and the others are left. -/
theorem sendDests_keeps (E : DispatchEnv) (force : Bool) (tick : Nat) (ds : List δ) :
    Outbox.Run ds (outboxOf (sendDests E force tick ds).2.2) (sendDests E force tick ds).1 := by
  induction ds generalizing tick with
  | nil => exact .nil
  | cons d ds ih =>
    rw [sendDests]
    split
    case isTrue => exact .delivered (ih (tick + 1))
    case isFalse => exact .nil

/-- `dispatch_process_dests` sends from the front, and nothing is left if it succeeds. -/
theorem dispatchProcessDests_keeps {now : Timeval} {b : Bool}
    (h : dispatchProcessDests E now s = (b, s₁, es)) :
    Keeps True s s₁ es ∧ (b = true → s₁.conn.dests = []) := by
  rw [dispatchProcessDests] at h
  split at h
  case isTrue hempty =>
    cases h
    exact ⟨.refl s, fun _ => List.isEmpty_iff.1 hempty⟩
  case isFalse =>
    dsimp only at h
    generalize (if s.conn.maxsenddelay = 0 then _ else _ : Int) = maxsenddelay at h
    generalize (s.conn.isaggr || _) = force at h
    have hsend := sendDests_keeps E force (s.tick + 1) s.conn.dests
    generalize sendDests E force (s.tick + 1) s.conn.dests = r at h hsend
    obtain ⟨left, tick, es⟩ := r
    dsimp only at h hsend
    split at h
    case isTrue hempty =>
      cases h
      rw [List.isEmpty_iff.1 hempty] at hsend
      exact ⟨.of_run trivial hsend rfl, fun _ => rfl⟩
    case isFalse =>
      cases h
      exact ⟨.of_run trivial hsend rfl, fun h => Bool.noConfusion h⟩

/-- The loop over a buffer: without pending destinations it is orderly, and with some, as long as no
line is accepted. By induction on the buffer. -/
theorem receivedLoop_keeps (D : Dispatcher) (E : DispatchEnv) (route : Text → Nat → List δ × Nat)
    (rest kept : Text) (l : LineState) (s : DispatchState δ) :
    Keeps (s.conn.dests = [] ∨ ∀ r ∈ linesFrom D l (rawLines rest).1, r = none) s
      (receivedLoop D E route rest kept l s).1 (receivedLoop D E route rest kept l s).2 := by
  induction rest generalizing kept l s with
  | nil => exact .of_run (.inr nofun) .nil rfl
  | cons c rest ih =>
    cases hc : isNewline c with
    | true =>
      rw [linesFrom_newline hc]
      cases hend : lineEnd D l with
      | none =>
        have hrest := ih [] (newLine l.searchTags) { s with discards := s.discards + 1 }
        have htags : nextTags D l = l.searchTags := by rw [nextTags, hend]; rfl
        rw [receivedLoop_newline_none hc hend, htags, ← linesFrom_newLine]
        refine Keeps.congr ?_ ⟨hrest.run, hrest.not_run, hrest.transport⟩
        simp only [forall_mem_cons, true_and]
      | some p =>
        obtain ⟨metric, firstspace⟩ := p
        rcases hproc : dispatchProcessDests E
          (routeMetric E route metric firstspace s).conn.lastwork
          (routeMetric E route metric firstspace s) with ⟨b, s₁, es⟩
        obtain ⟨hkeeps, hdone⟩ := dispatchProcessDests_keeps hproc
        simp only [receivedLoop_newline_some hc hend, hproc]
        by_cases hdests : s.conn.dests = []
        · cases b with
          | false =>
            refine .of_run (.inl hdests) ?_ hkeeps.transport
            rw [hdests]
            exact .posted (hkeeps.run trivial)
          | true =>
            have hrest := ih [] (newLine D.tagsSupported) s₁
            have hall := (hkeeps.run trivial).append (hrest.run (.inl (hdone rfl)))
            refine .of_run (.inl hdests) ?_ (hrest.transport.trans hkeeps.transport)
            rw [← outboxOf_append] at hall
            rw [hdests]
            exact .posted hall
        · have hnot : ¬ (s.conn.dests = [] ∨ ∀ r ∈ some (metric, firstspace) ::
              runLines D (nextTags D l) (rawLines rest).1, r = none) := by
            rintro (hok | hok)
            · exact hdests hok
            · exact some_ne_none _ (hok _ mem_cons_self)
          cases b with
          | false =>
            exact ⟨fun hok => absurd hok hnot, fun _ _ => Outbox.not_run_posted hdests,
              hkeeps.transport⟩
          | true =>
            exact ⟨fun hok => absurd hok hnot, fun _ _ => Outbox.not_run_posted hdests,
              (ih [] (newLine D.tagsSupported) s₁).transport.trans hkeeps.transport⟩
    | false =>
      rw [linesFrom_cons hc]
      cases hskip : isSeparator c && l.metric.isEmpty with
      | true =>
        rw [receivedLoop_skip hc hskip, parseChar_of_skip hskip]
        exact ih [] l s
      | false =>
        rw [receivedLoop_char hc hskip]
        exact ih (kept ++ [tabToSpace c]) (parseChar D l c) s

theorem dispatchReceivedMetrics_keeps (D : Dispatcher) (E : DispatchEnv)
    (route : Text → Nat → List δ × Nat) (s : DispatchState δ) :
    Keeps (s.conn.dests = [] ∨ NoMetric D s.conn.buf) s (dispatchReceivedMetrics D E route s).1
      (dispatchReceivedMetrics D E route s).2 := by
  have hloop := receivedLoop_keeps D E route s.conn.buf [] (newLine D.tagsSupported) s
  rwa [linesFrom_newLine] at hloop

theorem feedStep_keeps {bytes : Text} (h : feedStep D E route s bytes = some (s₁, es)) :
    Keeps (PassOK D s bytes) s s₁ es := by
  rw [feedStep, map_eq_some_iff] at h
  obtain ⟨s₀, hread, heq⟩ := h
  obtain ⟨-, -, rfl⟩ := readInto_eq_some.1 hread
  have hpass := dispatchReceivedMetrics_keeps D E route
    { s with conn := { s.conn with buf := s.conn.buf ++ bytes } }
  rw [heq] at hpass
  exact ⟨hpass.run, hpass.not_run, hpass.transport⟩

variable {chunks : List Text}

/-- The loop over what the stream still holds reads in chunks. -/
theorem readbufLoop_eq_run (h : readbufLoop D E route chunks s = some (s₁, es)) :
    ∃ os, Machine.run (feedStep D E route) s chunks = some (s₁, os) ∧ es = os.flatten := by
  induction chunks generalizing s es with
  | nil => cases h; exact ⟨[], rfl, rfl⟩
  | cons bytes chunks ih =>
    rw [readbufLoop] at h
    cases hread : readInto bytes s with
    | none => rw [hread] at h; cases h
    | some s₀ =>
      rw [hread] at h
      cases hloop : readbufLoop D E route chunks (dispatchReceivedMetrics D E route s₀).1 with
      | none => simp only [hloop] at h; cases h
      | some r =>
        obtain ⟨s₂, es'⟩ := r
        simp only [hloop] at h
        cases h
        obtain ⟨os, hrun, rfl⟩ := ih hloop
        refine ⟨(dispatchReceivedMetrics D E route s₀).2 :: os, ?_, rfl⟩
        refine Machine.run_cons_eq_some.2 ⟨_, _, os, ?_, hrun, rfl⟩
        rw [feedStep, hread]
        rfl

theorem readbufLoop_keeps (h : readbufLoop D E route chunks s = some (s₁, es)) :
    Keeps (Machine.Along (feedStep D E route) (PassOK D) s chunks) s s₁ es := by
  obtain ⟨os, hrun, rfl⟩ := readbufLoop_eq_run h
  exact Machine.run_along (K := Keeps) Keeps.refl (fun _ _ _ _ _ _ _ => Keeps.append)
    (fun _ _ _ _ => feedStep_keeps) hrun

/-- The buffer is processed without pending destinations, and then what the stream still holds. -/
theorem processBuffer_keeps (hs : s.conn.dests = [])
    (h : processBuffer D E route chunks s = some (s₁, es)) :
    Keeps ((dispatchReceivedMetrics D E route s).1.conn.transport.buffered = true →
      Machine.Along (feedStep D E route) (PassOK D) (dispatchReceivedMetrics D E route s).1 chunks)
      s s₁ es := by
  have hpass := (dispatchReceivedMetrics_keeps D E route s).congr (iff_true_intro (.inl hs))
  rw [processBuffer] at h
  generalize dispatchReceivedMetrics D E route s = r at h hpass ⊢
  obtain ⟨s₀, es₀⟩ := r
  dsimp only at h hpass ⊢
  split at h
  case isTrue hbuf =>
    cases hloop : readbufLoop D E route chunks s₀ with
    | none => rw [hloop] at h; cases h
    | some r =>
      obtain ⟨s₂, es'⟩ := r
      rw [hloop] at h
      cases h
      refine (hpass.append (readbufLoop_keeps hloop)).congr ?_
      simp only [true_and, hbuf, true_implies]
  case isFalse hbuf =>
    cases h
    exact hpass.congr (iff_of_true trivial fun h => absurd h hbuf)

theorem Keeps.endConnection {ok : Prop} (h : Keeps ok s s₁ es) (ended : Bool) :
    Keeps ok s (endConnection ended s₁).2 es := by
  rw [CarbonRelay.endConnection]
  split
  · split
    · exact h.of_dests_eq rfl rfl
    · split
      · exact h
      · exact h
  · exact h

/-- The part of `dispatch_connection` behind the read. -/
theorem processBuffer_endConnection_keeps {s₀ s₂ : DispatchState δ} {es₀ : List (DispatchEvent δ)}
    {enomem : Bool} {served : Served} (hkeeps : Keeps True s s₀ es₀)
    (hs₀ : s₀.conn.dests = []) (hs₂ : s₂.conn.dests = [])
    (htransport : s₂.conn.transport = s₀.conn.transport)
    (h : (match processBuffer D E route chunks s₂ with
      | none => none
      | some (s₃, es') =>
        let (served, s₄) := endConnection (s₃.conn.transport.buffered && enomem) s₃
        some (served, s₄, es₀ ++ es')) = some (served, s₁, es)) :
    Keeps ((dispatchReceivedMetrics D E route s₂).1.conn.transport.buffered = true →
      Machine.Along (feedStep D E route) (PassOK D) (dispatchReceivedMetrics D E route s₂).1 chunks)
      s s₁ es := by
  cases hbuf : processBuffer D E route chunks s₂ with
  | none => rw [hbuf] at h; cases h
  | some r =>
    obtain ⟨s₃, es'⟩ := r
    rw [hbuf] at h
    cases h
    have hall := (hkeeps.of_dests_eq (hs₂.trans hs₀.symm) htransport).append
      (processBuffer_keeps hs₂ hbuf)
    exact (hall.congr (iff_of_eq (true_and _))).endConnection _

/-- `dispatch_connection` starts with the destinations that are left, so only the loop over what a
compressed stream still holds can go wrong. -/
theorem dispatchConnection_keeps {call : Call δ} {served : Served}
    (h : dispatchConnection D E call.route call.start call.input s = some (served, s₁, es)) :
    Keeps (CallOK D E s call) s s₁ es := by
  rcases hproc : dispatchProcessDests E call.start s with ⟨b, s₀, es₀⟩
  obtain ⟨hkeeps, hdone⟩ := dispatchProcessDests_keeps hproc
  rw [dispatchConnection, hproc] at h
  rw [CallOK, readbufStart, hproc]
  cases b with
  | false =>
    cases h
    exact hkeeps.congr (iff_of_true trivial fun s₁ hs₁ => absurd hs₁ (not_mem_none s₁))
  | true =>
    have hdests := hdone rfl
    dsimp only at h ⊢
    by_cases hready : (!s₀.conn.needmore && !s₀.conn.buf.isEmpty) = true
    · rw [if_pos hready] at h
      rw [bufferFor, if_pos hready]
      refine (processBuffer_endConnection_keeps hkeeps hdests hdests rfl h).congr ?_
      simp [mem_def]
    · rw [if_neg hready] at h
      rw [bufferFor, if_neg hready]
      have hnone : True ↔ ∀ s₁ ∈ ((none : Option (DispatchState δ)).map fun s =>
          (dispatchReceivedMetrics D E call.route s).1).filter (·.conn.transport.buffered),
          Machine.Along (feedStep D E call.route) (PassOK D) s₁ call.input.readbuf :=
        iff_of_true trivial fun s₁ hs₁ => absurd hs₁ (not_mem_none s₁)
      cases hread : call.input.read with
      | data bytes =>
        rw [hread] at h
        dsimp only at h ⊢
        cases hinto : readInto bytes s₀ with
        | none => rw [hinto] at h; cases h
        | some s₂ =>
          rw [hinto] at h
          obtain ⟨-, -, hs₂⟩ := readInto_eq_some.1 hinto
          refine (processBuffer_endConnection_keeps hkeeps hdests (by rw [hs₂]; exact hdests)
            (by rw [hs₂]) h).congr ?_
          simp [mem_def]
      | again => rw [hread] at h; cases h; exact hkeeps.congr hnone
      | eof =>
        rw [hread] at h
        cases h
        exact (hkeeps.congr hnone).endConnection true
      | error =>
        rw [hread] at h
        cases h
        exact (hkeeps.congr hnone).endConnection true

theorem connectionStep_keeps {c c₁ : Served × DispatchState δ} {call : Call δ}
    (h : connectionStep D E c call = some (c₁, es)) : Keeps (CallOK D E c.2 call) c.2 c₁.2 es := by
  rw [connectionStep] at h
  split at h
  case isTrue => cases h
  case isFalse =>
    obtain ⟨⟨served, s₁, es₁⟩, hconn, heq⟩ := map_eq_some_iff.1 h
    cases heq
    exact dispatchConnection_keeps hconn

/-- A run keeps the outbox orderly exactly if every call does. -/
theorem connection_keeps {calls : List (Call δ)} {c c₁ : Served × DispatchState δ}
    {os : List (List (DispatchEvent δ))}
    (hrun : Machine.run (connectionStep D E) c calls = some (c₁, os)) :
    Keeps (Machine.Along (connectionStep D E) (fun c call => CallOK D E c.2 call) c calls) c.2 c₁.2
      os.flatten :=
  Machine.run_along (P := fun c call => CallOK D E c.2 call)
    (K := fun ok (c c₁ : Served × DispatchState δ) es => Keeps ok c.2 c₁.2 es)
    (fun c => Keeps.refl c.2) (fun _ _ _ _ _ _ _ => Keeps.append)
    (fun _ _ _ _ => connectionStep_keeps) hrun

/-- Only a stream with `strmreadbuf` is read there. -/
theorem callOK_of_not_buffered (htransport : s.conn.transport.buffered = false) (call : Call δ) :
    CallOK D E s call := by
  intro s₃ hs₃
  rw [readbufStart] at hs₃
  rcases hproc : dispatchProcessDests E call.start s with ⟨b, s₀, es₀⟩
  rw [hproc] at hs₃
  cases b with
  | false => exact absurd hs₃ (not_mem_none s₃)
  | true =>
    obtain ⟨hs₃, hbuffered⟩ := mem_filter_iff.1 hs₃
    obtain ⟨s₂, hs₂, rfl⟩ := map_eq_some_iff.1 hs₃
    have hbuf : s₂.conn.transport = s₀.conn.transport := by
      rw [bufferFor] at hs₂
      split at hs₂
      · cases hs₂; rfl
      · split at hs₂
        · obtain ⟨-, -, rfl⟩ := readInto_eq_some.1 hs₂
          rfl
        all_goals cases hs₂
    rw [(dispatchReceivedMetrics_keeps D E call.route s₂).transport, hbuf,
      (dispatchProcessDests_keeps hproc).1.transport, htransport] at hbuffered
    cases hbuffered

/-- A connection without `strmreadbuf`, such as a plain one, is orderly in every run. -/
theorem orderly_of_not_buffered {calls : List (Call δ)} {c : Served × DispatchState δ}
    {os : List (List (DispatchEvent δ))} (hs : s.conn.dests = [])
    (htransport : s.conn.transport.buffered = false)
    (hrun : Machine.run (connectionStep D E) (.done, s) calls = some (c, os)) :
    Orderly os.flatten c.2.conn.dests := by
  have hkeeps := (connection_keeps hrun).run (Machine.along_of_invariant
    (I := fun c => c.2.conn.transport.buffered = false)
      (fun c call hc => callOK_of_not_buffered hc call)
    (fun c call c' es hc hstep => by rw [(connectionStep_keeps hstep).transport]; exact hc)
    calls htransport)
  rw [orderly_iff]
  rwa [hs] at hkeeps

end

/-- However often a connection is served, and whatever is read and sent in it: each destination
takes its metric once, in order and before those of later metrics, exactly if no pass over what a
compressed stream still holds accepts a line while destinations are pending. -/
theorem connection_orderly_iff (D : Dispatcher) (E : DispatchEnv) (s : DispatchState δ)
    (hs : s.conn.dests = []) (calls : List (Call δ)) (c : Served × DispatchState δ)
    (os : List (List (DispatchEvent δ)))
    (hrun : Machine.run (connectionStep D E) (.done, s) calls = some (c, os)) :
    Orderly os.flatten c.2.conn.dests ↔
      Machine.Along (connectionStep D E) (fun c call => CallOK D E c.2 call) (.done, s) calls := by
  have hkeeps := connection_keeps hrun
  rw [orderly_iff]
  constructor
  · intro horderly
    by_contra hnot
    refine hkeeps.not_run hnot c.2.conn.dests ?_
    rwa [hs]
  · intro hok
    have hrun' := hkeeps.run hok
    rwa [hs] at hrun'

/-- A gzip connection with three lines, the first two of which are read at once. The second one
stalls at its first send, and what the stream still holds is only the start of the third line. The
next call sends to the destination that is left before it goes on. -/
theorem connection_orderly_resumed :
    let s : DispatchState Text :=
  ⟨⟨.gzip, [], 32768, [], ⟨0, 0⟩, 0, false, false, false⟩, 0, 0, 0, 0⟩
    let E : DispatchEnv := ⟨fun tick _ => tick ≠ 5, fun _ => ⟨0, 0⟩, fun _ => 0⟩
    let D := dispatchInit ['-', '_'] 32768 32768
    let route : Text → Nat → List Text × Nat := fun metric _ => ([metric], 0)
    let calls : List (Call Text) :=
      [⟨route, ⟨0, 0⟩, ⟨.data "a 1 1\nb 1 1\n".toList, ["c 1".toList], false⟩⟩,
        ⟨route, ⟨1, 0⟩, ⟨.data " 1\n".toList, [], false⟩⟩]
    ∃ c os, Machine.run (connectionStep D E) (.done, s) calls = some (c, os) ∧
      Orderly os.flatten c.2.conn.dests ∧
      sentOf os.flatten = ["a 1 1\n".toList, "b 1 1\n".toList, "c 1 1\n".toList] := by
  intro s E D route calls
  have hsent : (Machine.run (connectionStep D E) (.done, s) calls).map
      (fun r => sentOf r.2.flatten) =
      some ["a 1 1\n".toList, "b 1 1\n".toList, "c 1 1\n".toList] := by decide +kernel
  obtain ⟨⟨c, os⟩, hrun, hsent⟩ := map_eq_some_iff.1 hsent
  exact ⟨c, os, hrun, (connection_orderly_iff D E s rfl calls c os hrun).2
    (by decide +kernel), hsent⟩

/-- The destination of the first line stalls, and the second line, which the gzip stream still
holds, is routed over it: the first line is lost. -/
theorem readbuf_overwrites_dests :
    let s : DispatchState Text :=
  ⟨⟨.gzip, [], 32768, [], ⟨0, 0⟩, 0, false, false, false⟩, 0, 0, 0, 0⟩
    let E : DispatchEnv := ⟨fun tick _ => tick ≠ 2, fun _ => ⟨0, 0⟩, fun _ => 0⟩
    let D := dispatchInit ['-', '_'] 32768 32768
    let route : Text → Nat → List Text × Nat := fun metric _ => ([metric], 0)
    let calls : List (Call Text) :=
      [⟨route, ⟨0, 0⟩, ⟨.data "a 1 1\n".toList, ["b 1 1\n".toList], false⟩⟩]
    ∃ c os, Machine.run (connectionStep D E) (.done, s) calls = some (c, os) ∧
      destsOf os.flatten = ["a 1 1\n".toList, "b 1 1\n".toList] ∧
      sentOf os.flatten = ["b 1 1\n".toList] ∧ c.2.conn.dests = [] ∧
      ¬ Orderly os.flatten c.2.conn.dests := by
  intro s E D route calls
  have hlost : (Machine.run (connectionStep D E) (.done, s) calls).map
      (fun r => (destsOf r.2.flatten, sentOf r.2.flatten, r.1.2.conn.dests)) =
      some (["a 1 1\n".toList, "b 1 1\n".toList], ["b 1 1\n".toList], []) := by decide +kernel
  obtain ⟨⟨c, os⟩, hrun, heq⟩ := map_eq_some_iff.1 hlost
  obtain ⟨hdests, hsent, hpending⟩ : _ ∧ _ ∧ _ := by simpa only [Prod.mk.injEq] using heq
  refine ⟨c, os, hrun, hdests, hsent, hpending, fun h => ?_⟩
  have honce := h.once
  rw [hdests, hsent, hpending] at honce
  exact absurd honce (by decide)

end CarbonRelay
