import Mathlib.Data.List.Basic

/-!
# Machines, their runs, and simulation between them

A machine is a partial step function `σ → ι → Option (σ × ο)`: from a state and an input it gives
the next state and an output, and `none` is a step that has no defined meaning (an access outside an
array, say). A run feeds it a list of inputs (`Machine.run`). The rules of this file carry a fact
about one step to whole runs: an invariant (`Machine.run_trace_invariant`), a fact that a step keeps
exactly on a condition (`Machine.run_along`), and a forward simulation of another machine that also
shows the run is defined (`Machine.run_simulates`).
-/

namespace Machine

open List

universe u v w x

variable {σ : Type u} {τ : Type x} {ι : Type v} {ο : Type w}

/-- The run of a machine over a list of inputs: the state reached and the outputs in order. It is
undefined as soon as one step is. -/
def run (step : σ → ι → Option (σ × ο)) : σ → List ι → Option (σ × List ο)
  | s, [] => some (s, [])
  | s, i :: is =>
    match step s i with
    | none => none
    | some (s', o) =>
      match run step s' is with
      | none => none
      | some (s'', os) => some (s'', o :: os)

/-- What holds of a result that there is. -/
theorem exists_some {r : Option σ} {P : σ → Prop} (hr : r.isSome = true)
    (h : ∀ s, r = some s → P s) : ∃ s, r = some s ∧ P s := by
  obtain ⟨s, hr⟩ := Option.isSome_iff_exists.1 hr
  exact ⟨s, hr, h s hr⟩

/-- What holds of the state and the outputs of a run that is defined. -/
theorem exists_of_isSome {r : Option (σ × ο)} {P : σ → ο → Prop} (hr : r.isSome = true)
    (h : ∀ s o, r = some (s, o) → P s o) : ∃ s o, r = some (s, o) ∧ P s o := by
  obtain ⟨⟨s, o⟩, hr⟩ := Option.isSome_iff_exists.1 hr
  exact ⟨s, o, hr, h s o hr⟩

/-- The same of a run with outputs that are known. -/
theorem exists_of_outputs {r : Option (σ × ο)} {P : σ → ο → Prop} {o : ο}
    (hr : r.map Prod.snd = some o) (h : ∀ s, P s o) : ∃ s o, r = some (s, o) ∧ P s o := by
  obtain ⟨⟨s, o⟩, hrun, rfl⟩ := Option.map_eq_some_iff.1 hr
  exact ⟨s, o, hrun, h s⟩

variable {step : σ → ι → Option (σ × ο)} {I : σ → Prop} {P : σ → ι → Prop}

/-- A defined run on a non-empty input list is a defined step followed by a defined run. -/
theorem run_cons_eq_some {s s'' : σ} {i : ι} {is : List ι}
    {os : List ο} : run step s (i :: is) = some (s'', os) ↔
      ∃ s' o os', step s i = some (s', o) ∧ run step s' is = some (s'', os') ∧ os = o :: os' := by
  constructor
  · intro h
    rw [run] at h
    cases hs : step s i with
    | none => rw [hs] at h; cases h
    | some p =>
      obtain ⟨s', o⟩ := p
      rw [hs] at h
      dsimp only at h
      cases hr : run step s' is with
      | none => rw [hr] at h; cases h
      | some r =>
        obtain ⟨t, os'⟩ := r
        rw [hr] at h
        cases h
        exact ⟨s', o, os', rfl, hr, rfl⟩
  · rintro ⟨s', o, os', hs, hr, rfl⟩
    simp [run, hs, hr]

/-- A run over two lists of inputs is a run over the first followed by a run over the second. -/
theorem run_append_eq_some {is js : List ι} {s s'' : σ}
    {os : List ο} : run step s (is ++ js) = some (s'', os) ↔
      ∃ s' os₁ os₂, run step s is = some (s', os₁) ∧ run step s' js = some (s'', os₂) ∧
        os = os₁ ++ os₂ := by
  induction is generalizing s os with
  | nil =>
    constructor
    · intro h
      exact ⟨s, [], os, rfl, h, rfl⟩
    · rintro ⟨_, _, _, h, hr, rfl⟩
      cases h
      exact hr
  | cons i is ih =>
    rw [cons_append, run_cons_eq_some]
    constructor
    · rintro ⟨s₁, o, os', hi, hr, rfl⟩
      obtain ⟨s', os₁, os₂, h₁, h₂, rfl⟩ := ih.1 hr
      exact ⟨s', o :: os₁, os₂, run_cons_eq_some.2 ⟨s₁, o, os₁, hi, h₁, rfl⟩, h₂, rfl⟩
    · rintro ⟨s', _, os₂, h, h₂, rfl⟩
      obtain ⟨s₁, o, os₁, hi, h₁, rfl⟩ := run_cons_eq_some.1 h
      exact ⟨s₁, o, os₁ ++ os₂, hi, ih.2 ⟨s', os₁, os₂, h₁, h₂, rfl⟩, rfl⟩

/-- An invariant that relates the state to all outputs so far, where a step puts out a list. -/
theorem run_trace_invariant {ε : Type w} {step : σ → ι → Option (σ × List ε)}
    {I : List ε → σ → Prop} {p : ι → Prop}
    (hstep : ∀ tr s i s' o, p i → I tr s → step s i = some (s', o) → I (tr ++ o) s') :
    ∀ {is : List ι} {tr : List ε} {s s' : σ} {os : List (List ε)}, (∀ i ∈ is, p i) → I tr s →
      run step s is = some (s', os) → I (tr ++ os.flatten) s' := by
  intro is
  induction is with
  | nil => intro tr s s' os _ hs h; cases h; rwa [flatten_nil, append_nil]
  | cons i is ih =>
    intro tr s s'' os hp hs h
    obtain ⟨s', o, os', hi, hr, rfl⟩ := run_cons_eq_some.1 h
    have := ih (fun j hj => hp j (mem_cons_of_mem i hj))
      (hstep tr s i s' o (hp i mem_cons_self) hs hi) hr
    rwa [append_assoc, ← flatten_cons] at this

/-- Forward simulation: where every abstract step from related states is matched by a concrete step
with the same output and related results, every abstract run is matched by a concrete run with the
same outputs. In particular the concrete run is defined. -/
theorem run_simulates {astep : τ → ι → Option (τ × ο)} {R : σ → τ → Prop}
    (hstep : ∀ s t i t' o, R s t → astep t i = some (t', o) →
      ∃ s', step s i = some (s', o) ∧ R s' t') :
    ∀ {is : List ι} {s : σ} {t t' : τ} {os : List ο}, R s t → run astep t is = some (t', os) →
      ∃ s', run step s is = some (s', os) ∧ R s' t' := by
  intro is
  induction is with
  | nil => intro s t t' os hR h; cases h; exact ⟨s, rfl, hR⟩
  | cons i is ih =>
    intro s t t'' os hR h
    obtain ⟨t', o, os', hi, hr, rfl⟩ := run_cons_eq_some.1 h
    obtain ⟨s', hs', hR'⟩ := hstep s t i t' o hR hi
    obtain ⟨s'', hs'', hR''⟩ := ih hR' hr
    exact ⟨s'', run_cons_eq_some.2 ⟨s', o, os', hs', hs'', rfl⟩, hR''⟩

/-- Every step of a run meets a condition on the state it starts in and its input. -/
def Along (step : σ → ι → Option (σ × ο)) (P : σ → ι → Prop) : σ → List ι → Prop
  | _, [] => True
  | s, i :: is =>
    P s i ∧
      match step s i with
      | none => True
      | some (s', _) => Along step P s' is

instance decidableAlong (step : σ → ι → Option (σ × ο)) (P : σ → ι → Prop)
    [∀ s i, Decidable (P s i)] : ∀ s is, Decidable (Along step P s is)
  | _, [] => isTrue trivial
  | s, i :: is =>
    have : Decidable (match step s i with
        | none => True
        | some (s', _) => Along step P s' is) :=
      match step s i with
      | none => isTrue trivial
      | some (s', _) => decidableAlong step P s' is
    instDecidableAnd

/-- A condition that an invariant implies holds along every run. -/
theorem along_of_invariant
    (hP : ∀ s i, I s → P s i) (hstep : ∀ s i s' o, I s → step s i = some (s', o) → I s') :
    ∀ (is : List ι) {s : σ}, I s → Along step P s is := by
  intro is
  induction is with
  | nil => intro s _; trivial
  | cons i is ih =>
    intro s hs
    rw [Along]
    refine ⟨hP s i hs, ?_⟩
    cases hi : step s i with
    | none => trivial
    | some r => exact ih (hstep s i r.1 r.2 hs hi)

section
variable {ε : Type w} {step : σ → ι → Option (σ × List ε)}

/-- What every step keeps exactly on a condition, a run keeps exactly if every step meets its
condition. -/
theorem run_along
    {K : Prop → σ → σ → List ε → Prop} (hnil : ∀ s, K True s s [])
    (happend : ∀ p q s s' s'' es es', K p s s' es → K q s' s'' es' → K (p ∧ q) s s'' (es ++ es'))
    (hstep : ∀ s i s' o, step s i = some (s', o) → K (P s i) s s' o) :
    ∀ {is : List ι} {s s' : σ} {os : List (List ε)}, run step s is = some (s', os) →
      K (Along step P s is) s s' os.flatten := by
  intro is
  induction is with
  | nil => intro s s' os h; cases h; exact hnil s
  | cons i is ih =>
    intro s s'' os h
    obtain ⟨s', o, os', hi, hr, rfl⟩ := run_cons_eq_some.1 h
    rw [Along, hi]
    exact happend _ _ s s' s'' o os'.flatten (hstep s i s' o hi) (ih hr)

/-- Where every step from a state of an invariant puts out only what has a property exactly on a
condition, and on that condition keeps the invariant, a run does so exactly if every step meets its
condition. -/
theorem run_exact {Q : ε → Prop}
    (hstep : ∀ s i s' o, I s → step s i = some (s', o) →
      ((∀ e ∈ o, Q e) ↔ P s i) ∧ (P s i → I s'))
    {is : List ι} {s s' : σ} {os : List (List ε)} (hs : I s) (h : run step s is = some (s', os)) :
    (∀ e ∈ os.flatten, Q e) ↔ Along step P s is := by
  refine (run_along (K := fun p s s' es => I s → ((∀ e ∈ es, Q e) ↔ p) ∧ (p → I s')) ?_ ?_
    ?_ h hs).1
  · exact fun s hs => ⟨iff_of_true nofun trivial, fun _ => hs⟩
  · intro p q s s' s'' es es' hes hes' hs
    obtain ⟨hp, hnext⟩ := hes hs
    rw [forall_mem_append, hp]
    exact ⟨and_congr_right fun hp => (hes' (hnext hp)).1, fun hpq => (hes' (hnext hpq.1)).2 hpq.2⟩
  · exact fun s i s' o hi hs => hstep s i s' o hs hi

/-- Every step of a run meets a condition on the outputs so far, the state it starts in and its
input. -/
def TraceAlong (step : σ → ι → Option (σ × List ε)) (P : List ε → σ → ι → Prop) :
    List ε → σ → List ι → Prop
  | _, _, [] => True
  | tr, s, i :: is =>
    P tr s i ∧
      match step s i with
      | none => True
      | some (s', o) => TraceAlong step P (tr ++ o) s' is

instance decidableTraceAlong (step : σ → ι → Option (σ × List ε))
    (P : List ε → σ → ι → Prop) [∀ tr s i, Decidable (P tr s i)] :
    ∀ tr s is, Decidable (TraceAlong step P tr s is)
  | _, _, [] => isTrue trivial
  | tr, s, i :: is =>
    have : Decidable (match step s i with
        | none => True
        | some (s', o) => TraceAlong step P (tr ++ o) s' is) :=
      match step s i with
      | none => isTrue trivial
      | some (s', o) => decidableTraceAlong step P (tr ++ o) s' is
    instDecidableAnd

/-- A condition met along a run is met along the run that simulates it, if it is by related states.
-/
theorem traceAlong_of_simulates
    {astep : τ → ι → Option (τ × List ε)} {R : σ → τ → Prop} {P : List ε → σ → ι → Prop}
    {Q : List ε → τ → ι → Prop} (hstep : ∀ s t i t' o, R s t → astep t i = some (t', o) →
      ∃ s', step s i = some (s', o) ∧ R s' t') (hPQ : ∀ tr s t i, R s t → Q tr t i → P tr s i) :
    ∀ {is : List ι} {tr : List ε} {s : σ} {t t' : τ} {os : List (List ε)}, R s t →
      run astep t is = some (t', os) → TraceAlong astep Q tr t is → TraceAlong step P tr s is := by
  intro is
  induction is with
  | nil => intro tr s t t' os _ _ _; trivial
  | cons i is ih =>
    intro tr s t t'' os hR h halong
    obtain ⟨t', o, os', hi, hr, rfl⟩ := run_cons_eq_some.1 h
    obtain ⟨s', hs', hR'⟩ := hstep s t i t' o hR hi
    obtain ⟨hQ, halong⟩ := halong
    rw [hi] at halong
    refine ⟨hPQ tr s t i hR hQ, ?_⟩
    rw [hs']
    exact ih hR' hr halong

/-- An invariant that relates the state to all outputs so far, where it is kept by the steps that
meet a condition. -/
theorem run_trace_along
    {P : List ε → σ → ι → Prop} {I : List ε → σ → Prop}
    (hstep : ∀ tr s i s' o, P tr s i → I tr s → step s i = some (s', o) → I (tr ++ o) s') :
    ∀ {is : List ι} {tr : List ε} {s s' : σ} {os : List (List ε)}, TraceAlong step P tr s is →
      I tr s → run step s is = some (s', os) → I (tr ++ os.flatten) s' := by
  intro is
  induction is with
  | nil => intro tr s s' os _ hs h; cases h; rwa [flatten_nil, append_nil]
  | cons i is ih =>
    intro tr s s'' os halong hs h
    obtain ⟨s', o, os', hi, hr, rfl⟩ := run_cons_eq_some.1 h
    obtain ⟨hP, halong⟩ := halong
    rw [hi] at halong
    have := ih halong (hstep tr s i s' o hP hs hi) hr
    rwa [append_assoc, ← flatten_cons] at this

/-- Every input is admissible after the history of those before it, which `next` extends. -/
def Admissible {γ : Type x} (next : γ → ι → γ) (p : γ → ι → Prop) : γ → List ι → Prop
  | _, [] => True
  | c, i :: is => p c i ∧ Admissible next p (next c i) is

/-- An invariant that relates the state to all outputs so far and to the history of the inputs. -/
theorem run_history_invariant {γ : Type x}
    {next : γ → ι → γ} {p : γ → ι → Prop} {I : γ → List ε → σ → Prop}
    (hstep : ∀ c tr s i s' o, p c i → I c tr s → step s i = some (s', o) →
      I (next c i) (tr ++ o) s') :
    ∀ {is : List ι} {c : γ} {tr : List ε} {s s' : σ} {os : List (List ε)},
      Admissible next p c is → I c tr s → run step s is = some (s', os) →
      I (is.foldl next c) (tr ++ os.flatten) s' := by
  intro is
  induction is with
  | nil => intro c tr s s' os _ hs h; cases h; rwa [flatten_nil, append_nil]
  | cons i is ih =>
    intro c tr s s'' os hadm hs h
    obtain ⟨s', o, os', hi, hr, rfl⟩ := run_cons_eq_some.1 h
    have := ih hadm.2 (hstep c tr s i s' o hadm.1 hs hi) hr
    rwa [append_assoc, ← flatten_cons] at this

end

/-- Where every step from a state of an invariant is defined and keeps it, so is every run. -/
theorem exists_run_of_invariant (hstep : ∀ s i, I s → ∃ s' o, step s i = some (s', o) ∧ I s') :
    ∀ (is : List ι) {s : σ}, I s → ∃ s' os, run step s is = some (s', os) ∧ I s' := by
  intro is
  induction is with
  | nil => intro s hs; exact ⟨s, [], rfl, hs⟩
  | cons i is ih =>
    intro s hs
    obtain ⟨s', o, hi, hs'⟩ := hstep s i hs
    obtain ⟨s'', os, hr, hs''⟩ := ih hs'
    exact ⟨s'', o :: os, run_cons_eq_some.2 ⟨s', o, os, hi, hr, rfl⟩, hs''⟩

/-- The same where the steps that meet a condition are defined, for an invariant that relates the
state to the inputs and outputs so far. -/
theorem exists_run_along {I : List (ι × ο) → σ → Prop}
    (hstep : ∀ tr s i, I tr s → P s i → ∃ s' o, step s i = some (s', o) ∧ I (tr ++ [(i, o)]) s') :
    ∀ {is : List ι} {tr : List (ι × ο)} {s : σ}, I tr s → Along step P s is →
      ∃ s' os, run step s is = some (s', os) ∧ os.length = is.length ∧ I (tr ++ is.zip os) s' := by
  intro is
  induction is with
  | nil =>
    intro tr s hs _
    exact ⟨s, [], rfl, rfl, by rwa [zip_nil_right, append_nil]⟩
  | cons i is ih =>
    intro tr s hs halong
    obtain ⟨hP, halong⟩ := halong
    obtain ⟨s', o, hi, hs'⟩ := hstep tr s i hs hP
    rw [hi] at halong
    obtain ⟨s'', os, hr, hlength, hs''⟩ := ih hs' halong
    refine ⟨s'', o :: os, run_cons_eq_some.2 ⟨s', o, os, hi, hr, rfl⟩,
      congrArg Nat.succ hlength, ?_⟩
    rwa [append_assoc] at hs''

/-- A machine whose every step is defined has a run over every input list. -/
theorem exists_run (htotal : ∀ s i, ∃ r, step s i = some r) :
    ∀ (is : List ι) (s : σ), ∃ s' os, run step s is = some (s', os) := by
  intro is
  induction is with
  | nil => intro s; exact ⟨s, [], rfl⟩
  | cons i is ih =>
    intro s
    obtain ⟨⟨s', o⟩, hs⟩ := htotal s i
    obtain ⟨s'', os, hr⟩ := ih s'
    exact ⟨s'', o :: os, run_cons_eq_some.2 ⟨s', o, os, hs, hr, rfl⟩⟩

end Machine
