import Mathlib.Data.List.Induction

/-!
# Outboxes

Entries are posted in batches and delivered one by one. In an orderly run (`Outbox.Run`) a batch is
posted only when nothing is pending, and entries are delivered from the front. Such a run loses
nothing and delivers nothing twice, and every batch is delivered before the next one is posted
(`Outbox.run_nil_iff`).
-/

namespace Outbox

open List

universe u

variable {α : Type u}

/-- What happens to an outbox. -/
inductive Event (α : Type u)
  | posted (batch : List α)
  | delivered (x : α)

/-- An orderly run, from the entries that are pending at its start to those that are pending at its
end. -/
inductive Run : List α → List (Event α) → List α → Prop
  | nil {p : List α} : Run p [] p
  | posted {batch q : List α} {es : List (Event α)} : Run batch es q →
    Run [] (.posted batch :: es) q
  | delivered {x : α} {p q : List α} {es : List (Event α)} :
    Run p es q → Run (x :: p) (.delivered x :: es) q

/-- All entries that were posted, in order. -/
def posted (es : List (Event α)) : List α :=
  es.flatMap fun
    | .posted batch => batch
    | .delivered _ => []

/-- All entries that were delivered, in order. -/
def delivered (es : List (Event α)) : List α :=
  es.flatMap fun
    | .posted _ => []
    | .delivered x => [x]

variable {p q r batch : List α} {es es' : List (Event α)} {x : α}

@[simp] theorem posted_append : posted (es ++ es') = posted es ++ posted es' := flatMap_append

@[simp] theorem delivered_append : delivered (es ++ es') = delivered es ++ delivered es' :=
  flatMap_append

theorem Run.append (h : Run p es q) (h' : Run q es' r) : Run p (es ++ es') r := by
  induction h with
  | nil => exact h'
  | posted _ ih => exact .posted (ih h')
  | delivered _ ih => exact .delivered (ih h')

theorem Run.exists_append (h : Run p (es ++ es') r) : ∃ q, Run p es q ∧ Run q es' r := by
  induction es generalizing p with
  | nil => exact ⟨p, .nil, h⟩
  | cons e es ih =>
    cases h with
    | posted h =>
      obtain ⟨q, h₁, h₂⟩ := ih h
      exact ⟨q, .posted h₁, h₂⟩
    | delivered h =>
      obtain ⟨q, h₁, h₂⟩ := ih h
      exact ⟨q, .delivered h₁, h₂⟩

/-- What is pending at the end is determined by the run. -/
theorem Run.det (h : Run p es q) (h' : Run p es r) : q = r := by
  induction h with
  | nil => cases h'; rfl
  | posted _ ih => cases h' with | posted h' => exact ih h'
  | delivered _ ih => cases h' with | delivered h' => exact ih h'

/-- No batch is posted while something is pending. -/
theorem not_run_posted (h : p ≠ []) : ¬ Run p (.posted batch :: es) q := by
  intro hrun
  cases hrun
  exact h rfl

/-- Nothing is lost, and nothing is delivered twice or out of order. -/
theorem Run.delivered_append (h : Run p es q) :
    Outbox.delivered es ++ q = p ++ Outbox.posted es := by
  induction h with
  | nil => exact (append_nil _).symm
  | posted _ ih => exact ih
  | delivered _ ih => exact congrArg (List.cons _) ih

/-- An orderly run from an empty outbox: what is delivered and what is pending is what was posted,
in order, and everything is delivered when a batch is posted. -/
theorem run_nil_iff : Run [] es q ↔ delivered es ++ q = posted es ∧
    ∀ es₁ batch es₂, es = es₁ ++ .posted batch :: es₂ → delivered es₁ = posted es₁ := by
  constructor
  · intro h
    refine ⟨h.delivered_append, ?_⟩
    rintro es₁ batch es₂ rfl
    obtain ⟨p, h₁, h₂⟩ := h.exists_append
    cases h₂
    simpa using h₁.delivered_append
  · induction es using reverseRecOn generalizing q with
    | nil =>
      rintro ⟨heq, -⟩
      cases (show q = [] from heq)
      exact .nil
    | append_singleton es e ih =>
      rintro ⟨heq, hsettled⟩
      have hsettled' : ∀ es₁ batch es₂, es = es₁ ++ .posted batch :: es₂ →
          delivered es₁ = posted es₁ := fun es₁ batch es₂ h =>
        hsettled es₁ batch (es₂ ++ [e]) (by rw [h, append_assoc]; rfl)
      rw [delivered_append, posted_append, append_assoc] at heq
      cases e with
      | posted batch =>
        have hdone := hsettled es batch [] rfl
        have hq : q = batch ++ [] := by
          rw [hdone] at heq
          exact append_cancel_left heq
        have hrun : Run [] es [] := ih ⟨by rw [hdone, append_nil], hsettled'⟩
        rw [hq, append_nil]
        exact hrun.append (.posted .nil)
      | delivered x =>
        have hrun : Run [] es (x :: q) := ih ⟨by
          rw [show posted [Event.delivered x] = [] from rfl, append_nil] at heq
          exact heq, hsettled'⟩
        exact hrun.append (.delivered .nil)

end Outbox
