import Mathlib.Data.List.Destutter
import Mathlib.Tactic.Common

/-!
# Squeezing separators

A list is squeezed when its leading separators are dropped and every run of one separator is reduced
to a single element. Elements that are not separators stay, so a squeezed list keeps its members and
its last element, and a list is its own squeezed form exactly if it does not start with a separator
and repeats none.
-/

namespace Squeeze

open List

universe u

variable {α : Type u} {sep : α → Bool} {a b : α} {x : List α}

/-- An element may follow another one, unless both are the same separator. -/
def MayFollow (sep : α → Bool) (a b : α) : Prop := sep b = true → a ≠ b

theorem mayFollow_of_not_sep (h : sep b = false) : MayFollow sep a b := fun hsep =>
  absurd (h.symm.trans hsep) Bool.false_ne_true

/-- Only a repeated separator may not follow. -/
theorem eq_of_not_mayFollow (h : ¬ MayFollow sep a b) : a = b := by
  rw [MayFollow, Classical.not_imp, not_not] at h
  exact h.2

variable [DecidableEq α]

instance (sep : α → Bool) : DecidableRel (MayFollow sep) := fun a b =>
  inferInstanceAs (Decidable (sep b = true → a ≠ b))

/-- A list without its leading separators and without repeated ones. -/
def squeeze (sep : α → Bool) (x : List α) : List α := (x.dropWhile sep).destutter (MayFollow sep)

/-- What is dropped is equal to what is kept in front of it. -/
theorem mem_destutter'_iff : b ∈ x.destutter' (MayFollow sep) a ↔ b ∈ a :: x := by
  induction x generalizing a with
  | nil => rfl
  | cons c x ih =>
    by_cases h : MayFollow sep a c
    · rw [destutter'_cons_pos x h, mem_cons, ih, mem_cons (l := c :: x)]
    · rw [destutter'_cons_neg x h, ih, eq_of_not_mayFollow h]
      simp

theorem getLast?_destutter' : (x.destutter' (MayFollow sep) a).getLast? = (a :: x).getLast? := by
  induction x generalizing a with
  | nil => rfl
  | cons c x ih =>
    by_cases h : MayFollow sep a c
    · rw [destutter'_cons_pos x h, getLast?_cons, ih, getLast?_cons_cons, getLast?_cons]
      rfl
    · rw [destutter'_cons_neg x h, ih, eq_of_not_mayFollow h, getLast?_cons_cons]

theorem head?_destutter' : (x.destutter' (MayFollow sep) a).head? = some a := by
  induction x with
  | nil => rfl
  | cons c x ih =>
    by_cases h : MayFollow sep a c
    · rw [destutter'_cons_pos x h]
      rfl
    · rw [destutter'_cons_neg x h, ih]

theorem squeeze_of_not_sep (h : sep a = false) :
    squeeze sep (a :: x) = x.destutter' (MayFollow sep) a := by
  rw [squeeze, dropWhile_cons_of_neg (by rw [h]; exact Bool.false_ne_true)]
  rfl

theorem isChain_squeeze (sep : α → Bool) (x : List α) : (squeeze sep x).IsChain (MayFollow sep) :=
  isChain_destutter _ _

theorem squeeze_eq_nil_iff : squeeze sep x = [] ↔ x.dropWhile sep = [] := destutter_eq_nil _

theorem mem_squeeze_iff : b ∈ squeeze sep x ↔ b ∈ x.dropWhile sep := by
  rw [squeeze]
  cases x.dropWhile sep with
  | nil => rfl
  | cons a x => exact mem_destutter'_iff

theorem getLast?_squeeze : (squeeze sep x).getLast? = (x.dropWhile sep).getLast? := by
  rw [squeeze]
  cases x.dropWhile sep with
  | nil => rfl
  | cons a x => exact getLast?_destutter'

/-- The first element is the first one that is not a separator. -/
theorem head?_squeeze : (squeeze sep x).head? = (x.dropWhile sep).head? := by
  rw [squeeze]
  cases x.dropWhile sep with
  | nil => rfl
  | cons a x => exact head?_destutter'

theorem not_sep_of_mem_head?_squeeze (h : a ∈ (squeeze sep x).head?) : sep a = false := by
  have hhead := head?_dropWhile_not sep x
  rw [head?_squeeze] at h
  rw [Option.mem_def.1 h] at hhead
  exact hhead

/-- A list is its own squeezed form exactly if it does not start with a separator and repeats none.
-/
theorem squeeze_eq_self_iff :
    squeeze sep x = x ↔ (∀ a ∈ x.head?, sep a = false) ∧ x.IsChain (MayFollow sep) := by
  constructor
  · intro h
    refine ⟨fun a ha => ?_, h ▸ isChain_squeeze sep x⟩
    rw [← h] at ha
    exact not_sep_of_mem_head?_squeeze ha
  · rintro ⟨hhead, hchain⟩
    cases x with
    | nil => rfl
    | cons a x =>
      rw [squeeze_of_not_sep (hhead a rfl)]
      exact destutter'_of_isChain_cons x _ hchain

end Squeeze
