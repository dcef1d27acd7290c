import Mathlib.Data.List.Basic

/-!
# Bounded double-ended queues

A bounded deque is a list with a proof that it is no longer than its capacity. Pushing at the back
of a full deque drops the element at the front; pushing at the front of a full deque is refused.
-/

universe u

/-- A list of at most `cap` elements. -/
structure BoundedDeque (α : Type u) (cap : Nat) where
  items : List α
  length_le : items.length ≤ cap

namespace BoundedDeque

open List

variable {α : Type u} {cap : Nat}

/-- The deque without elements. -/
def empty : BoundedDeque α cap := ⟨[], Nat.zero_le cap⟩

/-- Appends an element; a full deque first drops its front, which is returned. -/
def pushBack (hcap : 0 < cap) (d : BoundedDeque α cap) (x : α) : BoundedDeque α cap × List α :=
  if h : d.items.length = cap then
    (⟨d.items.tail ++ [x], by
      simp only [length_append, length_tail, length_singleton]; omega⟩,
      d.items.take 1)
  else
    (⟨d.items ++ [x], by
      have := d.length_le
      simp only [length_append, length_singleton]; omega⟩, [])

/-- Removes the front element, if there is one. -/
def popFront (d : BoundedDeque α cap) : BoundedDeque α cap × Option α :=
  (⟨d.items.tail, by have := d.length_le; simp only [length_tail]; omega⟩, d.items.head?)

/-- Removes the first `k` elements, or all of them if there are fewer. -/
def popFrontN (d : BoundedDeque α cap) (k : Nat) : BoundedDeque α cap × List α :=
  (⟨d.items.drop k, by have := d.length_le; simp only [length_drop]; omega⟩, d.items.take k)

/-- Prepends an element unless the deque is full. -/
def pushFront (d : BoundedDeque α cap) (x : α) : BoundedDeque α cap × Bool :=
  if h : d.items.length = cap then (d, false)
  else (⟨x :: d.items, by have := d.length_le; simp only [length_cons]; omega⟩, true)

variable {d : BoundedDeque α cap}

theorem pushBack_full (hcap : 0 < cap) (h : d.items.length = cap) (x : α) :
    (d.pushBack hcap x).1.items = d.items.tail ++ [x] ∧ (d.pushBack hcap x).2 = d.items.take 1 := by
  rw [pushBack, dif_pos h]; exact ⟨rfl, rfl⟩

theorem pushBack_not_full (hcap : 0 < cap) (h : d.items.length ≠ cap)
    (x : α) : (d.pushBack hcap x).1.items = d.items ++ [x] ∧ (d.pushBack hcap x).2 = [] := by
  rw [pushBack, dif_neg h]; exact ⟨rfl, rfl⟩

theorem pushFront_full (h : d.items.length = cap) (x : α) : d.pushFront x = (d, false) := by
  rw [pushFront, dif_pos h]

theorem pushFront_not_full (h : d.items.length ≠ cap) (x : α) :
    (d.pushFront x).1.items = x :: d.items ∧ (d.pushFront x).2 = true := by
  rw [pushFront, dif_neg h]; exact ⟨rfl, rfl⟩

end BoundedDeque
