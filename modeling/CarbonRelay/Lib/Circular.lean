import Mathlib.Data.List.Basic

/-!
# A list stored in a circular array

`Circular.slot n r i` is the cell `i` places after `r` in a circle of `n` cells, for a start `r`
that may rest at `n` (one past the last cell, a wrap not yet taken). `Circular.Holds cells n r xs`
says that the cells from `r` on hold the list `xs` in order. The lemmas move `Holds` across the
three changes a queue makes: a write behind the last element, the removal of the first element, and
a write before the first element.
-/

namespace Circular

open List

universe u

variable {α : Type u} {cells : List (Option α)} {xs : List α} {n r i j : Nat}

/-- The cell `i` places after `r` in a circle of `n` cells. -/
def slot (n r i : Nat) : Nat := if r + i < n then r + i else r + i - n

/-- The start `r` with a pending wrap taken. -/
def wrap (n r : Nat) : Nat := if r = n then 0 else r

/-- The cells from `r` on, in circular order, hold the list `xs`. -/
def Holds (cells : List (Option α)) (n r : Nat) (xs : List α) : Prop :=
  ∀ i (h : i < xs.length), cells[slot n r i]? = some (some xs[i])

theorem slot_lt (hr : r ≤ n) (hi : i < n) : slot n r i < n := by
  unfold slot; split <;> omega

theorem slot_inj (hi : i < n) (hj : j < n) (h : slot n r i = slot n r j) : i = j := by
  unfold slot at h; split at h <;> split at h <;> omega

theorem wrap_lt (hn : 0 < n) (hr : r ≤ n) : wrap n r < n := by
  unfold wrap; split <;> omega

theorem slot_zero (hr : r ≤ n) : slot n r 0 = wrap n r := by
  unfold slot wrap; split <;> split <;> omega

/-- Stepping over the first cell moves every later cell one place nearer. -/
theorem slot_wrap_succ (hi : i + 1 < n) : slot n (wrap n r + 1) i = slot n r (i + 1) := by
  unfold slot wrap; split <;> split <;> split <;> omega

variable {r' : Nat} {x : α}

/-- The start one place before `r` has `r` as its next cell. -/
theorem slot_pred_succ (hi : i + 1 < n)
    (hr' : r' + 1 = if r = 0 then n else r) : slot n r' (i + 1) = slot n r i := by
  unfold slot; split at hr' <;> split <;> split <;> omega

theorem slot_pred_zero (hr : r ≤ n) (hr' : r' + 1 = if r = 0 then n else r) : slot n r' 0 = r' := by
  unfold slot; split at hr' <;> split <;> omega

/-- The cell behind cell `i` of the circle, as a start that still has to wrap. -/
theorem wrap_slot_succ (hr : r ≤ n) (hi : i + 1 < n) :
    wrap n (slot n r i + 1) = slot n r (i + 1) := by
  unfold wrap slot; split <;> split <;> split <;> omega

theorem wrap_slot_succ_full (hr : r ≤ n) (hi : i + 1 = n) : wrap n (slot n r i + 1) = wrap n r := by
  unfold wrap slot; split <;> split <;> split <;> omega

theorem holds_nil : Holds cells n r [] := fun _ h => absurd h (Nat.not_lt_zero _)

/-- The first element of a stored list is in the wrapped start cell. -/
theorem Holds.head (h : Holds cells n r (x :: xs)) (hr : r ≤ n) :
    cells[wrap n r]? = some (some x) := by
  have h0 := h 0 (Nat.succ_pos _)
  rwa [slot_zero hr] at h0

/-- Moving the start over the first cell removes the first element. -/
theorem Holds.tail (h : Holds cells n r (x :: xs))
    (hlen : (x :: xs).length ≤ n) : Holds cells n (wrap n r + 1) xs := by
  intro i hi
  have hi' : i + 1 < n := by simp only [length_cons] at hlen; omega
  rw [slot_wrap_succ hi']
  exact h (i + 1) (Nat.succ_lt_succ hi)

/-- A write to the cell behind the last element appends an element. -/
theorem Holds.set_back (h : Holds cells n r xs) (hr : r ≤ n) (hlen : xs.length < n)
    (hcells : cells.length = n) :
    Holds (cells.set (slot n r xs.length) (some x)) n r (xs ++ [x]) := by
  intro i hi
  rw [length_append, length_singleton] at hi
  rcases Nat.lt_or_eq_of_le (Nat.le_of_lt_succ hi) with hlt | rfl
  · have hne : slot n r xs.length ≠ slot n r i := fun he =>
      absurd (slot_inj hlen (Nat.lt_trans hlt hlen) he) (Nat.ne_of_gt hlt)
    rw [getElem?_set_ne hne, h i hlt, getElem_append_left hlt]
  · have hlt := slot_lt hr hlen
    rw [getElem?_set_self (hcells ▸ hlt)]
    simp

/-- A write to the cell before the start prepends an element. -/
theorem Holds.set_front (h : Holds cells n r xs) (hr : r ≤ n)
    (hlen : xs.length < n) (hcells : cells.length = n) (hr' : r' + 1 = if r = 0 then n else r) :
    Holds (cells.set r' (some x)) n r' (x :: xs) := by
  have hrn : r' < n := by split at hr' <;> omega
  intro i hi
  cases i with
  | zero =>
    rw [slot_pred_zero hr hr', getElem?_set_self (hcells ▸ hrn)]
    rfl
  | succ i =>
    have hi' : i + 1 < n := by simp only [length_cons] at hi; omega
    have hne : r' ≠ slot n r' (i + 1) := by
      unfold slot; split <;> omega
    rw [getElem?_set_ne hne, slot_pred_succ hi' hr']
    exact h i (by simpa using hi)

end Circular
