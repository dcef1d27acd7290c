import Mathlib.Data.List.Basic

/-!
# Writing to a buffer of limited size

A writer that puts pieces behind each other into a buffer and leaves out a piece that does not fit.
The buffer keeps one place free, for a terminator. What was written is never changed, and a piece of
one element is only left out when the buffer is full for good.
-/

namespace Buffer

open List

variable {α : Type} {cap : Nat} {out : List α}

/-- A piece is written as a whole or not at all. -/
def write (cap : Nat) (out piece : List α) : List α :=
  if (out ++ piece).length < cap then out ++ piece else out

/-- Pieces written one after the other. -/
def writeAll (cap : Nat) (out : List α) (pieces : List (List α)) : List α :=
  pieces.foldl (write cap) out

@[simp] theorem writeAll_nil : writeAll cap out [] = out := rfl

@[simp] theorem writeAll_cons (p : List α) (ps : List (List α)) :
    writeAll cap out (p :: ps) = writeAll cap (write cap out p) ps := rfl

theorem writeAll_append (ps qs : List (List α)) :
    writeAll cap out (ps ++ qs) = writeAll cap (writeAll cap out ps) qs := foldl_append

@[simp] theorem write_nil : write cap out [] = out := by
  rw [write, append_nil, ite_self]

theorem write_of_fits {p : List α} (h : (out ++ p).length < cap) : write cap out p = out ++ p :=
  if_pos h

theorem prefix_write (p : List α) : out <+: write cap out p := by
  rw [write]
  split
  · exact prefix_append out p
  · exact prefix_rfl

theorem prefix_writeAll (ps : List (List α)) : out <+: writeAll cap out ps := by
  induction ps generalizing out with
  | nil => exact prefix_rfl
  | cons p ps ih => exact (prefix_write p).trans ih

theorem length_write_lt (p : List α) (h : out.length < cap) : (write cap out p).length < cap := by
  rw [write]
  split
  · assumption
  · exact h

theorem length_writeAll_lt (ps : List (List α)) (h : out.length < cap) :
    (writeAll cap out ps).length < cap := by
  induction ps generalizing out with
  | nil => exact h
  | cons p ps ih => exact ih (length_write_lt p h)

/-- Nothing is left out if everything fits. -/
theorem writeAll_of_fits {ps : List (List α)} (h : (out ++ ps.flatten).length < cap) :
    writeAll cap out ps = out ++ ps.flatten := by
  induction ps generalizing out with
  | nil => exact (append_nil out).symm
  | cons p ps ih =>
    rw [flatten_cons, ← append_assoc] at h ⊢
    have hp : (out ++ p).length < cap := by
      rw [length_append] at h
      omega
    rw [writeAll_cons, write_of_fits hp]
    exact ih h

/-- As long as the buffer is not full, no single element was left out. -/
theorem writeAll_singletons {l : List α} {ps : List (List α)}
    (h : (writeAll cap out (l.map ([·]) ++ ps)).length + 1 < cap) :
    writeAll cap out (l.map ([·]) ++ ps) = writeAll cap (out ++ l) ps := by
  induction l generalizing out with
  | nil => simp
  | cons a l ih =>
    rw [map_cons, cons_append, writeAll_cons] at h ⊢
    have hle : (write cap out [a]).length ≤
        (writeAll cap (write cap out [a]) (l.map ([·]) ++ ps)).length :=
      (prefix_writeAll _).length_le
    have hroom : (out ++ [a]).length < cap := by
      by_contra hfull
      rw [write, if_neg hfull] at hle h
      rw [length_append, length_singleton] at hfull
      omega
    rw [write_of_fits hroom] at h ⊢
    rw [ih h, append_assoc, singleton_append]

/-- The last element of what is written, if the buffer is not full. -/
theorem writeAll_concat {a : α} {ps : List (List α)}
    (h : (writeAll cap out (ps ++ [[a]])).length + 1 < cap) :
    writeAll cap out (ps ++ [[a]]) = writeAll cap out ps ++ [a] := by
  rw [writeAll_append] at h ⊢
  exact @writeAll_singletons α cap (writeAll cap out ps) [a] [] h

end Buffer
