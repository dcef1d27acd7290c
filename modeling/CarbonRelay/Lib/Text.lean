import CarbonRelay.Lib.Comparator
import Mathlib.Algebra.Group.Int.Defs
import Mathlib.Algebra.GroupWithZero.Nat

/-!
# Byte strings

A string of the C library is a list of characters without its terminator. A character stands for a
byte; nothing below depends on the code points beyond 255.
-/

/-- A C string without its terminator. -/
abbrev Text := List Char

namespace Text

/-- `strcmp`: negative, zero or positive as the first string is before, the same as or after the
second in the order of the bytes. -/
def strcmp : Text → Text → Int
  | [], [] => 0
  | [], _ :: _ => -1
  | _ :: _, [] => 1
  | c :: s, d :: t => if (c.toNat : Int) - d.toNat ≠ 0 then (c.toNat :
    Int) - d.toNat else strcmp s t

/-- The decimal digits of a number, as `%d` and `%u` print it. -/
def decimal (n : Nat) : Text := Nat.toDigits 10 n

/-- The white space `isspace` knows in the C locale. -/
def isSpace (c : Char) : Bool := c = ' ' ∨ (9 ≤ c.toNat ∧ c.toNat ≤ 13)

/-- The value of a run of decimal digits behind `acc`, and the text after the run. -/
def digits : Nat → Text → Nat × Text
  | acc, [] => (acc, [])
  | acc, c :: s => if c.isDigit then digits (acc * 10 + (c.toNat - 48)) s else (acc, c :: s)

/-- The optional sign of a number: whether it is a minus, and the text after it. -/
def sign : Text → Bool × Text
  | '-' :: s => (true, s)
  | '+' :: s => (false, s)
  | s => (false, s)

/-- `strtol` in base 10: the value, clamped to the range of a `long` of 64 bits, and the text the
end pointer points at, which is the whole text when it does not start with a number. -/
def strtol (s : Text) : Int × Text :=
  let (neg, body) := sign (s.dropWhile isSpace)
  if body.head?.any Char.isDigit then
    let (n, rest) := digits 0 body
    (if neg then max (-(n : Int)) (-2 ^ 63) else min (n : Int) (2 ^ 63 - 1), rest)
  else (0, s)

theorem strcmp_eq_zero : ∀ {s t : Text}, strcmp s t = 0 ↔ s = t
  | [], [] => by simp [strcmp]
  | [], _ :: _ => by simp [strcmp]
  | _ :: _, [] => by simp [strcmp]
  | c :: s, d :: t => by
    rw [strcmp, List.cons.injEq]
    by_cases h : c = d
    · simp [h, strcmp_eq_zero]
    · have hne : (c.toNat : Int) - d.toNat ≠ 0 := fun he =>
        h (Char.toNat_inj.1 (by omega))
      simp [h, hne]

theorem strcmp_isComparator : IsComparator strcmp := by
  constructor
  · intro s
    induction s with
    | nil => intro t; cases t <;> simp [strcmp]
    | cons c s ih =>
      intro t
      cases t with
      | nil => simp [strcmp]
      | cons d t =>
        simp only [strcmp]
        have := ih t
        split <;> split <;> omega
  · intro s
    induction s with
    | nil => intro t u; cases t <;> cases u <;> simp [strcmp]
    | cons c s ih =>
      intro t u
      cases t with
      | nil => simp [strcmp]
      | cons d t =>
        cases u with
        | nil => simp [strcmp]
        | cons e u =>
          simp only [strcmp]
          have := ih t u
          split <;> split <;> split <;> omega

/-! ## Reading what was printed -/

theorem digits_append_digit {s : Text} {acc n : Nat} (h : digits acc s = (n, [])) {c : Char}
    (hc : c.isDigit = true) : digits acc (s ++ [c]) = (n * 10 + (c.toNat - 48), []) := by
  induction s generalizing acc with
  | nil =>
    cases h
    simp [digits, hc]
  | cons d s ih =>
    rw [List.cons_append, digits]
    rw [digits] at h
    split at h
    · next hd =>
      rw [if_pos hd]
      exact ih h
    · cases h

theorem digitChar_of_lt {n : Nat} (h : n < 10) :
    (Nat.digitChar n).isDigit = true ∧ (Nat.digitChar n).toNat - 48 = n := by
  have hall : ∀ n : Fin 10, (Nat.digitChar n).isDigit = true ∧
      (Nat.digitChar n).toNat - 48 = n := by
    decide
  exact hall ⟨n, h⟩

/-- The digits of a number are read back. -/
theorem digits_decimal (n : Nat) : digits 0 (decimal n) = (n, []) := by
  induction n using Nat.strongRecOn with
  | ind n ih =>
    rcases Nat.lt_or_ge n 10 with hlt | hle
    · obtain ⟨hdigit, hval⟩ := digitChar_of_lt hlt
      rw [decimal, Nat.toDigits_of_lt_base hlt, digits, if_pos hdigit, hval]
      simp [digits]
    · obtain ⟨hdigit, hval⟩ := digitChar_of_lt (Nat.mod_lt n (by decide : 10 > 0))
      have hinit := ih (n / 10) (Nat.div_lt_self (by omega) (by decide))
      have hsplit : decimal n = decimal (n / 10) ++ [(n % 10).digitChar] :=
        Nat.toDigits_of_base_le (by decide) hle
      rw [hsplit, digits_append_digit hinit hdigit, hval, Nat.div_add_mod']

/-- A printed number is read back. -/
theorem strtol_decimal {n : Nat} (h : n < 2 ^ 63) : strtol (decimal n) = ((n : Int), []) := by
  have hread := digits_decimal n
  cases hdec : decimal n with
  | nil => exact absurd hdec (by rw [decimal]; exact Nat.toDigits_ne_nil)
  | cons c t =>
    have hc : c.isDigit = true :=
      Nat.isDigit_of_mem_toDigits
        (by decide) (by decide) (hdec ▸ List.mem_cons_self : c ∈ decimal n)
    have hspace : isSpace c = false := by
      have hge : 48 ≤ c.toNat := by
        simp only [Char.isDigit, Bool.and_eq_true, decide_eq_true_eq] at hc
        exact hc.1
      refine decide_eq_false ?_
      rintro (rfl | hle)
      · cases hc
      · omega
    have hsign : sign (c :: t) = (false, c :: t) := by
      unfold sign
      split
      · next heq =>
        cases heq
        cases hc
      · next heq =>
        cases heq
        cases hc
      · rfl
    rw [hdec] at hread
    simp only [strtol, List.dropWhile_cons, hspace, Bool.false_eq_true, if_false, hsign,
      List.head?_cons, Option.any_some, hc, if_true, hread]
    congr 1
    omega

end Text
