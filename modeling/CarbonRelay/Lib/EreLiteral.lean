import CarbonRelay.Lib.Ere
import Mathlib.Data.List.Basic

/-!
# Expressions that spell out a text

An expression without operators, in which special characters stand behind a backslash, matches a
text as it is. Such an expression may be anchored at its ends.
-/

namespace Ere

open List

/-- An expression spells out a text. -/
inductive Spells : Text → Text → Prop
  | nil : Spells [] []
  | plain {c : Char} {p l : Text} : isSpecial c = false → Spells p l → Spells (c :: p) (c :: l)
  | escaped {c : Char} {p l : Text} : isSpecial c = true → Spells p l →
    Spells ('\\' :: c :: p) (c :: l)

/-- The characters of a text, and then something else. -/
def lits (l : Text) (r : Ere) : Ere := l.foldr (fun c r => cat (one (.single c)) r) r

/-! ## Meaning -/

variable {c : Char} {s l rest p : Text} {i j n : Nat}

theorem mem_single {d : Char} : (CharSet.single c).mem d = true ↔ d = c := by
  simp only [CharSet.mem, CharSet.single, any_cons, any_nil, Bool.or_false, Bool.bne_false,
    Bool.and_eq_true, decide_eq_true_eq]
  constructor
  · rintro ⟨hle, hge⟩
    exact Char.le_antisymm hge hle
  · rintro rfl
    exact ⟨Char.le_refl d, Char.le_refl d⟩

variable {r : Ere}

theorem matches_lits : Matches s (lits l r) i j ↔ l <+: s.drop i ∧
    Matches s r (i + l.length) j := by
  induction l generalizing i with
  | nil => simp [lits]
  | cons c l ih =>
    have hcons : Matches s (lits (c :: l) r) i j ↔ s[i]? = some c ∧
        Matches s (lits l r) (i + 1) j := by
      constructor
      · rintro ⟨k, ⟨rfl, d, hd, hmem⟩, hrest⟩
        rw [mem_single] at hmem
        exact ⟨hmem ▸ hd, hrest⟩
      · rintro ⟨hc, hrest⟩
        exact ⟨i + 1, ⟨rfl, c, hc, mem_single.2 rfl⟩, hrest⟩
    rw [hcons, ih, length_cons, Nat.add_right_comm, Nat.add_assoc, ← and_assoc]
    refine and_congr_left fun _ => ?_
    constructor
    · rintro ⟨hc, hstart⟩
      obtain ⟨hi, rfl⟩ := List.getElem?_eq_some_iff.1 hc
      rw [drop_eq_getElem_cons hi]
      exact cons_prefix_cons.2 ⟨rfl, hstart⟩
    · intro hstart
      have hi : i < s.length := by
        have hlength := hstart.length_le
        rw [length_cons, length_drop] at hlength
        omega
      rw [drop_eq_getElem_cons hi, cons_prefix_cons] at hstart
      exact ⟨List.getElem?_eq_some_iff.2 ⟨hi, hstart.1.symm⟩, hstart.2⟩

theorem matches_bol : Matches s (cat bol r) i j ↔ i = 0 ∧ Matches s r 0 j := by
  constructor
  · rintro ⟨k, ⟨rfl, rfl⟩, h⟩
    exact ⟨rfl, h⟩
  · rintro ⟨rfl, h⟩
    exact ⟨0, ⟨rfl, rfl⟩, h⟩

theorem matches_eol : Matches s (cat eol eps) i j ↔ i = s.length ∧ j = s.length := by
  constructor
  · rintro ⟨k, ⟨rfl, rfl⟩, rfl⟩
    exact ⟨rfl, rfl⟩
  · rintro ⟨rfl, rfl⟩
    exact ⟨s.length, ⟨rfl, rfl⟩, rfl⟩

theorem matches_eps : Matches s eps i j ↔ j = i := Iff.rfl

/-! ## Reading -/

/-- No repetition follows. -/
def NoDup (s : Text) : Prop := ∀ c t, s = c :: t → c ≠ '*' ∧ c ≠ '+' ∧ c ≠ '?' ∧ c ≠ '\x7b'

theorem parseDups_of_noDup (h : NoDup s) (n : Nat) (r : Ere) :
    parseDups (n + 1) r s = some (r, s) := by
  cases s with
  | nil => rfl
  | cons c s =>
    obtain ⟨h1, h2, h3, h4⟩ := h c s rfl
    rw [parseDups]
    all_goals simp [*]

theorem ne_of_not_special (h : isSpecial c = false) :
    c ≠ '^' ∧ c ≠ '.' ∧ c ≠ '[' ∧ c ≠ '$' ∧ c ≠ '(' ∧ c ≠ ')' ∧ c ≠ '|' ∧ c ≠ '*' ∧
      c ≠ '+' ∧ c ≠ '?' ∧ c ≠ '\x7b' ∧ c ≠ '\\' := by
  simpa [isSpecial] using h

theorem parseAtom_plain (h : isSpecial c = false) (n : Nat) (s : Text) :
    parseAtom (n + 1) (c :: s) = some (one (.single c), s) := by
  have hne := ne_of_not_special h
  rw [parseAtom]
  all_goals simp_all

theorem parseAtom_escaped (h : isSpecial c = true) (n : Nat) (s : Text) :
    parseAtom (n + 1) ('\\' :: c :: s) = some (one (.single c), s) := by
  rw [parseAtom, if_pos h]

/-- An atom that is not repeated, and the rest of a branch. -/
theorem parseCat_cons (hbar : c ≠ '|') (hparen : c ≠ ')')
    (hatom : parseAtom (n + 1) (c :: s) = some (r, rest)) (hdup : NoDup rest) :
    parseCat (n + 2) (c :: s) = (parseCat (n + 1) rest).map fun (t, rest) => (cat r t, rest) := by
  rw [parseCat]
  · rw [hatom]
    show (parseDups (n + 1) r rest).bind _ = _
    rw [parseDups_of_noDup hdup, Option.bind_some]
    show (parseCat (n + 1) rest).bind _ = _
    cases parseCat (n + 1) rest <;> rfl
  all_goals simp_all

theorem Spells.noDup (h : Spells p l) (hrest : NoDup rest) : NoDup (p ++ rest) := by
  cases h with
  | nil => exact hrest
  | plain hc _ =>
    rintro c t ⟨⟩
    obtain ⟨-, -, -, -, -, -, -, h1, h2, h3, h4, -⟩ := ne_of_not_special hc
    exact ⟨h1, h2, h3, h4⟩
  | escaped _ _ =>
    rintro c t ⟨⟩
    decide

/-- Reading a text that is spelled out, in front of something that is not repeated. -/
theorem parseCat_spells (h : Spells p l) (hrest : NoDup rest) {k : Nat} (hk : 0 < k)
    {x : Option (Ere × Text)} (hx : ∀ n, k ≤ n → parseCat n rest = x) (hn : k + p.length ≤ n) :
    parseCat n (p ++ rest) = x.map fun (r, s) => (lits l r, s) := by
  induction h generalizing n with
  | nil =>
    rw [nil_append, hx n hn]
    cases x <;> rfl
  | plain hc hp ih =>
    obtain ⟨-, -, -, -, -, hparen, hbar, -⟩ := ne_of_not_special hc
    rw [length_cons] at hn
    obtain ⟨m, rfl⟩ : ∃ m, n = m + 2 := ⟨n - 2, by omega⟩
    rw [cons_append, parseCat_cons hbar hparen (parseAtom_plain hc m _) (hp.noDup hrest),
      ih (by omega), Option.map_map]
    rfl
  | escaped hc hp ih =>
    rw [length_cons, length_cons] at hn
    obtain ⟨m, rfl⟩ : ∃ m, n = m + 2 := ⟨n - 2, by omega⟩
    rw [cons_append, cons_append, parseCat_cons (by decide) (by decide) (parseAtom_escaped hc m _)
      (hp.noDup hrest), ih (by omega), Option.map_map]
    rfl

/-- How such an expression can end. -/
inductive Ending
  | plain
  | dollar
  | backslash
  deriving DecidableEq, Repr

def Ending.text : Ending → Text
  | .plain => []
  | .dollar => ['$']
  | .backslash => ['\\']

/-- What is read at the end. -/
def Ending.expr : Ending → Option Ere
  | .plain => some eps
  | .dollar => some (cat eol eps)
  | .backslash => none

theorem Ending.noDup (e : Ending) : NoDup e.text := by
  cases e <;> rintro c t ⟨⟩ <;> decide

theorem parseCat_ending (e : Ending) (hn : 3 ≤ n) :
    parseCat n e.text = e.expr.map fun r => (r, []) := by
  obtain ⟨m, rfl⟩ : ∃ m, n = m + 3 := ⟨n - 3, by omega⟩
  cases e <;> rfl

theorem parse_of_parseCat {x : Option Ere}
    (h : parseCat (4 * s.length + 3) s = x.map fun r => (r, [])) : parse s = x := by
  have halt : parseAlt (4 * s.length + 4) s = x.map fun r => (r, []) := by
    rw [parseAlt, h]
    cases x <;> rfl
  rw [parse, halt]
  cases x <;> rfl

/-- An expression that spells out a text, without an anchor at its start. -/
theorem parse_spells (h : Spells p l) (e : Ending) : parse (p ++ e.text) = e.expr.map (lits l) := by
  refine parse_of_parseCat ?_
  rw [parseCat_spells h e.noDup (k := 3) (by decide) (fun n hn => parseCat_ending e hn)
    (by rw [length_append]; omega), Option.map_map, Option.map_map]
  rfl

/-- An expression that spells out a text, with an anchor at its start. -/
theorem parse_bol_spells (h : Spells p l) (e : Ending) :
    parse ('^' :: (p ++ e.text)) = e.expr.map fun r => cat bol (lits l r) := by
  refine parse_of_parseCat ?_
  rw [length_cons, length_append]
  obtain ⟨m, hm⟩ : ∃ m, 4 * (p.length + e.text.length + 1) + 3 = m + 2 := ⟨_, rfl⟩
  rw [hm, parseCat_cons (by decide) (by decide) rfl (h.noDup e.noDup),
    parseCat_spells h e.noDup (k := 3) (by decide) (fun n hn => parseCat_ending e hn) (by omega),
    Option.map_map, Option.map_map, Option.map_map]
  rfl

end Ere
