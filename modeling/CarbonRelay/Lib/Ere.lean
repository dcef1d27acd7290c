import CarbonRelay.Lib.Text
import Mathlib.Logic.Relation

/-!
# POSIX extended regular expressions

The syntax of extended regular expressions, which part of a text one of them matches
(`Ere.Matches`), and a matcher that lists the ends of all matches from a position (`Ere.ends`) and
so finds the leftmost longest match (`Ere.search`). `Ere.parse` reads an expression. Where the
standard leaves the meaning of an expression open, such as a repetition of nothing, it is rejected.
`Ere.Engine` is what a library for these expressions promises.
-/

open List

/-- What one position of a text is compared with: some ranges of characters, or everything else. -/
structure CharSet where
  neg : Bool
  ranges : List (Char × Char)
  deriving DecidableEq, Repr

namespace CharSet

/-- The character is in the set. -/
def mem (p : CharSet) (c : Char) : Bool := (p.ranges.any fun (lo, hi) => lo ≤ c && c ≤ hi) != p.neg

def single (c : Char) : CharSet := ⟨false, [(c, c)]⟩

/-- Every character. -/
def any : CharSet := ⟨true, []⟩

end CharSet

/-- An extended regular expression. -/
inductive Ere
  | eps
  | one (p : CharSet)
  | bol
  | eol
  | cat (r t : Ere)
  | alt (r t : Ere)
  | star (r : Ere)
  | group (r : Ere)
  deriving DecidableEq, Repr

namespace Ere

/-- The expression matches the text from `i` to `j`. -/
def Matches (s : Text) : Ere → Nat → Nat → Prop
  | eps, i, j => j = i
  | one p, i, j => j = i + 1 ∧ ∃ c, s[i]? = some c ∧ p.mem c = true
  | bol, i, j => i = 0 ∧ j = 0
  | eol, i, j => i = s.length ∧ j = s.length
  | cat r t, i, j => ∃ k, Matches s r i k ∧ Matches s t k j
  | alt r t, i, j => Matches s r i j ∨ Matches s t i j
  | star r, i, j => Relation.ReflTransGen (fun i j => Matches s r i j) i j
  | group r, i, j => Matches s r i j

/-- The expression matches somewhere in the text. -/
def Search (s : Text) (r : Ere) : Prop := ∃ i j, i ≤ s.length ∧ Matches s r i j

/-- The match that starts first, and of those the longest one. -/
structure LeftmostLongest (s : Text) (r : Ere) (i j : Nat) : Prop where
  matches_ : Matches s r i j
  leftmost : ∀ i' j', i' < i → ¬ Matches s r i' j'
  longest : ∀ j', Matches s r i j' → j' ≤ j

/-- The number of groups. -/
def nsub : Ere → Nat
  | eps | one _ | bol | eol => 0
  | cat r t | alt r t => nsub r + nsub t
  | star r => nsub r
  | group r => nsub r + 1

/-! ## Matching -/

/-- All positions that are reached from `i` in steps that go forward. -/
def iterate (f : Nat → List Nat) : Nat → Nat → List Nat
  | 0, i => [i]
  | n + 1, i => i :: ((f i).filter (i < ·)).flatMap (iterate f n)

/-- The ends of all matches that start at `i`. -/
def ends (s : Text) : Ere → Nat → List Nat
  | eps, i => [i]
  | one p, i => if s[i]?.any p.mem then [i + 1] else []
  | bol, i => if i = 0 then [0] else []
  | eol, i => if i = s.length then [i] else []
  | cat r t, i => (ends s r i).flatMap (ends s t)
  | alt r t, i => ends s r i ++ ends s t i
  | star r, i => iterate (ends s r) s.length i
  | group r, i => ends s r i

/-- The leftmost longest match. -/
def search (s : Text) (r : Ere) : Option (Nat × Nat) :=
  (range (s.length + 1)).findSome? fun i =>
    (ends s r i).max?.map fun j => (i, j)

section
variable {s : Text} {r : Ere} {i j : Nat}

/-- A match goes forward and stays within the text. -/
theorem Matches.le (h : Matches s r i j) : i ≤ j ∧ (i ≤ s.length → j ≤ s.length) := by
  induction r generalizing i j with
  | eps => cases h; exact ⟨Nat.le_refl i, id⟩
  | one p =>
    obtain ⟨rfl, c, hc, -⟩ := h
    exact ⟨Nat.le_succ i, fun _ => (List.getElem?_eq_some_iff.1 hc).1⟩
  | bol => obtain ⟨rfl, rfl⟩ := h; exact ⟨Nat.le_refl 0, id⟩
  | eol => obtain ⟨rfl, rfl⟩ := h; exact ⟨Nat.le_refl _, id⟩
  | cat r t ihr iht =>
    obtain ⟨k, hr, ht⟩ := h
    exact ⟨(ihr hr).1.trans (iht ht).1, fun hi => (iht ht).2 ((ihr hr).2 hi)⟩
  | alt r t ihr iht =>
    rcases h with h | h
    · exact ihr h
    · exact iht h
  | star r ih =>
    induction h with
    | refl => exact ⟨Nat.le_refl i, id⟩
    | tail _ hstep ihs => exact ⟨ihs.1.trans (ih hstep).1, fun hi => (ih hstep).2 (ihs.2 hi)⟩
  | group r ih => exact ih h

/-- Iterating reaches what a chain of steps does: steps that stay in place are not needed, and no
chain is longer than the text. -/
theorem mem_iterate {f : Nat → List Nat} {R : Nat → Nat → Prop} {N : Nat}
    (hf : ∀ i k, i ≤ N → (k ∈ f i ↔ R i k)) (hR : ∀ i k, R i k → i ≤ k ∧ (i ≤ N → k ≤ N)) {n : Nat}
    (hi : i ≤ N) (hn : N ≤ i + n) : j ∈ iterate f n i ↔ Relation.ReflTransGen R i j := by
  constructor
  · intro h
    clear hn
    induction n generalizing i with
    | zero => cases List.mem_singleton.1 h; exact .refl
    | succ n ih =>
      rcases List.mem_cons.1 h with rfl | h
      · exact .refl
      · obtain ⟨k, hk, hj⟩ := List.mem_flatMap.1 h
        have hstep := (hf i k hi).1 (List.mem_filter.1 hk).1
        exact .head hstep (ih ((hR i k hstep).2 hi) hj)
  · intro h
    induction h using Relation.ReflTransGen.head_induction_on generalizing n with
    | refl => cases n <;> simp [iterate]
    | @head i k hstep _ ih =>
      obtain ⟨hik, hkN⟩ := hR i k hstep
      rcases Nat.eq_or_lt_of_le hik with rfl | hlt
      · exact ih hi hn
      · obtain ⟨n, rfl⟩ : ∃ m, n = m + 1 := ⟨n - 1, by have := hkN hi; omega⟩
        refine mem_cons_of_mem i (List.mem_flatMap.2 ⟨k, ?_, ih (hkN hi) (by omega)⟩)
        exact List.mem_filter.2 ⟨(hf i k hi).2 hstep, decide_eq_true hlt⟩

/-- The matcher is right. -/
theorem mem_ends (hi : i ≤ s.length) : j ∈ ends s r i ↔ Matches s r i j := by
  induction r generalizing i j with
  | eps => exact mem_singleton
  | one p =>
    rw [ends, Matches]
    cases hc : s[i]? with
    | none => simp
    | some c => cases hp : p.mem c <;> simp [hp]
  | bol => rw [ends, Matches]; split <;> simp_all
  | eol => rw [ends, Matches]; split <;> simp_all
  | cat r t ihr iht =>
    rw [ends, Matches, mem_flatMap]
    constructor
    · rintro ⟨k, hk, hj⟩
      have hr := (ihr hi).1 hk
      exact ⟨k, hr, (iht (hr.le.2 hi)).1 hj⟩
    · rintro ⟨k, hr, ht⟩
      exact ⟨k, (ihr hi).2 hr, (iht (hr.le.2 hi)).2 ht⟩
  | alt r t ihr iht => rw [ends, Matches, mem_append, ihr hi, iht hi]
  | star r ih =>
    rw [ends, Matches]
    exact mem_iterate (fun i k hi => ih hi) (fun i k h => h.le) hi (Nat.le_add_left _ _)
  | group r ih => exact ih hi

theorem mem_ends_max (hi : i ≤ s.length) (h : (ends s r i).max? = some j) :
    Matches s r i j ∧ ∀ j', Matches s r i j' → j' ≤ j := by
  obtain ⟨hmem, hle⟩ := List.max?_eq_some_iff.1 h
  exact ⟨(mem_ends hi).1 hmem, fun j' hj' => hle j' ((mem_ends hi).2 hj')⟩

/-- The search finds the leftmost longest match. -/
theorem search_eq_some (h : search s r = some (i, j)) : i ≤ s.length ∧ LeftmostLongest s r i j := by
  obtain ⟨before, i', after, hrange, hfound, hnone⟩ := List.findSome?_eq_some_iff.1 h
  obtain ⟨j', hmax, heq⟩ := Option.map_eq_some_iff.1 hfound
  cases heq
  have hsorted : (before ++ i :: after).Pairwise (· < ·) := hrange ▸ pairwise_lt_range
  have hmem (k : Nat) : k ∈ before ++ i :: after ↔ k < s.length + 1 := by
    rw [← hrange, mem_range]
  have hi : i ≤ s.length := Nat.le_of_lt_succ ((hmem i).1 (by simp))
  obtain ⟨hmatch, hlongest⟩ := mem_ends_max hi hmax
  refine ⟨hi, hmatch, fun k l hk hkl => ?_, hlongest⟩
  have hbefore : k ∈ before := by
    rcases List.mem_append.1 ((hmem k).2 (by omega)) with hb | hb
    · exact hb
    · rcases List.mem_cons.1 hb with rfl | hb
      · omega
      · have := rel_of_pairwise_cons (List.pairwise_append.1 hsorted).2.1 hb
        omega
  have hempty : ends s r k = [] := by
    rw [← max?_eq_none_iff]
    exact Option.map_eq_none_iff.1 (hnone k hbefore)
  have hend := (mem_ends (by omega)).2 hkl
  rw [hempty] at hend
  exact not_mem_nil hend

theorem search_isSome_iff : (search s r).isSome ↔ Search s r := by
  constructor
  · intro h
    obtain ⟨⟨i, j⟩, h⟩ := Option.isSome_iff_exists.1 h
    obtain ⟨hi, hmatch⟩ := search_eq_some h
    exact ⟨i, j, hi, hmatch.matches_⟩
  · rintro ⟨i, j, hi, h⟩
    rw [search, findSome?_isSome_iff]
    refine ⟨i, List.mem_range.2 (Nat.lt_succ_of_le hi), ?_⟩
    rw [Option.isSome_map, isSome_max?_iff]
    exact ne_nil_of_mem ((mem_ends hi).2 h)

end

/-! ## Reading an expression -/

/-- The named classes of a bracket expression. -/
def namedClass : Text → Option (List (Char × Char))
  | ['a', 'l', 'p', 'h', 'a'] => some [('a', 'z'), ('A', 'Z')]
  | ['d', 'i', 'g', 'i', 't'] => some [('0', '9')]
  | ['a', 'l', 'n', 'u', 'm'] => some [('a', 'z'), ('A', 'Z'), ('0', '9')]
  | ['u', 'p', 'p', 'e', 'r'] => some [('A', 'Z')]
  | ['l', 'o', 'w', 'e', 'r'] => some [('a', 'z')]
  | ['s', 'p', 'a', 'c', 'e'] => some [('\x09', '\x0d'), (' ', ' ')]
  | ['b', 'l', 'a', 'n', 'k'] => some [('\t', '\t'), (' ', ' ')]
  | ['p', 'u', 'n', 'c', 't'] => some [('!', '/'), (':', '@'), ('[', '\x60'), ('\x7b', '~')]
  | ['x', 'd', 'i', 'g', 'i', 't'] => some [('0', '9'), ('a', 'f'), ('A', 'F')]
  | _ => none

/-- The items of a bracket expression up to its end. A `]` in front is an item. -/
def bracketItems : Nat → Text → Option (List (Char × Char) × Text)
  | 0, _ => none
  | n + 1, s =>
    match s with
    | [] => none
    | ']' :: rest => some ([], rest)
    | '[' :: ':' :: rest => do
      let ranges ← namedClass (rest.takeWhile (· ≠ ':'))
      match rest.dropWhile (· ≠ ':') with
      | ':' :: ']' :: rest =>
        let (items, rest) ← bracketItems n rest
        some (ranges ++ items, rest)
      | _ => none
    | '[' :: '.' :: _ | '[' :: '=' :: _ => none
    | lo :: '-' :: hi :: rest =>
      if hi = ']' then do
        let (items, rest) ← bracketItems n ('-' :: hi :: rest)
        some ((lo, lo) :: items, rest)
      else if lo ≤ hi then do
        let (items, rest) ← bracketItems n rest
        some ((lo, hi) :: items, rest)
      else none
    | c :: rest => do
      let (items, rest) ← bracketItems n rest
      some ((c, c) :: items, rest)

/-- A bracket expression behind its `[`. -/
def parseBracket (s : Text) : Option (CharSet × Text) := do
  let (neg, s) := match s with
    | '^' :: s => (true, s)
    | s => (false, s)
  let (first, s) := match s with
    | ']' :: s => ([(']', ']')], s)
    | s => ([], s)
  let (items, rest) ← bracketItems (s.length + 1) s
  if (first ++ items).isEmpty then none else some (⟨neg, first ++ items⟩, rest)

/-- `r` repeated at least `m` times, and at most `n` times if there is a bound. -/
def repeated (r : Ere) : Nat → Option Nat → Ere
  | m + 1, n => cat r (repeated r m (n.map (· - 1)))
  | 0, none => star r
  | 0, some n => n.repeat (fun t => alt eps (cat r t)) eps

/-- The bounds of a repetition behind its `{`. -/
def parseBounds (s : Text) : Option (Nat × Option Nat × Text) :=
  match s with
  | [] => none
  | c :: _ =>
    if c.isDigit then
      let (m, s) := Text.digits 0 s
      match s with
      | '\x7d' :: rest => some (m, some m, rest)
      | ',' :: '\x7d' :: rest => some (m, none, rest)
      | ',' :: d :: rest =>
        if d.isDigit then
          let (n, s) := Text.digits 0 (d :: rest)
          match s with
          | '\x7d' :: rest => if m ≤ n then some (m, some n, rest) else none
          | _ => none
        else none
      | _ => none
    else none

/-- The characters that stand for themselves only behind a backslash. -/
def isSpecial (c : Char) : Bool :=
  ['^', '.', '[', '$', '(', ')', '|', '*', '+', '?', '\x7b', '\\'].contains c

mutual

/-- Branches with `|` between them. -/
def parseAlt : Nat → Text → Option (Ere × Text)
  | 0, _ => none
  | n + 1, s => do
    let (r, rest) ← parseCat n s
    match rest with
    | '|' :: rest =>
      let (t, rest) ← parseAlt n rest
      some (alt r t, rest)
    | _ => some (r, rest)

/-- The pieces of a branch. -/
def parseCat : Nat → Text → Option (Ere × Text)
  | 0, _ => none
  | n + 1, s =>
    match s with
    | [] | '|' :: _ | ')' :: _ => some (eps, s)
    | _ => do
      let (r, rest) ← parseAtom n s
      let (r, rest) ← parseDups n r rest
      let (t, rest) ← parseCat n rest
      some (cat r t, rest)

/-- The repetitions behind an atom. -/
def parseDups : Nat → Ere → Text → Option (Ere × Text)
  | 0, _, _ => none
  | n + 1, r, s =>
    match s with
    | '*' :: rest => parseDups n (star r) rest
    | '+' :: rest => parseDups n (cat r (star r)) rest
    | '?' :: rest => parseDups n (alt r eps) rest
    | '\x7b' :: rest => do
      let (lo, hi, rest) ← parseBounds rest
      parseDups n (repeated r lo hi) rest
    | _ => some (r, s)

/-- An expression without what repeats it. -/
def parseAtom : Nat → Text → Option (Ere × Text)
  | 0, _ => none
  | n + 1, s =>
    match s with
    | '(' :: rest => do
      let (r, rest) ← parseAlt n rest
      match rest with
      | ')' :: rest => some (group r, rest)
      | _ => none
    | '[' :: rest => do
      let (p, rest) ← parseBracket rest
      some (one p, rest)
    | '.' :: rest => some (one .any, rest)
    | '^' :: rest => some (bol, rest)
    | '$' :: rest => some (eol, rest)
    | '\\' :: c :: rest => if isSpecial c then some (one (.single c), rest) else none
    | c :: rest => if isSpecial c then none else some (one (.single c), rest)
    | [] => none

end

/-- `regcomp` with `REG_EXTENDED`. -/
def parse (pattern : Text) : Option Ere :=
  match parseAlt (4 * pattern.length + 4) pattern with
  | some (r, []) => some r
  | _ => none

/-! ## Engines -/

/-- What `regexec` promises: it says whether an expression matches somewhere in a text, and where.
Behind the leftmost longest match come the spans of the groups, which are not determined here. -/
structure Engine where
  exec : (pattern subject : Text) → (nmatch : Nat) → Option (List (Int × Int))
  decides : ∀ {pattern r} subject nmatch, parse pattern = some r →
    ((exec pattern subject nmatch).isSome ↔ Search subject r)
  length : ∀ {pattern subject nmatch spans}, exec pattern subject nmatch = some spans →
    spans.length = nmatch
  first : ∀ {pattern r subject nmatch span spans}, parse pattern = some r →
    exec pattern subject nmatch = some (span :: spans) →
    ∃ i j : Nat, span = ((i : Int), (j : Int)) ∧ i ≤ subject.length ∧ LeftmostLongest subject r i j

/-- Where the last of the steps from `i` to `j` starts, each of them as long as possible. -/
def lastStep (f : Nat → List Nat) (n : Nat) : Nat → Nat → Nat → Nat
  | 0, i, _ => i
  | m + 1, i, j =>
    match ((f i).filter fun k => i < k && (iterate f n k).contains j).max? with
    | none => i
    | some k => if k = j then i else lastStep f n m k j

/-- The spans of the groups in a match from `i` to `j`. Parts in front are as long as possible, and
a group that is repeated has the span of its last repetition. -/
def groups (s : Text) : Ere → Nat → Nat → List (Int × Int)
  | eps, _, _ | one _, _, _ | bol, _, _ | eol, _, _ => []
  | cat r t, i, j =>
    let k := ((ends s r i).filter fun k => (ends s t k).contains j).max?.getD i
    groups s r i k ++ groups s t k j
  | alt r t, i, j =>
    if (ends s r i).contains j then groups s r i j ++ replicate (nsub t) (-1, -1)
    else replicate (nsub r) (-1, -1) ++ groups s t i j
  | star r, i, j =>
    if i = j then replicate (nsub r) (-1, -1)
    else groups s r (lastStep (ends s r) s.length s.length i j) j
  | group r, i, j => (i, j) :: groups s r i j

/-- An engine that searches with `search`. -/
def Engine.basic : Engine where
  exec pattern subject nmatch :=
    match parse pattern with
    | none => none
    | some r => (search subject r).map fun (i, j) =>
      (((i : Int), (j : Int)) :: (groups subject r i j ++ replicate nmatch (-1, -1))).take nmatch
  decides := by
    intro pattern r subject nmatch h
    rw [h, Option.isSome_map, search_isSome_iff]
  length := by
    intro pattern subject nmatch spans h
    split at h
    · cases h
    · obtain ⟨p, -, rfl⟩ := Option.map_eq_some_iff.1 h
      simp only [length_take, length_cons, length_append, length_replicate]
      omega
  first := by
    intro pattern r subject nmatch span spans hr h
    rw [hr] at h
    obtain ⟨⟨i, j⟩, hsearch, heq⟩ := Option.map_eq_some_iff.1 h
    obtain ⟨hi, hmatch⟩ := search_eq_some hsearch
    cases nmatch with
    | zero => cases heq
    | succ n => cases heq; exact ⟨i, j, rfl, hi, hmatch⟩

end Ere
