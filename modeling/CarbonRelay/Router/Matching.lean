import CarbonRelay.Lib.Ere
import Mathlib.Data.List.Basic

/-!
# Matching a metric against an expression

The match expressions of the rules (`router.h struct _route`): how `determine_if_regex` classifies
them, and how `router_metric_matches` compares a metric with one. A metric is a line of text with
the position of its first space; an expression looks at the bytes in front of that, the path. Some
of the code reads past the ends of the line, so the bytes there are a parameter.
-/

namespace CarbonRelay

open List

/-- `regmatch_t`: `rm_so` and `rm_eo`. -/
abbrev Span := Int × Int

/-- The byte at an offset from the start of the line, also outside of it. -/
def byteAt (outside : Int → Char) (line : Text) (i : Int) : Char :=
  if 0 ≤ i then line.getD i.toNat (outside i) else outside i

/-- The bytes from one offset to another. -/
def slice (outside : Int → Char) (line : Text) (a b : Int) : Text :=
  (List.range (b - a).toNat).map fun k => byteAt outside line (a + k)

section
variable {outside : Int → Char} {line : Text} {a b : Int}

@[simp] theorem length_slice (outside : Int → Char) (line : Text) (a b : Int) :
    (slice outside line a b).length = (b - a).toNat := by
  simp [slice]

theorem slice_eq_map : slice outside line a b =
    (List.range (b - a).toNat).map fun k : Nat => byteAt outside line (a + (k : Int)) := by
  rw [slice]
  show List.map _ (flatMap (fun k : Nat => [(k : Int)]) _) = _
  rw [map_flatMap]
  exact (map_eq_flatMap ..).symm

/-- The bytes between two places in the line. -/
theorem slice_of_inside (ha : 0 ≤ a) (hb : b ≤ line.length) :
    slice outside line a b = (line.take b.toNat).drop a.toNat := by
  refine ext_getElem ?_ ?_
  · simp only [length_slice, length_drop, length_take]
    omega
  · intro i hi _
    rw [length_slice] at hi
    have hlt : a.toNat + i < line.length := by omega
    have hbyte : (a + i).toNat = a.toNat + i := by omega
    have hpos : 0 ≤ a + i := by omega
    simp [slice_eq_map, byteAt, hbyte, hpos, getD_eq_getElem?_getD, getElem?_eq_getElem hlt]

end

/-- `router.h enum matchtype`. -/
inductive MatchType
  | matchall
  | regex
  | contains
  | startsWith
  | endsWith
  | matches
  deriving DecidableEq, Repr

/-- The fields of a route that say what it matches. -/
structure Matcher where
  matchtype : MatchType
  pattern : Text
  strmatch : Text
  nmatch : Nat
  deriving DecidableEq, Repr

/-! ## Classifying an expression -/

/-- `router.h RE_MAX_MATCHES`. -/
def reMaxMatches : Nat := 64

/-- The size of `patbuf`. -/
def patbufSize : Nat := 8192

/-- The variables of the loop of `determine_if_regex`. -/
structure PatternScan where
  matchtype : MatchType
  escape : Bool
  patbuf : Text
  deriving DecidableEq, Repr

/-- The characters that stand for themselves. -/
def isPlain (c : Char) : Bool := c = '_' ∨ c = '-' ∨ c.isAlphanum

/-- One turn of the loop, for a character and whether it is the last one. -/
def scanChar (st : PatternScan) (c : Char) (last : Bool) : PatternScan :=
  if c = '\\' then
    if st.escape then { st with escape := false, patbuf := st.patbuf ++ [c] }
    else { st with escape := true }
  else if c = '.' ∨ c = '^' ∨ c = '*' ∨ c = '+' then
    { matchtype := if st.escape then st.matchtype else .regex
      escape := false
      patbuf := st.patbuf ++ [c] }
  else if c = '$' then
    { st with
      matchtype :=
        if ¬ st.escape ∧ last then
          if st.matchtype = .startsWith then .matches else .endsWith
        else .regex
      escape := false }
  else if ¬ st.escape ∧ isPlain c then { st with escape := false, patbuf := st.patbuf ++ [c] }
  else { st with matchtype := .regex, escape := false }

/-- The loop of `determine_if_regex`, which ends early when the expression needs a regex. -/
def scanPattern : Text → PatternScan → PatternScan
  | [], st => st
  | c :: e, st =>
    let st := scanChar st c e.isEmpty
    let st := if st.patbuf.length = patbufSize then { st with matchtype := .regex } else st
    if st.matchtype = .regex then st else scanPattern e st

/-- `router.c:204 determine_if_regex`. `regcomp` gives the number of groups of an expression that it
accepts. -/
def determineIfRegex (regcomp : Text → Option Nat) (pat : Text) : Option Matcher :=
  let st := match pat with
    | '^' :: e => scanPattern e ⟨.startsWith, false, []⟩
    | _ => scanPattern pat ⟨.contains, false, []⟩
  if st.matchtype ≠ .regex then
    some { matchtype := st.matchtype, pattern := pat, strmatch := st.patbuf, nmatch := 0 }
  else
    match regcomp pat with
    | none => none
    | some nsub =>
      if nsub = 0 then some { matchtype := .regex, pattern := pat, strmatch := [], nmatch := 0 }
      else if reMaxMatches < nsub + 1 then none
      else some { matchtype := .regex, pattern := pat, strmatch := [], nmatch := nsub + 1 }

/-- The scan that an expression without a regex comes from. -/
theorem determineIfRegex_scan {regcomp : Text → Option Nat} {pat : Text} {m : Matcher}
    (hm : determineIfRegex regcomp pat = some m) (hfast : m.matchtype ≠ .regex) :
    ∃ e type, (pat = '^' :: e ∧ type = .startsWith ∨ pat = e ∧ type = .contains) ∧
      (scanPattern e ⟨type, false, []⟩).matchtype ≠ .regex ∧
      m.matchtype = (scanPattern e ⟨type, false, []⟩).matchtype ∧
      m.strmatch = (scanPattern e ⟨type, false, []⟩).patbuf := by
  have hscan : ∀ st : PatternScan,
      (if st.matchtype ≠ .regex then
        some (⟨st.matchtype, pat, st.patbuf, 0⟩ : Matcher)
      else
        match regcomp pat with
        | none => none
        | some nsub =>
          if nsub = 0 then some { matchtype := .regex, pattern := pat, strmatch := [], nmatch := 0 }
          else if reMaxMatches < nsub + 1 then none
          else some { matchtype := .regex, pattern := pat, strmatch := [], nmatch := nsub + 1 }) =
            some m →
      st.matchtype ≠ .regex ∧ m.matchtype = st.matchtype ∧ m.strmatch = st.patbuf := by
    intro st hst
    split at hst
    case isTrue hne =>
      cases hst
      exact ⟨hne, rfl, rfl⟩
    · exfalso
      split at hst
      · cases hst
      split at hst
      · cases hst
        exact hfast rfl
      split at hst
      · cases hst
      · cases hst
        exact hfast rfl
  by_cases hanchor : ∃ e, pat = '^' :: e
  · obtain ⟨e, rfl⟩ := hanchor
    exact ⟨e, .startsWith, .inl ⟨rfl, rfl⟩, hscan _ hm⟩
  · rw [determineIfRegex] at hm
    · exact ⟨pat, .contains, .inr ⟨rfl, rfl⟩, hscan _ hm⟩
    · intro e he
      exact hanchor ⟨e, he⟩

/-! ## Comparing -/

/-- `strstr`: where a text first occurs in another. -/
def strstr (s t : Text) : Option Nat :=
  (List.range (s.length + 1)).find? fun i => t.isPrefixOf (s.drop i)

variable {s t : Text}

theorem strstr_eq_some_iff {i : Nat} : strstr s t = some i ↔
    t <+: s.drop i ∧ i ≤ s.length ∧ ∀ k < i, ¬ t <+: s.drop k := by
  simp only [strstr, find?_range_eq_some, mem_range, Nat.lt_succ_iff, Bool.not_eq_true',
    Bool.eq_false_iff, ne_eq, isPrefixOf_iff_prefix]

theorem strstr_eq_none_iff : strstr s t = none ↔ ∀ i ≤ s.length, ¬ t <+: s.drop i := by
  simp only [strstr, find?_eq_none, mem_range, Nat.lt_succ_iff, isPrefixOf_iff_prefix]

/-- The spans with the first of them replaced. -/
def setSpans (spans : List Span) (pmatch : Nat → Span) : Nat → Span :=
  fun i => spans.getD i (pmatch i)

/-- `router.c:2680 router_metric_matches`: whether a line with its first space at an offset matches,
and the spans after it. -/
def routerMetricMatches (regex : Ere.Engine) (outside : Int → Char) (m : Matcher) (metric : Text)
    (firstspace : Nat) (pmatch : Nat → Span) : Bool × (Nat → Span) :=
  let n := m.strmatch.length
  match m.matchtype with
  | .matchall => (true, pmatch)
  | .regex =>
    match regex.exec m.pattern (metric.take firstspace) m.nmatch with
    | some spans => (true, setSpans spans pmatch)
    | none => (false, pmatch)
  | .contains =>
    match strstr (metric.take firstspace) m.strmatch with
    | some i => (true, setSpans [((i : Int), (i : Int) + n)] pmatch)
    | none => (false, pmatch)
  | .startsWith =>
    if m.strmatch.isPrefixOf metric then (true, setSpans [(0, (n : Int))] pmatch)
    else (false, pmatch)
  | .endsWith =>
    -- the comparison starts so far in front of the space, be it in front of the line
    if slice outside metric ((firstspace : Int) - n) firstspace = m.strmatch then
      (true, setSpans [((firstspace : Int) - n, (firstspace : Int))] pmatch)
    else (false, pmatch)
  | .matches =>
    if metric.take firstspace = m.strmatch then (true, setSpans [(0, (n : Int))] pmatch)
    else (false, pmatch)

end CarbonRelay
