import CarbonRelay.Router.Matching
import CarbonRelay.Lib.EreLiteral

/-!
# Comparing without a regex

`determine_if_regex` looks for expressions that spell out a text, perhaps with anchors, and
`router_metric_matches` compares these with string functions. That is what the expression means,
apart from one case: the end of a path is compared from as far in front of the first space as the
text is long, which may be in front of the line (`not_compares_short`).
-/

namespace CarbonRelay

open List
open Ere (Spells Ending lits)

/-! ## Classifying -/

/-- The type of an expression that ends so. -/
def typeAt (type : MatchType) : Ending → MatchType
  | .dollar => if type = .startsWith then .matches else .endsWith
  | _ => type

variable {c : Char} {buf : Text}

/-- A turn of the loop that does not end it with a regex. -/
theorem scanPattern_cons {e : Text} {st : PatternScan}
    (h : (scanPattern (c :: e) st).matchtype ≠ .regex) :
    (scanChar st c e.isEmpty).matchtype ≠ .regex ∧
      scanPattern (c :: e) st = scanPattern e (scanChar st c e.isEmpty) := by
  rw [scanPattern] at h ⊢
  by_cases hsize : (scanChar st c e.isEmpty).patbuf.length = patbufSize
  · rw [if_pos hsize, if_pos rfl] at h
    exact absurd rfl h
  · rw [if_neg hsize] at h ⊢
    by_cases hregex : (scanChar st c e.isEmpty).matchtype = .regex
    · rw [if_pos hregex] at h
      exact absurd hregex h
    · rw [if_neg hregex]
      exact ⟨hregex, rfl⟩

theorem isSpecial_of_isPlain (h : isPlain c = true) : Ere.isSpecial c = false := by
  rw [Bool.eq_false_iff]
  intro hspecial
  have hmem : c ∈ ['^', '.', '[', '$', '(', ')', '|', '*', '+', '?', '\x7b', '\\'] :=
    contains_iff_mem.1 hspecial
  have hnone : ∀ c ∈ ['^', '.', '[', '$', '(', ')', '|', '*', '+', '?', '\x7b', '\\'],
      isPlain c = false := by
    simp [isPlain]
  rw [hnone c hmem] at h
  cases h

/-- A character that can be in the text. -/
def InText (c : Char) : Prop := isPlain c = true ∨ Ere.isSpecial c = true

/-- A character behind a backslash. -/
theorem scanChar_escaped {type : MatchType} {d : Char} {last : Bool}
    (h : (scanChar ⟨type, true, buf⟩ d last).matchtype ≠ .regex) :
    Ere.isSpecial d = true ∧ scanChar ⟨type, true, buf⟩ d last = ⟨type, false, buf ++ [d]⟩ := by
  rw [scanChar] at h ⊢
  by_cases hbackslash : d = '\\'
  · subst hbackslash
    exact ⟨rfl, rfl⟩
  rw [if_neg hbackslash] at h ⊢
  by_cases hoperator : d = '.' ∨ d = '^' ∨ d = '*' ∨ d = '+'
  · rw [if_pos hoperator]
    refine ⟨?_, rfl⟩
    rcases hoperator with rfl | rfl | rfl | rfl <;> rfl
  rw [if_neg hoperator] at h
  exfalso
  split at h <;> simp at h

/-- A character that is not behind a backslash. -/
theorem scanChar_unescaped {type : MatchType} {last : Bool} (hc : c ≠ '\\')
    (h : (scanChar ⟨type, false, buf⟩ c last).matchtype ≠ .regex) :
    c = '$' ∧ last = true ∧ scanChar ⟨type, false, buf⟩ c last = ⟨typeAt type .dollar, false, buf⟩ ∨
    isPlain c = true ∧ scanChar ⟨type, false, buf⟩ c last = ⟨type, false, buf ++ [c]⟩ := by
  rw [scanChar, if_neg hc] at h ⊢
  by_cases hoperator : c = '.' ∨ c = '^' ∨ c = '*' ∨ c = '+'
  · rw [if_pos hoperator] at h
    exact absurd rfl h
  rw [if_neg hoperator] at h ⊢
  by_cases hdollar : c = '$'
  · rw [if_pos hdollar] at h ⊢
    cases last with
    | false => exact absurd rfl h
    | true => exact .inl ⟨hdollar, rfl, rfl⟩
  rw [if_neg hdollar] at h ⊢
  by_cases hplain : isPlain c = true
  · rw [if_pos ⟨Bool.false_ne_true, hplain⟩]
    exact .inr ⟨hplain, rfl⟩
  · rw [if_neg fun hand => hplain hand.2] at h
    exact absurd rfl h

/-- The loop over an expression that needs no regex. -/
theorem scanPattern_spells {p : Text} {type : MatchType}
    (h : (scanPattern p ⟨type, false, buf⟩).matchtype ≠ .regex) :
    ∃ q l ending, p = q ++ ending.text ∧
      Spells q l ∧ (∀ c ∈ l, InText c) ∧ (scanPattern p ⟨type, false, buf⟩).patbuf = buf ++ l ∧
      (scanPattern p ⟨type, false, buf⟩).matchtype = typeAt type ending := by
  induction hn : p.length using Nat.strong_induction_on generalizing p buf with
  | _ n ih =>
  cases p with
  | nil => exact ⟨[], [], .plain, rfl, .nil, nofun, (append_nil buf).symm, rfl⟩
  | cons c p =>
    rw [length_cons] at hn
    obtain ⟨hchar, heq⟩ := scanPattern_cons h
    rw [heq] at h ⊢
    by_cases hbackslash : c = '\\'
    · subst hbackslash
      have hstep : scanChar ⟨type, false, buf⟩ '\\' p.isEmpty = ⟨type, true, buf⟩ := rfl
      rw [hstep] at h ⊢
      cases p with
      | nil => exact ⟨[], [], .backslash, rfl, .nil, nofun, (append_nil buf).symm, rfl⟩
      | cons d p =>
        rw [length_cons] at hn
        obtain ⟨hchar, heq⟩ := scanPattern_cons h
        obtain ⟨hspecial, hstep⟩ := scanChar_escaped hchar
        rw [heq, hstep] at h ⊢
        obtain ⟨q, l, ending, rfl, hspells, htext, hbuf, htype⟩ := ih p.length (by omega) h rfl
        refine ⟨'\\' :: d :: q, d :: l, ending, rfl, .escaped hspecial hspells,
          forall_mem_cons.2 ⟨.inr hspecial, htext⟩, ?_, htype⟩
        rw [hbuf, append_assoc, singleton_append]
    · rcases scanChar_unescaped hbackslash hchar with ⟨rfl, hlast, hstep⟩ | ⟨hplain, hstep⟩
      · obtain rfl := List.isEmpty_iff.1 hlast
        rw [hstep]
        exact ⟨[], [], .dollar, rfl, .nil, nofun, (append_nil buf).symm, rfl⟩
      · rw [hstep] at h ⊢
        obtain ⟨q, l, ending, rfl, hspells, htext, hbuf, htype⟩ := ih p.length (by omega) h rfl
        refine ⟨c :: q, c :: l, ending, rfl, .plain (isSpecial_of_isPlain hplain) hspells,
          forall_mem_cons.2 ⟨.inl hplain, htext⟩, ?_, htype⟩
        rw [hbuf, append_assoc, singleton_append]

/-- What an expression that needs no regex means, in the words of the regex. -/
def Matcher.expr (m : Matcher) : Option Ere :=
  match m.matchtype with
  | .contains => some (lits m.strmatch .eps)
  | .startsWith => some (.cat .bol (lits m.strmatch .eps))
  | .endsWith => some (lits m.strmatch (.cat .eol .eps))
  | .matches => some (.cat .bol (lits m.strmatch (.cat .eol .eps)))
  | _ => none

section
variable {regcomp : Text → Option Nat} {pat : Text} {m : Matcher}

theorem determineIfRegex_expr (hm : determineIfRegex regcomp pat = some m)
    (hfast : m.matchtype ≠ .regex)
    {r : Ere} (hr : Ere.parse pat = some r) : m.expr = some r ∧ ∀ c ∈ m.strmatch, InText c := by
  obtain ⟨e, type, hpat, hne, htype, hbuf⟩ := determineIfRegex_scan hm hfast
  obtain ⟨q, l, ending, rfl, hspells, htext, hbuf', htype'⟩ := scanPattern_spells hne
  rw [hbuf', nil_append] at hbuf
  rw [htype'] at htype
  refine ⟨?_, hbuf ▸ htext⟩
  rcases hpat with ⟨rfl, rfl⟩ | ⟨rfl, rfl⟩
  · rw [Ere.parse_bol_spells hspells] at hr
    cases ending <;> cases hr <;> simp [Matcher.expr, htype, hbuf, typeAt]
  · rw [Ere.parse_spells hspells] at hr
    cases ending <;> cases hr <;> simp [Matcher.expr, htype, hbuf, typeAt]

end

/-! ## Comparing -/

/-- A line with the place where its path ends: there is a space, or the mark in front of tags, or
the end of the line. -/
structure PathEnd (metric : Text) (firstspace : Nat) : Prop where
  inside : firstspace ≤ metric.length
  mark : ∀ c, metric[firstspace]? = some c → c = ' ' ∨ c = ';' ∨ c = '\n'

/-- The bytes of the line behind a comparison. For most of the types the byte behind the path is
replaced by a terminator, and put back. -/
def metricBehind (m : Matcher) (metric : Text) (firstspace : Nat) : Text :=
  match m.matchtype with
  | .matchall | .startsWith => metric
  | _ =>
    let firstspc := metric.getD firstspace '\x00'
    (metric.set firstspace '\x00').set firstspace firstspc

/-- A comparison does what the regex would do with the path, and leaves the line as it was. -/
structure ComparesAs (r : Ere) (m : Matcher) (regex : Ere.Engine) (outside : Int → Char)
    (metric : Text) (firstspace : Nat) (pmatch : Nat → Span) : Prop where
  decides : (routerMetricMatches regex outside m metric firstspace pmatch).1 = true ↔
    Ere.Search (metric.take firstspace) r
  span : (routerMetricMatches regex outside m metric firstspace pmatch).1 = true → ∃ i j : Nat,
    (routerMetricMatches regex outside m metric firstspace pmatch).2 0 = ((i : Int), (j : Int)) ∧
      i ≤ firstspace ∧ Ere.LeftmostLongest (metric.take firstspace) r i j
  kept : metricBehind m metric firstspace = metric

theorem metricBehind_eq (m : Matcher) (metric : Text) (firstspace : Nat) :
    metricBehind m metric firstspace = metric := by
  have hback : (metric.set firstspace '\x00').set firstspace (metric.getD firstspace '\x00') =
      metric := by
    rw [set_set]
    by_cases hlt : firstspace < metric.length
    · rw [getD_eq_getElem?_getD, getElem?_eq_getElem hlt, Option.getD_some]
      exact set_getElem_self hlt
    · exact set_eq_of_length_le (by omega)
  rw [metricBehind]
  split <;> first | rfl | exact hback

section
variable {r : Ere} {m : Matcher} {regex : Ere.Engine} {outside : Int → Char} {metric : Text}
  {firstspace : Nat} {pmatch : Nat → Span}

/-- A comparison that finds the leftmost longest match, or finds that there is none. -/
theorem ComparesAs.of_found (found : Option (Nat × Nat))
    (hfound : routerMetricMatches regex outside m metric firstspace pmatch =
      (found.isSome, setSpans (found.toList.map fun (i, j) => ((i : Int), (j : Int))) pmatch))
    (hsome : ∀ i j, found = some (i, j) →
      i ≤ firstspace ∧ Ere.LeftmostLongest (metric.take firstspace) r i j)
    (hnone : found = none → ¬ Ere.Search (metric.take firstspace) r)
    (hinside : firstspace ≤ metric.length) :
    ComparesAs r m regex outside metric firstspace pmatch := by
  cases found with
  | none =>
    refine ⟨?_, ?_, metricBehind_eq ..⟩ <;> rw [hfound]
    · exact ⟨nofun, fun hsearch => absurd hsearch (hnone rfl)⟩
    · nofun
  | some p =>
    obtain ⟨i, j⟩ := p
    obtain ⟨hi, hmatch⟩ := hsome i j rfl
    refine ⟨?_, ?_, metricBehind_eq ..⟩ <;> rw [hfound]
    · refine ⟨fun _ => ⟨i, j, ?_, hmatch.matches_⟩, fun _ => rfl⟩
      rw [length_take]
      omega
    · exact fun _ => ⟨i, j, rfl, hi, hmatch⟩

/-- A text that is searched for. -/
theorem compares_contains (htype : m.matchtype = .contains) (hinside : firstspace ≤ metric.length) :
    ComparesAs (lits m.strmatch .eps) m regex outside metric firstspace pmatch := by
  have hlength : (metric.take firstspace).length = firstspace := length_take_of_le hinside
  refine .of_found ((strstr (metric.take firstspace) m.strmatch).map fun i =>
    (i, i + m.strmatch.length))
    ?_ ?_ ?_ hinside
  · cases hstr : strstr (metric.take firstspace) m.strmatch with
    | none =>
      simp only [routerMetricMatches, htype, hstr]
      rfl
    | some i =>
      simp only [routerMetricMatches, htype, hstr]
      rfl
  · intro i j hij
    obtain ⟨k, hk, heq⟩ := Option.map_eq_some_iff.1 hij
    cases heq
    obtain ⟨hstart, hle, hfirst⟩ := strstr_eq_some_iff.1 hk
    refine ⟨by omega, Ere.matches_lits.2 ⟨hstart, rfl⟩, ?_, ?_⟩
    · intro i' j' hlt hmatch
      exact hfirst i' hlt (Ere.matches_lits.1 hmatch).1
    · intro j' hmatch
      exact (Ere.matches_eps.1 (Ere.matches_lits.1 hmatch).2).le
  · intro hnone
    rw [Option.map_eq_none_iff, strstr_eq_none_iff] at hnone
    rintro ⟨i, j, hi, hmatch⟩
    exact hnone i hi (Ere.matches_lits.1 hmatch).1

/-- A comparison at the only place where the expression can match. -/
theorem ComparesAs.of_unique (found : Prop) [Decidable found] (i j : Nat)
    (hrun : routerMetricMatches regex outside m metric firstspace pmatch =
      if found then (true, setSpans [((i : Int), (j : Int))] pmatch) else (false, pmatch))
    (hmatches : ∀ i' j', Ere.Matches (metric.take firstspace) r i' j' ↔ found ∧ i' = i ∧ j' = j)
    (hi : i ≤ firstspace) (hinside : firstspace ≤ metric.length) :
    ComparesAs r m regex outside metric firstspace pmatch := by
  refine .of_found (if found then some (i, j) else none) ?_ ?_ ?_ hinside
  · rw [hrun]
    split <;> rfl
  · intro i' j' hij
    rw [Option.ite_none_right_eq_some] at hij
    obtain ⟨hfound, heq⟩ := hij
    cases heq
    refine ⟨hi, (hmatches i j).2 ⟨hfound, rfl, rfl⟩, ?_, ?_⟩
    · intro i' j' hlt hmatch
      have := ((hmatches i' j').1 hmatch).2.1
      omega
    · intro j' hmatch
      exact ((hmatches i j').1 hmatch).2.2.le
  · intro hnone
    rintro ⟨i', j', -, hmatch⟩
    rw [if_pos ((hmatches i' j').1 hmatch).1] at hnone
    cases hnone

/-- A text that the path starts with. A character of the text is not a mark, so the comparison ends
in the path. -/
theorem compares_startsWith (htype : m.matchtype = .startsWith) (hend : PathEnd metric firstspace)
    (htext : ∀ c ∈ m.strmatch, InText c) :
    ComparesAs (.cat .bol (lits m.strmatch .eps)) m regex outside metric firstspace pmatch := by
  have hpath : m.strmatch <+: metric ↔ m.strmatch <+: metric.take firstspace := by
    constructor
    · intro hstart
      have hle : m.strmatch.length ≤ firstspace := by
        by_contra hlt
        rw [not_le] at hlt
        have hget : metric[firstspace]? = some m.strmatch[firstspace] := by
          obtain ⟨t, ht⟩ := hstart
          rw [← ht, getElem?_append_left hlt, getElem?_eq_getElem hlt]
        have hin := htext _ (getElem_mem hlt)
        rcases hend.mark _ hget with heq | heq | heq <;> rw [heq] at hin <;>
          exact absurd hin (by rw [InText]; decide)
      exact prefix_take_iff.2 ⟨hstart, hle⟩
    · intro hstart
      exact hstart.trans (List.take_prefix _ _)
  refine .of_unique (m.strmatch.isPrefixOf metric = true) 0 m.strmatch.length ?_ ?_ (Nat.zero_le _)
    hend.inside
  · simp only [routerMetricMatches, htype]
    rfl
  · intro i j
    rw [Ere.matches_bol, Ere.matches_lits, Ere.matches_eps, Nat.zero_add, drop_zero,
      isPrefixOf_iff_prefix, hpath]
    exact and_left_comm

/-- A text that is the path. -/
theorem compares_matches (htype : m.matchtype = .matches) (hinside : firstspace ≤ metric.length) :
    ComparesAs (.cat .bol (lits m.strmatch (.cat .eol .eps))) m regex outside metric firstspace
      pmatch := by
  refine .of_unique (metric.take firstspace = m.strmatch) 0 m.strmatch.length ?_ ?_
    (Nat.zero_le _) hinside
  · simp only [routerMetricMatches, htype]
    rfl
  · intro i j
    rw [Ere.matches_bol, Ere.matches_lits, Ere.matches_eol, Nat.zero_add, drop_zero]
    constructor
    · rintro ⟨rfl, hstart, hlength, rfl⟩
      exact ⟨(hstart.eq_of_length hlength).symm, rfl, hlength.symm⟩
    · rintro ⟨heq, rfl, rfl⟩
      rw [heq]
      exact ⟨rfl, prefix_rfl, rfl, rfl⟩

/-- A text that the path ends with, if the path is long enough. -/
theorem compares_endsWith (htype : m.matchtype = .endsWith) (hinside : firstspace ≤ metric.length)
    (hlong : m.strmatch.length ≤ firstspace) :
    ComparesAs (lits m.strmatch (.cat .eol .eps)) m regex outside metric firstspace pmatch := by
  have hlength : (metric.take firstspace).length = firstspace := length_take_of_le hinside
  have hslice : slice outside metric ((firstspace : Int) - m.strmatch.length) firstspace =
      (metric.take firstspace).drop (firstspace - m.strmatch.length) := by
    rw [slice_of_inside (by omega) (by omega)]
    congr 1
    omega
  refine .of_unique ((metric.take firstspace).drop (firstspace - m.strmatch.length) = m.strmatch)
    (firstspace - m.strmatch.length) firstspace ?_ ?_ (Nat.sub_le _ _) hinside
  · simp only [routerMetricMatches, htype, hslice, Int.ofNat_sub hlong]
  · intro i j
    rw [Ere.matches_lits, Ere.matches_eol, hlength]
    constructor
    · rintro ⟨hstart, hi, hj⟩
      obtain rfl : i = firstspace - m.strmatch.length := by omega
      refine ⟨(hstart.eq_of_length ?_).symm, rfl, hj⟩
      rw [length_drop]
      omega
    · rintro ⟨heq, rfl, hj⟩
      rw [heq]
      exact ⟨prefix_rfl, by omega, hj⟩

/-- A text that is longer than the path is not at its end, whatever is in front of the line. -/
theorem not_search_short (hinside : firstspace ≤ metric.length)
    (hshort : firstspace < m.strmatch.length) :
    ¬ Ere.Search (metric.take firstspace) (lits m.strmatch (.cat .eol .eps)) := by
  rintro ⟨i, j, -, hmatch⟩
  obtain ⟨hlength, -⟩ := Ere.matches_eol.1 (Ere.matches_lits.1 hmatch).2
  rw [length_take_of_le hinside] at hlength
  omega

theorem not_compares_short (htype : m.matchtype = .endsWith) (hinside : firstspace ≤ metric.length)
    (hshort : firstspace < m.strmatch.length)
    (hslice : slice outside metric ((firstspace : Int) - m.strmatch.length) firstspace =
      m.strmatch) :
    ¬ ComparesAs (lits m.strmatch (.cat .eol .eps)) m regex outside metric firstspace pmatch := by
  intro h
  refine not_search_short hinside hshort (h.decides.1 ?_)
  simp only [routerMetricMatches, htype, hslice, if_true]

/-- The string functions do what the regex would do, unless the path is shorter than a text it is
compared with at its end and the bytes in front of the line make up for that. -/
theorem fastPath_iff {regcomp : Text → Option Nat} {pat : Text}
    (hm : determineIfRegex regcomp pat = some m) (hfast : m.matchtype ≠ .regex)
    (hr : Ere.parse pat = some r) (hend : PathEnd metric firstspace) :
    ComparesAs r m regex outside metric firstspace pmatch ↔
      ¬ (m.matchtype = .endsWith ∧ firstspace < m.strmatch.length ∧
        slice outside metric ((firstspace : Int) - m.strmatch.length) firstspace = m.strmatch) := by
  obtain ⟨hexpr, htext⟩ := determineIfRegex_expr hm hfast hr
  cases htype : m.matchtype with
  | matchall => simp [Matcher.expr, htype] at hexpr
  | regex => exact absurd htype hfast
  | contains =>
    simp only [Matcher.expr, htype, Option.some.injEq] at hexpr
    subst hexpr
    exact iff_of_true (compares_contains htype hend.inside) nofun
  | startsWith =>
    simp only [Matcher.expr, htype, Option.some.injEq] at hexpr
    subst hexpr
    exact iff_of_true (compares_startsWith htype hend htext) nofun
  | endsWith =>
    simp only [Matcher.expr, htype, Option.some.injEq] at hexpr
    subst hexpr
    constructor
    · rintro h ⟨-, hshort, hslice⟩
      exact not_compares_short htype hend.inside hshort hslice h
    · intro hnot
      rcases Nat.lt_or_ge firstspace m.strmatch.length with hshort | hlong
      · refine .of_found none ?_ nofun (fun _ => not_search_short hend.inside hshort) hend.inside
        have hslice : ¬ slice outside metric ((firstspace : Int) - m.strmatch.length) firstspace =
            m.strmatch := fun hslice => hnot ⟨rfl, hshort, hslice⟩
        simp only [routerMetricMatches, htype, hslice, if_false]
        rfl
      · exact compares_endsWith htype hend.inside hlong
  | _ =>
    simp only [Matcher.expr, htype, Option.some.injEq] at hexpr
    subst hexpr
    exact iff_of_true (compares_matches htype hend.inside) nofun

theorem escaped_dot_compared :
    let pat := "foo\\.bar$".toList
    let m : Matcher := ⟨.endsWith, pat, "foo.bar".toList, 0⟩
    ∃ r, Ere.parse pat = some r ∧
      ComparesAs r m .basic (fun _ => '\x00') "a.foo.bar 1 2\n".toList 9 fun _ => (-1, -1) := by
  intro pat m
  have hm : determineIfRegex (fun _ => none) pat = some m := by decide +kernel
  have hr : Ere.parse pat = some (lits "foo.bar".toList (.cat .eol .eps)) := by decide +kernel
  have hend : PathEnd "a.foo.bar 1 2\n".toList 9 := ⟨by decide, by simp⟩
  refine ⟨_, hr, (fastPath_iff hm (by decide) hr hend).2 ?_⟩
  rintro ⟨-, hshort, -⟩
  exact absurd hshort (by decide)

/-- The metric `ar` behind a byte `b` in memory: the expression `bar$` is taken to match, from a
place in front of the metric. -/
theorem match_in_front_of_metric :
    let m : Matcher := ⟨.endsWith, "bar$".toList, "bar".toList, 0⟩
    let outside : Int → Char := fun i => if i = -1 then 'b' else '\x00'
    determineIfRegex (fun _ => none) "bar$".toList = some m ∧
    (routerMetricMatches .basic outside m "ar 1 2\n".toList 2 fun _ => (-1, -1)).1 = true ∧
    (routerMetricMatches .basic outside m "ar 1 2\n".toList 2 fun _ => (-1, -1)).2 0 = (-1, 2) ∧
    ∃ r, Ere.parse "bar$".toList = some r ∧
      ¬ ComparesAs r m .basic outside "ar 1 2\n".toList 2 fun _ => (-1, -1) := by
  intro m outside
  refine ⟨by decide +kernel, by decide +kernel, by decide +kernel,
    lits "bar".toList (.cat .eol .eps), by decide +kernel, ?_⟩
  exact not_compares_short (m := m) rfl (by decide) (by decide) (by decide +kernel)

end

end CarbonRelay
