import CarbonRelay.Dispatcher.Basic
import Mathlib.Data.List.Basic
import Mathlib.Tactic.Common

/-!
# The lines of a buffer

What `dispatchReceivedMetrics` does to a buffer, said in terms of its lines. `rawLines` cuts a text
into lines, each with its end, and a tail. `lineResult` is what becomes of one line, which depends
on whether a tag may still start in it (`searchTags`). When no destination stalls, the loop over the
buffer gives the results of the lines in turn (`runLines`) and leaves the tail without its leading
separators and its tabs (`tidy`).
-/

namespace CarbonRelay

open List

universe u

/-- The lines of a text, each with its end, and what is behind the last end of a line. -/
def rawLines : Text → List Text × Text
  | [] => ([], [])
  | c :: s =>
    let (ls, t) := rawLines s
    if isNewline c then ([c] :: ls, t)
    else
      match ls with
      | [] => ([], c :: t)
      | l :: ls => ((c :: l) :: ls, t)

/-- The buffer after a tail was passed. -/
def tidy (t : Text) : Text := (t.dropWhile isSeparator).map tabToSpace

/-- A line, without its end, parsed from a new start. -/
def parseLine (D : Dispatcher) (searchTags : Bool) (l : Text) : LineState :=
  l.dropLast.foldl (parseChar D) (newLine searchTags)

/-- What becomes of a line: the metric and the offset of `firstspace`, unless it is discarded. -/
def lineResult (D : Dispatcher) (searchTags : Bool) (l : Text) : Option (Text × Nat) :=
  lineEnd D (parseLine D searchTags l)

/-- Whether a tag may start in the line behind one: an accepted line sets it back, a discarded one
does not. -/
def nextTags (D : Dispatcher) (l : LineState) : Bool :=
  if (lineEnd D l).isSome then D.tagsSupported else l.searchTags

/-- The results of lines that are passed in one go. -/
def runLines (D : Dispatcher) : Bool → List Text → List (Option (Text × Nat))
  | _, [] => []
  | searchTags, l :: ls =>
    lineResult D searchTags l :: runLines D (nextTags D (parseLine D searchTags l)) ls

/-! ## Cutting a text into lines -/

section
variable {s t x y : Text} {ls : List Text}

/-- The lines and the tail are the text. -/
theorem flatten_rawLines (s : Text) : (rawLines s).1.flatten ++ (rawLines s).2 = s := by
  induction s with
  | nil => rfl
  | cons c s ih =>
    rw [rawLines]
    rcases hs : rawLines s with ⟨ls, t⟩
    rw [hs] at ih
    cases ls with
    | nil => by_cases hc : isNewline c <;> simp_all
    | cons l ls => by_cases hc : isNewline c <;> simp_all

/-- A text without an end of a line is a tail. -/
theorem rawLines_of_not_newline (h : ∀ c ∈ x, isNewline c = false) : rawLines x = ([], x) := by
  induction x with
  | nil => rfl
  | cons c x ih =>
    rw [rawLines, ih fun c' hc' => h c' (mem_cons_of_mem c hc'), h c mem_cons_self]
    rfl

/-- The tail has no end of a line in it. -/
theorem not_newline_of_mem_tail (s : Text) : ∀ c ∈ (rawLines s).2, isNewline c = false := by
  induction s with
  | nil => intro c hc; cases hc
  | cons c s ih =>
    intro c' hc'
    rw [rawLines] at hc'
    rcases hs : rawLines s with ⟨ls, t⟩
    rw [hs] at hc' ih
    cases hc : isNewline c with
    | true => rw [hc] at hc'; exact ih c' hc'
    | false =>
      rw [hc] at hc'
      cases ls with
      | nil =>
        rcases mem_cons.1 hc' with rfl | hmem
        · exact hc
        · exact ih c' hmem
      | cons l ls => exact ih c' hc'

/-- What is in front of the first line belongs to it. -/
theorem rawLines_append_of_not_newline (h : ∀ c ∈ x, isNewline c = false) (y : Text) :
    rawLines (x ++ y) =
      match rawLines y with
      | ([], t) => ([], x ++ t)
      | (l :: ls, t) => ((x ++ l) :: ls, t) := by
  induction x with
  | nil =>
    rw [nil_append]
    rcases rawLines y with ⟨_ | ⟨l, ls⟩, t⟩ <;> rfl
  | cons c x ih =>
    rw [cons_append, rawLines, ih fun c' hc' => h c' (mem_cons_of_mem c hc'), h c mem_cons_self]
    rcases rawLines y with ⟨_ | ⟨l, ls⟩, t⟩ <;> rfl

/-- The lines of two texts: the tail of the first one belongs to the lines of the second. -/
theorem rawLines_append (x y : Text) :
    rawLines (x ++ y) = ((rawLines x).1 ++ (rawLines ((rawLines x).2 ++ y)).1,
      (rawLines ((rawLines x).2 ++ y)).2) := by
  induction x with
  | nil => rfl
  | cons c x ih =>
    rw [cons_append, rawLines, rawLines, ih]
    rcases hx : rawLines x with ⟨_ | ⟨l, ls⟩, t⟩
    · cases hc : isNewline c with
      | true => rfl
      | false =>
        rw [hx] at ih
        simp only [nil_append, Bool.false_eq_true, if_false, cons_append]
        rw [rawLines, hc]
        simp only [Bool.false_eq_true, if_false]
    · cases hc : isNewline c with
      | true => rfl
      | false => rfl

/-- Texts that are lines each are cut into themselves. -/
theorem rawLines_flatten (h : ∀ l ∈ ls, rawLines l = ([l], [])) :
    rawLines ls.flatten = (ls, []) := by
  induction ls with
  | nil => rfl
  | cons l ls ih =>
    rw [flatten_cons, rawLines_append, h l mem_cons_self,
      nil_append, ih fun l' hl' => h l' (mem_cons_of_mem l hl')]
    rfl

/-- The lines of a text are lines each. -/
theorem rawLines_of_mem (s : Text) : ∀ l ∈ (rawLines s).1, rawLines l = ([l], []) := by
  induction s with
  | nil => intro l hl; cases hl
  | cons c s ih =>
    intro l hl
    rw [rawLines] at hl
    rcases hs : rawLines s with ⟨ls, t⟩
    rw [hs] at hl ih
    cases hc : isNewline c with
    | true =>
      rw [hc] at hl
      rcases mem_cons.1 hl with rfl | hmem
      · rw [rawLines, hc]; rfl
      · exact ih l hmem
    | false =>
      rw [hc] at hl
      cases ls with
      | nil => cases hl
      | cons l₀ ls =>
        rcases mem_cons.1 hl with rfl | hmem
        · rw [rawLines, ih l₀ mem_cons_self, hc]; rfl
        · exact ih l (mem_cons_of_mem l₀ hmem)

/-- A line has no end of a line in front of its own. -/
theorem not_newline_of_mem_line (s : Text) :
    ∀ l ∈ (rawLines s).1, ∀ c ∈ l.dropLast, isNewline c = false := by
  induction s with
  | nil => intro l hl; cases hl
  | cons c s ih =>
    intro l hl
    rw [rawLines] at hl
    rcases hs : rawLines s with ⟨ls, t⟩
    rw [hs] at hl ih
    cases hc : isNewline c with
    | true =>
      rw [hc] at hl
      rcases mem_cons.1 hl with rfl | hmem
      · intro d hd; cases hd
      · exact ih l hmem
    | false =>
      rw [hc] at hl
      cases ls with
      | nil => cases hl
      | cons l₀ ls =>
        rcases mem_cons.1 hl with rfl | hmem
        · intro d hd
          cases l₀ with
          | nil => cases hd
          | cons e l₀ =>
            rw [dropLast_cons_of_ne_nil (cons_ne_nil e l₀)] at hd
            rcases mem_cons.1 hd with rfl | hd
            · exact hc
            · exact ih _ mem_cons_self d hd
        · exact ih l (mem_cons_of_mem l₀ hmem)

/-- A line has an end. -/
theorem ne_nil_of_rawLines {x : Text} (h : rawLines x = ([x], [])) : x ≠ [] := by
  rintro rfl
  cases h

/-! ## Tidying a tail -/

variable {D : Dispatcher} {l : LineState} {c : Char}

theorem tabToSpace_of_ne (h : c ≠ '\t') : tabToSpace c = c := if_neg h

theorem tabToSpace_tabToSpace (c : Char) : tabToSpace (tabToSpace c) = tabToSpace c := by
  by_cases h : c = '\t'
  · subst h; rfl
  · rw [tabToSpace_of_ne h, tabToSpace_of_ne h]

theorem isSeparator_tabToSpace (c : Char) : isSeparator (tabToSpace c) = isSeparator c := by
  rw [tabToSpace]
  split
  case isTrue h => rw [h]; rfl
  case isFalse => rfl

theorem isNewline_tabToSpace (c : Char) : isNewline (tabToSpace c) = isNewline c := by
  rw [tabToSpace]
  split
  case isTrue h => rw [h]; rfl
  case isFalse => rfl

/-- A tab is parsed as the space it is replaced by. -/
theorem parseChar_tabToSpace : parseChar D l (tabToSpace c) = parseChar D l c := by
  by_cases h : c = '\t'
  · subst h; rfl
  · rw [tabToSpace_of_ne h]

/-- A tidied tail is parsed as the tail itself. -/
theorem foldl_parseChar_tidy (searchTags : Bool) (t : Text) :
    (tidy t).foldl (parseChar D) (newLine searchTags) =
      t.foldl (parseChar D) (newLine searchTags) := by
  have hmap (l : LineState) (t : Text) :
      (t.map tabToSpace).foldl (parseChar D) l = t.foldl (parseChar D) l := by
    simp only [foldl_map, parseChar_tabToSpace]
  rw [tidy, hmap]
  induction t with
  | nil => rfl
  | cons c t ih =>
    rw [dropWhile_cons]
    split
    case isTrue h =>
      have hskip : parseChar D (newLine searchTags) c = newLine searchTags := by
        rw [parseChar, if_pos h]; rfl
      rw [ih, foldl_cons, hskip]
    case isFalse => rfl

/-- Tidying a tail that grows does not depend on when it was tidied before. -/
theorem tidy_tidy_append (t x : Text) : tidy (tidy t ++ x) = tidy (t ++ x) := by
  induction t with
  | nil => rfl
  | cons c t ih =>
    cases h : isSeparator c with
    | true =>
      have hskip : tidy (c :: t) = tidy t := by rw [tidy, dropWhile_cons_of_pos h]; rfl
      rw [hskip, ih, cons_append, tidy, tidy, dropWhile_cons_of_pos h]
    | false =>
      have hkeep : tidy (c :: t) = tabToSpace c :: t.map tabToSpace := by
        rw [tidy, dropWhile_cons_of_neg (by rw [h]; exact Bool.false_ne_true)]; rfl
      rw [hkeep, cons_append, cons_append, tidy, tidy,
        dropWhile_cons_of_neg (by rw [isSeparator_tabToSpace, h]; exact Bool.false_ne_true),
        dropWhile_cons_of_neg (by rw [h]; exact Bool.false_ne_true)]
      simp only [map_cons, map_append, map_map, tabToSpace_tabToSpace, Function.comp_def]

theorem not_newline_tidy (h : ∀ c ∈ t, isNewline c = false) :
    ∀ c ∈ tidy t, isNewline c = false := by
  intro c hc
  obtain ⟨c₀, hc₀, rfl⟩ := mem_map.1 hc
  rw [isNewline_tabToSpace]
  exact h c₀ (dropWhile_sublist _ |>.subset hc₀)

end

/-! ## The loop over a buffer, when nothing stalls -/

variable {δ : Type u}

/-- Every destination takes its metric at once. -/
def DispatchEnv.Accepting (E : DispatchEnv) : Prop := ∀ tick force, E.send tick force = true

/-- What was handed to the router. -/
def routedOf (es : List (DispatchEvent δ)) : List (Text × Nat) :=
  es.filterMap fun
    | .routed metric firstspace _ => some (metric, firstspace)
    | _ => none

@[simp] theorem routedOf_append (es es' : List (DispatchEvent δ)) :
    routedOf (es ++ es') = routedOf es ++ routedOf es' := filterMap_append

@[simp] theorem routedOf_cons_routed (metric : Text) (firstspace : Nat) (dests : List δ)
    (es : List (DispatchEvent δ)) :
    routedOf (.routed metric firstspace dests :: es) = (metric, firstspace) :: routedOf es := rfl

/-- The results of lines, the first of which was begun. -/
def linesFrom (D : Dispatcher) (l : LineState) : List Text → List (Option (Text × Nat))
  | [] => []
  | x :: ls =>
    let l := x.dropLast.foldl (parseChar D) l
    lineEnd D l :: runLines D (nextTags D l) ls

/-- The end of a line: the lines behind it are passed from a new start. -/
theorem linesFrom_newline {D : Dispatcher} {c : Char} (hc : isNewline c = true) (l : LineState)
    (rest : Text) : linesFrom D l (rawLines (c :: rest)).1 =
      lineEnd D l :: runLines D (nextTags D l) (rawLines rest).1 := by
  rw [rawLines, hc]
  rfl

/-- A character within a line belongs to the line. -/
theorem linesFrom_cons {D : Dispatcher} {c : Char} (hc : isNewline c = false) (l : LineState)
    (rest : Text) : linesFrom D l (rawLines (c :: rest)).1 =
      linesFrom D (parseChar D l c) (rawLines rest).1 := by
  rw [rawLines, hc]
  rcases hrest : rawLines rest with ⟨_ | ⟨x, ls⟩, t⟩
  · rfl
  · have hx : x ≠ [] := ne_nil_of_rawLines
      (rawLines_of_mem rest x (by rw [hrest]; exact mem_cons_self))
    simp only [Bool.false_eq_true, if_false, linesFrom, dropLast_cons_of_ne_nil hx, foldl_cons]

theorem linesFrom_newLine (D : Dispatcher) (searchTags : Bool) (ls : List Text) :
    linesFrom D (newLine searchTags) ls = runLines D searchTags ls := by
  cases ls <;> rfl

/-- What is left of a buffer of which `kept` was passed. -/
def leftover (l : LineState) (kept : Text) : List Text × Text → Text
  | ([], t) => if l.metric = [] then tidy t else kept ++ t.map tabToSpace
  | (_ :: _, t) => tidy t

/-- A buffer was passed: the results of its lines were handed to the router and counted, and `buf`
is left. -/
structure Passed (rs : List (Option (Text × Nat))) (buf : Text) (s s' : DispatchState δ)
    (es : List (DispatchEvent δ)) : Prop where
  routed : routedOf es = rs.filterMap id
  metrics : s'.metrics = s.metrics + rs.countP Option.isSome
  discards : s'.discards = s.discards + rs.countP Option.isNone
  buf : s'.conn.buf = buf
  bufsize : s'.conn.bufsize = s.conn.bufsize

section
variable {D : Dispatcher} {E : DispatchEnv} {route : Text → Nat → List δ × Nat} {l : LineState}
  {c : Char} {rest kept : Text} {s : DispatchState δ}

theorem push_metric_ne_nil : (l.push c).metric ≠ [] :=
  append_ne_nil_of_right_ne_nil _ (cons_ne_nil c [])

theorem pushSeparator_metric_ne_nil (h : l.metric ≠ []) : (pushSeparator l c).metric ≠ [] := by
  rw [pushSeparator]
  split
  · exact append_ne_nil_of_right_ne_nil _ (cons_ne_nil ' ' [])
  · split
    · exact push_metric_ne_nil
    · exact h

/-- A line is begun as soon as a character is passed that is not a separator in front of it. -/
theorem parseChar_metric_ne_nil (h : (isSeparator c && l.metric.isEmpty) = false) :
    (parseChar D l c).metric ≠ [] := by
  rw [parseChar]
  split
  case isTrue hsep =>
    rw [hsep, Bool.true_and] at h
    rw [h]
    exact pushSeparator_metric_ne_nil (isEmpty_eq_false_iff.1 h)
  case isFalse =>
    split
    · exact append_ne_nil_of_right_ne_nil _ (cons_ne_nil c [])
    · split
      · exact push_metric_ne_nil
      · exact push_metric_ne_nil

theorem sendDests_accepting (hE : E.Accepting) (force : Bool) (tick : Nat) (ds : List δ) :
    sendDests E force tick ds = ([], tick + ds.length, ds.map .sent) := by
  induction ds generalizing tick with
  | nil => rfl
  | cons d ds ih =>
    rw [sendDests, if_pos (hE tick force), ih, length_cons, Nat.add_right_comm, Nat.add_assoc]
    rfl

theorem routedOf_map_sent (ds : List δ) : routedOf (ds.map .sent) = [] := by
  induction ds with
  | nil => rfl
  | cons d ds ih => exact ih

/-- Sending to destinations that all take the metric. -/
theorem dispatchProcessDests_accepting (hE : E.Accepting) (now : Timeval) (s : DispatchState δ) :
    ∃ s' es, dispatchProcessDests E now s = (true, s', es) ∧ Passed [] s.conn.buf s s' es := by
  rw [dispatchProcessDests]
  split
  case isTrue => exact ⟨s, [], rfl, rfl, rfl, rfl, rfl, rfl⟩
  case isFalse =>
    simp only [sendDests_accepting hE, isEmpty_nil, if_true]
    exact ⟨_, _, rfl, routedOf_map_sent _, rfl, rfl, rfl, rfl⟩

/-! The steps of the loop: the end of a line, a separator in front of a line, another character. -/

theorem receivedLoop_newline_none (hc : isNewline c = true) (hend : lineEnd D l = none) :
    receivedLoop D E route (c :: rest) kept l s =
      let r := receivedLoop D E route rest [] (newLine l.searchTags)
        { s with discards := s.discards + 1 }
      (r.1, .discarded :: r.2) := by
  rw [receivedLoop, if_pos hc, hend]

theorem receivedLoop_newline_some {metric : Text} {firstspace : Nat} (hc : isNewline c = true)
    (hend : lineEnd D l = some (metric, firstspace)) :
    receivedLoop D E route (c :: rest) kept l s =
      let s₀ := routeMetric E route metric firstspace s
      match dispatchProcessDests E s₀.conn.lastwork s₀ with
      | (false, s₁, es) =>
        (leaveBuffer rest false s₁, .routed metric firstspace s₀.conn.dests :: es)
      | (true, s₁, es) =>
        let r := receivedLoop D E route rest [] (newLine D.tagsSupported) s₁
        (r.1, .routed metric firstspace s₀.conn.dests :: es ++ r.2) := by
  rewrite [receivedLoop, if_pos hc, hend]
  rfl

theorem receivedLoop_skip (hc : isNewline c = false)
    (hskip : (isSeparator c && l.metric.isEmpty) = true) :
    receivedLoop D E route (c :: rest) kept l s = receivedLoop D E route rest [] l s := by
  rw [receivedLoop, hc, hskip]
  rfl

theorem receivedLoop_char (hc : isNewline c = false)
    (hskip : (isSeparator c && l.metric.isEmpty) = false) :
    receivedLoop D E route (c :: rest) kept l s =
      receivedLoop D E route rest (kept ++ [tabToSpace c]) (parseChar D l c) s := by
  rw [receivedLoop, hc, hskip]
  rfl

theorem parseChar_of_skip (hskip : (isSeparator c && l.metric.isEmpty) = true) :
    parseChar D l c = l := by
  obtain ⟨hsep, hempty⟩ := Bool.and_eq_true_iff.1 hskip
  rw [parseChar, if_pos hsep, if_pos hempty]

theorem leftover_newLine (searchTags : Bool) (x : Text) :
    leftover (newLine searchTags) [] (rawLines x) = tidy (rawLines x).2 := by
  rcases rawLines x with ⟨_ | ⟨l, ls⟩, t⟩ <;> rfl

theorem leftover_newline (hc : isNewline c = true) :
    leftover l kept (rawLines (c :: rest)) = tidy (rawLines rest).2 := by
  rw [rawLines, hc]
  rfl

theorem leftover_skip (hc : isNewline c = false)
    (hskip : (isSeparator c && l.metric.isEmpty) = true) :
    leftover l kept (rawLines (c :: rest)) = leftover l [] (rawLines rest) := by
  obtain ⟨hsep, hempty⟩ := Bool.and_eq_true_iff.1 hskip
  have hmetric : l.metric = [] := List.isEmpty_iff.1 hempty
  rw [rawLines, hc]
  rcases rawLines rest with ⟨_ | ⟨x, ls⟩, t⟩
  · have htidy : tidy (c :: t) = tidy t := by rw [tidy, dropWhile_cons_of_pos hsep]; rfl
    simp only [Bool.false_eq_true, if_false, leftover, if_pos hmetric, htidy]
  · rfl

theorem leftover_char (hc : isNewline c = false)
    (hskip : (isSeparator c && l.metric.isEmpty) = false) (hkept : l.metric = [] → kept = []) :
    leftover l kept (rawLines (c :: rest)) =
      leftover (parseChar D l c) (kept ++ [tabToSpace c]) (rawLines rest) := by
  have hne := parseChar_metric_ne_nil (D := D) hskip
  rw [rawLines, hc]
  rcases rawLines rest with ⟨_ | ⟨x, ls⟩, t⟩
  · simp only [Bool.false_eq_true, if_false, leftover, if_neg hne]
    split
    case isTrue hmetric =>
      rw [hmetric, isEmpty_nil, Bool.and_true] at hskip
      rw [hkept hmetric, tidy, dropWhile_cons_of_neg (by rw [hskip]; exact Bool.false_ne_true)]
      rfl
    case isFalse => rw [map_cons, append_assoc]; rfl
  · rfl

/-- The loop over a buffer gives the results of its lines in turn, by induction on the buffer. -/
theorem receivedLoop_accepting (hE : E.Accepting) (route : Text → Nat → List δ × Nat)
    (rest kept : Text) (l : LineState) (s : DispatchState δ) (hkept : l.metric = [] → kept = []) :
    Passed (linesFrom D l (rawLines rest).1) (leftover l kept (rawLines rest)) s
      (receivedLoop D E route rest kept l s).1 (receivedLoop D E route rest kept l s).2 := by
  induction rest generalizing kept l s with
  | nil =>
    refine ⟨rfl, rfl, rfl, ?_, rfl⟩
    rw [rawLines, leftover, receivedLoop]
    split
    case isTrue h => exact hkept h
    case isFalse => exact (append_nil kept).symm
  | cons c rest ih =>
    cases hc : isNewline c with
    | true =>
      have hnew (searchTags : Bool) (s : DispatchState δ) :=
        ih [] (newLine searchTags) s fun _ => rfl
      simp only [leftover_newLine, linesFrom_newLine] at hnew
      rw [linesFrom_newline hc, leftover_newline hc, nextTags]
      cases hend : lineEnd D l with
      | none =>
        obtain ⟨h₁, h₂, h₃, h₄, h₅⟩ := hnew l.searchTags { s with discards := s.discards + 1 }
        rw [receivedLoop_newline_none hc hend]
        refine ⟨h₁, h₂, ?_, h₄, h₅⟩
        simp only [h₃, countP_cons, Option.isNone_none, Option.isSome_none, if_true,
          Bool.false_eq_true, if_false]
        omega
      | some p =>
        obtain ⟨metric, firstspace⟩ := p
        obtain ⟨s₁, es₁, hproc, g₁, g₂, g₃, g₄, g₅⟩ := dispatchProcessDests_accepting hE
          (routeMetric E route metric firstspace s).conn.lastwork
          (routeMetric E route metric firstspace s)
        obtain ⟨h₁, h₂, h₃, h₄, h₅⟩ := hnew D.tagsSupported s₁
        simp only [receivedLoop_newline_some hc hend, hproc, Option.isSome_some, if_true]
        refine ⟨?_, ?_, ?_, h₄, h₅.trans g₅⟩
        · rw [routedOf_append, routedOf_cons_routed, g₁, h₁]
          rfl
        · rw [h₂, g₂]
          simp only [routeMetric, countP_cons, countP_nil, Option.isSome_some, if_true]
          omega
        · rw [h₃, g₃]
          simp [routeMetric]
    | false =>
      rw [linesFrom_cons hc]
      cases hskip : isSeparator c && l.metric.isEmpty with
      | true =>
        rw [receivedLoop_skip hc hskip, leftover_skip hc hskip, parseChar_of_skip hskip]
        exact ih [] l s fun _ => rfl
      | false =>
        have hne := parseChar_metric_ne_nil (D := D) hskip
        rw [receivedLoop_char hc hskip, leftover_char (D := D) hc hskip hkept]
        exact ih (kept ++ [tabToSpace c]) (parseChar D l c) s fun h => absurd h hne

/-- A buffer is passed: the results of its lines from a new start, and the tidied tail. -/
theorem dispatchReceivedMetrics_accepting (hE : E.Accepting) (route : Text → Nat → List δ × Nat)
    (s : DispatchState δ) :
    Passed (runLines D D.tagsSupported (rawLines s.conn.buf).1) (tidy (rawLines s.conn.buf).2) s
      (dispatchReceivedMetrics D E route s).1 (dispatchReceivedMetrics D E route s).2 := by
  have hpassed := receivedLoop_accepting (D := D) hE route s.conn.buf []
    (newLine D.tagsSupported) s fun _ => rfl
  rwa [linesFrom_newLine, leftover_newLine] at hpassed

/-! ## The metrics that are routed, stalled or not -/

theorem routedOf_sendDests (E : DispatchEnv) (force : Bool) (tick : Nat) (ds : List δ) :
    routedOf (sendDests E force tick ds).2.2 = [] := by
  induction ds generalizing tick with
  | nil => rfl
  | cons d ds ih =>
    rw [sendDests]
    split
    · exact ih (tick + 1)
    · rfl

theorem routedOf_dispatchProcessDests (E : DispatchEnv) (now : Timeval) (s : DispatchState δ) :
    routedOf (dispatchProcessDests E now s).2.2 = [] := by
  rw [dispatchProcessDests]
  split
  · rfl
  · dsimp only
    generalize (if s.conn.maxsenddelay = 0 then _ else _ : Int) = maxsenddelay
    split
    · exact routedOf_sendDests _ _ _ _
    · exact routedOf_sendDests _ _ _ _

/-- The metrics that are routed are the results of the first lines, at least of one if there is any.
By induction on the buffer. -/
theorem receivedLoop_routed (D : Dispatcher) (E : DispatchEnv) (route : Text → Nat → List δ × Nat)
    (rest kept : Text) (l : LineState) (s : DispatchState δ) :
    ∃ rs, (linesFrom D l (rawLines rest).1).filterMap id =
      routedOf (receivedLoop D E route rest kept l s).2 ++ rs ∧
      (routedOf (receivedLoop D E route rest kept l s).2 = [] → rs = []) := by
  induction rest generalizing kept l s with
  | nil => exact ⟨[], rfl, fun _ => rfl⟩
  | cons c rest ih =>
    cases hc : isNewline c with
    | true =>
      rw [linesFrom_newline hc, ← linesFrom_newLine]
      cases hend : lineEnd D l with
      | none =>
        have htags : nextTags D l = l.searchTags := by rw [nextTags, hend]; rfl
        rw [receivedLoop_newline_none hc hend, htags]
        exact ih [] (newLine l.searchTags) { s with discards := s.discards + 1 }
      | some p =>
        obtain ⟨metric, firstspace⟩ := p
        have htags : nextTags D l = D.tagsSupported := by rw [nextTags, hend]; rfl
        have hproc := routedOf_dispatchProcessDests E
          (routeMetric E route metric firstspace s).conn.lastwork
          (routeMetric E route metric firstspace s)
        rcases hd : dispatchProcessDests E (routeMetric E route metric firstspace s).conn.lastwork
          (routeMetric E route metric firstspace s) with ⟨b, s₁, es⟩
        rw [hd] at hproc
        simp only [receivedLoop_newline_some hc hend, hd, htags]
        cases b with
        | false =>
          rw [routedOf_cons_routed, hproc]
          exact ⟨_, rfl, fun h => nomatch h⟩
        | true =>
          obtain ⟨rs, hrs, -⟩ := ih [] (newLine D.tagsSupported) s₁
          rw [routedOf_append, routedOf_cons_routed, hproc]
          exact ⟨rs, congrArg ((metric, firstspace) :: ·) hrs, fun h => nomatch h⟩
    | false =>
      rw [linesFrom_cons hc]
      cases hskip : isSeparator c && l.metric.isEmpty with
      | true =>
        rw [receivedLoop_skip hc hskip, parseChar_of_skip hskip]
        exact ih [] l s
      | false =>
        rw [receivedLoop_char hc hskip]
        exact ih (kept ++ [tabToSpace c]) (parseChar D l c) s

theorem dispatchReceivedMetrics_routed (D : Dispatcher) (E : DispatchEnv)
    (route : Text → Nat → List δ × Nat) (s : DispatchState δ) :
    ∃ rs, (runLines D D.tagsSupported (rawLines s.conn.buf).1).filterMap id =
      routedOf (dispatchReceivedMetrics D E route s).2 ++ rs ∧
      (routedOf (dispatchReceivedMetrics D E route s).2 = [] → rs = []) := by
  have hloop := receivedLoop_routed D E route s.conn.buf [] (newLine D.tagsSupported) s
  rwa [linesFrom_newLine] at hloop

/-- A buffer with a single line: its result is routed, if there is one. -/
theorem routedOf_of_line (h : rawLines s.conn.buf = ([s.conn.buf], [])) :
    routedOf (dispatchReceivedMetrics D E route s).2 =
      (lineResult D D.tagsSupported s.conn.buf).toList := by
  obtain ⟨rs, hrs, hnil⟩ := dispatchReceivedMetrics_routed D E route s
  rw [h, runLines, runLines] at hrs
  cases hres : lineResult D D.tagsSupported s.conn.buf with
  | none =>
    rw [hres] at hrs
    exact (append_eq_nil_iff.1 hrs.symm).1
  | some r =>
    rw [hres] at hrs
    cases hrouted : routedOf (dispatchReceivedMetrics D E route s).2 with
    | nil =>
      rw [hrouted, hnil hrouted] at hrs
      cases hrs
    | cons r' rs' =>
      rw [hrouted] at hrs
      obtain ⟨rfl, htail⟩ := cons.inj hrs
      rw [(append_eq_nil_iff.1 htail.symm).1]
      rfl

/-- Whether a tag may start in the line behind others. -/
def tagsAfter (D : Dispatcher) (ls : List Text) : Bool :=
  ls.foldl (fun b l => nextTags D (parseLine D b l)) D.tagsSupported

theorem exists_line_of_mem_runLines {b : Bool} {ls : List Text} {r : Text × Nat}
    (h : some r ∈ runLines D b ls) :
    ∃ ls₁ l ls₂, ls = ls₁ ++ l :: ls₂ ∧
      lineResult D (ls₁.foldl (fun b l => nextTags D (parseLine D b l)) b) l = some r := by
  induction ls generalizing b with
  | nil => cases h
  | cons l ls ih =>
    rcases mem_cons.1 h with heq | hmem
    · exact ⟨[], l, ls, rfl, heq.symm⟩
    · obtain ⟨ls₁, l', ls₂, rfl, hres⟩ := ih hmem
      exact ⟨l :: ls₁, l', ls₂, rfl, hres⟩

/-- The line `l` of a buffer, which comes behind the lines `ls`, gives this metric. -/
def LineGives (D : Dispatcher) (buf metric : Text) (firstspace : Nat) (ls : List Text)
    (l : Text) : Prop :=
  ls ++ [l] <+: (rawLines buf).1 ∧ lineResult D (tagsAfter D ls) l = some (metric, firstspace)

instance {buf metric : Text} {firstspace : Nat} {ls : List Text} {l : Text} :
    Decidable (LineGives D buf metric firstspace ls l) :=
  inferInstanceAs (Decidable (_ ∧ _))

/-- A metric that is routed is the result of a line of the buffer. -/
theorem line_of_routed {metric : Text} {firstspace : Nat} {dests : List δ}
    (h : .routed metric firstspace dests ∈ (dispatchReceivedMetrics D E route s).2) :
    ∃ ls l, LineGives D s.conn.buf metric firstspace ls l := by
  obtain ⟨rs, hrs, -⟩ := dispatchReceivedMetrics_routed D E route s
  have hmem : (metric, firstspace) ∈ routedOf (dispatchReceivedMetrics D E route s).2 :=
    mem_filterMap.2 ⟨_, h, rfl⟩
  have hall : (metric, firstspace) ∈
      (runLines D D.tagsSupported (rawLines s.conn.buf).1).filterMap id := by
    rw [hrs]
    exact mem_append_left rs hmem
  obtain ⟨r, hr, rfl⟩ := mem_filterMap.1 hall
  obtain ⟨ls, l, ls', hls, hres⟩ := exists_line_of_mem_runLines hr
  exact ⟨ls, l, ⟨ls', by rw [hls, append_assoc]; rfl⟩, hres⟩

end

end CarbonRelay
