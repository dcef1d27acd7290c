import CarbonRelay.Dispatcher.Cleansing

/-!
# Cleansing twice

A relay that receives what another one routed cleanses it again. What is written for a line is
parsed to the state it was written in (`Reparses`), character by character: what was dropped is
gone, and what was written in place of a character is written again. A trailing separator that the
first space strips is the one case where the state goes back. So a metric is routed again as it is,
as long as a tag may start in it where it could before (`routed_again_iff`).
-/

namespace CarbonRelay

open List

universe u

section
variable {D : Dispatcher} {b : Bool} {l : LineState} {c : Char} {x : Text}

/-- What was written of a line is parsed to the state of the line. -/
def Reparses (D : Dispatcher) (b : Bool) (l : LineState) : Prop :=
  l.metric.foldl (parseChar D) (newLine b) = l

/-- A character is parsed as the one that is written for it. -/
theorem parseChar_cleanChar (htag : l.searchTags = true → c ≠ ';') :
    parseChar D l (cleanChar D l.firstspace c) = parseChar D l c := by
  cases hsep : isSeparator c with
  | true => rw [cleanChar, if_pos hsep, parseChar_tabToSpace]
  | false =>
    rw [parseChar_of_not_separator hsep htag, cleanChar, hsep, if_neg Bool.false_ne_true]
    split
    case isTrue hcopied =>
      rw [parseChar_of_not_separator hsep htag, cleanChar, hsep, if_neg Bool.false_ne_true,
        if_pos hcopied]
    case isFalse =>
      rw [parseChar_of_not_separator rfl fun _ => by decide]
      have hself : cleanChar D l.firstspace '_' = '_' := by
        rw [cleanChar, if_neg (by decide)]
        split
        · rfl
        · rfl
      rw [hself]

theorem parseChar_dot (hne : l.metric ≠ []) :
    parseChar D l '.' =
      if l.metric.getLast? ≠ some '.' ∧ l.firstspace ≠ some (l.metric.length - 1) then l.push '.'
      else l := by
  have hempty : ¬ l.metric.isEmpty = true := fun h => hne (List.isEmpty_iff.1 h)
  rw [parseChar, if_pos (by decide), if_neg hempty]
  show pushSeparator l '.' = _
  rw [pushSeparator, if_neg fun h => absurd h.1 (by decide)]

/-- The state in front of a dot that was written. -/
theorem Reparses.of_dot {m : Text} (h : Reparses D b l) (hm : l.metric = m ++ ['.']) :
    m.foldl (parseChar D) (newLine b) = { l with metric := m } ∧ m ≠ [] ∧
      m.getLast? ≠ some '.' := by
  rw [Reparses, hm, foldl_append, foldl_cons, foldl_nil] at h
  have hlength := length_foldl_le D m (newLine b)
  generalize m.foldl (parseChar D) (newLine b) = l₀ at h hlength
  have hlonger : l₀ ≠ l := by
    rintro rfl
    rw [hm, length_append] at hlength
    simp only [newLine, length_nil, length_singleton] at hlength
    omega
  by_cases hne : l₀.metric = []
  · rw [parseChar_of_skip (by rw [hne]; rfl)] at h
    exact absurd h hlonger
  · rw [parseChar_dot hne] at h
    split at h
    case isTrue hlast =>
      subst h
      obtain rfl : l₀.metric = m := append_cancel_right hm
      exact ⟨rfl, hne, hlast.1⟩
    case isFalse => exact absurd h hlonger

theorem Reparses.parseChar (h : Reparses D b l) : Reparses D b (parseChar D l c) := by
  rcases parseChar_cases D l c with hc | ⟨htag, hc⟩ | ⟨hblank, hfs, hne, hc⟩ | ⟨rfl, -, hc⟩
  · rw [hc]
    exact h
  · rw [Reparses, hc, LineState.push, foldl_append, h, foldl_cons, foldl_nil,
      parseChar_cleanChar htag, hc]
    rfl
  · rw [Reparses, hc, foldl_append, foldl_cons, foldl_nil]
    show CarbonRelay.parseChar D ((stripDot l.metric).foldl _ _) ' ' = _
    by_cases hlast : l.metric.getLast? = some '.'
    · obtain ⟨m, hm⟩ := List.getLast?_eq_some_iff.1 hlast
      obtain ⟨hfold, hm_ne, hm_last⟩ := h.of_dot hm
      have hstrip : stripDot l.metric = m := by
        rw [stripDot, if_pos hlast, hm, dropLast_concat]
      rw [hstrip, hfold, parseChar_blank (l := { l with metric := m }) rfl hm_ne hfs]
      simp only [stripDot, if_neg hm_last]
    · have hstrip : stripDot l.metric = l.metric := if_neg hlast
      rw [hstrip, h, parseChar_blank rfl hne hfs, hstrip]
  · rw [Reparses, hc, foldl_append, h, foldl_cons, foldl_nil, hc]

/-- What is written for a text is parsed as the text. By induction on the text. -/
theorem Reparses.foldl (h : Reparses D b l) :
    Reparses D b (x.foldl (CarbonRelay.parseChar D) l) := by
  induction x generalizing l with
  | nil => exact h
  | cons c x ih => exact ih h.parseChar

/-! ## The ends of lines -/

theorem isNewline_cleanChar {fs : Option Nat} (h : isNewline c = false) :
    isNewline (cleanChar D fs c) = false := by
  rw [cleanChar]
  split
  · rw [isNewline_tabToSpace, h]
  · split
    · exact h
    · rfl

/-- No end of a line is written for other characters. -/
theorem not_newline_foldl (hl : ∀ c ∈ l.metric, isNewline c = false)
    (hx : ∀ c ∈ x, isNewline c = false) :
    ∀ c ∈ (x.foldl (parseChar D) l).metric, isNewline c = false := by
  induction x generalizing l with
  | nil => exact hl
  | cons c x ih =>
    obtain ⟨hc, hx⟩ := forall_mem_cons.1 hx
    refine ih ?_ hx
    have happend (m : Text) (hm : ∀ c ∈ m, isNewline c = false) (d : Char)
        (hd : isNewline d = false) : ∀ c ∈ m ++ [d], isNewline c = false := by
      intro e he
      rcases mem_append.1 he with he | he
      · exact hm e he
      · rw [mem_singleton.1 he, hd]
    rcases parseChar_cases D l c with h | ⟨-, h⟩ | ⟨-, -, -, h⟩ | ⟨-, -, h⟩
    · rw [h]
      exact hl
    · rw [h]
      exact happend _ hl _ (isNewline_cleanChar hc)
    · rw [h]
      exact happend _ (fun d hd => hl d ((prefix_stripDot _).subset hd)) _ rfl
    · rw [h]
      exact happend _ hl _ rfl

end

/-! ## Lines that are routed again -/

section
variable {D : Dispatcher} {b : Bool} {l metric : Text} {firstspace : Nat}

/-- The metric of a line has the same result as the line. -/
theorem lineResult_again (h : lineResult D b l = some (metric, firstspace)) :
    lineResult D b metric = some (metric, firstspace) := by
  obtain ⟨hmetric, -⟩ := lineResult_eq_some h
  have hstart : Reparses D b (newLine b) := rfl
  have hparse : parseLine D b metric = parseLine D b l := by
    rw [hmetric, parseLine, dropLast_concat]
    exact hstart.foldl
  rwa [lineResult, hparse]

/-- A metric is a line. -/
theorem rawLines_metric {s : Text} (hl : l ∈ (rawLines s).1)
    (h : lineResult D b l = some (metric, firstspace)) : rawLines metric = ([metric], []) := by
  obtain ⟨rfl, -⟩ := lineResult_eq_some h
  have hfree := not_newline_foldl (D := D) (l := newLine b) (fun c hc => nomatch hc)
    (not_newline_of_mem_line s l hl)
  rw [parseLine, rawLines_append_of_not_newline hfree]
  rfl

theorem hasTag_metric_iff (h : lineResult D b l = some (metric, firstspace)) :
    HasTag metric ↔ ';' ∈ metric := by
  obtain ⟨rfl, -⟩ := lineResult_eq_some h
  rw [HasTag, dropLast_concat, mem_append, or_iff_left (by decide)]

/-- A line has a `;` that is data: it stands behind the path, or it is allowed in a path. -/
def KeepsTag (D : Dispatcher) (l : Text) : Prop :=
  ';' ∈ dataPart l.dropLast ∨ ';' ∈ D.allowedChars ∧ ';' ∈ pathPart l.dropLast

theorem cleanChar_eq_tag_iff {fs : Option Nat} {c : Char} :
    cleanChar D fs c = ';' ↔ c = ';' ∧ (fs.isSome = true ∨ ';' ∈ D.allowedChars) := by
  cases hsep : isSeparator c with
  | true =>
    have hclean : isSeparator (cleanChar D fs c) = true := by rw [isSeparator_cleanChar, hsep]
    refine iff_of_false (fun h => ?_) fun h => ?_
    · rw [h] at hclean
      exact absurd hclean (by decide)
    · rw [h.1] at hsep
      exact absurd hsep (by decide)
  | false =>
    rw [cleanChar, hsep, if_neg Bool.false_ne_true]
    split
    case isTrue hcopied =>
      refine ⟨fun h => ⟨h, ?_⟩, And.left⟩
      subst h
      simpa [copied] using hcopied
    case isFalse hcopied =>
      refine iff_of_false (by decide) fun h => hcopied ?_
      rw [h.1]
      simpa [copied] using h.2

theorem mem_stripDot_iff {m : Text} : ';' ∈ stripDot m ↔ ';' ∈ m := by
  refine ⟨fun h => (prefix_stripDot m).subset h, fun h => ?_⟩
  rw [stripDot]
  split
  case isTrue hdot =>
    obtain ⟨m, rfl⟩ := List.getLast?_eq_some_iff.1 hdot
    rw [dropLast_concat]
    exact (mem_append.1 h).resolve_right (by decide)
  case isFalse => exact h

/-- Where no tag may start, the `;` of the metric are those that are data in the line. -/
theorem mem_metric_iff (h : lineResult D false l = some (metric, firstspace)) :
    ';' ∈ metric ↔ KeepsTag D l := by
  obtain ⟨rfl, hfs⟩ := lineResult_eq_some h
  have hnot : false = true → ';' ∉ l.dropLast := fun h => absurd h Bool.false_ne_true
  cases hdata : dataPart l.dropLast with
  | nil =>
    rw [parseLine, foldl_of_dataPart_nil hnot hdata] at hfs
    cases hfs
  | cons c r =>
    rw [parseLine, foldl_of_dataPart_cons hnot hdata]
    have hc : ';' ≠ c := by
      rintro rfl
      exact absurd (isBlank_of_dataPart hdata) (by decide)
    have hskipped : ';' ∉ r.takeWhile isSeparator := fun h =>
      Bool.false_ne_true (mem_takeWhile_imp h)
    have hr : ';' ∈ r ↔ ';' ∈ r.dropWhile isSeparator := by
      conv_lhs => rw [← takeWhile_append_dropWhile (p := isSeparator) (l := r)]
      rw [mem_append, or_iff_right hskipped]
    have hfront : ';' ∈ cleanText D none (pathPart l.dropLast) ↔
        ';' ∈ D.allowedChars ∧ ';' ∈ pathPart l.dropLast := by
      simp [mem_cleanText_iff, cleanChar_eq_tag_iff, dropWhile_pathPart, and_comm]
    have hback : ';' ∈ cleanText D (some 0) r ↔ ';' ∈ r := by
      simp [mem_cleanText_iff, cleanChar_eq_tag_iff, hr]
    simp [KeepsTag, hdata, mem_stripDot_iff, hfront, hback, hc, or_comm]

end

variable {δ : Type u}

/-- A metric that was routed comes from a line, and it is routed again as it is, with its first
space in the same place, exactly if a line that gives it is parsed as the first one of a buffer is,
or has no `;` that is data. -/
theorem routed_again_iff {D : Dispatcher} {E : DispatchEnv} {route : Text → Nat → List δ × Nat}
    {s : DispatchState δ} {metric : Text} {firstspace : Nat} {dests : List δ}
    (h : .routed metric firstspace dests ∈ (dispatchReceivedMetrics D E route s).2) :
    (∃ ls l, LineGives D s.conn.buf metric firstspace ls l) ∧
      ∀ ls l, LineGives D s.conn.buf metric firstspace ls l →
        ∀ (E' : DispatchEnv) (route' : Text → Nat → List δ × Nat) (s' : DispatchState δ),
          s'.conn.buf = metric →
          (routedOf (dispatchReceivedMetrics D E' route' s').2 = [(metric, firstspace)] ↔
            (tagsAfter D ls = D.tagsSupported ∨ ¬ KeepsTag D l)) := by
  refine ⟨line_of_routed h, ?_⟩
  rintro ls l ⟨hls, hres⟩ E' route' s' rfl
  have hl : l ∈ (rawLines s.conn.buf).1 := hls.subset (mem_append_right _ (mem_singleton_self l))
  have hagain := lineResult_again hres
  have hrouted : routedOf (dispatchReceivedMetrics D E' route' s').2 =
      [(s'.conn.buf, firstspace)] ↔
      lineResult D D.tagsSupported s'.conn.buf = some (s'.conn.buf, firstspace) := by
    rw [routedOf_of_line (rawLines_metric hl hres)]
    cases lineResult D D.tagsSupported s'.conn.buf with
    | none => simp
    | some r => simp
  rw [hrouted]
  cases hb : tagsAfter D ls with
  | true =>
    rw [hb] at hagain
    have htags := tagsSupported_of_tagsAfter hb
    rw [htags]
    exact iff_of_true hagain (.inl rfl)
  | false =>
    rw [hb] at hagain hres
    cases htags : D.tagsSupported with
    | false => exact iff_of_true hagain (.inl rfl)
    | true =>
      have hne := lineResult_ne_iff (D := D) (l := s'.conn.buf)
      rw [hagain, hasTag_metric_iff hres, mem_metric_iff hres] at hne
      constructor
      · intro heq
        exact .inr fun hmem => hne.2 ⟨hmem, .inr (Option.some_ne_none _)⟩ heq
      · intro hor
        by_contra hdiff
        exact (hor.resolve_left (by decide)) (hne.1 hdiff).1

/-- A line with a trailing separator and tabs. -/
theorem routed_again_trailing :
    let D := dispatchInit "-_:#".toList 32768 32768
    LineGives D "a..b.\t\t1 2\n".toList "a.b 1 2\n".toList 3 [] "a..b.\t\t1 2\n".toList ∧
      ∀ (E' : DispatchEnv) (route' : Text → Nat → List Unit × Nat) (s' : DispatchState Unit),
        s'.conn.buf = "a.b 1 2\n".toList →
        routedOf (dispatchReceivedMetrics D E' route' s').2 = [("a.b 1 2\n".toList, 3)] := by
  let s : DispatchState Unit :=
    ⟨⟨.plain, "a..b.\t\t1 2\n".toList, 32768, [], ⟨0, 0⟩, 0, false, false, false⟩, 0, 0, 0, 0⟩
  have hrouted : .routed "a.b 1 2\n".toList 3 [] ∈ (dispatchReceivedMetrics
      (dispatchInit "-_:#".toList 32768 32768) ⟨fun _ _ => true, fun _ => ⟨0, 0⟩, fun _ => 0⟩
      (fun _ _ => ([], 1)) s).2 := by
    decide +kernel
  have hline : LineGives (dispatchInit "-_:#".toList 32768 32768) "a..b.\t\t1 2\n".toList
      "a.b 1 2\n".toList 3 [] "a..b.\t\t1 2\n".toList := by
    decide +kernel
  exact ⟨hline, fun E' route' s' hs' => ((routed_again_iff hrouted).2 [] _ hline E' route' s' hs').2
    (.inl rfl)⟩

/-- A line behind a discarded one with tags: no tag may start in it, but when its metric is received
again, one does. -/
theorem firstspace_moves :
    let D := dispatchInit "-_:#".toList 32768 5
    let received (buf : Text) := routedOf (dispatchReceivedMetrics D
      ⟨fun _ _ => true, fun _ => ⟨0, 0⟩, fun _ => 0⟩ (fun _ _ => (([] : List Unit), 1))
      ⟨⟨.plain, buf, 32768, [], ⟨0, 0⟩, 0, false, false, false⟩, 0, 0, 0, 0⟩).2
    received "aaaaaa;t=1 1 1\na 1;2 3\n".toList = [("a 1;2 3\n".toList, 1)] ∧
      received "a 1;2 3\n".toList = [("a 1;2 3\n".toList, 3)] := by
  decide +kernel

end CarbonRelay
