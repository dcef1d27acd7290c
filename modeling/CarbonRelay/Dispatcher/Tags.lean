import CarbonRelay.Dispatcher.Lines

/-!
# Lines and tags

How the result of a line depends on whether a tag may start in it. A line without `;` does not
depend on it (`lineResult_of_not_hasTag`). A line with `;` has its `firstspace` at the first `;`
where a tag may start, and at a space otherwise, so its results differ as soon as one of them is
accepted (`lineResult_ne_iff`).
-/

namespace CarbonRelay

open List

/-- The line has a `;`, in front of its end. -/
def HasTag (l : Text) : Prop := ';' ∈ l.dropLast

instance (l : Text) : Decidable (HasTag l) := inferInstanceAs (Decidable (';' ∈ l.dropLast))

section
variable {D : Dispatcher} {l : LineState} {c : Char} {x : Text} {b : Bool}

theorem searchTags_pushSeparator : (pushSeparator l c).searchTags = l.searchTags := by
  rw [pushSeparator]
  split
  · rfl
  · split
    · rfl
    · rfl

theorem ne_semicolon_of_isSeparator (h : isSeparator c = true) : c ≠ ';' := by
  rintro rfl
  exact absurd h (by decide)

theorem searchTags_parseChar : (parseChar D l c).searchTags = (l.searchTags && c != ';') := by
  rw [parseChar]
  split
  case isTrue h =>
    have hc : (c != ';') = true := bne_iff_ne.2 (ne_semicolon_of_isSeparator h)
    rw [hc, Bool.and_true]
    split
    · rfl
    · exact searchTags_pushSeparator
  case isFalse =>
    split
    case isTrue h => simp_all
    case isFalse h =>
      have hkeep : l.searchTags = (l.searchTags && c != ';') := by
        cases hl : l.searchTags <;> simp_all
      split
      · exact hkeep
      · exact hkeep

/-- A tag may start as long as no `;` was passed. -/
theorem searchTags_foldl : (x.foldl (parseChar D) l).searchTags =
    (l.searchTags && !x.contains ';') := by
  induction x generalizing l with
  | nil => simp
  | cons c x ih =>
    rw [foldl_cons, ih, searchTags_parseChar, contains_cons, Bool.and_assoc, Bool.not_or,
      Bool.beq_comm]
    rfl

theorem tagsSupported_of_foldl {ls : List Text} (hb : b = true → D.tagsSupported = true)
    (h : ls.foldl (fun b l => nextTags D (parseLine D b l)) b = true) : D.tagsSupported = true := by
  induction ls generalizing b with
  | nil => exact hb h
  | cons l ls ih =>
    refine ih (b := nextTags D (parseLine D b l)) (fun hnext => ?_) h
    rw [nextTags] at hnext
    split at hnext
    case isTrue => exact hnext
    case isFalse =>
      rw [parseLine, searchTags_foldl] at hnext
      exact hb (Bool.and_eq_true_iff.1 hnext).1

/-- A tag may start in a line only where tags are supported. -/
theorem tagsSupported_of_tagsAfter {ls : List Text} (h : tagsAfter D ls = true) :
    D.tagsSupported = true :=
  tagsSupported_of_foldl id h

theorem pushSeparator_searchTags :
    pushSeparator { l with searchTags := b } c = { pushSeparator l c with searchTags := b } := by
  rw [pushSeparator, pushSeparator]
  split
  · rfl
  · split
    · rfl
    · rfl

/-- Other characters are parsed in the same way, whether a tag may start or not. -/
theorem parseChar_searchTags (h : c ≠ ';') :
    parseChar D { l with searchTags := b } c = { parseChar D l c with searchTags := b } := by
  by_cases hsep : isSeparator c
  · rw [parseChar, parseChar, if_pos hsep, if_pos hsep]
    split
    · rfl
    · exact pushSeparator_searchTags
  · have htag (b : Bool) : ¬ (b && decide (c = ';')) = true := by
      rw [decide_eq_false h, Bool.and_false]
      exact Bool.false_ne_true
    rw [parseChar, parseChar, if_neg hsep, if_neg hsep, if_neg (htag b), if_neg (htag l.searchTags)]
    show (if copied D l c then _ else _) = _
    split
    · rfl
    · rfl

theorem foldl_searchTags (h : ';' ∉ x) :
    x.foldl (parseChar D) { l with searchTags := b } =
      { x.foldl (parseChar D) l with searchTags := b } := by
  induction x generalizing l with
  | nil => rfl
  | cons c x ih =>
    rw [mem_cons, not_or] at h
    rw [foldl_cons, foldl_cons, parseChar_searchTags (Ne.symm h.1), ih h.2]

/-- The result of a line without `;` does not depend on whether a tag may start in it. -/
theorem lineResult_of_not_hasTag {l : Text} (h : ¬ HasTag l) (b b' : Bool) :
    lineResult D b l = lineResult D b' l := by
  have heq : parseLine D b l = { parseLine D b' l with searchTags := b } :=
    foldl_searchTags (l := newLine b') h
  rw [lineResult, heq]
  rfl

/-! ## The offset of `firstspace` -/

variable {p : Text} {k : Nat}

/-- The first space is in the metric. -/
def LineState.WF (l : LineState) : Prop := ∀ k, l.firstspace = some k → k < l.metric.length

theorem LineState.WF.push (h : l.WF) (c : Char) : (l.push c).WF := fun k hk => by
  rw [LineState.push, length_append]
  exact Nat.lt_add_right _ (h k hk)

theorem LineState.WF.parseChar (h : l.WF) : (parseChar D l c).WF := by
  rw [CarbonRelay.parseChar]
  split
  · split
    · exact h
    · rw [pushSeparator]
      split
      · intro k hk
        cases hk
        rw [length_append]
        exact Nat.lt_succ_self _
      · split
        · exact h.push _
        · exact h
  · split
    · intro k hk
      cases hk
      rw [length_append]
      exact Nat.lt_succ_self _
    · split
      · exact h.push _
      · exact h.push _

theorem LineState.WF.foldl (h : l.WF) : (x.foldl (CarbonRelay.parseChar D) l).WF := by
  induction x generalizing l with
  | nil => exact h
  | cons c x ih => exact ih h.parseChar

/-- A first space stays where it is, once no tag may start. -/
theorem firstspace_parseChar (hk : l.firstspace = some k) (hl : l.searchTags = false) :
    (parseChar D l c).firstspace = some k := by
  have htag : ¬ (l.searchTags && decide (c = ';')) = true := by rw [hl]; exact Bool.false_ne_true
  have hsome : ¬ (tabToSpace c = ' ' ∧ l.firstspace = none) := fun h => by rw [hk] at h; cases h.2
  rw [parseChar]
  split
  · split
    · exact hk
    · rw [pushSeparator, if_neg hsome]
      split
      · exact hk
      · exact hk
  · split
    · exact hk
    · exact hk

theorem firstspace_foldl (hk : l.firstspace = some k) (hl : l.searchTags = false) :
    (x.foldl (parseChar D) l).firstspace = some k := by
  induction x generalizing l with
  | nil => exact hk
  | cons c x ih =>
    exact ih (firstspace_parseChar hk hl) (by rw [searchTags_parseChar, hl, Bool.false_and])

/-- The metric has more than `p` in front of its first space, as far as there is one. -/
def Behind (p : Text) (l : LineState) : Prop :=
  match l.firstspace with
  | none => p <+: l.metric
  | some k => p.length ≤ k

theorem Behind.push (h : Behind p l) (c : Char) : Behind p (l.push c) := by
  rw [Behind] at h ⊢
  cases hl : l.firstspace with
  | none => rw [hl] at h; simpa only [LineState.push, hl] using h.trans (prefix_append _ _)
  | some k => rw [hl] at h; simpa only [LineState.push, hl] using h

/-- A trailing separator that is stripped is not part of `p`, which does not end in one. -/
theorem Behind.parseChar (h : Behind p l) (hp : p.getLast? ≠ some '.') (hl : l.searchTags = false) :
    Behind p (parseChar D l c) := by
  rw [CarbonRelay.parseChar, hl]
  simp only [Bool.false_and, Bool.false_eq_true, if_false]
  split
  · split
    · exact h
    · rw [pushSeparator]
      split
      case isTrue hspace =>
        rw [Behind, hspace.2] at h
        show p.length ≤ List.length _
        split
        case isTrue hdot =>
          obtain ⟨r, hr⟩ := h
          rcases eq_nil_or_concat r with rfl | ⟨r, d, rfl⟩
          · rw [append_nil] at hr
            exact absurd (hr ▸ hdot) hp
          · rw [← hr, concat_eq_append, ← append_assoc, dropLast_concat, length_append]
            exact Nat.le_add_right _ _
        case isFalse => exact h.length_le
      case isFalse =>
        split
        · exact h.push _
        · exact h
  · split
    · exact h.push _
    · exact h.push _

theorem Behind.foldl (h : Behind p l) (hp : p.getLast? ≠ some '.') (hl : l.searchTags = false) :
    Behind p (x.foldl (CarbonRelay.parseChar D) l) := by
  induction x generalizing l with
  | nil => exact h
  | cons c x ih => exact ih (h.parseChar hp hl) (by rw [searchTags_parseChar, hl, Bool.false_and])

theorem firstspace_of_lineEnd {metric : Text} (h : lineEnd D l = some (metric, k)) :
    l.firstspace = some k := by
  rw [lineEnd] at h
  split at h
  case h_1 => cases h
  case h_2 k' hk =>
    split at h
    · cases h
    · cases h; exact hk

/-- Where a tag may start, `firstspace` is at the first `;`, and otherwise it is not. -/
theorem firstspace_ne_of_hasTag {x : Text} (h : ';' ∈ x) :
    (x.foldl (parseChar D) (newLine true)).firstspace ≠
      (x.foldl (parseChar D) (newLine false)).firstspace := by
  obtain ⟨u, v, rfl, hu⟩ := eq_append_cons_of_mem h
  have hsame : u.foldl (parseChar D) (newLine true) =
      { u.foldl (parseChar D) (newLine false) with searchTags := true } :=
    foldl_searchTags (l := newLine false) hu
  have hwf : (u.foldl (parseChar D) (newLine false)).WF :=
    LineState.WF.foldl (l := newLine false) fun k hk => nomatch hk
  have htags : (u.foldl (parseChar D) (newLine false)).searchTags = false := by
    rw [searchTags_foldl]; rfl
  rw [foldl_append, foldl_append, foldl_cons, foldl_cons, hsame]
  generalize u.foldl (parseChar D) (newLine false) = l at hwf htags
  have hfresh : (v.foldl (parseChar D) (parseChar D { l with searchTags := true } ';')).firstspace =
      some l.metric.length := firstspace_foldl rfl rfl
  rw [hfresh]
  obtain ⟨c, hc, hstale⟩ : ∃ c, c ≠ '.' ∧ parseChar D l ';' = l.push c := by
    rw [parseChar, htags]
    by_cases hcopy : copied D l ';'
    · exact ⟨';', by decide, by rw [if_pos hcopy]; rfl⟩
    · exact ⟨'_', by decide, by rw [if_neg hcopy]; rfl⟩
  rw [hstale]
  cases hl : l.firstspace with
  | some k =>
    rw [firstspace_foldl (l := l.push c) hl htags]
    exact fun heq => (hwf k hl).ne (Option.some.inj heq).symm
  | none =>
    have hbehind : Behind (l.metric ++ [c]) (v.foldl (parseChar D) (l.push c)) := by
      refine Behind.foldl ?_ ?_ htags
      · rw [Behind]
        simp only [LineState.push, hl]
        exact prefix_rfl
      · rw [getLast?_concat]
        exact fun heq => hc (Option.some.inj heq)
    intro heq
    rw [Behind, ← heq] at hbehind
    simp only [length_append, length_singleton] at hbehind
    omega

/-- The results of a line differ exactly if it has a `;` and one of them is accepted. -/
theorem lineResult_ne_iff {l : Text} : lineResult D true l ≠ lineResult D false l ↔
    HasTag l ∧ (lineResult D true l ≠ none ∨ lineResult D false l ≠ none) := by
  constructor
  · intro hne
    refine ⟨by_contra fun htag => hne (lineResult_of_not_hasTag htag true false), ?_⟩
    by_contra hnone
    rw [not_or, not_not, not_not] at hnone
    exact hne (hnone.1.trans hnone.2.symm)
  · rintro ⟨htag, hsome⟩ heq
    have hfirst := firstspace_ne_of_hasTag (D := D) htag
    rw [heq, or_self] at hsome
    obtain ⟨⟨metric, k⟩, hk⟩ := Option.ne_none_iff_exists'.1 hsome
    exact hfirst ((firstspace_of_lineEnd (heq.trans hk)).trans (firstspace_of_lineEnd hk).symm)

end

end CarbonRelay
