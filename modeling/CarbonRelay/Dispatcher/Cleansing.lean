import CarbonRelay.Dispatcher.Tags
import CarbonRelay.Lib.Squeeze
import Mathlib.Data.List.TakeWhile

/-!
# Cleansed lines

What `dispatchReceivedMetrics` writes for a line. Where it is at a fresh start, at the start of a
line or behind its first space, the text that follows is written squeezed: separators in front are
skipped and repeated ones are dropped (`foldl_of_fresh`). A line is its path, stripped of a trailing
separator, the first space, and what follows it (`foldl_of_dataPart_cons`), and a tag may start in
either part (`foldl_tag`). So the path of an accepted line is clean, but only the first space makes
it so: a tag takes what is in front of it as the path (`cleanPath_lineResult_iff`).
-/

namespace CarbonRelay

open List

universe u

open Squeeze

/-- What stands between two fields. -/
def isBlank (c : Char) : Bool := c = ' ' || c = '\t'

variable {c : Char}

theorem isBlank_iff : isBlank c = true ↔ tabToSpace c = ' ' := by
  by_cases h : c = '\t'
  · subst h; exact ⟨fun _ => rfl, fun _ => rfl⟩
  · simp [isBlank, tabToSpace_of_ne h, h]

theorem isSeparator_of_isBlank (h : isBlank c = true) : isSeparator c = true := by
  rw [← isSeparator_tabToSpace, isBlank_iff.1 h]
  rfl

theorem eq_dot_of_isSeparator (hsep : isSeparator c = true) (hblank : isBlank c = false) :
    c = '.' := by
  simp only [isBlank, Bool.or_eq_false_iff, decide_eq_false_iff_not] at hblank
  simpa [isSeparator, hblank] using hsep

/-- The character that is written for one of a line, in front of the first space (`none`) or behind
it. -/
def cleanChar (D : Dispatcher) (firstspace : Option Nat) (c : Char) : Char :=
  if isSeparator c then tabToSpace c
  else if copied D ⟨[], firstspace, false⟩ c then c
  else '_'

/-- What is written for a text: separators in front are skipped, and repeated ones are dropped. -/
def cleanText (D : Dispatcher) (firstspace : Option Nat) (x : Text) : Text :=
  squeeze isSeparator (x.map (cleanChar D firstspace))

/-! ## The characters of a line -/

section
variable {D : Dispatcher} {l : LineState} {a c : Char} {m x : Text}

theorem isSeparator_cleanChar (D : Dispatcher) (fs : Option Nat) (c : Char) :
    isSeparator (cleanChar D fs c) = isSeparator c := by
  rw [cleanChar]
  split
  case isTrue => exact isSeparator_tabToSpace c
  case isFalse h =>
    split
    · rfl
    · rw [Bool.eq_false_iff.2 h]
      rfl

/-- A character that is not a separator and starts no tag is written. -/
theorem parseChar_of_not_separator (hsep : isSeparator c = false)
    (htag : l.searchTags = true → c ≠ ';') :
    parseChar D l c = l.push (cleanChar D l.firstspace c) := by
  have hno : ¬ (l.searchTags && decide (c = ';')) = true := fun h => by
    obtain ⟨htags, hc⟩ := Bool.and_eq_true_iff.1 h
    exact htag htags (of_decide_eq_true hc)
  rw [parseChar, cleanChar, hsep, if_neg Bool.false_ne_true, if_neg hno, if_neg Bool.false_ne_true]
  show (if copied D ⟨[], l.firstspace, false⟩ c then l.push c else l.push '_') = _
  split
  · rfl
  · rfl

/-- A character behind another one is written if it may follow it, as long as it does not end the
path. -/
theorem parseChar_of_settled (hm : l.metric = m ++ [a])
    (hfs : ∀ k, l.firstspace = some k → k < m.length)
    (hblank : l.firstspace = none → isBlank c = false) (htag : l.searchTags = true → c ≠ ';') :
    parseChar D l c =
      if MayFollow isSeparator a (cleanChar D l.firstspace c) then l.push
        (cleanChar D l.firstspace c)
      else l := by
  cases hsep : isSeparator c with
  | false =>
    rw [parseChar_of_not_separator hsep htag,
      if_pos (mayFollow_of_not_sep ((isSeparator_cleanChar D _ c).trans hsep))]
  | true =>
    have hclean : cleanChar D l.firstspace c = tabToSpace c := by rw [cleanChar, if_pos hsep]
    have hne : ¬ l.metric.isEmpty = true := by
      rw [hm, List.isEmpty_iff]
      exact append_ne_nil_of_right_ne_nil m (cons_ne_nil a [])
    have hspace : ¬ (tabToSpace c = ' ' ∧ l.firstspace = none) := by
      rintro ⟨hc, hnone⟩
      exact absurd (hblank hnone) (by rw [isBlank_iff.2 hc]; exact Bool.noConfusion)
    have hlast : l.firstspace ≠ some (l.metric.length - 1) := fun h => by
      have hlt := hfs _ h
      rw [hm, length_append] at hlt
      exact absurd hlt (by simp)
    have hiff : (l.metric.getLast? ≠ some (tabToSpace c) ∧ l.firstspace ≠
        some (l.metric.length - 1)) ↔ MayFollow isSeparator a (tabToSpace c) := by
      rw [hm, getLast?_concat, ← hm, and_iff_left hlast, MayFollow, isSeparator_tabToSpace,
        hsep, Ne, Option.some.injEq]
      exact ⟨fun h _ => h, fun h => h rfl⟩
    rw [parseChar, if_pos hsep, if_neg hne, pushSeparator, if_neg hspace, hclean]
    simp only [hiff]

/-- The characters behind another one, in the path without a blank, or behind the first space. By
induction on the text. -/
theorem foldl_of_settled (hm : l.metric = m ++ [a])
    (hfs : ∀ k, l.firstspace = some k → k < m.length)
    (hblank : l.firstspace = none → ∀ c ∈ x, isBlank c = false)
    (htag : l.searchTags = true → ';' ∉ x) :
    x.foldl (parseChar D) l = { l with
      metric := m ++ (x.map (cleanChar D l.firstspace)).destutter' (MayFollow isSeparator) a } := by
  induction x generalizing l m a with
  | nil =>
    rw [map_nil, destutter'_nil, ← hm]
    rfl
  | cons c x ih =>
    have hblank' : l.firstspace = none → ∀ c ∈ x, isBlank c = false := fun h c hc =>
      hblank h c (mem_cons_of_mem _ hc)
    have htag' : l.searchTags = true → ';' ∉ x := fun h hc => htag h (mem_cons_of_mem _ hc)
    rw [foldl_cons, map_cons, parseChar_of_settled hm hfs
      (fun h => hblank h c mem_cons_self) fun h hc => htag h (hc ▸ mem_cons_self)]
    by_cases hfollow : MayFollow isSeparator a (cleanChar D l.firstspace c)
    · rw [if_pos hfollow, destutter'_cons_pos _ hfollow,
        ih (l := l.push _) (m := m ++ [a]) (a := cleanChar D l.firstspace c)
          (by rw [LineState.push, hm])
          (fun k hk => by rw [length_append]; exact Nat.lt_add_right _ (hfs k hk)) hblank' htag']
      simp [LineState.push]
    · rw [if_neg hfollow, destutter'_cons_neg _ hfollow]
      exact ih hm hfs hblank' htag'

/-- Separators are skipped here: nothing was written yet, or nothing behind the first space. -/
def LineState.Fresh (l : LineState) : Prop :=
  l.metric = [] ∧ l.firstspace = none ∨ ∃ m a, l.metric = m ++ [a] ∧ l.firstspace = some m.length

theorem fresh_newLine (b : Bool) : (newLine b).Fresh := .inl ⟨rfl, rfl⟩

theorem LineState.Fresh.firstspace_lt (h : l.Fresh) (k : Nat) (hk : l.firstspace = some k) :
    k < l.metric.length := by
  obtain ⟨-, hnone⟩ | ⟨m, a, hm, hfs⟩ := h
  · rw [hnone] at hk
    cases hk
  · rw [hfs] at hk
    cases hk
    simp [hm]

theorem parseChar_of_fresh (h : l.Fresh) (hsep : isSeparator c = true) : parseChar D l c = l := by
  rw [parseChar, if_pos hsep]
  obtain ⟨hm, -⟩ | ⟨m, a, hm, hfs⟩ := h
  · rw [if_pos (List.isEmpty_iff.2 hm)]
  · have hlast : ¬ (l.metric.getLast? ≠ some (tabToSpace c) ∧
        l.firstspace ≠ some (l.metric.length - 1)) := fun h => h.2 (by simp [hm, hfs])
    split
    · rfl
    · rw [pushSeparator, if_neg (by rw [hfs]; exact fun h => by cases h.2), if_neg hlast]

/-- The text at a fresh start: the path without a blank, or what is behind the first space. -/
theorem foldl_of_fresh (h : l.Fresh)
    (hblank : l.firstspace = none → ∀ c ∈ x.dropWhile isSeparator, isBlank c = false)
    (htag : l.searchTags = true → ';' ∉ x) :
    x.foldl (parseChar D) l = { l with metric := l.metric ++ cleanText D l.firstspace x } := by
  induction x with
  | nil => rw [cleanText, map_nil, squeeze, dropWhile_nil, destutter_nil, append_nil, foldl_nil]
  | cons c x ih =>
    have htag' : l.searchTags = true → ';' ∉ x := fun h hc => htag h (mem_cons_of_mem _ hc)
    rw [foldl_cons, cleanText, map_cons]
    cases hsep : isSeparator c with
    | true =>
      rw [dropWhile_cons_of_pos hsep] at hblank
      rw [parseChar_of_fresh h hsep, ih hblank htag', squeeze,
        dropWhile_cons_of_pos ((isSeparator_cleanChar D _ c).trans hsep)]
      rfl
    | false =>
      rw [dropWhile_cons_of_neg (by rw [hsep]; exact Bool.false_ne_true)] at hblank
      rw [parseChar_of_not_separator hsep fun h hc => htag h (hc ▸ mem_cons_self),
        foldl_of_settled (l := l.push _) (m := l.metric) rfl h.firstspace_lt
          (fun h c hc => hblank h c (mem_cons_of_mem _ hc)) htag',
        squeeze_of_not_sep ((isSeparator_cleanChar D _ c).trans hsep)]
      rfl

/-! ## The path and the data of a line -/

/-- A trailing separator is stripped from the path. -/
def stripDot (m : Text) : Text := if m.getLast? = some '.' then m.dropLast else m

/-- The path a text starts with, behind leading separators. -/
def pathPart (x : Text) : Text := (x.dropWhile isSeparator).takeWhile (!isBlank ·)

/-- The text behind its path, from the first blank on. -/
def dataPart (x : Text) : Text := (x.dropWhile isSeparator).dropWhile (!isBlank ·)

variable {b : Bool} {r : Text}

theorem pathPart_append_dataPart (x : Text) : pathPart x ++ dataPart x = x.dropWhile isSeparator :=
  takeWhile_append_dropWhile

theorem not_blank_of_mem_pathPart (h : c ∈ pathPart x) : isBlank c = false := by
  simpa using mem_takeWhile_imp h

theorem isBlank_of_dataPart (h : dataPart x = c :: r) : isBlank c = true := by
  have hhead := head?_dropWhile_not (fun c => !isBlank c) (x.dropWhile isSeparator)
  rw [← dataPart, h] at hhead
  simpa using hhead

theorem prefix_stripDot (m : Text) : stripDot m <+: m := by
  rw [stripDot]
  split
  · exact dropLast_prefix m
  · exact prefix_rfl

theorem parseChar_blank (hc : isBlank c = true) (hne : l.metric ≠ []) (hfs : l.firstspace = none) :
    parseChar D l c = ⟨stripDot l.metric ++ [' '], some (stripDot l.metric).length,
      l.searchTags⟩ := by
  have hempty : ¬ l.metric.isEmpty = true := fun h => hne (List.isEmpty_iff.1 h)
  rw [parseChar, if_pos (isSeparator_of_isBlank hc), if_neg hempty, pushSeparator,
    if_pos ⟨isBlank_iff.1 hc, hfs⟩]
  rfl

/-- What a character does to a line: nothing, it is written, it is the first space, or it starts a
tag. -/
theorem parseChar_cases (D : Dispatcher) (l : LineState) (c : Char) :
    parseChar D l c = l ∨
      ((l.searchTags = true → c ≠ ';') ∧ parseChar D l c = l.push (cleanChar D l.firstspace c)) ∨
      (isBlank c = true ∧ l.firstspace = none ∧ l.metric ≠ [] ∧
        parseChar D l c =
          ⟨stripDot l.metric ++ [' '], some (stripDot l.metric).length, l.searchTags⟩) ∨
      (c = ';' ∧ l.searchTags = true ∧
        parseChar D l c = ⟨l.metric ++ [';'], some l.metric.length, false⟩) := by
  cases hsep : isSeparator c with
  | false =>
    by_cases htag : l.searchTags = true ∧ c = ';'
    · obtain ⟨htags, rfl⟩ := htag
      refine .inr (.inr (.inr ⟨rfl, htags, ?_⟩))
      rw [parseChar, hsep, htags]
      rfl
    · have hno : l.searchTags = true → c ≠ ';' := fun hl hc => htag ⟨hl, hc⟩
      exact .inr (.inl ⟨hno, parseChar_of_not_separator hsep hno⟩)
  | true =>
    by_cases hm : l.metric = []
    · exact .inl (parseChar_of_skip (by rw [hsep, hm]; rfl))
    · have hempty : ¬ l.metric.isEmpty = true := fun h => hm (List.isEmpty_iff.1 h)
      by_cases hblank : isBlank c = true ∧ l.firstspace = none
      · exact .inr (.inr (.inl ⟨hblank.1, hblank.2, hm, parseChar_blank hblank.1 hm hblank.2⟩))
      · rw [parseChar, if_pos hsep, if_neg hempty, pushSeparator, cleanChar, if_pos hsep,
          if_neg fun h => hblank ⟨isBlank_iff.2 h.1, h.2⟩]
        split
        · exact .inr (.inl ⟨fun _ => ne_semicolon_of_isSeparator hsep, rfl⟩)
        · exact .inl rfl

/-- A character writes at most one. -/
theorem length_parseChar_le (D : Dispatcher) (l : LineState) (c : Char) :
    (parseChar D l c).metric.length ≤ l.metric.length + 1 := by
  rcases parseChar_cases D l c with h | ⟨-, h⟩ | ⟨-, -, -, h⟩ | ⟨-, -, h⟩
  · rw [h]
    exact Nat.le_succ _
  · rw [h, LineState.push, length_append]
    exact Nat.le_refl _
  · rw [h, length_append]
    exact Nat.succ_le_succ (prefix_stripDot l.metric).length_le
  · rw [h, length_append]
    exact Nat.le_refl _

theorem length_foldl_le (D : Dispatcher) (x : Text) (l : LineState) :
    (x.foldl (parseChar D) l).metric.length ≤ l.metric.length + x.length := by
  induction x generalizing l with
  | nil => exact Nat.le_refl _
  | cons c x ih =>
    have hstep := length_parseChar_le D l c
    rw [foldl_cons, length_cons]
    exact (ih _).trans (by omega)

theorem foldl_dropWhile (h : l.Fresh) :
    (x.dropWhile isSeparator).foldl (parseChar D) l = x.foldl (parseChar D) l := by
  induction x with
  | nil => rfl
  | cons c x ih =>
    rw [dropWhile_cons]
    split
    case isTrue hsep => rw [ih, foldl_cons, parseChar_of_fresh h hsep]
    case isFalse => rfl

/-- The path does not start with a separator. -/
theorem dropWhile_pathPart (x : Text) : (pathPart x).dropWhile isSeparator = pathPart x := by
  rw [pathPart]
  cases hx : x.dropWhile isSeparator with
  | nil => rfl
  | cons c t =>
    have hsep : isSeparator c = false := by
      have hhead := head?_dropWhile_not isSeparator x
      rw [hx] at hhead
      exact hhead
    have hblank : (!isBlank c) = true := by
      rw [Bool.not_eq_true']
      exact Bool.eq_false_iff.2 fun h => absurd (isSeparator_of_isBlank h) (by simp [hsep])
    rw [takeWhile_cons, if_pos hblank,
      dropWhile_cons_of_neg (by rw [hsep]; exact Bool.false_ne_true)]

theorem pathPart_ne_nil (h : dataPart x = c :: r) : pathPart x ≠ [] := by
  intro hnil
  have hx := pathPart_append_dataPart x
  rw [hnil, h, nil_append] at hx
  have hhead := head?_dropWhile_not isSeparator x
  rw [← hx] at hhead
  exact absurd (isSeparator_of_isBlank (isBlank_of_dataPart h)) (by simpa using hhead)

theorem cleanText_eq_nil_iff {fs : Option Nat} :
    cleanText D fs x = [] ↔ x.dropWhile isSeparator = [] := by
  rw [cleanText, squeeze_eq_nil_iff, dropWhile_map, map_eq_nil_iff]
  simp only [Function.comp_def, isSeparator_cleanChar]

theorem foldl_pathPart (htag : b = true → ';' ∉ pathPart x) :
    (pathPart x).foldl (parseChar D) (newLine b) = ⟨cleanText D none (pathPart x), none, b⟩ := by
  rw [foldl_of_fresh (fresh_newLine b) (fun _ c hc => ?_) htag]
  · rfl
  · rw [dropWhile_pathPart] at hc
    exact not_blank_of_mem_pathPart hc

/-- The text behind the first space, or behind the start of a tag. -/
theorem foldl_behind (htag : b = true → ';' ∉ x) :
    x.foldl (parseChar D) ⟨m ++ [c], some m.length, b⟩ =
      ⟨m ++ c :: cleanText D (some 0) x, some m.length, b⟩ := by
  rw [foldl_of_fresh (.inr ⟨m, c, rfl, rfl⟩) (fun h => absurd h (Option.some_ne_none _)) htag,
    append_assoc]
  rfl

theorem not_mem_pathPart (h : c ∉ x) : c ∉ pathPart x := fun hc =>
  h ((dropWhile_suffix _).subset ((List.takeWhile_prefix _).subset hc))

theorem not_mem_dataPart (h : c ∉ x) : c ∉ dataPart x := fun hc =>
  h ((dropWhile_suffix _).subset ((dropWhile_suffix _).subset hc))

/-- A text without a blank behind its path. -/
theorem foldl_of_dataPart_nil (htag : b = true → ';' ∉ x) (h : dataPart x = []) :
    x.foldl (parseChar D) (newLine b) = ⟨cleanText D none (pathPart x), none, b⟩ := by
  have hx := pathPart_append_dataPart x
  rw [h, append_nil] at hx
  rw [← foldl_dropWhile (fresh_newLine b), ← hx, foldl_pathPart fun hb =>
    not_mem_pathPart (htag hb)]

/-- A text with a blank behind its path, which is the first space. -/
theorem foldl_of_dataPart_cons (htag : b = true → ';' ∉ x) (h : dataPart x = c :: r) :
    x.foldl (parseChar D) (newLine b) =
      ⟨stripDot (cleanText D none (pathPart x)) ++ ' ' :: cleanText D (some 0) r,
        some (stripDot (cleanText D none (pathPart x))).length, b⟩ := by
  have hne : cleanText D none (pathPart x) ≠ [] := by
    rw [Ne, cleanText_eq_nil_iff, dropWhile_pathPart]
    exact pathPart_ne_nil h
  have hr : b = true → ';' ∉ r := fun hb hc =>
    not_mem_dataPart (htag hb) (by rw [h]; exact mem_cons_of_mem _ hc)
  rw [← foldl_dropWhile (fresh_newLine b), ← pathPart_append_dataPart, h, foldl_append,
    foldl_pathPart fun hb => not_mem_pathPart (htag hb), foldl_cons,
    parseChar_blank (isBlank_of_dataPart h) hne rfl,
    foldl_behind hr]

/-- A text up to a tag, which starts at the first `;`. -/
theorem foldl_tag {u v : Text} (hl : l.searchTags = true) (hu : ';' ∉ u) :
    (u ++ ';' :: v).foldl (parseChar D) l =
      ⟨(u.foldl (parseChar D) l).metric ++ ';' :: cleanText D (some 0) v,
        some (u.foldl (parseChar D) l).metric.length, false⟩ := by
  have htags : (u.foldl (parseChar D) l).searchTags = true := by
    rw [searchTags_foldl, hl, contains_eq_mem, decide_eq_false hu]
    rfl
  rw [foldl_append, foldl_cons]
  generalize u.foldl (parseChar D) l = l at htags
  have htag : parseChar D l ';' = ⟨l.metric ++ [';'], some l.metric.length, false⟩ := by
    rw [parseChar, if_neg (by decide), htags]
    rfl
  rw [htag, foldl_behind fun h => Bool.noConfusion h]

/-! ## Clean paths -/

/-- The characters of a path. -/
def PathChar (D : Dispatcher) (c : Char) : Prop :=
  c.isAlphanum = true ∨ c = '.' ∨ c = '_' ∨ c ∈ D.allowedChars

/-- A path is not empty, neither starts nor ends with a separator, and has no separator twice in a
row and no other characters than those of a path. -/
structure CleanPath (D : Dispatcher) (path : Text) : Prop where
  ne_nil : path ≠ []
  head : path.head? ≠ some '.'
  last : path.getLast? ≠ some '.'
  dots : ¬ ['.', '.'] <:+: path
  chars : ∀ c ∈ path, PathChar D c

/-- What is in front of a tag is a path: there is one, and it does not end with a separator. A blank
would have to be an allowed character, and then what is behind it is not replaced. -/
def TagPath (D : Dispatcher) (u : Text) : Prop :=
  pathPart u ≠ [] ∧
    if dataPart u = [] then (pathPart u).getLast? ≠ some '.'
    else ' ' ∈ D.allowedChars ∧ ((dataPart u).dropWhile isSeparator).getLast? ≠ some '.' ∧
      ∀ c ∈ dataPart u, isSeparator c = true ∨ c = '\x00' ∨ PathChar D c

variable {fs : Option Nat}

theorem pathChar_of_copied (h : copied D ⟨[], none, false⟩ c = true) : PathChar D c := by
  simp only [copied, Option.isSome_none, Bool.false_or, Bool.and_eq_true, Bool.or_eq_true,
    decide_eq_true_eq, contains_eq_mem] at h
  obtain ⟨-, ((hlow | hup) | hdigit) | hallowed⟩ := h
  · have halpha : c.isLower = true :=
      (Bool.and_eq_true ..).mpr ⟨decide_eq_true hlow.1, decide_eq_true hlow.2⟩
    exact .inl (Bool.or_eq_true_iff.2 (.inl (Bool.or_eq_true_iff.2 (.inr halpha))))
  · have halpha : c.isUpper = true := decide_eq_true hup
    exact .inl (Bool.or_eq_true_iff.2 (.inl (Bool.or_eq_true_iff.2 (.inl halpha))))
  · have hnum : c.isDigit = true := by simpa [Char.isDigit, Char.le_def] using hdigit
    exact .inl (by simp [Char.isAlphanum, hnum])
  · exact .inr (.inr (.inr hallowed))

/-- The characters that are written for a path are those of a path. -/
theorem pathChar_cleanChar (h : isBlank c = false) : PathChar D (cleanChar D none c) := by
  rw [cleanChar]
  split
  case isTrue hsep =>
    cases eq_dot_of_isSeparator hsep h
    exact .inr (.inl rfl)
  case isFalse =>
    split
    case isTrue hcopied => exact pathChar_of_copied hcopied
    case isFalse => exact .inr (.inr (.inl rfl))

theorem cleanChar_eq_dot_iff : cleanChar D fs c = '.' ↔ c = '.' := by
  constructor
  · intro h
    have hsep : isSeparator c = true := by rw [← isSeparator_cleanChar D fs, h]; rfl
    rw [cleanChar, if_pos hsep] at h
    by_cases hc : c = '\t'
    · subst hc
      exact absurd h (by decide)
    · rwa [tabToSpace_of_ne hc] at h
  · rintro rfl
    rfl

theorem dropWhile_map_cleanChar :
    (x.map (cleanChar D fs)).dropWhile isSeparator = (x.dropWhile isSeparator).map
      (cleanChar D fs) := by
  rw [dropWhile_map]
  simp only [Function.comp_def, isSeparator_cleanChar]

theorem mem_cleanText_iff : c ∈ cleanText D fs x ↔ ∃ d ∈ x.dropWhile isSeparator,
    cleanChar D fs d = c := by
  rw [cleanText, mem_squeeze_iff, dropWhile_map_cleanChar, mem_map]

theorem getLast?_cleanText_eq_dot_iff :
    (cleanText D fs x).getLast? = some '.' ↔ (x.dropWhile isSeparator).getLast? = some '.' := by
  rw [cleanText, getLast?_squeeze, dropWhile_map_cleanChar, getLast?_map, Option.map_eq_some_iff]
  simp only [cleanChar_eq_dot_iff, exists_eq_right]

theorem head?_cleanText : (cleanText D fs x).head? ≠ some '.' := fun h =>
  absurd (not_sep_of_mem_head?_squeeze (Option.mem_def.2 h)) (by decide)

theorem no_dots_iff : ¬ ['.', '.'] <:+: m ↔ m.IsChain fun a b => ¬ (a = '.' ∧ b = '.') := by
  constructor
  · intro h
    refine (isChain_isInfix m).imp fun a b hab => ?_
    rintro ⟨rfl, rfl⟩
    exact h hab
  · rintro h ⟨u, v, rfl⟩
    have hpair := (isChain_append.1 (isChain_append.1 h).1).2.1
    exact isChain_pair.1 hpair ⟨rfl, rfl⟩

/-- Without repeated separators there are no two dots in a row. -/
theorem no_dots_cleanText : ¬ ['.', '.'] <:+: cleanText D fs x := by
  rw [no_dots_iff]
  exact (isChain_squeeze isSeparator _).imp fun a b h hdots =>
    h (by rw [hdots.2]; rfl) (by simp [hdots])

theorem getLast?_stripDot (h : ¬ ['.', '.'] <:+: m) : (stripDot m).getLast? ≠ some '.' := by
  rw [stripDot]
  split
  case isTrue hlast =>
    obtain ⟨y, rfl⟩ := List.getLast?_eq_some_iff.1 hlast
    rw [dropLast_concat]
    intro hy
    obtain ⟨z, rfl⟩ := List.getLast?_eq_some_iff.1 hy
    exact h ⟨z, [], by simp⟩
  case isFalse hlast => exact hlast

theorem stripDot_ne_nil (hne : m ≠ []) (hhead : m.head? ≠ some '.') : stripDot m ≠ [] := by
  rw [stripDot]
  split
  case isTrue hlast =>
    obtain ⟨y, rfl⟩ := List.getLast?_eq_some_iff.1 hlast
    rw [dropLast_concat]
    rintro rfl
    exact hhead rfl
  case isFalse => exact hne

theorem pathChar_of_mem_path (h : c ∈ cleanText D none (pathPart x)) : PathChar D c := by
  obtain ⟨d, hd, rfl⟩ := mem_cleanText_iff.1 h
  rw [dropWhile_pathPart] at hd
  exact pathChar_cleanChar (not_blank_of_mem_pathPart hd)

/-- The path in front of the first space is clean. -/
theorem cleanPath_stripDot (h : pathPart x ≠ []) :
    CleanPath D (stripDot (cleanText D none (pathPart x))) := by
  have hne : cleanText D none (pathPart x) ≠ [] := by
    rwa [Ne, cleanText_eq_nil_iff, dropWhile_pathPart]
  have hstrip := stripDot_ne_nil hne head?_cleanText
  have hpre := prefix_stripDot (cleanText D none (pathPart x))
  refine ⟨hstrip, ?_, getLast?_stripDot no_dots_cleanText, ?_, ?_⟩
  · obtain ⟨t, ht⟩ := hpre
    have hhead : (cleanText D none (pathPart x)).head? ≠ some '.' := head?_cleanText
    rwa [← ht, head?_append_of_ne_nil _ hstrip] at hhead
  · exact fun hdots => no_dots_cleanText (hdots.trans hpre.isInfix)
  · exact fun c hc => pathChar_of_mem_path (hpre.subset hc)

theorem no_dots_append {y : Text} (hm : ¬ ['.', '.'] <:+: m) (hy : ¬ ['.', '.'] <:+: y) :
    ¬ ['.', '.'] <:+: m ++ ' ' :: y := by
  rw [no_dots_iff] at hm hy ⊢
  refine isChain_append.2 ⟨hm, isChain_cons.2 ⟨fun c _ => ?_, hy⟩, fun a _ c hc => ?_⟩
  · exact fun h => absurd h.1 (by decide)
  · cases hc
    exact fun h => absurd h.2 (by decide)

/-- Behind the first space, only `'\0'` is replaced. -/
theorem cleanChar_data (h : isSeparator c = false) :
    cleanChar D (some 0) c = if c = '\x00' then '_' else c := by
  rw [cleanChar, h, if_neg Bool.false_ne_true]
  by_cases hc : c = '\x00'
  · subst hc
    rfl
  · simp [copied, hc]

theorem pathChar_data_iff (hspace : ' ' ∈ D.allowedChars) :
    (∀ c ∈ cleanText D (some 0) r, PathChar D c) ↔
      ∀ c ∈ r, isSeparator c = true ∨ c = '\x00' ∨ PathChar D c := by
  constructor
  · intro h c hc
    cases hsep : isSeparator c with
    | true => exact .inl rfl
    | false =>
      have hmem : c ∈ r.dropWhile isSeparator := by
        rw [← takeWhile_append_dropWhile (p := isSeparator) (l := r)] at hc
        refine (mem_append.1 hc).resolve_left fun hfront => ?_
        exact absurd (mem_takeWhile_imp hfront) (by simp [hsep])
      have hclean := h _ (mem_cleanText_iff.2 ⟨c, hmem, rfl⟩)
      rw [cleanChar_data hsep] at hclean
      split at hclean
      case isTrue hnul => exact .inr (.inl hnul)
      case isFalse => exact .inr (.inr hclean)
  · intro h c hc
    obtain ⟨d, hd, rfl⟩ := mem_cleanText_iff.1 hc
    cases hsep : isSeparator d with
    | true =>
      cases hblank : isBlank d with
      | true =>
        rw [cleanChar, if_pos hsep, isBlank_iff.1 hblank]
        exact .inr (.inr (.inr hspace))
      | false =>
        cases eq_dot_of_isSeparator hsep hblank
        exact .inr (.inl rfl)
    | false =>
      have hchar := h d ((dropWhile_suffix _).subset hd)
      rw [hsep] at hchar
      rw [cleanChar_data hsep]
      split
      case isTrue => exact .inr (.inr (.inl rfl))
      case isFalse hnul => exact (hchar.resolve_left Bool.false_ne_true).resolve_left hnul

/-- What is in front of a tag is a clean path exactly if it was a path to begin with. -/
theorem cleanPath_tag_iff {u : Text} (hu : ';' ∉ u) :
    CleanPath D (u.foldl (parseChar D) (newLine true)).metric ↔ TagPath D u := by
  rw [TagPath]
  cases hdata : dataPart u with
  | nil =>
    rw [foldl_of_dataPart_nil (fun _ => hu) hdata, if_pos rfl]
    constructor
    · intro h
      refine ⟨fun hnil => h.ne_nil (by rw [hnil]; rfl), fun hlast => h.last ?_⟩
      rwa [getLast?_cleanText_eq_dot_iff, dropWhile_pathPart]
    · rintro ⟨hne, hlast⟩
      refine ⟨?_, head?_cleanText, ?_, no_dots_cleanText, fun c hc => pathChar_of_mem_path hc⟩
      · rwa [Ne, cleanText_eq_nil_iff, dropWhile_pathPart]
      · rwa [Ne, getLast?_cleanText_eq_dot_iff, dropWhile_pathPart]
  | cons c r =>
    have hpath := cleanPath_stripDot (D := D) (pathPart_ne_nil hdata)
    have hblank := isBlank_of_dataPart hdata
    rw [foldl_of_dataPart_cons (fun _ => hu) hdata, if_neg (cons_ne_nil c r),
      dropWhile_cons_of_pos (isSeparator_of_isBlank hblank)]
    generalize stripDot (cleanText D none (pathPart u)) = p at hpath
    have hlast : (p ++ ' ' :: cleanText D (some 0) r).getLast? = some '.' ↔
        (r.dropWhile isSeparator).getLast? = some '.' := by
      have hdot : (cleanText D (some 0) r).getLast? = some '.' ↔ _ := getLast?_cleanText_eq_dot_iff
      rw [← hdot, getLast?_append, getLast?_cons]
      cases (cleanText D (some 0) r).getLast? with
      | none => simp
      | some d => simp
    constructor
    · intro h
      have hspace : ' ' ∈ D.allowedChars := by
        have hchar := h.chars ' ' (by simp)
        simpa [PathChar] using hchar
      refine ⟨pathPart_ne_nil hdata, hspace, fun hdot => h.last (hlast.2 hdot), ?_⟩
      refine forall_mem_cons.2 ⟨.inl (isSeparator_of_isBlank hblank),
        (pathChar_data_iff hspace).1 ?_⟩
      exact fun d hd => h.chars d (by simp [hd])
    · rintro ⟨-, hspace, hdot, hchars⟩
      refine ⟨by simp, ?_, fun h => hdot (hlast.1
        h), no_dots_append hpath.dots no_dots_cleanText, ?_⟩
      · rw [head?_append_of_ne_nil _ hpath.ne_nil]
        exact hpath.head
      · intro d hd
        rcases mem_append.1 hd with hd | hd
        · exact hpath.chars d hd
        · rcases mem_cons.1 hd with rfl | hd
          · exact .inr (.inr (.inr hspace))
          · exact (pathChar_data_iff hspace).2 (forall_mem_cons.1 hchars).2 d hd

end

/-! ## The paths of routed metrics -/

section
variable {D : Dispatcher} {b : Bool} {l metric : Text} {firstspace : Nat}

theorem lineResult_eq_some (h : lineResult D b l = some (metric, firstspace)) :
    metric = (parseLine D b l).metric ++ ['\n'] ∧ (parseLine D b l).firstspace =
      some firstspace := by
  have hfs := firstspace_of_lineEnd h
  rw [lineResult, lineEnd, hfs] at h
  simp only at h
  split at h
  · cases h
  · cases h
    exact ⟨rfl, hfs⟩

/-- The text in front of the first `;`. -/
theorem exists_tag_of_hasTag (h : HasTag l) :
    ∃ v, l.dropLast = l.takeWhile (· ≠ ';') ++ ';' :: v ∧ ';' ∉ l.takeWhile (· ≠ ';') := by
  obtain ⟨u, v, hx, hu⟩ := eq_append_cons_of_mem h
  obtain ⟨w, hw⟩ := dropLast_prefix l
  have hfront : l.takeWhile (· ≠ ';') = u := by
    rw [← hw, hx, append_assoc, takeWhile_append_of_pos (p := (· ≠ ';')) fun c hc => ?_]
    · simp
    · exact decide_eq_true fun heq => hu (heq ▸ hc)
  rw [hfront]
  exact ⟨v, hx, hu⟩

/-- The path of an accepted line is clean, unless a tag starts behind something else. -/
theorem cleanPath_lineResult_iff (h : lineResult D b l = some (metric, firstspace)) :
    CleanPath D (metric.take firstspace) ↔
      (b = true → HasTag l → TagPath D (l.takeWhile (· ≠ ';'))) := by
  obtain ⟨rfl, hfs⟩ := lineResult_eq_some h
  by_cases htag : b = true ∧ HasTag l
  · obtain ⟨rfl, htag⟩ := htag
    obtain ⟨v, hx, hu⟩ := exists_tag_of_hasTag htag
    have hparse := foldl_tag (D := D) (l := newLine true) (v := v) rfl hu
    rw [← hx, ← parseLine] at hparse
    rw [hparse] at hfs ⊢
    cases hfs
    rw [append_assoc, take_left' rfl, cleanPath_tag_iff hu]
    exact ⟨fun h _ _ => h, fun h => h rfl htag⟩
  · have hnot : b = true → ';' ∉ l.dropLast := fun hb hmem => htag ⟨hb, hmem⟩
    refine iff_of_true ?_ fun hb htag' => absurd ⟨hb, htag'⟩ htag
    cases hdata : dataPart l.dropLast with
    | nil =>
      rw [parseLine, foldl_of_dataPart_nil hnot hdata] at hfs
      cases hfs
    | cons c r =>
      rw [parseLine, foldl_of_dataPart_cons hnot hdata] at hfs ⊢
      cases hfs
      rw [append_assoc, take_left' rfl]
      exact cleanPath_stripDot (pathPart_ne_nil hdata)

end

variable {δ : Type u}

/-- A metric that is routed comes from a line, and its path is clean, unless a tag may start in a
line that gives it and what is in front of the first `;` there is not a path. -/
theorem cleanPath_routed_iff {D : Dispatcher} {E : DispatchEnv} {route : Text → Nat → List δ × Nat}
    {s : DispatchState δ} {metric : Text} {firstspace : Nat} {dests : List δ}
    (h : .routed metric firstspace dests ∈ (dispatchReceivedMetrics D E route s).2) :
    (∃ ls l, LineGives D s.conn.buf metric firstspace ls l) ∧
      ∀ ls l, LineGives D s.conn.buf metric firstspace ls l →
        (CleanPath D (metric.take firstspace) ↔
          (tagsAfter D ls = true → HasTag l → TagPath D (l.takeWhile (· ≠ ';')))) :=
  ⟨line_of_routed h, fun _ _ hline => cleanPath_lineResult_iff hline.2⟩

/-- Separators that are repeated or trailing. -/
theorem cleanPath_routed_dots :
    let D := dispatchInit "-_:#".toList 32768 32768
    LineGives D ".a..b(c). 1 2\n".toList "a.b_c_ 1 2\n".toList 6 [] ".a..b(c). 1 2\n".toList ∧
      CleanPath D ("a.b_c_ 1 2\n".toList.take 6) := by
  let s : DispatchState Unit :=
    ⟨⟨.plain, ".a..b(c). 1 2\n".toList, 32768, [], ⟨0, 0⟩, 0, false, false, false⟩, 0, 0, 0, 0⟩
  have hrouted : .routed "a.b_c_ 1 2\n".toList 6 [] ∈ (dispatchReceivedMetrics
      (dispatchInit "-_:#".toList 32768 32768) ⟨fun _ _ => true, fun _ => ⟨0, 0⟩, fun _ => 0⟩
      (fun _ _ => ([], 1)) s).2 := by
    decide +kernel
  have hline : LineGives (dispatchInit "-_:#".toList 32768 32768) ".a..b(c). 1 2\n".toList
      "a.b_c_ 1 2\n".toList 6 [] ".a..b(c). 1 2\n".toList := by
    decide +kernel
  exact ⟨hline, ((cleanPath_routed_iff hrouted).2 [] _ hline).2 fun _ htag =>
    absurd htag (by decide)⟩

/-- A line that starts with its tags is routed with an empty path. -/
theorem tags_without_path :
    let D := dispatchInit "-_:#".toList 32768 32768
    .routed ";a=b 1 2\n".toList 0 [] ∈ (dispatchReceivedMetrics D
      ⟨fun _ _ => true, fun _ => ⟨0, 0⟩, fun _ => 0⟩ (fun _ _ => (([] : List Unit), 1))
      ⟨⟨.plain, ";a=b 1 2\n".toList, 32768, [], ⟨0, 0⟩, 0, false, false, false⟩, 0, 0, 0, 0⟩).2 ∧
      ¬ CleanPath D (";a=b 1 2\n".toList.take 0) :=
  ⟨by decide +kernel, fun h => h.ne_nil rfl⟩

end CarbonRelay
