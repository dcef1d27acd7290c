import CarbonRelay.Dispatcher.Cleansing

/-!
# The fields of a line

What becomes of the value, the timestamp and the tags of a line. A run of blanks is parsed as one
space (`foldl_gap`), and what is behind the first space, or behind the start of a tag, is written
squeezed, dots included (`metric_foldl_behind`). So a field is carried over as it is only if it has
no two dots in a row, and the field that comes first must not start with one (`Fields.Plain`).
-/

namespace CarbonRelay

open List

universe u

open Squeeze

/-- A run of blanks. -/
def Gap (x : Text) : Prop := x ≠ [] ∧ ∀ c ∈ x, isBlank c = true

/-- The tags as they are written. -/
def tagText : Option Text → Text
  | none => []
  | some tags => ';' :: tags

/-- The fields of a line `path value timestamp` or `path;tags value timestamp`. Where tags are
supported, they start at the first `;`. -/
structure Fields (D : Dispatcher) where
  path : Text
  tags : Option Text
  gap₁ : Text
  value : Text
  gap₂ : Text
  timestamp : Text
  ending : Char
  path_blank : ∀ c ∈ path, isBlank c = false
  path_tag : D.tagsSupported = true → ';' ∉ path
  tags_blank : ∀ t ∈ tags, ∀ c ∈ t, isBlank c = false
  tags_supported : tags.isSome = true → D.tagsSupported = true
  value_ne_nil : value ≠ []
  value_blank : ∀ c ∈ value, isBlank c = false
  value_nul : '\x00' ∉ value
  timestamp_ne_nil : timestamp ≠ []
  timestamp_blank : ∀ c ∈ timestamp, isBlank c = false
  timestamp_nul : '\x00' ∉ timestamp
  gap₁_gap : Gap gap₁
  gap₂_gap : Gap gap₂

namespace Fields

variable {D : Dispatcher}

/-- The line as it comes in. -/
def line (F : Fields D) : Text :=
  F.path ++ tagText F.tags ++ F.gap₁ ++ F.value ++ F.gap₂ ++ F.timestamp ++ [F.ending]

/-- The value and the timestamp, with one space between them. -/
def data (F : Fields D) : Text := F.value ++ ' ' :: F.timestamp

/-- The metric has the tags, the value and the timestamp behind some path, with one space between
the fields. -/
def Carried (F : Fields D) (metric : Text) : Prop :=
  ∃ path : Text, ' ' ∉ path ∧ (F.tags.isSome = true → ';' ∉ path) ∧
    metric = path ++ tagText F.tags ++ ' ' :: F.data ++ ['\n']

end Fields

/-- The text behind the first `;`. -/
def behindTag (x : Text) : Text := (x.dropWhile (· ≠ ';')).tail

/-- The fields are carried over as they are. Nowhere in them are two dots in a row. Without tags,
there is a path, the value does not start with a dot, and a `;` in the data where a tag may start
has no separator behind it. With tags, a tag may start, and the tags do not start with a dot and
have no `'\0'`. -/
def Fields.Plain {D : Dispatcher} (F : Fields D) (searchTags : Bool) : Prop :=
  ¬ ['.', '.'] <:+: F.value ∧ ¬ ['.', '.'] <:+: F.timestamp ∧
    match F.tags with
    | none =>
      (∃ c ∈ F.path, c ≠ '.') ∧ F.value.head? ≠ some '.' ∧
        (searchTags = true → ∀ c ∈ (behindTag F.data).head?, isSeparator c = false)
    | some tags =>
      searchTags = true ∧ tags ≠ [] ∧ tags.head? ≠ some '.' ∧ ¬ ['.', '.'] <:+: tags ∧ '\x00' ∉ tags

/-! ## Runs of blanks -/

section
variable {D : Dispatcher} {l : LineState} {c : Char} {g x y : Text} {b : Bool}

theorem parseChar_of_isBlank (hc : isBlank c = true) : parseChar D l c = parseChar D l ' ' := by
  rw [← parseChar_tabToSpace, isBlank_iff.1 hc]

/-- A blank behind a blank is dropped. -/
theorem parseChar_space_space : parseChar D (parseChar D l ' ') ' ' = parseChar D l ' ' := by
  by_cases hm : l.metric = []
  · have hskip : parseChar D l ' ' = l := parseChar_of_skip (by simp [hm]; rfl)
    rw [hskip, hskip]
  · cases hfs : l.firstspace with
    | none =>
      rw [parseChar_blank rfl hm hfs]
      exact parseChar_of_fresh (.inr ⟨_, _, rfl, rfl⟩) rfl
    | some k =>
      have hsome (l : LineState) (hfs : l.firstspace = some k) (hm : l.metric ≠ []) :
          parseChar D l ' ' = if l.metric.getLast? ≠ some ' ' ∧ l.firstspace ≠
            some (l.metric.length - 1) then l.push ' ' else l := by
        rw [parseChar, if_pos (by decide), if_neg (by rwa [List.isEmpty_iff])]
        show pushSeparator l ' ' = _
        rw [pushSeparator, if_neg (by rw [hfs]; exact fun h => by cases h.2)]
      rw [hsome l hfs hm]
      split
      case isTrue h =>
        rw [hsome (l.push ' ') hfs push_metric_ne_nil, if_neg]
        rintro ⟨hlast, -⟩
        exact hlast getLast?_concat
      case isFalse h => rw [hsome l hfs hm, if_neg h]

/-- A run of blanks is parsed as one space. -/
theorem foldl_gap (h : Gap g) : g.foldl (parseChar D) l = parseChar D l ' ' := by
  obtain ⟨hne, hblank⟩ := h
  cases g with
  | nil => exact absurd rfl hne
  | cons c g =>
    obtain ⟨hc, hg⟩ := forall_mem_cons.1 hblank
    rw [foldl_cons, parseChar_of_isBlank hc]
    clear hne hblank
    induction g with
    | nil => rfl
    | cons d g ih =>
      obtain ⟨hd, hg⟩ := forall_mem_cons.1 hg
      rw [foldl_cons, parseChar_of_isBlank hd, parseChar_space_space]
      exact ih hg

/-- A line is parsed as if there were one space between its fields. -/
theorem parseLine_fields (F : Fields D) : parseLine D b F.line =
    (F.path ++ tagText F.tags ++ ' ' :: F.data).foldl (parseChar D) (newLine b) := by
  rw [parseLine, Fields.line, dropLast_concat, Fields.data]
  simp only [foldl_append, foldl_cons, foldl_gap F.gap₁_gap, foldl_gap F.gap₂_gap]

/-! ## Texts that are written as they are -/

variable {u v : Text}

theorem cleanChar_self (htab : c ≠ '\t') (hnul : c ≠ '\x00') : cleanChar D (some 0) c = c := by
  cases hsep : isSeparator c with
  | true => rw [cleanChar, if_pos hsep, tabToSpace_of_ne htab]
  | false => rw [cleanChar_data hsep, if_neg hnul]

theorem nul_not_mem_cleanText : '\x00' ∉ cleanText D (some 0) x := by
  intro hmem
  obtain ⟨d, -, hd⟩ := mem_cleanText_iff.1 hmem
  have hsep : isSeparator d = false := by
    rw [← isSeparator_cleanChar D (some 0), hd]
    rfl
  rw [cleanChar_data hsep] at hd
  split at hd
  case isTrue => exact absurd hd (by decide)
  case isFalse hne => exact hne hd

/-- Without tabs, a text behind the first space is written as it is exactly if it does not start
with a separator and has none twice in a row, and no `'\0'`. -/
theorem cleanText_eq_self_iff (htab : '\t' ∉ x) : cleanText D (some 0) x = x ↔
    '\x00' ∉ x ∧ (∀ c ∈ x.head?, isSeparator c = false) ∧ x.IsChain (MayFollow isSeparator) := by
  have hmap (hnul : '\x00' ∉ x) : x.map (cleanChar D (some 0)) = x := by
    refine (map_congr_left fun c hc => ?_).trans (map_id x)
    exact cleanChar_self (fun h => htab (h ▸ hc)) fun h => hnul (h ▸ hc)
  constructor
  · intro h
    have hnul : '\x00' ∉ x := h ▸ nul_not_mem_cleanText
    rw [cleanText, hmap hnul, squeeze_eq_self_iff] at h
    exact ⟨hnul, h⟩
  · rintro ⟨hnul, h⟩
    rw [cleanText, hmap hnul]
    exact squeeze_eq_self_iff.2 h

theorem isChain_iff_no_dots (h : ∀ c ∈ x, isBlank c = false) :
    x.IsChain (MayFollow isSeparator) ↔ ¬ ['.', '.'] <:+: x := by
  rw [no_dots_iff]
  refine List.IsChain.iff_of_mem_imp fun a d _ hd => ?_
  constructor
  · rintro hfollow ⟨rfl, rfl⟩
    exact hfollow rfl rfl
  · rintro hdots hsep rfl
    have hdot := eq_dot_of_isSeparator hsep (h a hd)
    exact hdots ⟨hdot, hdot⟩

/-- A text that is cut at the first occurrence of a character. -/
theorem append_cons_inj (hx : c ∉ x) (hy : c ∉ y) : x ++ c :: u = y ++ c :: v ↔ x = y ∧ u = v := by
  have hfront (z w : Text) (hz : c ∉ z) : (z ++ c :: w).takeWhile (· ≠ c) = z := by
    rw [takeWhile_append_of_pos (p := (· ≠ c)) fun d hd => ?_]
    · simp
    · exact decide_eq_true fun h => hz (h ▸ hd)
  constructor
  · intro h
    have hxy : x = y := by rw [← hfront x u hx, h, hfront y v hy]
    subst hxy
    exact ⟨rfl, cons_injective (append_cancel_left h)⟩
  · rintro ⟨rfl, rfl⟩
    rfl

/-! ## What is written behind the first space -/

/-- What is written for a text behind the first space, in which a tag may start. -/
def dataText (D : Dispatcher) (searchTags : Bool) (x : Text) : Text :=
  if searchTags = true ∧ ';' ∈ x then
    cleanText D (some 0) (x.takeWhile (· ≠ ';')) ++ ';' :: cleanText D (some 0) (behindTag x)
  else cleanText D (some 0) x

variable {m : Text} {fs : Option Nat}

theorem takeWhile_append_behindTag (h : ';' ∈ x) :
    x.takeWhile (· ≠ ';') ++ ';' :: behindTag x = x ∧ ';' ∉ x.takeWhile (· ≠ ';') := by
  obtain ⟨u, v, rfl, hu⟩ := eq_append_cons_of_mem h
  have hpass : ∀ c ∈ u, decide (c ≠ ';') = true := fun c hc => decide_eq_true fun heq =>
    hu (heq ▸ hc)
  have hfront : (u ++ ';' :: v).takeWhile (· ≠ ';') = u := by
    rw [takeWhile_append_of_pos hpass]
    simp
  have hback : behindTag (u ++ ';' :: v) = v := by
    rw [behindTag, dropWhile_append_of_pos hpass]
    simp
  rw [hfront, hback]
  exact ⟨rfl, hu⟩

theorem metric_foldl_behind :
    (x.foldl (parseChar D) ⟨m ++ [' '], some m.length, b⟩).metric = m ++ ' ' :: dataText D b x := by
  rw [dataText]
  split
  case isTrue h =>
    obtain ⟨rfl, htag⟩ := h
    obtain ⟨hx, hfront⟩ := takeWhile_append_behindTag htag
    have hfold := foldl_tag (D := D) (l := ⟨m ++ [' '], some m.length, true⟩)
      (v := behindTag x) rfl hfront
    rw [hx, foldl_behind fun _ => hfront] at hfold
    rw [hfold, append_assoc]
    rfl
  case isFalse h =>
    rw [foldl_behind fun hb hx => h ⟨hb, hx⟩]

theorem mem_of_mem_cleanText (hsep : isSeparator c = false) (hne : c ≠ '_')
    (h : c ∈ cleanText D fs x) : c ∈ x := by
  obtain ⟨d, hd, hclean⟩ := mem_cleanText_iff.1 h
  have hdsep : isSeparator d = false := by rw [← isSeparator_cleanChar D fs, hclean, hsep]
  rw [cleanChar, hdsep, if_neg Bool.false_ne_true] at hclean
  split at hclean
  case isTrue => exact hclean ▸ (dropWhile_suffix _).subset hd
  case isFalse => exact absurd hclean.symm hne

theorem space_not_mem_cleanText (h : ∀ c ∈ x, isBlank c = false) : ' ' ∉ cleanText D fs x := by
  intro hmem
  obtain ⟨d, hd, hclean⟩ := mem_cleanText_iff.1 hmem
  have hdsep : isSeparator d = true := by rw [← isSeparator_cleanChar D fs, hclean]; rfl
  rw [cleanChar, if_pos hdsep] at hclean
  exact absurd (isBlank_iff.2 hclean) (by rw [h d ((dropWhile_suffix _).subset hd)]; decide)

/-- The data is written as it is exactly if it does not start with a separator and has none twice in
a row, and a tag that starts in it does not start with one either. -/
theorem dataText_eq_self_iff (htab : '\t' ∉ x) (hnul : '\x00' ∉ x) : dataText D b x = x ↔
    (∀ c ∈ x.head?, isSeparator c = false) ∧ x.IsChain (MayFollow isSeparator) ∧
      (b = true → ∀ c ∈ (behindTag x).head?, isSeparator c = false) := by
  rw [dataText]
  split
  case isTrue h =>
    obtain ⟨rfl, htag⟩ := h
    obtain ⟨hx, hfront⟩ := takeWhile_append_behindTag htag
    generalize x.takeWhile (· ≠ ';') = u at hx hfront ⊢
    generalize behindTag x = v at hx ⊢
    subst hx
    rw [mem_append, not_or] at htab hnul
    obtain ⟨hnul, hnul'⟩ := hnul
    rw [mem_cons, not_or] at hnul' htab
    have hhead : (∀ c ∈ (u ++ ';' :: v).head?, isSeparator c = false) ↔
        ∀ c ∈ u.head?, isSeparator c = false := by
      cases u with
      | nil => simp; rfl
      | cons d u => rfl
    have hchain : (u ++ ';' :: v).IsChain (MayFollow isSeparator) ↔
        u.IsChain (MayFollow isSeparator) ∧ v.IsChain (MayFollow isSeparator) := by
      rw [isChain_append, isChain_cons]
      constructor
      · exact fun h => ⟨h.1, h.2.1.2⟩
      · refine fun h => ⟨h.1, ⟨fun d _ => ?_, h.2⟩, fun d _ e he => ?_⟩
        · rintro hsep rfl
          exact absurd hsep (by decide)
        · cases he
          exact mayFollow_of_not_sep rfl
    rw [append_cons_inj (fun h => hfront (mem_of_mem_cleanText rfl (by decide) h)) hfront,
      cleanText_eq_self_iff htab.1, cleanText_eq_self_iff htab.2.2, and_iff_right hnul,
      and_iff_right hnul'.2, hhead, hchain]
    constructor
    · exact fun h => ⟨h.1.1, ⟨h.1.2, h.2.2⟩, fun _ => h.2.1⟩
    · exact fun h => ⟨⟨h.1, h.2.1.1⟩, h.2.2 rfl, h.2.1.2⟩
  case isFalse h =>
    rw [cleanText_eq_self_iff htab, and_iff_right hnul]
    refine and_congr_right fun _ => (and_iff_left fun hb c hc => ?_).symm
    have hnone : x.dropWhile (· ≠ ';') = [] :=
      dropWhile_eq_nil_iff.2 fun d hd => decide_eq_true fun heq => h ⟨hb, heq ▸ hd⟩
    rw [behindTag, hnone] at hc
    cases hc

end

/-! ## Fields that are carried over -/

section
variable {D : Dispatcher} {b : Bool} {metric : Text} {k : Nat} (F : Fields D)

theorem Fields.data_tab : '\t' ∉ F.data := by
  intro h
  rcases mem_append.1 h with h | h
  · exact absurd (F.value_blank _ h) (by decide)
  · rcases mem_cons.1 h with h | h
    · exact absurd h (by decide)
    · exact absurd (F.timestamp_blank _ h) (by decide)

theorem Fields.data_nul : '\x00' ∉ F.data := by
  intro h
  rcases mem_append.1 h with h | h
  · exact F.value_nul h
  · rcases mem_cons.1 h with h | h
    · exact absurd h (by decide)
    · exact F.timestamp_nul h

theorem isChain_append_space {x y : Text} (hx : ∀ c ∈ x, isBlank c = false)
    (hy : ∀ c ∈ y.head?, isBlank c = false) : (x ++ ' ' :: y).IsChain (MayFollow isSeparator) ↔
      ¬ ['.', '.'] <:+: x ∧ y.IsChain (MayFollow isSeparator) := by
  rw [isChain_append, isChain_cons, isChain_iff_no_dots hx]
  constructor
  · exact fun h => ⟨h.1, h.2.1.2⟩
  · refine fun h => ⟨h.1, ⟨fun d hd => ?_, h.2⟩, fun d hd e he => ?_⟩
    · rintro - rfl
      exact absurd (hy _ hd) (by decide)
    · cases he
      rintro - rfl
      exact absurd (hx _ (mem_of_getLast? hd)) (by decide)

theorem Fields.isChain_data : F.data.IsChain (MayFollow isSeparator) ↔
    ¬ ['.', '.'] <:+: F.value ∧ ¬ ['.', '.'] <:+: F.timestamp := by
  rw [Fields.data, isChain_append_space F.value_blank fun c hc =>
    F.timestamp_blank c (mem_of_head? hc), isChain_iff_no_dots F.timestamp_blank]

/-- A field starts with a separator exactly if it starts with a dot. -/
theorem head_of_field {x y : Text} (hx : ∀ c ∈ x, isBlank c = false) (hne : x ≠ []) :
    (∀ c ∈ (x ++ y).head?, isSeparator c = false) ↔ x.head? ≠ some '.' := by
  rw [head?_append_of_ne_nil _ hne]
  constructor
  · exact fun h hdot => absurd (h '.' hdot) (by decide)
  · intro h c hc
    rw [Bool.eq_false_iff]
    intro hsep
    have hdot := eq_dot_of_isSeparator hsep (hx c (mem_of_head? hc))
    exact h (hdot ▸ hc)

/-- A text without a blank in front of the data. -/
theorem metric_of_front {x : Text} (hblank : ∀ c ∈ x, isBlank c = false) (htag : b = true → ';' ∉ x)
    (hne : x.dropWhile isSeparator ≠ []) :
    ((x ++ ' ' :: F.data).foldl (parseChar D) (newLine b)).metric =
      stripDot (cleanText D none x) ++ ' ' :: dataText D b F.data := by
  have hfront : x.foldl (parseChar D) (newLine b) = ⟨cleanText D none x, none, b⟩ := by
    rw [foldl_of_fresh (fresh_newLine b) (fun _ c hc => ?_) htag]
    · rfl
    · exact hblank c ((dropWhile_suffix _).subset hc)
  rw [foldl_append, hfront, foldl_cons,
    parseChar_blank rfl (fun h => hne (cleanText_eq_nil_iff.1 h)) rfl, metric_foldl_behind]

/-- No character writes more spaces than it is. -/
theorem count_space_parseChar (l : LineState) (c : Char) :
    (parseChar D l c).metric.count ' ' ≤ l.metric.count ' ' + [tabToSpace c].count ' ' := by
  rcases parseChar_cases D l c with h | ⟨-, h⟩ | ⟨hblank, -, -, h⟩ | ⟨rfl, -, h⟩
  · rw [h]
    exact Nat.le_add_right _ _
  · rw [h, LineState.push, count_append]
    refine Nat.add_le_add_left ?_ _
    by_cases hclean : cleanChar D l.firstspace c = ' '
    · have hsep : isSeparator c = true := by
        rw [← isSeparator_cleanChar D l.firstspace, hclean]
        rfl
      rw [cleanChar, if_pos hsep]
    · rw [count_singleton, beq_false_of_ne hclean]
      exact Nat.zero_le _
  · rw [h, isBlank_iff.1 hblank, count_append]
    exact Nat.add_le_add_right ((prefix_stripDot _).sublist.count_le ' ') _
  · rw [h, count_append]
    exact Nat.le_refl _

theorem count_space_foldl (x : Text) (l : LineState) :
    (x.foldl (parseChar D) l).metric.count ' ' ≤ l.metric.count ' ' +
      (x.map tabToSpace).count ' ' := by
  induction x generalizing l with
  | nil => exact Nat.le_refl _
  | cons c x ih =>
    have hstep := count_space_parseChar (D := D) l c
    rw [foldl_cons, map_cons, ← singleton_append, count_append]
    exact (ih _).trans (by omega)

theorem Fields.count_data : F.data.count ' ' = 1 := by
  have hfree (x : Text) (hx : ∀ c ∈ x, isBlank c = false) : x.count ' ' = 0 :=
    count_eq_zero.2 fun h => absurd (hx ' ' h) (by decide)
  rw [Fields.data, count_append, count_cons_self, hfree _ F.value_blank, hfree _ F.timestamp_blank]

/-- A line without tags and without a path: there is one space too few. -/
theorem not_carried_of_no_path (htags : F.tags = none) (hpath : F.path.dropWhile isSeparator = []) :
    ¬ F.Carried ((parseLine D b F.line).metric ++ ['\n']) := by
  rintro ⟨path, -, -, heq⟩
  have hmap : F.data.map tabToSpace = F.data :=
    (map_congr_left fun c hc => tabToSpace_of_ne fun h => F.data_tab (h ▸ hc)).trans (map_id _)
  have hskip : F.path.foldl (parseChar D) (newLine b) = newLine b := by
    rw [← foldl_dropWhile (fresh_newLine b), hpath]
    rfl
  have hcount := count_space_foldl (D := D) F.data (newLine b)
  rw [hmap, F.count_data] at hcount
  rw [parseLine_fields, htags, tagText, append_nil, append_nil, foldl_append, hskip,
    foldl_cons, parseChar_of_fresh (fresh_newLine b) rfl] at heq
  have hspaces := congrArg (count ' ') (append_cancel_right heq)
  rw [count_append, count_cons_self, F.count_data] at hspaces
  change _ ≤ 0 + 1 at hcount
  omega

theorem path_begins_iff : F.path.dropWhile isSeparator ≠ [] ↔ ∃ c ∈ F.path, c ≠ '.' := by
  rw [Ne, dropWhile_eq_nil_iff]
  constructor
  · intro h
    by_contra hdots
    refine h fun c hc => ?_
    have hdot : c = '.' := by_contra fun hne => hdots ⟨c, hc, hne⟩
    rw [hdot]
    rfl
  · rintro ⟨c, hc, hne⟩ h
    exact hne (eq_dot_of_isSeparator (h c hc) (F.path_blank c hc))

/-- A line without tags. -/
theorem carried_untagged_iff (hb : b = true → D.tagsSupported = true) (htags : F.tags = none) :
    F.Carried ((parseLine D b F.line).metric ++ ['\n']) ↔ F.Plain b := by
  by_cases hnil : F.path.dropWhile isSeparator = []
  · refine iff_of_false (not_carried_of_no_path F htags hnil) fun h => ?_
    simp only [Fields.Plain, htags] at h
    exact (path_begins_iff F).2 h.2.2.1 hnil
  have hspace : ' ' ∉ stripDot (cleanText D none F.path) := fun h =>
    space_not_mem_cleanText F.path_blank ((prefix_stripDot _).subset h)
  rw [parseLine_fields, htags, tagText, append_nil,
    metric_of_front F F.path_blank (fun h => F.path_tag (hb h)) hnil, Fields.Carried, htags]
  have hself : (∃ path : Text, ' ' ∉ path ∧ ((none : Option Text).isSome = true → ';' ∉ path) ∧
      stripDot (cleanText D none F.path) ++ ' ' :: dataText D b F.data ++ ['\n'] =
        path ++ tagText none ++ ' ' :: F.data ++ ['\n']) ↔ dataText D b F.data = F.data := by
    constructor
    · rintro ⟨path, hp, -, heq⟩
      rw [tagText, append_nil] at heq
      exact ((append_cons_inj hspace hp).1 (append_cancel_right heq)).2
    · intro h
      exact ⟨_, hspace, fun h => Bool.noConfusion h, by rw [h, tagText, append_nil]⟩
  rw [hself, dataText_eq_self_iff F.data_tab F.data_nul, F.isChain_data, Fields.data,
    head_of_field F.value_blank F.value_ne_nil, ← Fields.data]
  simp only [Fields.Plain, htags]
  have hpath := (path_begins_iff F).1 hnil
  tauto

/-- A line with tags, where a tag may start. -/
theorem carried_tagged_iff {tags : Text} (htags : F.tags = some tags) :
    F.Carried ((parseLine D true F.line).metric ++ ['\n']) ↔ F.Plain true := by
  have hsupported : D.tagsSupported = true := F.tags_supported (by rw [htags]; rfl)
  have hblank := F.tags_blank tags htags
  have hpath := F.path_tag hsupported
  have hfront : F.path.foldl (parseChar D) (newLine true) =
      ⟨cleanText D none F.path, none, true⟩ := by
    rw [foldl_of_fresh (fresh_newLine true) (fun _ c hc => ?_) fun _ => hpath]
    · rfl
    · exact F.path_blank c ((dropWhile_suffix _).subset hc)
  have htag : ';' ∉ cleanText D none F.path := fun h =>
    hpath (mem_of_mem_cleanText rfl (by decide) h)
  have hspace : ' ' ∉ cleanText D none F.path := space_not_mem_cleanText F.path_blank
  have hparse := foldl_tag (D := D) (l := newLine true) (v := tags ++ ' ' :: F.data) rfl hpath
  rw [hfront] at hparse
  rw [parseLine_fields, htags, tagText, append_assoc, cons_append, hparse, Fields.Carried, htags]
  have hself : (∃ path : Text, ' ' ∉ path ∧ ((some tags).isSome = true → ';' ∉ path) ∧
      cleanText D none F.path ++ ';' :: cleanText D (some 0) (tags ++ ' ' :: F.data) ++ ['\n'] =
        path ++ tagText (some tags) ++ ' ' :: F.data ++ ['\n']) ↔
      cleanText D (some 0) (tags ++ ' ' :: F.data) = tags ++ ' ' :: F.data := by
    constructor
    · rintro ⟨path, -, hp, heq⟩
      rw [tagText, append_assoc path] at heq
      exact ((append_cons_inj htag (hp rfl)).1 (append_cancel_right heq)).2
    · intro h
      exact ⟨_, hspace, fun _ => htag, by rw [h, tagText]; simp⟩
  have htab : '\t' ∉ tags ++ ' ' :: F.data := by
    intro h
    rcases mem_append.1 h with h | h
    · exact absurd (hblank _ h) (by decide)
    · exact F.data_tab ((mem_cons.1 h).resolve_left (by decide))
  have hnul : '\x00' ∉ tags ++ ' ' :: F.data ↔ '\x00' ∉ tags := by
    simp [F.data_nul]
  have hdata : ∀ c ∈ F.data.head?, isBlank c = false := by
    rw [Fields.data, head?_append_of_ne_nil _ F.value_ne_nil]
    exact fun c hc => F.value_blank c (mem_of_head? hc)
  rw [hself, cleanText_eq_self_iff htab, hnul, isChain_append_space hblank hdata, F.isChain_data]
  simp only [Fields.Plain, htags, true_and]
  by_cases hne : tags = []
  · subst hne
    refine iff_of_false (fun h => ?_) fun h => h.2.2.1 rfl
    exact absurd (h.2.1 ' ' rfl) (by decide)
  · rw [head_of_field hblank hne]
    tauto

/-- A line with tags, where no tag may start: the `;` is replaced. -/
theorem not_carried_of_stale {tags : Text} (htags : F.tags = some tags)
    (hD : ';' ∉ D.allowedChars) : ¬ F.Carried ((parseLine D false F.line).metric ++ ['\n']) := by
  have hblank : ∀ c ∈ F.path ++ ';' :: tags, isBlank c = false := by
    intro c hc
    rcases mem_append.1 hc with hc | hc
    · exact F.path_blank c hc
    · rcases mem_cons.1 hc with rfl | hc
      · rfl
      · exact F.tags_blank tags htags c hc
  have hne : (F.path ++ ';' :: tags).dropWhile isSeparator ≠ [] := fun h =>
    absurd (dropWhile_eq_nil_iff.1 h ';' (by simp)) (by decide)
  have hspace : ' ' ∉ stripDot (cleanText D none (F.path ++ ';' :: tags)) := fun h =>
    space_not_mem_cleanText hblank ((prefix_stripDot _).subset h)
  rintro ⟨path, hp, -, heq⟩
  rw [parseLine_fields, htags, tagText,
    metric_of_front F hblank (fun h => Bool.noConfusion h) hne] at heq
  have hfront : ' ' ∉ path ++ ';' :: tags := by
    intro h
    rcases mem_append.1 h with h | h
    · exact hp h
    · exact absurd (hblank ' ' (mem_append_right _ h)) (by decide)
  have hsame := ((append_cons_inj hspace hfront).1 (append_cancel_right heq)).1
  have hmem : ';' ∈ cleanText D none (F.path ++ ';' :: tags) :=
    (prefix_stripDot _).subset (by rw [hsame]; simp)
  obtain ⟨d, -, hclean⟩ := mem_cleanText_iff.1 hmem
  have hsep : isSeparator d = false := by
    rw [← isSeparator_cleanChar D none, hclean]
    rfl
  rw [cleanChar, hsep, if_neg Bool.false_ne_true] at hclean
  split at hclean
  case isTrue hcopied =>
    rw [hclean] at hcopied
    exact hD (by simpa [copied] using hcopied)
  case isFalse => exact absurd hclean (by decide)

end

variable {δ : Type u}

/-- A metric that is routed comes from a line, and the tags, the value and the timestamp of each
line that gives it are carried over exactly if they are plain. -/
theorem carried_routed_iff {allowedChars : Text} {maxinplen maxmetriclen : Int} {E : DispatchEnv}
    {route : Text → Nat → List δ × Nat} {s : DispatchState δ} {metric : Text} {firstspace : Nat}
    {dests : List δ} (h : .routed metric firstspace dests ∈ (dispatchReceivedMetrics
      (dispatchInit allowedChars maxinplen maxmetriclen) E route s).2) :
    let D := dispatchInit allowedChars maxinplen maxmetriclen
    (∃ ls l, LineGives D s.conn.buf metric firstspace ls l) ∧
      ∀ ls (F : Fields D), LineGives D s.conn.buf metric firstspace ls F.line →
        (F.Carried metric ↔ F.Plain (tagsAfter D ls)) := by
  intro D
  refine ⟨line_of_routed h, fun ls F hline => ?_⟩
  obtain ⟨rfl, -⟩ := lineResult_eq_some hline.2
  cases htags : F.tags with
  | none => exact carried_untagged_iff F tagsSupported_of_tagsAfter htags
  | some tags =>
    cases hb : tagsAfter D ls with
    | true => exact carried_tagged_iff F htags
    | false =>
      have hallowed : ';' ∉ allowedChars := by
        have hsupported : (!allowedChars.contains ';') = true :=
          F.tags_supported (by rw [htags]; rfl)
        simpa using hsupported
      refine iff_of_false (not_carried_of_stale F htags hallowed) fun hplain => ?_
      simp only [Fields.Plain, htags] at hplain
      exact Bool.false_ne_true hplain.2.2.1

/-- A line with a dot in its value and several blanks. -/
theorem carried_routed_blanks :
    let D := dispatchInit "-_:#".toList 32768 32768
    ∃ F : Fields D, F.line = "a  1.5\t2\n".toList ∧ F.Carried "a 1.5 2\n".toList := by
  let s : DispatchState Unit :=
    ⟨⟨.plain, "a  1.5\t2\n".toList, 32768, [], ⟨0, 0⟩, 0, false, false, false⟩, 0, 0, 0, 0⟩
  have hrouted : .routed "a 1.5 2\n".toList 1 [] ∈ (dispatchReceivedMetrics
      (dispatchInit "-_:#".toList 32768 32768) ⟨fun _ _ => true, fun _ => ⟨0, 0⟩, fun _ => 0⟩
      (fun _ _ => ([], 1)) s).2 := by
    decide +kernel
  let F : Fields (dispatchInit "-_:#".toList 32768 32768) :=
    ⟨['a'], none, [' ', ' '], ['1', '.', '5'], ['\t'], ['2'], '\n', by simp [isBlank], by decide,
      by simp, by simp, by decide, by simp [isBlank], by decide, by decide, by simp [isBlank],
      by decide, ⟨by decide, by simp [isBlank]⟩, ⟨by decide, by simp [isBlank]⟩⟩
  have hline : LineGives (dispatchInit "-_:#".toList 32768 32768) s.conn.buf "a 1.5 2\n".toList 1 []
      F.line := by
    decide +kernel
  exact ⟨F, rfl, ((carried_routed_iff hrouted).2 [] F hline).2
    ⟨by decide, by decide, ⟨'a',
      by decide, by decide⟩, by decide, by simp [F, behindTag, Fields.data]⟩⟩

/-- The dot in front of a value is dropped. -/
theorem leading_dot_dropped :
    let D := dispatchInit "-_:#".toList 32768 32768
    ∃ F : Fields D, F.line = "a .5 1\n".toList ∧
      .routed "a 5 1\n".toList 1 [] ∈ (dispatchReceivedMetrics D
        ⟨fun _ _ => true, fun _ => ⟨0, 0⟩, fun _ => 0⟩ (fun _ _ => (([] : List Unit), 1))
        ⟨⟨.plain, F.line, 32768, [], ⟨0, 0⟩, 0, false, false, false⟩, 0, 0, 0, 0⟩).2 ∧
      ¬ F.Carried "a 5 1\n".toList := by
  refine ⟨⟨['a'], none, [' '], ['.', '5'], [' '], ['1'], '\n', forall_mem_singleton.2 rfl,
    by decide,
    nofun, nofun, by decide, forall_mem_cons.2 ⟨rfl, forall_mem_singleton.2 rfl⟩, by decide,
    by decide, forall_mem_singleton.2 rfl, by decide, ⟨by decide, forall_mem_singleton.2 rfl⟩,
    ⟨by decide, forall_mem_singleton.2 rfl⟩⟩, rfl, by decide +kernel, ?_⟩
  rintro ⟨path, -, -, heq⟩
  have hlength := congrArg List.length heq
  have hnil : path = [] := by simpa [Fields.data, tagText] using hlength
  rw [hnil] at heq
  exact absurd heq (by decide)

end CarbonRelay
