import CarbonRelay.Dispatcher.Tags
import CarbonRelay.Lib.Machine
import Mathlib.Data.List.DropRight
import Mathlib.Data.List.TakeWhile

/-!
# Reading a stream in chunks

A stream arrives in chunks, and the buffer is passed after each of them. `feedLines` says what comes
out in terms of lines: each pass starts anew with the lines that are complete by then. So a line can
be the first of a pass or come behind others, depending on the chunks, and this matters in one case
only: a discarded line with a `;` leaves `search_tags` off for the lines behind it in the same pass.
The results do not depend on the chunks exactly if no line suffers from that (`Confused`).
-/

namespace CarbonRelay

open List

universe u

variable {δ : Type u}

/-- A chunk is read and the buffer is passed. -/
def feedStep (D : Dispatcher) (E : DispatchEnv) (route : Text → Nat → List δ × Nat)
    (s : DispatchState δ) (bytes : Text) : Option (DispatchState δ × List (DispatchEvent δ)) :=
  (readInto bytes s).map (dispatchReceivedMetrics D E route)

/-- What is seen of a connection that has read a stream: what was handed to the router, the counters
and the rest in the buffer. -/
structure Observed where
  routed : List (Text × Nat)
  metrics : Nat
  discards : Nat
  tail : Text
  deriving DecidableEq, Repr

/-- What is seen after some events. -/
def observe (s : DispatchState δ) (es : List (DispatchEvent δ)) : Observed :=
  ⟨routedOf es, s.metrics, s.discards, s.conn.buf⟩

/-- The results of the lines and the rest, when the chunks are read behind `t`. -/
def feedLines (D : Dispatcher) : Text → List Text → List (Option (Text × Nat)) × Text
  | t, [] => ([], t)
  | t, c :: cs =>
    let (rs, t') := feedLines D (tidy (rawLines (t ++ c)).2) cs
    (runLines D D.tagsSupported (rawLines (t ++ c)).1 ++ rs, t')

/-- Every chunk fits into the free part of the buffer. -/
def Fits (bufsize : Nat) : Text → List Text → Prop
  | _, [] => True
  | t, c :: cs =>
    c ≠ [] ∧ t.length + c.length ≤ bufsize - 1 ∧ Fits bufsize (tidy (rawLines (t ++ c)).2) cs

/-- A line with a `;` is discarded, and one that is not, whether a tag may start in it or not, comes
behind it in the same buffer, with nothing but discarded lines between. -/
def Confused (D : Dispatcher) (bufsize : Nat) (ls : List Text) : Prop :=
  D.tagsSupported = true ∧ ∃ pre a mid l post, ls = pre ++ a :: (mid ++ l :: post) ∧
    (HasTag a ∧ lineResult D true a = none) ∧
    (∀ m ∈ mid, lineResult D true m = none ∧ lineResult D false m = none) ∧
    (HasTag l ∧ (lineResult D true l ≠ none ∨ lineResult D false l ≠ none)) ∧
    (a.dropWhile isSeparator).length + mid.flatten.length + l.length ≤ bufsize - 1

/-! ## Runs in terms of lines -/

section
variable {D : Dispatcher} {E : DispatchEnv} {route : Text → Nat → List δ × Nat}
  {s s₁ s₂ : DispatchState δ} {es es' : List (DispatchEvent δ)}
  {rs rs' : List (Option (Text × Nat))} {t t' : Text} {chunks : List Text}

theorem Passed.trans (h : Passed rs t s s₁ es) (h' : Passed rs' t' s₁ s₂ es') :
    Passed (rs ++ rs') t' s s₂ (es ++ es') where
  routed := by rw [routedOf_append, h.routed, h'.routed, filterMap_append]
  metrics := by rw [h'.metrics, h.metrics, countP_append, Nat.add_assoc]
  discards := by rw [h'.discards, h.discards, countP_append, Nat.add_assoc]
  buf := h'.buf
  bufsize := h'.bufsize.trans h.bufsize

theorem Passed.observe_eq (h : Passed rs t s s₁ es) :
    observe s₁ es = ⟨rs.filterMap id, s.metrics + rs.countP Option.isSome,
      s.discards + rs.countP Option.isNone, t⟩ := by
  rw [observe, h.routed, h.metrics, h.discards, h.buf]

theorem readInto_eq_some {bytes : Text} : readInto bytes s = some s₁ ↔
    bytes ≠ [] ∧ s.conn.buf.length + bytes.length ≤ s.conn.bufsize - 1 ∧
      s₁ = { s with conn := { s.conn with buf := s.conn.buf ++ bytes } } := by
  rw [readInto]
  split
  case isTrue h =>
    constructor
    · intro heq; cases heq
    · rintro ⟨hne, hle, -⟩
      rcases h with h | h
      · exact absurd (List.isEmpty_iff.1 h) hne
      · exact absurd hle (Nat.not_le.2 h)
  case isFalse h =>
    rw [not_or, List.isEmpty_iff, Nat.not_lt] at h
    rw [Option.some.injEq]
    exact ⟨fun heq => ⟨h.1, h.2, heq.symm⟩, fun heq => heq.2.2.symm⟩

/-- A step of the run: the chunk fits, and the lines that are complete then are passed. -/
theorem feedStep_eq_some (hE : E.Accepting) {bytes : Text}
    (h : feedStep D E route s bytes = some (s₁, es)) :
    bytes ≠ [] ∧ s.conn.buf.length + bytes.length ≤ s.conn.bufsize - 1 ∧
      Passed (runLines D D.tagsSupported (rawLines (s.conn.buf ++ bytes)).1)
        (tidy (rawLines (s.conn.buf ++ bytes)).2) s s₁ es := by
  rw [feedStep, Option.map_eq_some_iff] at h
  obtain ⟨s₀, hread, heq⟩ := h
  obtain ⟨hne, hle, rfl⟩ := readInto_eq_some.1 hread
  refine ⟨hne, hle, ?_⟩
  have hpassed := dispatchReceivedMetrics_accepting (D := D) hE route
    { s with conn := { s.conn with buf := s.conn.buf ++ bytes } }
  rw [heq] at hpassed
  exact ⟨hpassed.routed, hpassed.metrics, hpassed.discards, hpassed.buf, hpassed.bufsize⟩

/-- A run over chunks that fit is what the lines say. -/
theorem passed_of_run (hE : E.Accepting) {os : List (List (DispatchEvent δ))}
    (h : Machine.run (feedStep D E route) s chunks = some (s₁, os)) :
    Fits s.conn.bufsize s.conn.buf chunks ∧ Passed (feedLines D s.conn.buf chunks).1
      (feedLines D s.conn.buf chunks).2 s s₁ os.flatten := by
  induction chunks generalizing s os with
  | nil => cases h; exact ⟨trivial, rfl, rfl, rfl, rfl, rfl⟩
  | cons c cs ih =>
    obtain ⟨s₀, es, os, hstep, hrun, rfl⟩ := Machine.run_cons_eq_some.1 h
    obtain ⟨hne, hle, hpassed⟩ := feedStep_eq_some hE hstep
    obtain ⟨hfits, hpassed'⟩ := ih hrun
    rw [hpassed.buf, hpassed.bufsize] at hfits
    rw [hpassed.buf] at hpassed'
    exact ⟨⟨hne, hle, hfits⟩, hpassed.trans hpassed'⟩

/-- Chunks that fit have a run. -/
theorem exists_run_of_fits (route : Text → Nat → List δ × Nat) (hE : E.Accepting)
    (h : Fits s.conn.bufsize s.conn.buf chunks) :
    ∃ s₁ os, Machine.run (feedStep D E route) s chunks = some (s₁, os) := by
  induction chunks generalizing s with
  | nil => exact ⟨s, [], rfl⟩
  | cons c cs ih =>
    obtain ⟨hne, hle, hfits⟩ := h
    obtain ⟨s₀, es, hstep⟩ : ∃ s₀ es, feedStep D E route s c = some (s₀, es) := by
      rw [feedStep, readInto_eq_some.2 ⟨hne, hle, rfl⟩]
      exact ⟨_, _, rfl⟩
    obtain ⟨-, -, hpassed⟩ := feedStep_eq_some hE hstep
    obtain ⟨s₁, os, hrun⟩ := ih (s := s₀) (by rw [hpassed.buf, hpassed.bufsize]; exact hfits)
    exact ⟨s₁, es :: os, Machine.run_cons_eq_some.2 ⟨s₀, es, os, hstep, hrun, rfl⟩⟩

/-! ## Lines that are not confused -/

variable {bufsize : Nat} {ls ls' : List Text} {a l : Text} {mid rest : List Text}

theorem Confused.append_right (h : Confused D bufsize ls) (ls' : List Text) :
    Confused D bufsize (ls ++ ls') := by
  obtain ⟨htags, pre, a, mid, l, post, rfl, ha, hmid, hl, hlen⟩ := h
  exact ⟨htags, pre, a, mid, l, post ++ ls', by simp, ha, hmid, hl, hlen⟩

theorem Confused.append_left (h : Confused D bufsize ls') (ls : List Text) :
    Confused D bufsize (ls ++ ls') := by
  obtain ⟨htags, pre, a, mid, l, post, rfl, ha, hmid, hl, hlen⟩ := h
  exact ⟨htags, ls ++ pre, a, mid, l, post, by simp, ha, hmid, hl, hlen⟩

theorem nextTags_of_none (h : lineEnd D (parseLine D true l) = none) :
    nextTags D (parseLine D true l) = !decide (HasTag l) := by
  have hcontains : l.dropLast.contains ';' = decide (HasTag l) :=
    Bool.eq_iff_iff.2 (by rw [contains_iff_mem, decide_eq_true_iff]; rfl)
  rw [nextTags, h, parseLine, searchTags_foldl, hcontains]
  rfl

theorem nextTags_of_some {r : Text × Nat} {b : Bool} (h : lineEnd D (parseLine D b l) = some r) :
    nextTags D (parseLine D b l) = D.tagsSupported := by
  rw [nextTags, h]
  rfl

theorem nextTags_false_of_none (h : lineEnd D (parseLine D false l) = none) :
    nextTags D (parseLine D false l) = false := by
  rw [nextTags, h, parseLine, searchTags_foldl]
  rfl

/-- The lines from any place of the buffer on fit, without the separators in front of the first one.
-/
def LinesFit (bufsize : Nat) (ls : List Text) : Prop :=
  ∀ pre a post, ls = pre ++ a :: post →
    (a.dropWhile isSeparator).length + post.flatten.length ≤ bufsize - 1

theorem LinesFit.tail (h : LinesFit bufsize (l :: ls)) : LinesFit bufsize ls :=
  fun pre a post heq => h (l :: pre) a post (by rw [heq]; rfl)

/-- One pass over lines that are not confused gives for each what it gives from a new start: in the
first part a tag may start, in the second a discarded line `a` with a `;` was passed, and the lines
`mid` that were all discarded. Both go by induction on the lines that are left. -/
theorem runLines_of_not_confused (htags : D.tagsSupported = true) (rest : List Text) :
    (LinesFit bufsize rest → ¬ Confused D bufsize rest →
      runLines D true rest = rest.map (lineResult D true)) ∧
    ∀ a mid, HasTag a → lineResult D true a = none →
      (∀ m ∈ mid, lineResult D true m = none ∧ lineResult D false m = none) →
      LinesFit bufsize (a :: (mid ++ rest)) → ¬ Confused D bufsize (a :: (mid ++ rest)) →
      runLines D false rest = rest.map (lineResult D true) := by
  induction rest with
  | nil => exact ⟨fun _ _ => rfl, fun _ _ _ _ _ _ _ => rfl⟩
  | cons l rest ih =>
    constructor
    · intro hfit hconf
      have hconf' : ¬ Confused D bufsize rest := fun h => hconf (h.append_left [l])
      rw [runLines, map_cons]
      congr 1
      cases hres : lineEnd D (parseLine D true l) with
      | some r => rw [nextTags_of_some hres, htags]; exact ih.1 hfit.tail hconf'
      | none =>
        rw [nextTags_of_none hres]
        by_cases htag : HasTag l
        · rw [decide_eq_true htag]
          exact ih.2 l [] htag hres (fun m hm => absurd hm not_mem_nil) hfit hconf
        · rw [decide_eq_false htag]
          exact ih.1 hfit.tail hconf'
    · intro a mid ha hnone hmid hfit hconf
      have hsame : lineResult D false l = lineResult D true l := by
        by_contra hne
        have hlen := hfit [] a (mid ++ l :: rest) rfl
        rw [flatten_append, length_append, flatten_cons, length_append] at hlen
        exact hconf ⟨htags, [], a, mid, l, rest, rfl, ⟨ha, hnone⟩, hmid,
          lineResult_ne_iff.1 (Ne.symm hne), by omega⟩
      have hrest : LinesFit bufsize rest := fun pre a' post heq =>
        hfit (a :: (mid ++ l :: pre)) a' post (by rw [heq]; simp)
      have hconf' : ¬ Confused D bufsize rest := fun h =>
        hconf (by simpa using h.append_left (a :: (mid ++ [l])))
      rw [runLines, map_cons, hsame]
      congr 1
      cases hres : lineEnd D (parseLine D false l) with
      | some r => rw [nextTags_of_some hres, htags]; exact ih.1 hrest hconf'
      | none =>
        rw [nextTags_false_of_none hres]
        have hmove : a :: ((mid ++ [l]) ++ rest) = a :: (mid ++ l :: rest) := by simp
        refine ih.2 a (mid ++ [l]) ha hnone (fun m hm => ?_) (hmove ▸ hfit) (hmove ▸ hconf)
        rcases mem_append.1 hm with hm | hm
        · exact hmid m hm
        · cases mem_singleton.1 hm
          exact ⟨hsame.symm.trans hres, hres⟩

/-- Without support for tags, every line is passed in the same way. -/
theorem runLines_of_not_tags (htags : D.tagsSupported = false) (ls : List Text) :
    runLines D false ls = ls.map (lineResult D false) := by
  induction ls with
  | nil => rfl
  | cons l ls ih =>
    rw [runLines, map_cons]
    cases hres : lineEnd D (parseLine D false l) with
    | some r => rw [nextTags_of_some hres, htags, ih]
    | none => rw [nextTags_false_of_none hres, ih]

/-! ## Chunks of a stream that is not confused -/

variable {c x : Text} {b : Bool}

/-- A line ends with the only end of a line in it. -/
theorem exists_of_rawLines_self (h : rawLines a = ([a], [])) :
    ∃ x e, a = x ++ [e] ∧ isNewline e = true ∧ ∀ c ∈ x, isNewline c = false := by
  induction a with
  | nil => cases h
  | cons c a ih =>
    rw [rawLines] at h
    rcases ha : rawLines a with ⟨ls, t⟩
    rw [ha] at h
    cases hc : isNewline c with
    | true =>
      simp only [hc, if_true] at h
      cases h
      exact ⟨[], c, rfl, hc, fun c' hc' => absurd hc' not_mem_nil⟩
    | false =>
      simp only [hc, Bool.false_eq_true, if_false] at h
      cases ls with
      | nil => cases h
      | cons l ls =>
        cases h
        obtain ⟨x, e, rfl, he, hx⟩ := ih ha
        refine ⟨c :: x, e, rfl, he, fun c' hc' => ?_⟩
        rcases mem_cons.1 hc' with rfl | hmem
        · exact hc
        · exact hx c' hmem

theorem not_isSeparator_of_isNewline {e : Char} (h : isNewline e = true) :
    isSeparator e = false := by
  rw [isNewline, Bool.or_eq_true, decide_eq_true_iff, decide_eq_true_iff] at h
  rcases h with rfl | rfl <;> rfl

/-- A line keeps its end when the separators in front of it are dropped. -/
theorem dropWhile_line {e : Char} (he : isNewline e = true) (x : Text) :
    (x ++ [e]).dropWhile isSeparator = x.dropWhile isSeparator ++ [e] := by
  rw [dropWhile_append]
  split
  case isTrue h =>
    rw [List.isEmpty_iff.1 h, dropWhile_cons_of_neg
      (by rw [not_isSeparator_of_isNewline he]; exact Bool.false_ne_true)]
    rfl
  case isFalse => rfl

theorem dropWhile_ne_nil_of_rawLines_self (h : rawLines a = ([a], [])) :
    a.dropWhile isSeparator ≠ [] := by
  obtain ⟨x, e, rfl, he, -⟩ := exists_of_rawLines_self h
  rw [dropWhile_line he]
  exact append_ne_nil_of_right_ne_nil _ (cons_ne_nil e [])

/-- A tidied tail in front of a line is parsed as the tail itself. -/
theorem parseLine_tidy_append (hx : x ≠ []) :
    parseLine D b (tidy t ++ x) = parseLine D b (t ++ x) := by
  rw [parseLine, parseLine, dropLast_append_of_ne_nil hx, dropLast_append_of_ne_nil hx,
    foldl_append, foldl_append, foldl_parseChar_tidy]

/-- A pass over a buffer does not depend on when the tail in front was tidied. -/
theorem pass_tidy_append (ht : ∀ c ∈ t, isNewline c = false) (c : Text) :
    runLines D b (rawLines (tidy t ++ c)).1 = runLines D b (rawLines (t ++ c)).1 ∧
      tidy (rawLines (tidy t ++ c)).2 = tidy (rawLines (t ++ c)).2 := by
  rw [rawLines_append_of_not_newline (not_newline_tidy ht), rawLines_append_of_not_newline ht]
  rcases hc : rawLines c with ⟨_ | ⟨x, ls⟩, t'⟩
  · exact ⟨rfl, tidy_tidy_append t t'⟩
  · have hx : x ≠ [] := ne_nil_of_rawLines (rawLines_of_mem c x (by rw [hc]; exact mem_cons_self))
    exact ⟨by simp only [runLines, lineResult, parseLine_tidy_append hx], rfl⟩

/-- The lines of a buffer fit if the buffer does: the separators in front of the first line are not
in it. -/
theorem linesFit_of_buffer (h : (tidy t).length + c.length ≤ bufsize - 1) :
    LinesFit bufsize (rawLines (t ++ c)).1 := by
  intro pre a post heq
  have hflat := flatten_rawLines (t ++ c)
  have hlines := rawLines_of_mem (t ++ c)
  rw [heq] at hflat hlines
  rw [tidy, length_map] at h
  have hdrop : ((t ++ c).dropWhile isSeparator).length ≤ bufsize - 1 := by
    rw [dropWhile_append]
    split
    · exact (dropWhile_sublist _).length_le.trans (by omega)
    · rw [length_append]; exact h
  rw [← hflat] at hdrop
  cases pre with
  | nil =>
    have hne : ¬ (a.dropWhile isSeparator).isEmpty = true := fun he =>
      dropWhile_ne_nil_of_rawLines_self (hlines a mem_cons_self) (List.isEmpty_iff.1 he)
    rw [nil_append, flatten_cons, append_assoc, dropWhile_append, if_neg hne,
      length_append, length_append] at hdrop
    omega
  | cons b pre =>
    have hne : ¬ (b.dropWhile isSeparator).isEmpty = true := fun he =>
      dropWhile_ne_nil_of_rawLines_self (hlines b mem_cons_self) (List.isEmpty_iff.1 he)
    have hle := (dropWhile_sublist (l := a) isSeparator).length_le
    rw [cons_append, flatten_cons, append_assoc, dropWhile_append, if_neg hne,
      flatten_append, flatten_cons] at hdrop
    simp only [length_append] at hdrop
    omega

/-- Every line of a stream that is not confused gives what it gives from a new start, however the
stream is cut: by induction on the chunks, with the raw tail in front. -/
theorem feedLines_of_not_confused (ht : ∀ c ∈ t, isNewline c = false)
    (hfits : Fits bufsize (tidy t) chunks)
    (hconf : ¬ Confused D bufsize (rawLines (t ++ chunks.flatten)).1) :
    feedLines D (tidy t) chunks =
      ((rawLines (t ++ chunks.flatten)).1.map (lineResult D D.tagsSupported),
        tidy (rawLines (t ++ chunks.flatten)).2) := by
  induction chunks generalizing t with
  | nil => rw [flatten_nil, append_nil, rawLines_of_not_newline ht]; rfl
  | cons c cs ih =>
    obtain ⟨-, hlen, hfits⟩ := hfits
    obtain ⟨hrun, htail⟩ := pass_tidy_append (D := D) (b := D.tagsSupported) ht c
    rw [flatten_cons, ← append_assoc, rawLines_append] at hconf ⊢
    rw [htail] at hfits
    have hpass : runLines D D.tagsSupported (rawLines (t ++ c)).1 =
        (rawLines (t ++ c)).1.map (lineResult D D.tagsSupported) := by
      cases htags : D.tagsSupported with
      | false => exact runLines_of_not_tags htags _
      | true =>
        exact (runLines_of_not_confused htags _).1 (linesFit_of_buffer hlen)
          fun h => hconf (h.append_right _)
    rw [feedLines, htail, hrun, hpass, ih (not_newline_of_mem_tail (t ++ c)) hfits
      fun h => hconf (h.append_left _), map_append]

/-! ## Two ways to cut a confused stream -/

variable {pre post : List Text}

theorem feedLines_append (D : Dispatcher) (t : Text) (cs cs' : List Text) :
    feedLines D t (cs ++ cs') = ((feedLines D t cs).1 ++ (feedLines D (feedLines D t cs).2 cs').1,
      (feedLines D (feedLines D t cs).2 cs').2) := by
  induction cs generalizing t with
  | nil => rfl
  | cons c cs ih => rw [cons_append, feedLines, feedLines, ih, append_assoc]

theorem fits_append (D : Dispatcher) {cs cs' : List Text} (h : Fits bufsize t cs)
    (h' : Fits bufsize (feedLines D t cs).2 cs') : Fits bufsize t (cs ++ cs') := by
  induction cs generalizing t with
  | nil => exact h'
  | cons c cs ih => exact ⟨h.1, h.2.1, ih h.2.2 h'⟩

/-- Lines that come one by one. -/
theorem feedLines_lines (D : Dispatcher) (h : ∀ l ∈ ls, rawLines l = ([l], [])) :
    feedLines D [] ls = (ls.map (lineResult D D.tagsSupported), []) := by
  induction ls with
  | nil => rfl
  | cons l ls ih =>
    rw [feedLines, nil_append, h l mem_cons_self]
    have hrest := ih fun l' hl' => h l' (mem_cons_of_mem l hl')
    rw [show tidy ([] : Text) = [] from rfl, hrest]
    rfl

theorem fits_lines (h : ∀ l ∈ ls, rawLines l = ([l], []))
    (hlen : ∀ l ∈ ls, l.length ≤ bufsize - 1) : Fits bufsize [] ls := by
  induction ls with
  | nil => trivial
  | cons l ls ih =>
    have hl := h l mem_cons_self
    refine ⟨ne_nil_of_rawLines hl, ?_, ?_⟩
    · rw [length_nil, Nat.zero_add]
      exact hlen l mem_cons_self
    · rw [nil_append, hl]
      exact ih (fun l' hl' => h l' (mem_cons_of_mem l hl')) fun l' hl' =>
        hlen l' (mem_cons_of_mem l hl')

/-- A chunk, unless there is nothing to read. -/
def chunkOf (t : Text) : List Text := if t.isEmpty then [] else [t]

theorem flatten_chunkOf (t : Text) : (chunkOf t).flatten = t := by
  cases t with
  | nil => rfl
  | cons c t => exact append_nil (c :: t)

/-- A chunk without an end of a line is a tail. -/
theorem feedLines_chunkOf (D : Dispatcher) (ht : ∀ c ∈ t, isNewline c = false) :
    feedLines D [] (chunkOf t) = ([], tidy t) := by
  cases t with
  | nil => rfl
  | cons c t =>
    rw [chunkOf, if_neg (by exact Bool.false_ne_true), feedLines, nil_append,
      rawLines_of_not_newline ht]
    rfl

theorem fits_chunkOf (hlen : t.length ≤ bufsize - 1) : Fits bufsize [] (chunkOf t) := by
  cases t with
  | nil => trivial
  | cons c t => exact ⟨cons_ne_nil c t, by rwa [length_nil, Nat.zero_add], trivial⟩

section
variable (ha : rawLines a = ([a], []))
include ha

/-- The separators in front of a line do not count. -/
theorem parseLine_dropWhile (b : Bool) :
    parseLine D b (a.dropWhile isSeparator) = parseLine D b a := by
  obtain ⟨x, e, rfl, he, -⟩ := exists_of_rawLines_self ha
  have hidem : tidy (x.dropWhile isSeparator) = tidy x := by
    rw [tidy, dropWhile_idempotent]; rfl
  rw [dropWhile_line he, parseLine, parseLine, dropLast_concat, dropLast_concat,
    ← foldl_parseChar_tidy, hidem, foldl_parseChar_tidy]

theorem rawLines_dropWhile : rawLines (a.dropWhile isSeparator) =
    ([a.dropWhile isSeparator], []) := by
  obtain ⟨x, e, rfl, he, hx⟩ := exists_of_rawLines_self ha
  have hend : rawLines [e] = ([[e]], []) := by rw [rawLines, he]; rfl
  rw [dropWhile_line he, rawLines_append_of_not_newline
    (fun c hc => hx c ((dropWhile_sublist isSeparator).subset hc)), hend]

theorem HasTag.dropWhile (h : HasTag a) : HasTag (a.dropWhile isSeparator) := by
  obtain ⟨x, e, rfl, he, -⟩ := exists_of_rawLines_self ha
  rw [HasTag, dropWhile_line he, dropLast_concat]
  rw [HasTag, dropLast_concat, ← takeWhile_append_dropWhile (p := isSeparator) (l := x)] at h
  rcases mem_append.1 h with hmem | hmem
  · exact absurd (mem_takeWhile_imp hmem) (by decide)
  · exact hmem

end

/-- Behind a discarded line with a `;`, and other discarded lines, no tag starts. -/
theorem runLines_confused (ha : HasTag a) (hnone : lineResult D true a = none)
    (hmid : ∀ m ∈ mid, lineResult D true m = none ∧ lineResult D false m = none) :
    runLines D true (a :: (mid ++ [l])) = (a :: mid).map (lineResult D true) ++
      [lineResult D false l] := by
  have hrest : runLines D false (mid ++ [l]) =
      mid.map (lineResult D true) ++ [lineResult D false l] := by
    clear ha hnone
    induction mid with
    | nil => rfl
    | cons m mid ih =>
      obtain ⟨hm, hm'⟩ := hmid m mem_cons_self
      rw [cons_append, runLines, nextTags_false_of_none hm',
        ih fun m' hmem => hmid m' (mem_cons_of_mem m hmem), hm', map_cons, hm]
      rfl
  rw [runLines, nextTags_of_none hnone, decide_eq_true ha, Bool.not_true, hrest]
  rfl

/-- The separators in front of a line are dropped when they come alone. -/
theorem feedLines_separators (D : Dispatcher) (a : Text) :
    feedLines D [] (chunkOf (a.takeWhile isSeparator)) = ([], []) := by
  have hsep : ∀ c ∈ a.takeWhile isSeparator, isSeparator c = true := fun c hc =>
    mem_takeWhile_imp hc
  have htail : ∀ c ∈ a.takeWhile isSeparator, isNewline c = false := by
    intro c hc
    cases hnl : isNewline c with
    | false => rfl
    | true => exact (hsep c hc).symm.trans (not_isSeparator_of_isNewline hnl)
  rw [feedLines_chunkOf D htail, tidy, dropWhile_eq_nil_iff.2 hsep]
  rfl

/-- The separators of a line, and then the rest of it with the lines behind it, in one go. -/
theorem feedLines_group (htags : D.tagsSupported = true) (ha : rawLines a = ([a], []))
    (hlines : ∀ m ∈ mid ++ [l], rawLines m = ([m], [])) (htag : HasTag a)
    (hnone : lineResult D true a = none)
    (hmid : ∀ m ∈ mid, lineResult D true m = none ∧ lineResult D false m = none) :
    feedLines D [] (chunkOf (a.takeWhile isSeparator) ++
        [a.dropWhile isSeparator ++ (mid ++ [l]).flatten]) =
      ((a :: mid).map (lineResult D true) ++ [lineResult D false l], []) := by
  have hgroup : rawLines (a.dropWhile isSeparator ++ (mid ++ [l]).flatten) =
      (a.dropWhile isSeparator :: (mid ++ [l]), []) := by
    rw [← flatten_cons]
    refine rawLines_flatten fun m hm => ?_
    rcases mem_cons.1 hm with rfl | hmem
    · exact rawLines_dropWhile ha
    · exact hlines m hmem
  have hsame (b : Bool) : lineResult D b (a.dropWhile isSeparator) = lineResult D b a := by
    rw [lineResult, parseLine_dropWhile ha]; rfl
  have hpass := runLines_confused (l := l) (htag.dropWhile ha) ((hsame true).trans hnone) hmid
  rw [feedLines_append, feedLines_separators]
  simp only [feedLines, nil_append, hgroup, htags, hpass, map_cons, hsame]
  simp [tidy]

theorem fits_group (D : Dispatcher) (ha : rawLines a = ([a], [])) (halen : a.length ≤ bufsize - 1)
    (hlen : (a.dropWhile isSeparator).length + mid.flatten.length + l.length ≤ bufsize - 1) :
    Fits bufsize [] (chunkOf (a.takeWhile isSeparator) ++
      [a.dropWhile isSeparator ++ (mid ++ [l]).flatten]) := by
  refine fits_append D (fits_chunkOf ?_) ?_
  · exact ((List.takeWhile_prefix isSeparator).sublist.length_le).trans halen
  · rw [feedLines_separators]
    refine ⟨append_ne_nil_of_left_ne_nil (dropWhile_ne_nil_of_rawLines_self ha) _, ?_, trivial⟩
    simp only [length_append, flatten_append, flatten_cons, flatten_nil, length_nil]
    omega

theorem filterMap_id_ne {α : Type} {x y : Option α} (h : x ≠ y) (P Q : List (Option α)) :
    (P ++ x :: Q).filterMap id ≠ (P ++ y :: Q).filterMap id := by
  intro heq
  rw [filterMap_append, filterMap_append, append_cancel_left_eq] at heq
  cases x <;> cases y <;> simp_all

/-- A confused stream can be cut in two ways that give different metrics: into its lines, and with
the lines that are confused in one chunk. -/
theorem exists_chunks_of_confused {stream : Text}
    (hlen : ∀ l ∈ (rawLines stream).1, l.length ≤ bufsize - 1)
    (htail : (rawLines stream).2.length ≤ bufsize - 1)
    (hconf : Confused D bufsize (rawLines stream).1) :
    ∃ chunks chunks', chunks.flatten = stream ∧ chunks'.flatten = stream ∧
      Fits bufsize [] chunks ∧ Fits bufsize [] chunks' ∧
      (feedLines D [] chunks).1.filterMap id ≠ (feedLines D [] chunks').1.filterMap id := by
  obtain ⟨htags, pre, a, mid, l, post, hls, ⟨ha, hnone⟩, hmid, hl, hfit⟩ := hconf
  have hflat := flatten_rawLines stream
  have hlines := rawLines_of_mem stream
  have hnl := not_newline_of_mem_tail stream
  generalize (rawLines stream).1 = ls, (rawLines stream).2 = t at *
  subst hls
  have hpre : ∀ m ∈ pre, rawLines m = ([m], []) := fun m hm => hlines m (by simp [hm])
  have hpost : ∀ m ∈ post, rawLines m = ([m], []) := fun m hm => hlines m (by simp [hm])
  have hline : rawLines a = ([a], []) := hlines a (by simp)
  have hmidl : ∀ m ∈ mid ++ [l], rawLines m = ([m], []) := fun m hm => by
    have hmem : m ∈ mid ∨ m = l := by simpa using hm
    exact hlines m (by rcases hmem with hmem | rfl <;> simp [*])
  have hgroup := feedLines_group htags hline hmidl ha hnone hmid
  refine ⟨(pre ++ a :: (mid ++ l :: post)) ++ chunkOf t,
    pre ++ ((chunkOf (a.takeWhile isSeparator) ++
      [a.dropWhile isSeparator ++ (mid ++ [l]).flatten]) ++ (post ++ chunkOf t)), ?_, ?_,
        ?_, ?_, ?_⟩
  · rw [flatten_append, flatten_chunkOf, hflat]
  · have hsplit (y : Text) : a.takeWhile isSeparator ++ (a.dropWhile isSeparator ++ y) =
        a ++ y := by
      rw [← append_assoc, takeWhile_append_dropWhile]
    rw [← hflat]
    simp [flatten_chunkOf, hsplit]
  · refine fits_append D (fits_lines hlines hlen) ?_
    rw [feedLines_lines D hlines]
    exact fits_chunkOf htail
  · refine fits_append D (fits_lines hpre fun m hm => hlen m (by simp [hm])) ?_
    rw [feedLines_lines D hpre]
    refine fits_append D (fits_group D hline (hlen a (by simp)) hfit) ?_
    rw [hgroup]
    refine fits_append D (fits_lines hpost fun m hm => hlen m (by simp [hm])) ?_
    rw [feedLines_lines D hpost]
    exact fits_chunkOf htail
  · have hne := filterMap_id_ne (lineResult_ne_iff.2 hl)
      (pre.map (lineResult D true) ++ (a :: mid).map (lineResult D true))
        (post.map (lineResult D true))
    rw [feedLines_append D [] (pre ++ a :: (mid ++ l :: post)), feedLines_lines D hlines,
      feedLines_chunkOf D hnl, feedLines_append D [] pre, feedLines_lines D hpre,
      feedLines_append D [] (_ ++ _), hgroup, feedLines_append D [] post, feedLines_lines D hpost,
      feedLines_chunkOf D hnl, htags]
    simpa only [map_append, map_cons, append_assoc, cons_append, nil_append, append_nil] using hne

end

/-- However the stream is cut into chunks, what is seen in the end is the same, exactly if the
stream is not confused. -/
theorem chunking_independent_iff (allowedChars : Text) (maxinplen maxmetriclen : Int)
    (route : Text → Nat → List δ × Nat) (s : DispatchState δ) (hs : s.conn.buf = []) (stream : Text)
    (hlen : ∀ l ∈ (rawLines stream).1, l.length ≤ s.conn.bufsize - 1)
    (htail : (rawLines stream).2.length ≤ s.conn.bufsize - 1) :
    (∀ (E E' : DispatchEnv) (chunks chunks' : List Text) (s₁ s₂ : DispatchState δ)
        (os os' : List (List (DispatchEvent δ))),
      E.Accepting → E'.Accepting → chunks.flatten = stream → chunks'.flatten = stream →
      Machine.run (feedStep (dispatchInit allowedChars maxinplen maxmetriclen) E route) s chunks =
        some (s₁, os) →
      Machine.run (feedStep (dispatchInit allowedChars maxinplen maxmetriclen) E' route) s chunks' =
        some (s₂, os') →
      observe s₁ os.flatten = observe s₂ os'.flatten) ↔
    ¬ Confused (dispatchInit allowedChars maxinplen maxmetriclen) s.conn.bufsize
      (rawLines stream).1 := by
  generalize dispatchInit allowedChars maxinplen maxmetriclen = D
  constructor
  · intro hall hconf
    obtain ⟨chunks, chunks', hflat, hflat', hfits, hfits', hne⟩ :=
      exists_chunks_of_confused hlen htail hconf
    let E : DispatchEnv := ⟨fun _ _ => true, fun _ => ⟨0, 0⟩, fun _ => 0⟩
    have hE : E.Accepting := fun _ _ => rfl
    rw [← hs] at hfits hfits' hne
    obtain ⟨s₁, os, hrun⟩ := exists_run_of_fits (D := D) (E := E) route hE hfits
    obtain ⟨s₂, os', hrun'⟩ := exists_run_of_fits (D := D) (E := E) route hE hfits'
    have heq := hall E E chunks chunks' s₁ s₂ os os' hE hE hflat hflat' hrun hrun'
    rw [(passed_of_run hE hrun).2.observe_eq, (passed_of_run hE hrun').2.observe_eq,
      Observed.mk.injEq] at heq
    exact hne heq.1
  · intro hconf E E' chunks chunks' s₁ s₂ os os' hE hE' hflat hflat' hrun hrun'
    have hnil : ∀ c ∈ ([] : Text), isNewline c = false := nofun
    have hlines {E : DispatchEnv} {chunks : List Text} {s₁ : DispatchState δ}
        {os : List (List (DispatchEvent δ))} (hE : E.Accepting) (hflat : chunks.flatten = stream)
        (hrun : Machine.run (feedStep D E route) s chunks = some (s₁, os)) :
        Passed ((rawLines stream).1.map (lineResult D D.tagsSupported))
          (tidy (rawLines stream).2) s s₁ os.flatten := by
      obtain ⟨hfits, hpassed⟩ := passed_of_run hE hrun
      rw [hs] at hfits hpassed
      subst hflat
      rwa [show ([] : Text) = tidy [] from rfl,
        feedLines_of_not_confused hnil hfits hconf] at hpassed
    rw [(hlines hE hflat hrun).observe_eq, (hlines hE' hflat' hrun').observe_eq]

/-- Lines with tags, and between them one without data, which is discarded, are the same however
they are cut. -/
theorem chunking_independent_lines :
    let s : DispatchState Unit :=
  ⟨⟨.plain, [], 32768, [], ⟨0, 0⟩, 0, false, false, false⟩, 0, 0, 0, 0⟩
    let stream : Text := "a;t=1 1 1\nx\nb;u=2 3 4\n".toList
    let D := dispatchInit ['-', '_'] 32768 32768
    ∀ (E E' : DispatchEnv) (chunks chunks' : List Text) (s₁ s₂ : DispatchState Unit)
        (os os' : List (List (DispatchEvent Unit))),
      E.Accepting → E'.Accepting → chunks.flatten = stream → chunks'.flatten = stream →
      Machine.run (feedStep D E fun _ _ => ([()], 0)) s chunks = some (s₁, os) →
      Machine.run (feedStep D E' fun _ _ => ([()], 0)) s chunks' = some (s₂, os') →
      observe s₁ os.flatten = observe s₂ os'.flatten := by
  intro s stream D
  have hlines : rawLines stream =
      (["a;t=1 1 1\n".toList, "x\n".toList, "b;u=2 3 4\n".toList], []) := by
    decide
  refine (chunking_independent_iff _ _ _ _ s rfl stream ?_ ?_).2 ?_
  · rw [hlines]
    decide
  · rw [hlines]; exact Nat.zero_le _
  · rintro ⟨-, pre, a, mid, l, post, heq, ⟨htag, hnone⟩, -⟩
    have ha : a ∈ (rawLines stream).1 := by
      rw [heq]
      simp
    rw [hlines] at ha
    simp only [mem_cons, not_mem_nil, or_false] at ha
    rcases ha with rfl | rfl | rfl
    · exact absurd hnone (by decide)
    · exact absurd htag (by decide)
    · exact absurd hnone (by decide)

/-- The second line is discarded behind the first one, but accepted when it comes alone: `b;t=1` has
its `firstspace` at 1 there and at 5 here. -/
theorem discarded_tags_depend_on_chunks :
    let s : DispatchState Unit :=
  ⟨⟨.plain, [], 32768, [], ⟨0, 0⟩, 0, false, false, false⟩, 0, 0, 0, 0⟩
    let E : DispatchEnv := ⟨fun _ _ => true, fun _ => ⟨0, 0⟩, fun _ => 0⟩
    let feed := Machine.run (feedStep (dispatchInit ['-', '_'] 32768 1) E fun _ _ => ([()], 0)) s
    (feed ["aa;t=1 1 1\nb;t=1 1 1\n".toList]).map (fun (s', os) => observe s' os.flatten) =
        some ⟨[], 0, 2, []⟩ ∧
      (feed ["aa;t=1 1 1\n".toList, "b;t=1 1 1\n".toList]).map
          (fun (s', os) => observe s' os.flatten) =
        some ⟨[("b;t=1 1 1\n".toList, 1)], 1, 1, []⟩ := by
  decide

end CarbonRelay
