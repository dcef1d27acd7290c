import CarbonRelay.Router.Whole
import Mathlib.Data.List.Chain

/-!
# The tokens of a replacement

A replacement is meant as a sequence of characters and references, each reference with flags of its
own. The loop of `router_rewrite_metric` does not start afresh for a reference directly behind
another one: it does not look for flags there, and goes on with the case of the reference in front
(`closing_tokenEmits`). So a replacement does what it is meant to if and only if references with
flags stand alone.
-/

namespace CarbonRelay

open List

/-! ## Tokens -/

/-- A character, or a reference with the case that its flags ask for and its digits. -/
inductive Token
  | lit (c : Char)
  | ref (rcase : RewriteCase) (digits : Text)
  deriving DecidableEq, Repr

/-- The flags for a case. -/
def RewriteCase.flags : RewriteCase → Text
  | .retain => []
  | .lower => ['_']
  | .upper => ['^']
  | .retainDot => ['.']
  | .lowerDot => ['_', '.']
  | .upperDot => ['^', '.']

/-- A token as it is written. -/
def Token.render : Token → Text
  | .lit c => [c]
  | .ref rcase digits => '\\' :: (rcase.flags ++ digits)

def render (ts : List Token) : Text := (ts.map Token.render).flatten

/-- The number that digits stand for. -/
def number (digits : Text) : Nat := digits.foldl (fun n c => n * 10 + (c.toNat - 48)) 0

/-- The digits of the number of a group. -/
structure GroupDigits (digits : Text) : Prop where
  some : digits ≠ []
  digit : ∀ c ∈ digits, c.isDigit = true
  pos : 0 < number digits
  lt : number digits < reMaxMatches

/-- A token in front of others: no character is a backslash, and none behind a reference is a digit.
-/
def WellFormed : List Token → Prop
  | [] => True
  | .lit c :: ts => c ≠ '\\' ∧ WellFormed ts
  | .ref _ digits :: ts =>
    GroupDigits digits ∧ (∀ c ts', ts = .lit c :: ts' → c.isDigit = false) ∧ WellFormed ts

/-- A replacement that is well formed. -/
structure Replacement where
  tokens : List Token
  wellFormed : WellFormed tokens

/-- Neighbours that the loop keeps apart: of two references, neither has flags. -/
def Token.Apart : Token → Token → Prop
  | .ref rcase _, .ref rcase' _ => rcase = .retain ∧ rcase' = .retain
  | _, _ => True

/-- References with flags stand alone. -/
def Replacement.Unchained (r : Replacement) : Prop := r.tokens.IsChain Token.Apart

/-! ## What the loop makes of tokens -/

/-- What is written for tokens, behind a reference with a case or not. Behind a reference, flags are
taken for characters, and without flags the case of that reference is kept. -/
def tokenEmits : Option RewriteCase → List Token → List Emit
  | _, [] => []
  | _, .lit c :: ts => .lit c :: tokenEmits none ts
  | none, .ref rcase digits :: ts => .ref (number digits) rcase :: tokenEmits (some rcase) ts
  | some r, .ref .retain digits :: ts => .ref (number digits) r :: tokenEmits (some r) ts
  | some r, .ref rcase digits :: ts =>
    .ref 0 r :: ((rcase.flags ++ digits).map .lit ++ tokenEmits none ts)

/-- What is written for the rest of a replacement. -/
def closing (k : Escape) (s : Text) : List Emit := emits k s ++ (k.run s).pending

theorem closing_cons (k : Escape) (c : Char) (s : Text) :
    closing k (c :: s) = (k.step c).2 ++ closing (k.step c).1 s := append_assoc ..

variable {c : Char}

theorem not_special_of_isDigit (h : c.isDigit = true) : c ≠ '\\' ∧ c ≠ '_' ∧ c ≠ '^' ∧ c ≠ '.' := by
  refine ⟨?_, ?_, ?_, ?_⟩ <;> rintro rfl <;> exact absurd h (by decide)

theorem step_digit {k : Escape} (hk : k.escape ≠ 0) (h : c.isDigit = true) :
    k.step c = (⟨2, k.ref * 10 + (c.toNat - 48), k.rcase⟩, []) := by
  obtain ⟨h1, h2, h3, h4⟩ := not_special_of_isDigit h
  simp [Escape.step, h1, h2, h3, h4, hk, h]

variable {digits : Text} {rcase : RewriteCase} {ts : List Token}

/-- The digits of a reference. -/
theorem closing_digits (hdigits : digits ≠ []) (h : ∀ c ∈ digits, c.isDigit = true)
    {k : Escape} (hk : k.escape ≠ 0) (s : Text) :
    closing k (digits ++ s) =
      closing ⟨2, digits.foldl (fun n c => n * 10 + (c.toNat - 48)) k.ref, k.rcase⟩ s := by
  induction digits generalizing k with
  | nil => exact absurd rfl hdigits
  | cons c digits ih =>
    rw [forall_mem_cons] at h
    rw [cons_append, closing_cons, step_digit hk h.1, nil_append, foldl_cons]
    cases digits with
    | nil => rfl
    | cons d digits => exact ih (cons_ne_nil _ _) h.2 (Nat.succ_ne_zero 1)

/-- The flags of a reference that stands alone. -/
theorem closing_flags (rcase : RewriteCase) (s : Text) :
    closing ⟨1, 0, .retain⟩ (rcase.flags ++ s) = closing ⟨1, 0, rcase⟩ s := by
  cases rcase <;> rfl

/-- A reference that stands alone. -/
theorem closing_ref (h : GroupDigits digits) (s : Text) :
    closing .start ((Token.ref rcase digits).render ++ s) =
      closing ⟨2, number digits, rcase⟩ s := by
  have hstep : Escape.start.step '\\' = (⟨1, 0, .retain⟩, []) := rfl
  rw [Token.render, cons_append, closing_cons, hstep, nil_append, append_assoc,
    closing_flags, closing_digits h.some h.digit (Nat.succ_ne_zero 0)]
  rfl

/-- A backslash behind a reference writes that reference, and does not start another one. -/
theorem closing_chained (n : Nat) (r : RewriteCase) (s : Text) :
    closing ⟨2, n, r⟩ ('\\' :: s) = .ref n r :: closing ⟨2, 0, r⟩ s := by
  rw [closing_cons]
  rfl

/-- A character behind a reference that is no digit. -/
theorem closing_behind (hc : c ≠ '\\') (hdigit : c.isDigit = false) (n : Nat) (r : RewriteCase)
    (s : Text) : closing ⟨2, n, r⟩ (c :: s) = .ref n r :: .lit c :: closing .start s := by
  have hstep : Escape.step ⟨2, n, r⟩ c = (.start, [.ref n r, .lit c]) := by
    simp [Escape.step, hc, hdigit, Escape.pending, Escape.start]
  rw [closing_cons, hstep]
  rfl

theorem flags_plain (rcase : RewriteCase) : '\\' ∉ rcase.flags ∧ ∀ c ∈ rcase.flags,
    c.isDigit = false := by
  cases rcase <;> simp [RewriteCase.flags]

theorem flags_eq_nil_iff : rcase.flags = [] ↔ rcase = .retain := by
  cases rcase <;> decide

/-- Flags behind a reference. -/
theorem closing_flagged (hflags : rcase ≠ .retain)
    (hdigits : ∀ c ∈ digits, c.isDigit = true) (r : RewriteCase) (s : Text) :
    closing ⟨2, 0, r⟩ (rcase.flags ++ digits ++ s) =
      .ref 0 r :: ((rcase.flags ++ digits).map .lit ++ closing .start s) := by
  have hplain : '\\' ∉ rcase.flags ++ digits := by
    rw [mem_append, not_or]
    refine ⟨(flags_plain rcase).1, ?_⟩
    intro hmem
    exact (not_special_of_isDigit (hdigits _ hmem)).1 rfl
  have hfirst := (flags_plain rcase).2
  have hflags := flags_eq_nil_iff.not.2 hflags
  generalize rcase.flags = flags at hflags hplain hfirst
  cases flags with
  | nil => exact absurd rfl hflags
  | cons f flags =>
    rw [cons_append, mem_cons, not_or] at hplain
    rw [cons_append, cons_append, closing_behind (Ne.symm hplain.1) (hfirst f mem_cons_self)]
    exact congrArg (Emit.ref 0 r :: .lit f :: ·) (expansion_plain hplain.2 s)

theorem tokenEmits_flagged (h : rcase ≠ .retain) (r : RewriteCase) (digits : Text)
    (ts : List Token) : tokenEmits (some r) (.ref rcase digits :: ts) =
      .ref 0 r :: ((rcase.flags ++ digits).map .lit ++ tokenEmits none ts) := by
  cases rcase <;> first | exact absurd rfl h | rfl

/-- What the loop writes for a replacement. -/
theorem closing_tokenEmits (h : WellFormed ts) :
    closing .start (render ts) = tokenEmits none ts ∧
    ∀ n r, (∀ c ts', ts = .lit c :: ts' → c.isDigit = false) →
      closing ⟨2, n, r⟩ (render ts) = .ref n r :: tokenEmits (some r) ts := by
  induction ts with
  | nil => exact ⟨rfl, fun n r _ => rfl⟩
  | cons t ts ih =>
    cases t with
    | lit c =>
      obtain ⟨hc, hts⟩ := h
      obtain ⟨ih, -⟩ := ih hts
      refine ⟨?_, ?_⟩
      · have hplain := @expansion_plain [c] (by simpa using hc.symm) (render ts)
        exact hplain.trans (congrArg (Emit.lit c :: ·) ih)
      · intro n r hdigit
        have hbehind := closing_behind hc (hdigit c ts rfl) n r (render ts)
        rw [ih] at hbehind
        exact hbehind
    | ref rcase digits =>
      obtain ⟨hdigits, hnext, hts⟩ := h
      obtain ⟨ih, ih'⟩ := ih hts
      refine ⟨?_, ?_⟩
      · have hrest := ih' (number digits) rcase hnext
        rw [← closing_ref hdigits] at hrest
        exact hrest
      · intro n r _
        have hchained : closing ⟨2, n, r⟩ (render (.ref rcase digits :: ts)) =
            .ref n r :: closing ⟨2, 0, r⟩ (rcase.flags ++ digits ++ render ts) :=
          closing_chained n r _
        rw [hchained]
        congr 1
        by_cases hflags : rcase = .retain
        · subst hflags
          have hrest := @closing_digits digits hdigits.some hdigits.digit ⟨2, 0, r⟩
            (Nat.succ_ne_zero 1) (render ts)
          exact hrest.trans (ih' (number digits) r hnext)
        · rw [closing_flagged hflags hdigits.digit, ih, tokenEmits_flagged hflags]

/-! ## What a replacement is meant to do -/

/-- The text of a group, which is empty if the group took no part. -/
def groupText (metric : Text) (span : Span) : Text := (metric.take span.2.toNat).drop span.1.toNat

/-- The spans of a match in the path of a line, and of its groups. -/
structure Grouped (metric : Text) (firstspace nmatch : Nat) (pmatch : Nat → Span) : Prop
    extends MatchIn metric firstspace pmatch where
  space : firstspace < metric.length
  groups : ∀ i, 0 < i → i < nmatch → pmatch i = (-1, -1) ∨
    0 ≤ (pmatch i).1 ∧ (pmatch i).1 ≤ (pmatch i).2 ∧ (pmatch i).2 ≤ firstspace

section
variable (metric : Text) (firstspace : Nat) (pmatch : Nat → Span)

/-- What a token stands for. -/
def Token.expand : Token → Text
  | .lit c => [c]
  | .ref rcase digits => (groupText metric (pmatch (number digits))).map rcase.apply

/-- The path that tokens stand for: each of them by itself, with the parts of the path around the
match. -/
def intendedPath (ts : List Token) : Text :=
  metric.take (pmatch 0).1.toNat ++ (ts.map (Token.expand metric pmatch)).flatten ++
    (metric.take firstspace).drop (pmatch 0).2.toNat

end

/-- For every match whose expansion fits, the new line is what the tokens stand for. -/
def Replacement.Rewrites (r : Replacement) : Prop :=
  ∀ outside metric firstspace nmatch pmatch, Grouped metric firstspace nmatch pmatch →
    (∀ rcase digits, .ref rcase digits ∈ r.tokens → number digits < nmatch) →
    (intendedPath metric firstspace pmatch r.tokens ++ metric.drop firstspace).length <
      metricBufsiz →
    routerRewriteMetric outside metric firstspace (render r.tokens) nmatch pmatch =
      some (intendedPath metric firstspace pmatch r.tokens ++ metric.drop firstspace,
        (intendedPath metric firstspace pmatch r.tokens).length)

section
variable {outside : Int → Char} {metric : Text} {firstspace nmatch : Nat} {pmatch : Nat → Span}

/-- A reference writes the text of its group. -/
theorem Grouped.text_ref (h : Grouped metric firstspace nmatch pmatch) {n : Nat} (hpos : 0 < n)
    (hn : n < nmatch) (rcase : RewriteCase) :
    Emit.text outside metric nmatch pmatch (.ref n rcase) =
      (groupText metric (pmatch n)).map rcase.apply := by
  have hpath := h.path
  rcases h.groups n hpos hn with hnone | ⟨hso, -, heo⟩
  · simp [Emit.text, groupText, hnone]
  · rw [Emit.text, if_pos ⟨hpos, hn.le, hso⟩, slice_of_inside hso (by omega)]
    rfl

/-- The rewriter, where the replacement writes what the tokens stand for. -/
theorem Grouped.expandedPath_eq (h : Grouped metric firstspace nmatch pmatch) (replacement : Text) :
    expandedPath outside metric firstspace replacement nmatch pmatch =
      metric.take (pmatch 0).1.toNat ++ (pieces outside metric replacement nmatch pmatch).flatten ++
        (metric.take firstspace).drop (pmatch 0).2.toNat := by
  have hstart := h.start
  have horder := h.order
  have hinside := h.inside
  have hpath := h.path
  rw [expandedPath, expandedHead, slice_of_inside (le_refl 0) (by omega),
    slice_of_inside (by omega) (by omega)]
  rfl

end

/-! ## References that stand alone -/

/-- What a token is meant to write. -/
def Token.emit : Token → Emit
  | .lit c => .lit c
  | .ref rcase digits => .ref (number digits) rcase

theorem tokenEmits_of_unchained (h : ts.IsChain Token.Apart) :
    tokenEmits none ts = ts.map Token.emit ∧
    ∀ r digits, (.ref r digits :: ts).IsChain Token.Apart → tokenEmits (some r) ts =
      ts.map Token.emit := by
  induction ts with
  | nil => exact ⟨rfl, fun r digits _ => rfl⟩
  | cons t ts ih =>
    obtain ⟨ih, ih'⟩ := ih h.tail
    cases t with
    | lit c => exact ⟨congrArg (_ :: ·) ih, fun r digits _ => congrArg (_ :: ·) ih⟩
    | ref rcase digits =>
      refine ⟨congrArg (_ :: ·) (ih' rcase digits h), ?_⟩
      intro r digits' hchain
      obtain ⟨rfl, rfl⟩ := (isChain_cons_cons.1 hchain).1
      exact congrArg (_ :: ·) (ih' .retain digits h)

/-- Every reference is to a group. -/
theorem WellFormed.pos (h : WellFormed ts) (hmem : .ref rcase digits ∈ ts) :
    GroupDigits digits := by
  induction ts with
  | nil => cases hmem
  | cons t ts ih =>
    cases t with
    | lit c =>
      rcases mem_cons.1 hmem with heq | hmem
      · cases heq
      · exact ih h.2 hmem
    | ref rcase' digits' =>
      rcases mem_cons.1 hmem with heq | hmem
      · cases heq
        exact h.1
      · exact ih h.2.2 hmem

theorem Replacement.rewrites_of_unchained {r : Replacement} (h : r.Unchained) : r.Rewrites := by
  intro outside metric firstspace nmatch pmatch hmatch hrefs hfits
  have hpieces : pieces outside metric (render r.tokens) nmatch pmatch =
      r.tokens.map (Token.expand metric pmatch) := by
    have hwritten : expansion (render r.tokens) = r.tokens.map Token.emit :=
      (closing_tokenEmits r.wellFormed).1.trans (tokenEmits_of_unchained h).1
    rw [pieces, hwritten, map_map]
    refine map_congr_left fun t ht => ?_
    cases t with
    | lit c => rfl
    | ref rcase digits =>
      exact hmatch.text_ref (r.wellFormed.pos ht).pos (hrefs rcase digits ht) rcase
  have hpath : expandedPath outside metric firstspace (render r.tokens) nmatch pmatch =
      intendedPath metric firstspace pmatch r.tokens := by
    rw [hmatch.expandedPath_eq, hpieces]
    rfl
  have hspace := hmatch.space
  have hroom : (expandedHead outside metric (render r.tokens) nmatch pmatch).length + 1 <
      metricBufsiz := by
    rw [← hpath, expandedPath, length_append, length_append, length_drop] at hfits
    omega
  have hhead : (slice outside metric 0 (pmatch 0).1).length < metricBufsiz := by
    rw [expandedHead, length_append] at hroom
    omega
  rw [routerRewriteMetric_eq hmatch.inside, (rewrittenPath_eq_iff hhead).2 hroom, hpath]
  exact if_pos ⟨(fitsIn_nil_iff hmatch.toMatchIn).2 hhead, hfits⟩

/-! ## References that do not

A line of one character, which is in one group, shows what happens to each reference.
-/

/-- The spans in which one group is the only character of a path. -/
def probeSpans (n : Nat) : Nat → Span := fun i => if i = 0 ∨ i = n then (0, 1) else (-1, -1)

/-- What is written where a group is a character and the others are empty. -/
def probe (n : Nat) (c : Char) : Emit → Text
  | .ref m rcase => if 0 < m ∧ m = n then [rcase.apply c] else []
  | .lit d => [d]

/-- The text of what is written. -/
def probed (n : Nat) (c : Char) (es : List Emit) : Text := (es.map (probe n c)).flatten

section
variable {n : Nat} {c : Char} {es es' : List Emit} {ts : List Token}

@[simp] theorem probed_cons (e : Emit) : probed n c (e :: es) = probe n c e ++ probed n c es := rfl

@[simp] theorem probed_append : probed n c (es ++ es') = probed n c es ++ probed n c es' := by
  simp [probed]

@[simp] theorem probed_lits (s : Text) : probed n c (s.map .lit) = s := by
  induction s with
  | nil => rfl
  | cons d s ih => exact congrArg (d :: ·) ih

theorem probe_length_le (e : Emit) : (probe n c e).length ≤ 1 := by
  cases e with
  | lit d => exact Nat.le_refl 1
  | ref m rcase =>
    rw [probe]
    split <;> simp

theorem render_cons (t : Token) : render (t :: ts) = t.render ++ render ts := rfl

theorem one_le_length_render (t : Token) : 1 ≤ t.render.length := by
  cases t with
  | lit d => exact Nat.le_refl 1
  | ref rcase digits => exact Nat.succ_pos _

/-- Nothing is longer than the tokens themselves. -/
theorem probed_tokenEmits_length (s : Option RewriteCase) :
    (probed n c (tokenEmits s ts)).length ≤ (render ts).length := by
  induction ts generalizing s with
  | nil => exact Nat.zero_le _
  | cons t ts ih =>
    rw [render_cons, length_append]
    have hone := one_le_length_render t
    cases t with
    | lit d =>
      have hle := ih none
      simp only [tokenEmits, probed_cons, length_append, probe, length_singleton]
      omega
    | ref rcase digits =>
      cases s with
      | none =>
        have hle := ih (some rcase)
        have hprobe := @probe_length_le n c (.ref (number digits) rcase)
        simp only [tokenEmits, probed_cons, length_append]
        omega
      | some r =>
        by_cases hflags : rcase = .retain
        · subst hflags
          have hle := ih (some r)
          have hprobe := @probe_length_le n c (.ref (number digits) r)
          simp only [tokenEmits, probed_cons, length_append]
          omega
        · have hle := ih none
          rw [tokenEmits_flagged hflags]
          simp only [probed_cons, probed_append, probed_lits, length_append, probe, Token.render,
            length_cons]
          simp
          omega

theorem probed_emit_length : (probed n c (ts.map Token.emit)).length ≤ (render ts).length := by
  induction ts with
  | nil => exact Nat.zero_le _
  | cons t ts ih =>
    have hone := one_le_length_render t
    have hprobe := @probe_length_le n c t.emit
    rw [render_cons, map_cons, probed_cons, length_append, length_append]
    omega

@[simp] theorem probe_zero (m : Nat) (rcase : RewriteCase) : probe 0 c (.ref m rcase) = [] := by
  rw [probe, if_neg (by omega)]

/-- Where all groups are empty, no character of the tokens is left out. -/
theorem length_le_probed_tokenEmits (s : Option RewriteCase) :
    (probed 0 c (ts.map Token.emit)).length ≤ (probed 0 c (tokenEmits s ts)).length := by
  induction ts generalizing s with
  | nil => exact Nat.le_refl _
  | cons t ts ih =>
    cases t with
    | lit d => simpa [tokenEmits, Token.emit, probe] using ih none
    | ref rcase digits =>
      cases s with
      | none => simpa [tokenEmits, Token.emit] using ih (some rcase)
      | some r =>
        by_cases hflags : rcase = .retain
        · subst hflags
          simpa [tokenEmits, Token.emit] using ih (some r)
        · have hle := ih none
          rw [tokenEmits_flagged hflags]
          simp [Token.emit]
          omega

/-- A character that a case changes. -/
def RewriteCase.changed : RewriteCase → Char
  | .lower => 'A'
  | .upper => 'a'
  | _ => '.'

theorem apply_changed {r : RewriteCase} (h : r.apply r.changed = r.changed) : r = .retain := by
  cases r <;> first | rfl | exact absurd h (by decide)

/-- If no reference can be seen to be written otherwise than meant, those with flags stand alone. -/
theorem unchained_of_probed (h : WellFormed ts) {s : Option RewriteCase}
    (hprobed : ∀ n c, n < reMaxMatches → probed n c (tokenEmits s ts) =
      probed n c (ts.map Token.emit)) :
    ts.IsChain Token.Apart ∧ ∀ r digits, s = some r →
      (.ref r digits :: ts).IsChain Token.Apart := by
  induction ts generalizing s with
  | nil => exact ⟨.nil, fun r digits _ => .singleton _⟩
  | cons t ts ih =>
    cases t with
    | lit d =>
      obtain ⟨hts, -⟩ := @ih h.2 none fun n c hn => append_cancel_left (hprobed n c hn)
      have hchain : (Token.lit d :: ts).IsChain Token.Apart :=
        isChain_cons.2 ⟨fun _ _ => trivial, hts⟩
      exact ⟨hchain, fun r digits _ => .cons_cons trivial hchain⟩
    | ref rcase digits =>
      obtain ⟨hdigits, -, hwf⟩ := h
      cases s with
      | none =>
        obtain ⟨-, hchain⟩ := @ih hwf (some rcase) fun n c hn => append_cancel_left (hprobed n c hn)
        exact ⟨hchain rcase digits rfl, nofun⟩
      | some r =>
        have hflags : rcase = .retain := by
          by_contra hflags
          have heq := congrArg List.length (hprobed 0 'a' (by decide))
          have hle := @length_le_probed_tokenEmits 'a' ts none
          have hsome := length_pos_iff.2 hdigits.some
          rw [tokenEmits_flagged hflags] at heq
          simp [Token.emit] at heq
          omega
        subst hflags
        have hsplit : ∀ n c, n < reMaxMatches →
            probe n c (.ref (number digits) r) = probe n c (.ref (number digits) .retain) ∧
            probed n c (tokenEmits (some r) ts) = probed n c (ts.map Token.emit) := by
          intro n c hn
          refine append_inj (hprobed n c hn) ?_
          simp only [probe]
          split <;> rfl
        have hr : r = .retain := by
          have hchar := (hsplit (number digits) r.changed hdigits.lt).1
          rw [probe, probe, if_pos ⟨hdigits.pos, rfl⟩, if_pos ⟨hdigits.pos, rfl⟩] at hchar
          exact apply_changed (head_eq_of_cons_eq hchar)
        subst hr
        obtain ⟨-, hchain⟩ := @ih hwf (some .retain) fun n c hn => (hsplit n c hn).2
        refine ⟨hchain .retain digits rfl, ?_⟩
        rintro r digits' ⟨⟩
        exact .cons_cons ⟨rfl, rfl⟩ (hchain .retain digits rfl)

/-- The line of one character. -/
theorem probe_grouped : Grouped [c, ' '] 1 reMaxMatches (probeSpans n) where
  start := by simp [probeSpans]
  order := by simp [probeSpans]
  inside := by simp [probeSpans]
  path := by simp
  space := by simp
  groups := by
    intro i _ _
    rw [probeSpans]
    split <;> simp

theorem probe_text (hn : n < reMaxMatches) (e : Emit) :
    Emit.text (fun _ => ' ') [c, ' '] reMaxMatches (probeSpans n) e = probe n c e := by
  cases e with
  | lit d => rfl
  | ref m rcase =>
    have hslice : slice (fun _ => ' ') [c, ' '] 0 1 = [c] := rfl
    rw [Emit.text, probe]
    by_cases hm : 0 < m ∧ m = n
    · obtain ⟨hpos, rfl⟩ := hm
      have hspan : probeSpans m m = (0, 1) := if_pos (.inr rfl)
      rw [hspan, if_pos ⟨hpos, hn.le, le_refl 0⟩, if_pos ⟨hpos, rfl⟩, hslice]
      rfl
    · rw [if_neg hm]
      refine if_neg ?_
      rintro ⟨hpos, -, hspan⟩
      rw [probeSpans, if_neg (by omega)] at hspan
      exact absurd hspan (by decide)

theorem probe_intended (h : WellFormed ts) :
    intendedPath [c, ' '] 1 (probeSpans n) ts = probed n c (ts.map Token.emit) := by
  have hexpand : ∀ t ∈ ts, t.expand [c, ' '] (probeSpans n) = probe n c t.emit := by
    intro t ht
    cases t with
    | lit d => rfl
    | ref rcase digits =>
      have hpos := (h.pos ht).pos
      rw [Token.expand, Token.emit, probe, probeSpans]
      by_cases hm : number digits = n
      · rw [if_pos (.inr hm), if_pos ⟨hpos, hm⟩]
        rfl
      · rw [if_neg (by omega), if_neg (fun h => hm h.2)]
        rfl
  rw [intendedPath, probed, map_map, map_congr_left hexpand]
  simp [probeSpans, Function.comp_def]

end

theorem Replacement.unchained_of_rewrites {r : Replacement}
    (hshort : (render r.tokens).length + 1 < metricBufsiz) (h : r.Rewrites) : r.Unchained := by
  refine (unchained_of_probed r.wellFormed (s := none) ?_).1
  intro n c hn
  have hgrouped := @probe_grouped n c
  have hpieces : (pieces (fun _ => ' ') [c, ' '] (render r.tokens) reMaxMatches
      (probeSpans n)).flatten = probed n c (tokenEmits none r.tokens) := by
    have hwritten : expansion (render r.tokens) = tokenEmits none r.tokens :=
      (closing_tokenEmits r.wellFormed).1
    rw [pieces, hwritten, map_congr_left fun e _ => probe_text hn e]
    rfl
  have hhead : slice (fun _ => ' ') [c, ' '] 0 (probeSpans n 0).1 = [] := by
    simp [probeSpans, slice]
  have hfits : (expandedHead (fun _ => ' ') [c, ' '] (render r.tokens) reMaxMatches
      (probeSpans n)).length + 1 < metricBufsiz := by
    rw [expandedHead, hhead, hpieces, nil_append]
    have hle := @probed_tokenEmits_length n c r.tokens none
    omega
  have hrun := h (fun _ => ' ') [c, ' '] 1 reMaxMatches (probeSpans n) hgrouped
    (fun rcase digits hmem => (r.wellFormed.pos hmem).lt) (by
      rw [probe_intended r.wellFormed, length_append]
      have hle := @probed_emit_length n c r.tokens
      simp only [drop_succ_cons, drop_zero, length_singleton]
      omega)
  obtain ⟨-, hline, -⟩ := routerRewriteMetric_some hrun
  rw [(rewrittenPath_eq_iff (by rw [hhead]; decide)).2 hfits, hgrouped.expandedPath_eq, hpieces,
    probe_intended r.wellFormed] at hline
  simpa [probeSpans] using (append_cancel_right hline).symm

/-- A replacement does what its tokens stand for, for every match whose expansion fits, if
references with flags stand alone, and only then if it could fit at all. -/
theorem rewrites_iff_unchained (r : Replacement) :
    (r.Unchained → r.Rewrites) ∧
    ((render r.tokens).length + 1 < metricBufsiz → r.Rewrites → r.Unchained) :=
  ⟨Replacement.rewrites_of_unchained, Replacement.unchained_of_rewrites⟩

/-- The replacement `\1\_2`. -/
def Replacement.chained : Replacement where
  tokens := [.ref .retain ['1'], .ref .lower ['2']]
  wellFormed := ⟨⟨by decide, forall_mem_singleton.2 rfl, by decide, by decide⟩, nofun,
    ⟨by decide, forall_mem_singleton.2 rfl, by decide, by decide⟩, nofun, trivial⟩

/-- A reference with a flag directly behind another one: its flag and its number are put in as they
are. -/
theorem chained_flag_is_literal :
    let metric := "foo.BAR 1 2\n".toList
    let pmatch : Nat → Span := fun i => if i = 0 then (0, 7) else if i = 1 then (0, 3) else (4, 7)
    render Replacement.chained.tokens = "\\1\\_2".toList ∧
    routerRewriteMetric (fun _ => '\x00') metric 7 "\\1\\_2".toList 3 pmatch =
      some ("foo_2 1 2\n".toList, 5) ∧
    intendedPath metric 7 pmatch Replacement.chained.tokens = "foobar".toList ∧
    ¬ Replacement.chained.Rewrites := by
  refine ⟨by decide +kernel, by decide +kernel, by decide +kernel, ?_⟩
  intro h
  have hchain := Replacement.unchained_of_rewrites (by decide) h
  have hretain : RewriteCase.lower = .retain := (isChain_cons_cons.1 hchain).1.2
  cases hretain

end CarbonRelay
