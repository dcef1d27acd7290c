import CarbonRelay.Router.Rewrite
import CarbonRelay.Lib.Buffer

/-!
# What a replacement writes

The loop of `router_rewrite_metric` over a replacement taken apart: `escape`, `ref` and `rcase` do
not depend on what is written, so that the replacement alone says which references and which
characters are written one after the other (`emits`), each as a whole or not at all
(`foldl_rewriteChar`).
-/

namespace CarbonRelay

open List

/-- Something that is written: a reference, or a character of the replacement. -/
inductive Emit
  | ref (n : Nat) (rcase : RewriteCase)
  | lit (c : Char)
  deriving DecidableEq, Repr

/-- The variables of the loop that do not depend on what is written. -/
structure Escape where
  escape : Nat
  ref : Nat
  rcase : RewriteCase
  deriving DecidableEq, Repr

/-- Outside of a reference. -/
def Escape.start : Escape := ⟨0, 0, .retain⟩

/-- The part of the state that is about references. -/
def RewriteState.toEscape (st : RewriteState) : Escape := ⟨st.escape, st.ref, st.rcase⟩

/-- The reference that ends at a character, if any. -/
def Escape.pending (k : Escape) : List Emit := if k.escape ≠ 0 then [.ref k.ref k.rcase] else []

/-- A turn of the loop. -/
def Escape.step (k : Escape) (c : Char) : Escape × List Emit :=
  if c = '\\' ∧ k.escape = 0 then ({ k with escape := 1, rcase := .retain }, [])
  else if k.escape = 1 ∧ k.rcase = .retain ∧ c = '_' then ({ k with rcase := .lower }, [])
  else if k.escape = 1 ∧ k.rcase = .retain ∧ c = '^' then ({ k with rcase := .upper }, [])
  else if k.escape = 1 ∧ c = '.' then
    ({ k with rcase := match k.rcase with
        | .lower => .lowerDot
        | .upper => .upperDot
        | _ => .retainDot }, [])
  else if k.escape ≠ 0 ∧ c.isDigit then
    ({ k with escape := 2, ref := k.ref * 10 + (c.toNat - 48) }, [])
  else
    let ref := if k.escape ≠ 0 then 0 else k.ref
    if c = '\\' then ({ k with ref }, k.pending)
    else (⟨0, ref, .retain⟩, k.pending ++ [.lit c])

/-- What the loop writes for a text, from some state of the loop on. -/
def emits : Escape → Text → List Emit
  | _, [] => []
  | k, c :: s => (k.step c).2 ++ emits (k.step c).1 s

section
variable (outside : Int → Char) (metric : Text) (nmatch : Nat) (pmatch : Nat → Span)

/-- The text of something that is written: of a group that did not take part nothing. -/
def Emit.text : Emit → Text
  | .ref n rcase =>
    if 0 < n ∧ n ≤ nmatch ∧ 0 ≤ (pmatch n).1 then
      (slice outside metric (pmatch n).1 (pmatch n).2).map rcase.apply
    else []
  | .lit c => [c]

theorem insertRef_eq (st : RewriteState) :
    insertRef outside metric nmatch pmatch st =
      Buffer.write metricBufsiz st.out
        (Emit.text outside metric nmatch pmatch (.ref st.ref st.rcase)) := by
  simp only [insertRef, Emit.text, ← and_assoc]
  rcases le_or_gt (pmatch st.ref).1 (pmatch st.ref).2 with hspan | hspan
  · have hfits : ∀ rcase : RewriteCase,
        fitsIn st.out ((pmatch st.ref).2 - (pmatch st.ref).1) = true ↔ (st.out ++
          (slice outside metric (pmatch st.ref).1 (pmatch st.ref).2).map rcase.apply).length <
            metricBufsiz := by
      intro rcase
      simp only [fitsIn, decide_eq_true_eq, length_append, length_map, length_slice]
      omega
    simp only [hfits st.rcase]
    split_ifs <;> simp_all [Buffer.write]
  · rw [eq_nil_of_length_eq_zero (l := slice _ _ _ _) (by rw [length_slice]; omega)]
    simp

/-- The state of the loop behind what is written. -/
def RewriteState.next (out : Text) (k : Escape × List Emit) : RewriteState :=
  ⟨Buffer.writeAll metricBufsiz out (k.2.map (Emit.text outside metric nmatch pmatch)),
    k.1.escape, k.1.ref, k.1.rcase⟩

theorem rewriteChar_eq (st : RewriteState) (c : Char) :
    rewriteChar outside metric nmatch pmatch st c =
      .next outside metric nmatch pmatch st.out (st.toEscape.step c) := by
  obtain ⟨out, escape, ref, rcase⟩ := st
  have hlit : ∀ out : Text, (if out.length + 1 < metricBufsiz then out ++ [c] else out) =
      Buffer.write metricBufsiz out (Emit.text outside metric nmatch pmatch (.lit c)) := by
    intro out
    simp [Buffer.write, Emit.text]
  rw [rewriteChar, RewriteState.toEscape, Escape.step]
  dsimp only
  by_cases hbackslash : c = '\\' ∧ escape = 0
  · rw [if_pos hbackslash, if_pos hbackslash]
    rfl
  rw [if_neg hbackslash, if_neg hbackslash]
  by_cases hlower : escape = 1 ∧ rcase = .retain ∧ c = '_'
  · rw [if_pos hlower, if_pos hlower]
    rfl
  rw [if_neg hlower, if_neg hlower]
  by_cases hupper : escape = 1 ∧ rcase = .retain ∧ c = '^'
  · rw [if_pos hupper, if_pos hupper]
    rfl
  rw [if_neg hupper, if_neg hupper]
  by_cases hdot : escape = 1 ∧ c = '.'
  · rw [if_pos hdot, if_pos hdot]
    cases rcase <;> rfl
  rw [if_neg hdot, if_neg hdot]
  by_cases hdigit : escape ≠ 0 ∧ c.isDigit = true
  · rw [if_pos hdigit, if_pos hdigit]
    rfl
  rw [if_neg hdigit, if_neg hdigit]
  simp only [insertRef_eq, hlit, Escape.pending]
  split_ifs <;> rfl

/-- The loop over a text. -/
theorem foldl_rewriteChar (s : Text) (st : RewriteState) :
    (s.foldl (rewriteChar outside metric nmatch pmatch) st).out =
      Buffer.writeAll metricBufsiz st.out
        ((emits st.toEscape s).map (Emit.text outside metric nmatch pmatch)) := by
  induction s generalizing st with
  | nil => rfl
  | cons c s ih =>
    rw [foldl_cons, ih, rewriteChar_eq, emits, map_append, Buffer.writeAll_append]
    rfl

end

/-! ## The text of a replacement -/

/-- The state of the loop behind a text. -/
def Escape.run (k : Escape) (s : Text) : Escape := s.foldl (fun k c => (k.step c).1) k

theorem emits_append (k : Escape) (s t : Text) :
    emits k (s ++ t) = emits k s ++ emits (k.run s) t := by
  induction s generalizing k with
  | nil => rfl
  | cons c s ih =>
    rw [cons_append, emits, emits, ih, append_assoc]
    rfl

/-- Characters that are not escaped stand for themselves. -/
theorem emits_plain {s : Text} (h : '\\' ∉ s) (t : Text) :
    emits .start (s ++ t) = s.map .lit ++ emits .start t := by
  induction s with
  | nil => rfl
  | cons c s ih =>
    rw [mem_cons, not_or] at h
    have hstep : Escape.start.step c = (.start, [.lit c]) := by
      simp [Escape.step, Escape.start, Escape.pending, Ne.symm h.1]
    rw [cons_append, emits, hstep, ih h.2]
    rfl

/-- What a replacement writes: a reference at its end is written with the terminator. -/
def expansion (replacement : Text) : List Emit :=
  emits .start replacement ++ (Escape.start.run replacement).pending

theorem emits_terminated (replacement : Text) :
    emits .start (replacement ++ ['\x00']) = expansion replacement ++ [.lit '\x00'] := by
  rw [emits_append, expansion, append_assoc]
  congr 1
  simp [emits, Escape.step, Char.isDigit]

theorem expansion_plain {s : Text} (h : '\\' ∉ s) (t : Text) :
    expansion (s ++ t) = s.map .lit ++ expansion t := by
  have hterminated : expansion (s ++ t) ++ [.lit '\x00'] = s.map .lit ++ expansion t ++
      [.lit '\x00'] := by
    rw [← emits_terminated, append_assoc, emits_plain h, emits_terminated, append_assoc]
  exact append_cancel_right hterminated

section
variable (outside : Int → Char) (metric : Text) (firstspace : Nat) (replacement : Text)
  (nmatch : Nat) (pmatch : Nat → Span)

/-- The pieces that a replacement writes for a match. -/
def pieces : List Text := (expansion replacement).map (Emit.text outside metric nmatch pmatch)

/-- The path of the new line: what was written, without its terminator, in front of the rest of the
path. -/
def rewrittenPath : Text :=
  (Buffer.writeAll metricBufsiz (slice outside metric 0 (pmatch 0).1)
    (pieces outside metric replacement nmatch pmatch ++ [['\x00']])).dropLast ++
  slice outside metric (pmatch 0).2 firstspace

end

section
variable {outside : Int → Char} {metric : Text} {firstspace : Nat} {replacement : Text}
  {nmatch : Nat} {pmatch : Nat → Span}

/-- What is written behind the part of the path in front of the match. -/
theorem foldl_replacement (out : Text) :
    ((replacement ++ ['\x00']).foldl (rewriteChar outside metric nmatch pmatch)
      ⟨out, 0, 0, .retain⟩).out =
      Buffer.writeAll metricBufsiz out
        (pieces outside metric replacement nmatch pmatch ++ [['\x00']]) := by
  rw [foldl_rewriteChar]
  show Buffer.writeAll _ _ ((emits .start _).map _) = _
  rw [emits_terminated, map_append]
  rfl

theorem routerRewriteMetric_some {line : Text} {firstspace' : Nat}
    (h : routerRewriteMetric outside metric firstspace replacement nmatch pmatch =
      some (line, firstspace')) :
    firstspace' = (rewrittenPath outside metric firstspace replacement nmatch pmatch).length ∧
    line = rewrittenPath outside metric firstspace replacement nmatch pmatch ++
      metric.drop firstspace ∧
    line.length < metricBufsiz := by
  simp only [routerRewriteMetric, foldl_replacement] at h
  split at h
  · cases h
  split at h
  · cases h
  split at h
  case isTrue hlength =>
    cases h
    refine ⟨rfl, rfl, ?_⟩
    rw [length_append]
    exact hlength
  · cases h

/-- The rewriter for a match that ends in the path. -/
theorem routerRewriteMetric_eq (heo : (pmatch 0).2 ≤ firstspace) :
    routerRewriteMetric outside metric firstspace replacement nmatch pmatch =
      let path := rewrittenPath outside metric firstspace replacement nmatch pmatch
      if fitsIn [] (pmatch 0).1 = true ∧ (path ++ metric.drop firstspace).length < metricBufsiz then
        some (path ++ metric.drop firstspace, path.length)
      else none := by
  simp only [routerRewriteMetric, foldl_replacement, rewrittenPath]
  simp only [fitsIn, decide_eq_true_eq, length_append, length_slice]
  split_ifs
  all_goals first
    | rfl
    | (exfalso; omega)

/-- A replacement that begins with characters which stand for themselves, in a line with some data.
-/
theorem rewrittenPath_plain {s t : Text} (h : '\\' ∉ s)
    (hdata : 2 ≤ (metric.drop firstspace).length)
    (hlength : (rewrittenPath outside metric firstspace (s ++ t) nmatch pmatch ++
      metric.drop firstspace).length < metricBufsiz) :
    slice outside metric 0 (pmatch 0).1 ++ s <+:
      rewrittenPath outside metric firstspace (s ++ t) nmatch pmatch := by
  have hpieces : pieces outside metric (s ++ t) nmatch pmatch ++ [['\x00']] =
      s.map ([·]) ++ (pieces outside metric t nmatch pmatch ++ [['\x00']]) := by
    rw [pieces, expansion_plain h, map_append, map_map, append_assoc]
    rfl
  rw [rewrittenPath, hpieces] at hlength ⊢
  rw [length_append, length_append, length_dropLast] at hlength
  have hroom : (Buffer.writeAll metricBufsiz (slice outside metric 0 (pmatch 0).1)
      (s.map ([·]) ++ (pieces outside metric t nmatch pmatch ++ [['\x00']]))).length + 1 <
      metricBufsiz := by omega
  have hsingles := Buffer.writeAll_singletons hroom
  rw [hsingles] at hroom ⊢
  rw [Buffer.writeAll_concat hroom, dropLast_concat]
  exact (Buffer.prefix_writeAll _).trans (prefix_append _ _)

end

end CarbonRelay
