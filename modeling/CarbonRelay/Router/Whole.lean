import CarbonRelay.Router.Expansion

/-!
# Rewriting as a whole or not at all

The copies that `router_rewrite_metric` makes each look at the room that is left, but they differ in
what they do without it: the parts of the path in front of and behind the match and the data end the
call, a group or a character of the replacement is left out. The result is the whole expansion if
and only if there was room for it when the replacement was done (`rewrittenPath_eq_iff`). The number
of a reference is an `int`, and a larger one is undefined (`RefsInRange`).
-/

namespace CarbonRelay

open List

/-- The span of a match lies in the path of the line. -/
structure MatchIn (metric : Text) (firstspace : Nat) (pmatch : Nat → Span) : Prop where
  start : 0 ≤ (pmatch 0).1
  order : (pmatch 0).1 ≤ (pmatch 0).2
  inside : (pmatch 0).2 ≤ firstspace
  path : firstspace ≤ metric.length

section
variable (outside : Int → Char) (metric : Text) (firstspace : Nat) (replacement : Text)
  (nmatch : Nat) (pmatch : Nat → Span)

/-- The part of the path in front of the match, and what the replacement stands for. -/
def expandedHead : Text :=
  slice outside metric 0 (pmatch 0).1 ++ (pieces outside metric replacement nmatch pmatch).flatten

/-- The path of the new line if there is room for everything. -/
def expandedPath : Text :=
  expandedHead outside metric replacement nmatch pmatch ++ slice outside metric
    (pmatch 0).2 firstspace

/-- The loop over a part of the replacement, from where the part in front of the match was written.
-/
def rewriteLoop (s : Text) : RewriteState :=
  s.foldl (rewriteChar outside metric nmatch pmatch)
    { out := slice outside metric 0 (pmatch 0).1, escape := 0, ref := 0, rcase := .retain }

/-- Rewriting keeps the number of a reference in the range of `int ref`, stays inside of the buffer,
and makes a line with everything in it or none. -/
structure AllOrNothing : Prop where
  defined : ∀ s, s <+: replacement → (rewriteLoop outside metric nmatch pmatch s).ref < 2 ^ 31
  inside : fitsIn [] (pmatch 0).1 = true → ∀ s, s <+: replacement ++ ['\x00'] →
    (rewriteLoop outside metric nmatch pmatch s).out.length < metricBufsiz
  terminated : ∀ line firstspace',
    routerRewriteMetric outside metric firstspace replacement nmatch pmatch =
      some (line, firstspace') →
      line.length < metricBufsiz
  whole : ∀ line firstspace',
    routerRewriteMetric outside metric firstspace replacement nmatch pmatch =
      some (line, firstspace') →
      line = expandedPath outside metric firstspace replacement nmatch pmatch ++
        metric.drop firstspace ∧
      firstspace' = (expandedPath outside metric firstspace replacement nmatch pmatch).length
  nothing : metricBufsiz ≤ (expandedPath outside metric firstspace replacement nmatch pmatch ++
      metric.drop firstspace).length →
    routerRewriteMetric outside metric firstspace replacement nmatch pmatch = none

/-- There is room for the part in front of the match with all that the replacement stands for and a
terminator, or not even for the part in front of the match, on which the rewriter gives up. -/
def RoomForAll : Prop :=
  (expandedHead outside metric replacement nmatch pmatch).length + 1 < metricBufsiz ∨
    metricBufsiz ≤ (slice outside metric 0 (pmatch 0).1).length

end

section
variable {outside : Int → Char} {metric : Text} {firstspace : Nat} {replacement : Text}
  {nmatch : Nat} {pmatch : Nat → Span}

/-- The part in front of the match fits. -/
theorem fitsIn_nil_iff (h : MatchIn metric firstspace pmatch) :
    fitsIn [] (pmatch 0).1 = true ↔ (slice outside metric 0 (pmatch 0).1).length <
      metricBufsiz := by
  have := h.start
  simp only [fitsIn, decide_eq_true_eq, length_nil, length_slice]
  omega

/-- Everything was written if and only if there was room for it, with the terminator. -/
theorem rewrittenPath_eq_iff (hhead : (slice outside metric 0 (pmatch 0).1).length < metricBufsiz) :
    rewrittenPath outside metric firstspace replacement nmatch pmatch =
        expandedPath outside metric firstspace replacement nmatch pmatch ↔
      (expandedHead outside metric replacement nmatch pmatch).length + 1 < metricBufsiz := by
  rw [rewrittenPath, expandedPath, append_left_inj]
  constructor
  · intro heq
    have hlength := Buffer.length_writeAll_lt
      (pieces outside metric replacement nmatch pmatch ++ [['\x00']]) hhead
    have hdrop := congrArg List.length heq
    have hroom : 1 < metricBufsiz := by decide
    rw [length_dropLast] at hdrop
    omega
  · intro hfits
    have hall : (slice outside metric 0 (pmatch 0).1 ++
        (pieces outside metric replacement nmatch pmatch ++ [['\x00']]).flatten) =
        expandedHead outside metric replacement nmatch pmatch ++ ['\x00'] := by
      simp [expandedHead]
    have hlength : (slice outside metric 0 (pmatch 0).1 ++
        (pieces outside metric replacement nmatch pmatch ++ [['\x00']]).flatten).length <
          metricBufsiz := by
      rw [hall, length_append]
      exact hfits
    rw [Buffer.writeAll_of_fits hlength, hall, dropLast_concat]

/-- What the rewriter returns, if anything. -/
theorem routerRewriteMetric_isSome (h : MatchIn metric firstspace pmatch) :
    (routerRewriteMetric outside metric firstspace replacement nmatch pmatch).isSome = true ↔
      (slice outside metric 0 (pmatch 0).1).length < metricBufsiz ∧
      (rewrittenPath outside metric firstspace replacement nmatch pmatch ++
        metric.drop firstspace).length < metricBufsiz := by
  rw [routerRewriteMetric_eq h.inside, ← fitsIn_nil_iff h]
  dsimp only
  split <;> simp_all

/-- The numbers of the references in a replacement are in the range of `int ref`. -/
def RefsInRange (replacement : Text) : Prop :=
  ∀ n rcase, Emit.ref n rcase ∈ expansion replacement → n < 2 ^ 31

/-- Outside of a reference the number is zero. -/
def Escape.Settled (k : Escape) : Prop := k.escape = 0 → k.ref = 0

theorem Escape.Settled.step {k : Escape} (hk : k.Settled) (c : Char) : (k.step c).1.Settled := by
  intro hescape
  simp only [Escape.step] at hescape ⊢
  split_ifs at hescape ⊢ with hback
  all_goals simp_all [Escape.Settled]

/-- A turn of the loop only lowers the number when it writes the reference. -/
theorem Escape.step_ref (k : Escape) (c : Char) :
    k.ref ≤ (k.step c).1.ref ∧ (k.step c).2 = [] ∨
      ∀ n, (∃ rcase, Emit.ref n rcase ∈ (k.step c).2) ↔ k.escape ≠ 0 ∧ n = k.ref := by
  simp only [Escape.step]
  split_ifs
  all_goals first
    | exact .inl ⟨le_refl _, rfl⟩
    | exact .inl ⟨by dsimp only; omega, rfl⟩
    | exact .inr fun n => by simp [Escape.pending, *]

/-- The number stays below a bound in every turn of the loop if and only if it does where a
reference is written. -/
theorem Escape.Settled.run_ref_lt_iff {k : Escape} (hk : k.Settled) {m : Nat} (hm : 0 < m)
    (t : Text) : (∀ s, s <+: t → (k.run s).ref < m) ↔
      ∀ n rcase, Emit.ref n rcase ∈ emits k t ++ (k.run t).pending → n < m := by
  induction t generalizing k with
  | nil =>
    simp only [prefix_nil, forall_eq, emits, nil_append]
    show k.ref < m ↔ ∀ n rcase, Emit.ref n rcase ∈ k.pending → n < m
    by_cases hescape : k.escape = 0
    · simp [Escape.pending, hescape, hk hescape, hm]
    · simp [Escape.pending, hescape]
  | cons c t ih =>
    have hfronts : (∀ s, s <+: c :: t → (k.run s).ref < m) ↔
        k.ref < m ∧ ∀ s, s <+: t → ((k.step c).1.run s).ref < m := by
      simp only [prefix_cons_iff]
      constructor
      · exact fun h => ⟨h [] (.inl rfl), fun s hs => h (c :: s) (.inr ⟨s, rfl, hs⟩)⟩
      · rintro ⟨hnil, hcons⟩ _ (rfl | ⟨s, rfl, hs⟩)
        · exact hnil
        · exact hcons s hs
    have hemits : (∀ n rcase, Emit.ref n rcase ∈ emits k (c :: t) ++ (k.run (c :: t)).pending →
        n < m) ↔ (∀ n rcase, Emit.ref n rcase ∈ (k.step c).2 → n < m) ∧
        ∀ n rcase, Emit.ref n rcase ∈ emits (k.step c).1 t ++ ((k.step c).1.run t).pending →
          n < m := by
      show (∀ n rcase, Emit.ref n rcase ∈ ((k.step c).2 ++ emits (k.step c).1 t) ++
        ((k.step c).1.run t).pending → n < m) ↔ _
      simp only [append_assoc, mem_append (s := (k.step c).2), or_imp, forall_and]
    rw [hfronts, hemits, ← ih (hk.step c)]
    refine and_congr_left fun hrest => ?_
    have hnext : (k.step c).1.ref < m := hrest [] nil_prefix
    rcases k.step_ref c with ⟨hle, hnone⟩ | hwritten
    · rw [hnone]
      exact iff_of_true (by omega) (by simp)
    · by_cases hescape : k.escape = 0
      · refine iff_of_true (by rw [hk hescape]; exact hm) fun n rcase hmem => ?_
        exact absurd hescape ((hwritten n).1 ⟨rcase, hmem⟩).1
      · constructor
        · intro hlt n rcase hmem
          rw [((hwritten n).1 ⟨rcase, hmem⟩).2]
          exact hlt
        · intro hall
          obtain ⟨rcase, hmem⟩ := (hwritten k.ref).2 ⟨hescape, rfl⟩
          exact hall _ rcase hmem

theorem rewriteLoop_ref (s : Text) :
    (rewriteLoop outside metric nmatch pmatch s).ref = (Escape.start.run s).ref := by
  have hfold : ∀ st : RewriteState, (s.foldl (rewriteChar outside metric nmatch pmatch) st).ref =
      (st.toEscape.run s).ref := by
    induction s with
    | nil => exact fun st => rfl
    | cons c s ih =>
      intro st
      rw [foldl_cons, ih, rewriteChar_eq]
      rfl
  exact hfold _

theorem refsInRange_iff : RefsInRange replacement ↔
    ∀ s, s <+: replacement → (rewriteLoop outside metric nmatch pmatch s).ref < 2 ^ 31 := by
  have hstart : Escape.start.Settled := fun _ => rfl
  simp only [rewriteLoop_ref]
  exact (hstart.run_ref_lt_iff (by decide) replacement).symm

/-- A group with the whole path of a line that is to be put twice, where there is room for it only
once. -/
theorem rewrite_twice {n : Nat} {line : Text} (hn : n + 1 < line.length)
    (honce : line.length < metricBufsiz) (htwice : metricBufsiz ≤ n + n) :
    routerRewriteMetric outside line n "\\1\\1".toList 2 (fun _ => (0, (n : Int))) =
      some (slice outside line 0 n ++ line.drop n, n) ∧
    (expandedPath outside line n "\\1\\1".toList 2 (fun _ => (0, (n : Int)))).length = n + n := by
  have hgroup : (slice outside line 0 n).length = n := by simp
  have hnone : ∀ i : Int, slice outside line i i = [] := by simp [slice]
  have hpieces : pieces outside line "\\1\\1".toList 2 (fun _ => (0, (n : Int))) =
      [slice outside line 0 n, slice outside line 0 n] := by
    have hrefs : expansion "\\1\\1".toList = [.ref 1 .retain, .ref 1 .retain] := by decide
    have hretain : RewriteCase.retain.apply = id := rfl
    rw [pieces, hrefs]
    simp [Emit.text, hretain]
  have hpath : rewrittenPath outside line n "\\1\\1".toList 2 (fun _ => (0, (n : Int))) =
      slice outside line 0 n := by
    have hfirst : n < metricBufsiz := by omega
    have hlast : n + 1 < metricBufsiz := by omega
    rw [rewrittenPath, hpieces, hnone, hnone]
    simp [Buffer.write, hgroup, hfirst, hlast, Nat.not_lt.2 htwice]
  have hlength : (slice outside line 0 n ++ line.drop n).length < metricBufsiz := by
    rw [length_append, hgroup, length_drop]
    omega
  refine ⟨?_, ?_⟩
  · rw [routerRewriteMetric_eq (le_refl _), hpath]
    dsimp only
    rw [if_pos ⟨by decide, hlength⟩, hgroup]
  · rw [expandedPath, expandedHead, hpieces, hnone, hnone]
    simp

end

end CarbonRelay
