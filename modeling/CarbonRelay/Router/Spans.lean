import CarbonRelay.Router.Expansion
import CarbonRelay.Router.Loops

/-!
# The spans that a rule uses

All rules of a call share one array of spans. A match of an expression sets the first of them; what
a rewrite, `route using` or an aggregate then reads are the span of the whole match and those of the
groups that its text refers to. A text that refers only to spans which the match of its own rule
sets gives the same result whatever else is in the array (`routerRewriteMetric_reads`).
-/

namespace CarbonRelay

open List

/-- How many spans a match of an expression sets. -/
def Matcher.spans (m : Matcher) : Nat :=
  match m.matchtype with
  | .matchall => 0
  | .regex => m.nmatch
  | _ => 1

section
variable (regex : Ere.Engine) (outside : Int → Char) (m : Matcher) (metric : Text)
  (firstspace : Nat)

/-- A match sets these spans whatever is in the array. -/
def FindsSpans (spans : Option (List Span)) : Prop :=
  (∀ pmatch, routerMetricMatches regex outside m metric firstspace pmatch =
    (spans.isSome, setSpans (spans.getD []) pmatch)) ∧ ∀ l, spans = some l → l.length = m.spans

theorem routerMetricMatches_found :
    ∃ spans, FindsSpans regex outside m metric firstspace spans := by
  have hnil : ∀ pmatch, setSpans [] pmatch = pmatch := fun _ => rfl
  have hone {c : Prop} [Decidable c] {s : Span} (hs : m.spans = 1)
      (h : ∀ pmatch, routerMetricMatches regex outside m metric firstspace pmatch =
        if c then (true, setSpans [s] pmatch) else (false, pmatch)) :
      ∃ spans, FindsSpans regex outside m metric firstspace spans := by
    refine ⟨if c then some [s] else none, fun pmatch => ?_, fun l hl => ?_⟩
    · rw [h]
      split <;> simp [hnil]
    · split at hl <;> cases hl
      exact hs.symm
  cases htype : m.matchtype with
  | matchall =>
    refine ⟨some [], fun pmatch => ?_, fun l hl => ?_⟩
    · simp [routerMetricMatches, htype, hnil]
    · cases hl
      simp [Matcher.spans, htype]
  | regex =>
    refine ⟨regex.exec m.pattern (metric.take firstspace) m.nmatch, fun pmatch => ?_,
      fun l hl => ?_⟩
    · cases hexec : regex.exec m.pattern (metric.take firstspace) m.nmatch <;>
        simp [routerMetricMatches, htype, hexec, hnil]
    · simp [Matcher.spans, htype, regex.length hl]
  | contains =>
    cases hstr : strstr (metric.take firstspace) m.strmatch with
    | none => exact ⟨none, fun pmatch => by simp [routerMetricMatches, htype, hstr, hnil], nofun⟩
    | some i =>
      exact hone (c := True) (by simp [Matcher.spans, htype])
        fun pmatch => by simp [routerMetricMatches, htype, hstr]; rfl
  | _ =>
    exact hone (by simp [Matcher.spans,
      htype]) fun pmatch => by simp only [routerMetricMatches, htype]; rfl

end

/-- The spans agree up to a number. -/
def AgreeUpTo (k : Nat) (pmatch pmatch' : Nat → Span) : Prop := ∀ i < k, pmatch i = pmatch' i

theorem AgreeUpTo.setSpans {k : Nat} {pmatch pmatch' : Nat → Span} (h : AgreeUpTo k pmatch pmatch')
    (spans : List Span) : AgreeUpTo k (setSpans spans pmatch) (setSpans spans pmatch') := by
  intro i hi
  simp only [CarbonRelay.setSpans, h i hi]

theorem AgreeUpTo.of_set {k : Nat} {spans : List Span} (h : k ≤ spans.length)
    (pmatch pmatch' : Nat → Span) :
    AgreeUpTo k (CarbonRelay.setSpans spans pmatch) (CarbonRelay.setSpans spans pmatch') := by
  intro i hi
  have hlt : i < spans.length := hi.trans_le h
  simp [CarbonRelay.setSpans, hlt]

/-- A text refers to spans that a match of the expression sets. -/
def Matcher.RefersOwn (m : Matcher) (text : Text) : Prop :=
  0 < m.spans ∧ ∀ n rcase, .ref n rcase ∈ expansion text → 0 < n → n ≤ m.nmatch → n < m.spans

section
variable {outside : Int → Char} {metric : Text} {firstspace : Nat} {replacement : Text}
  {nmatch : Nat} {pmatch pmatch' : Nat → Span}

theorem routerRewriteMetric_congr (hfirst : pmatch 0 = pmatch' 0)
    (hrefs : ∀ n rcase, .ref n rcase ∈ expansion replacement → 0 < n → n ≤ nmatch →
      pmatch n = pmatch' n) :
    routerRewriteMetric outside metric firstspace replacement nmatch pmatch =
      routerRewriteMetric outside metric firstspace replacement nmatch pmatch' := by
  have hpieces : pieces outside metric replacement nmatch pmatch =
      pieces outside metric replacement nmatch pmatch' := by
    refine map_congr_left fun e he => ?_
    cases e with
    | lit c => rfl
    | ref n rcase =>
      by_cases hn : 0 < n ∧ n ≤ nmatch
      · simp only [Emit.text, hrefs n rcase he hn.1 hn.2]
      · simp only [Emit.text, ← and_assoc, hn, false_and, if_false]
  simp only [routerRewriteMetric, foldl_replacement, hfirst, hpieces]

/-- What a text expands to is the same for both arrays: they are the same, or agree as far as the
match sets spans, and the text refers to these. -/
def Matcher.Reads (m : Matcher) (text : Text) (pmatch pmatch' : Nat → Span) : Prop :=
  pmatch = pmatch' ∨ m.RefersOwn text ∧ AgreeUpTo m.spans pmatch pmatch'

theorem routerRewriteMetric_reads {m : Matcher} (h : m.Reads replacement pmatch pmatch') :
    routerRewriteMetric outside metric firstspace replacement m.nmatch pmatch =
      routerRewriteMetric outside metric firstspace replacement m.nmatch pmatch' := by
  rcases h with rfl | ⟨hown, hagree⟩
  · rfl
  · exact routerRewriteMetric_congr (hagree 0 hown.1) fun n rcase hn hpos hle =>
      hagree n (hown.2 n rcase hn hpos hle)

end

/-! ## Own spans of a rule -/

section
variable {D : Type} {env : RouteEnv} {w : RuleOf D} {fr fr' : RouteFrame}

/-- A cluster, for lines that are the same and spans of which it hashes the same path. -/
theorem pushCluster_reads {cl : Cluster} {out : RouteOut} (hmetric : fr.metric = fr'.metric)
    (hfirstspace : fr.firstspace = fr'.firstspace)
    (hmasq : cl.type.chType.isSome = true → ∀ text, w.masq = some text →
      w.toMatcher.Reads text fr.pmatch fr'.pmatch) :
    pushCluster env w cl fr out = pushCluster env w cl fr' out := by
  cases hch : cl.type.chType with
  | none => rw [pushCluster_listed hch, pushCluster_listed hch, hmetric, hfirstspace]
  | some ch =>
    have hring : cl.type.chType.isSome = true := by rw [hch]; rfl
    have hpath : hashedPath env w fr = hashedPath env w fr' := by
      simp only [hashedPath, hmetric, hfirstspace]
      cases htext : w.masq with
      | none => rfl
      | some text => simp only [routerRewriteMetric_reads (hmasq hring text htext)]
    rw [pushCluster_ring hring, pushCluster_ring hring, pushNodes, pushNodes, hpath, hmetric]

theorem outputName_reads {m : Matcher} {outside : Int → Char} {metric : Text} {firstspace : Nat}
    {pmatch pmatch' : Nat → Span} {text : Text} (h : m.nmatch ≠ 0 → m.Reads text pmatch pmatch') :
    outputName outside metric firstspace m.nmatch pmatch text =
      outputName outside metric firstspace m.nmatch pmatch' text := by
  rw [outputName, outputName]
  split
  · rfl
  case isFalse hn => rw [routerRewriteMetric_reads (h hn)]

/-- The data of a line is valid or not whatever the spans are. -/
theorem validData_eq (env : RouteEnv) (v : Validation) (fr' : RouteFrame) :
    ∃ spans : Option (List Span), (∀ l, spans = some l → l.length = v.rule.spans) ∧
    ∀ fr : RouteFrame, fr.metric = fr'.metric → fr.firstspace = fr'.firstspace →
      validData env v fr = (spans.isSome, setSpans (spans.getD []) fr.pmatch) := by
  obtain ⟨spans, hmatch, hlength⟩ := routerMetricMatches_found env.regex
    (fun i => byteAt env.outside fr'.metric (i + (fr'.firstspace + 1 : Nat))) v.rule
    (fr'.metric.drop (fr'.firstspace + 1)) (fr'.metric.length - 1 - (fr'.firstspace + 1))
  refine ⟨spans, hlength, fun fr hmetric hfirstspace => ?_⟩
  rw [validData, hmetric, hfirstspace]
  exact hmatch fr.pmatch

end

end CarbonRelay
