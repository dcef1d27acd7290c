import CarbonRelay.Router.Effects
import CarbonRelay.Router.Spans
import Mathlib.Data.Option.Basic

/-!
# Two runs in step

Two runs over the same rules that differ in the array of spans, and in what has no effect on the
rest of the run: whether the metric was sent before, and the flag for blackholed metrics. A
destination does the same in both if the texts that it expands read the same spans
(`destStep_same`). The loops over destinations, over rules and over a table are then in step
(`routeDests_same`, `runUntil_same`), with more that is known of the frames as a parameter.
-/

namespace CarbonRelay

open List

/-! ## Partial results -/

section
variable {α β γ δ : Type} {r : α → β → Prop} {x : Option α} {y : Option β}

theorem optionRel_cases : Option.Rel r x y →
    x = none ∧ y = none ∨ ∃ a b, x = some a ∧ y = some b ∧ r a b
  | .none => .inl ⟨rfl, rfl⟩
  | .some hab => .inr ⟨_, _, rfl, rfl, hab⟩

theorem optionRel_mono {r' : α → β → Prop} (h : ∀ a b, r a b → r' a b) :
    Option.Rel r x y → Option.Rel r' x y
  | .none => .none
  | .some hab => .some (h _ _ hab)

theorem optionRel_map_eq {f : α → γ} {g : β → γ} (h : ∀ a b, r a b → f a = g b) :
    Option.Rel r x y → x.map f = y.map g
  | .none => rfl
  | .some hab => congrArg some (h _ _ hab)

theorem optionRel_map {r' : γ → δ → Prop} {f : α → γ} {g : β → δ}
    (h : ∀ a b, r a b → r' (f a) (g b)) : Option.Rel r x y → Option.Rel r' (x.map f) (y.map g)
  | .none => .none
  | .some hab => .some (h _ _ hab)

end

/-! ## Texts that are expanded -/

/-- A destination of a rule expands a text. -/
def Dest.Expands (w : Rule) (text : Text) : Dest → Prop
  | .target (.cluster cl) => cl.type.chType.isSome = true ∧ w.masq = some text
  | .rewrite replacement => text = replacement
  | .aggregation _ names => w.nmatch ≠ 0 ∧ text ∈ names
  | _ => False

/-- The texts that a rule expands refer to spans that its expression sets. -/
def Rule.OwnSpans (w : Rule) : Prop :=
  ∀ d ∈ w.dest :: w.dests, ∀ text, d.Expands w text → w.toMatcher.RefersOwn text

/-! ## Frames and outputs -/

/-- Two moments of calls with the same line. -/
structure RouteFrame.SameLine (fr fr' : RouteFrame) : Prop where
  metric : fr.metric = fr'.metric
  firstspace : fr.firstspace = fr'.firstspace
  stop : fr.stop = fr'.stop

/-- The same destinations and the same log. -/
structure RouteOut.Same (out out' : RouteOut) : Prop where
  ret : out.ret = out'.ret
  log : out.log = out'.log

section
variable {out out' : RouteOut}

theorem RouteOut.Same.add_log (h : out.Same out') (es : List RouteEvent) :
    RouteOut.Same { out with log := out.log ++ es } { out' with log := out'.log ++ es } :=
  ⟨h.ret, congrArg (· ++ es) h.log⟩

/-- The same outputs are the same but for the flag. -/
theorem RouteOut.Same.split (h : out.Same out') : ∃ e b b', out = ⟨b, [], []⟩ ++ e ∧
    out' = ⟨b', [], []⟩ ++ e := by
  refine ⟨⟨false, out.ret, out.log⟩, out.blackholed, out'.blackholed, ?_, ?_⟩
  · simp [RouteOut.append_def]
  · simp [RouteOut.append_def, h.ret, h.log]

theorem RouteOut.same_append (b b' : Bool) (e : RouteOut) :
    (⟨b, [], []⟩ ++ e : RouteOut).Same (⟨b', [], []⟩ ++ e) := ⟨rfl, rfl⟩

end

/-! ## Destinations -/

/-- A destination did the same twice, with frames in some relation. -/
structure DestStep.Same (R : RouteFrame → RouteFrame → Prop) (s s' : DestStep) : Prop where
  full : s.full = s'.full
  skip : s.skip = s'.skip
  frame : R s.frame s'.frame
  out : s.out.Same s'.out

/-- A destination has set these spans, and left alone what is known of the tails of paths. -/
structure DestStep.Sets (fr : RouteFrame) (spans : List Span) (s : DestStep) : Prop where
  q : s.frame.q = fr.q
  pmatch : s.frame.pmatch = setSpans spans fr.pmatch

/-- Spans that a destination sets: none, unless it is a validation with an expression that sets
some. -/
def Dest.MaySet (d : Dest) (spans : List Span) : Prop :=
  (∀ v, d = .validation v → v.rule.spans = 0) → spans = []

/-- A destination did the same for two frames: the line and the outputs are the same, and so are the
spans that were set, if any. -/
def DestStep.SameFrom (d : Dest) (fr fr' : RouteFrame) (s s' : DestStep) : Prop :=
  s.Same RouteFrame.SameLine s' ∧ ∃ spans, d.MaySet spans ∧ s.Sets fr spans ∧ s'.Sets fr' spans

section
variable {env : RouteEnv} {fr fr' : RouteFrame} {out out' : RouteOut}

theorem pushCluster_same {D : Type} (w : RuleOf D) (cl : Cluster) (h : out.Same out') :
    Option.Rel (fun p p' => p.1 = p'.1 ∧ p.2.1 = p'.2.1 ∧ p.2.2.Same p'.2.2)
      (pushCluster env w cl fr out) (pushCluster env w cl fr out') := by
  obtain ⟨e, b, b', rfl, rfl⟩ := h.split
  rw [pushCluster_append e fr (Nat.zero_le _), pushCluster_append e fr (Nat.zero_le _)]
  simp only [length_nil, RouteEnv.less_zero]
  cases pushCluster env w cl fr e with
  | none => exact .none
  | some p => exact .some ⟨rfl, rfl, RouteOut.same_append b b' p.2.2⟩

theorem targetStep_same {D : Type} {w : RuleOf D} {t : Target} (h : fr.SameLine fr')
    (hout : out.Same out')
    (hmasq : ∀ cl, t = .cluster cl → cl.type.chType.isSome = true → ∀ text, w.masq = some text →
      w.toMatcher.Reads text fr.pmatch fr'.pmatch) (d : Dest) :
    Option.Rel (DestStep.SameFrom d fr fr') (targetStep env w t fr out)
      (targetStep env w t fr' out') := by
  cases t with
  | blackhole =>
    exact .some ⟨⟨rfl, rfl, h, hout.ret, hout.log⟩, [], fun _ => rfl, ⟨rfl, rfl⟩, rfl, rfl⟩
  | cluster cl =>
    rw [targetStep, targetStep, pushCluster_reads h.metric h.firstspace (hmasq cl rfl)]
    refine optionRel_map (fun p p' hp => ?_) (pushCluster_same w cl hout)
    exact ⟨⟨hp.1, rfl, ⟨h.metric, h.firstspace, h.stop⟩, hp.2.2⟩, [], fun _ => rfl,
      ⟨rfl, rfl⟩, rfl, rfl⟩

theorem routeStub_same (w : Rule) (routes : List (RuleOf Target)) (h : fr.SameLine fr')
    (hout : out.Same out') :
    Option.Rel RouteOut.Same (routeStub env w routes fr out) (routeStub env w routes fr' out') := by
  have hframe : routeStub env w routes fr out = routeStub env w routes fr' out := by
    simp only [routeStub, h.metric, h.firstspace]
  obtain ⟨e, b, b', rfl, rfl⟩ := hout.split
  rw [hframe, routeStub_append (Nat.zero_le _), routeStub_append (Nat.zero_le _)]
  simp only [length_nil, RouteEnv.less_zero]
  cases routeStub env w routes fr' e with
  | none => exact .none
  | some e' => exact .some (RouteOut.same_append b b' e')

variable {w : Rule} {d : Dest}

/-- A destination for the same line, where the texts that it expands read the same spans. -/
theorem destStep_same (last : Bool) (h : fr.SameLine fr') (hout : out.Same out')
    (hreads : ∀ text, d.Expands w text → w.toMatcher.Reads text fr.pmatch fr'.pmatch) :
    Option.Rel (DestStep.SameFrom d fr fr') (destStep env w d last fr out)
      (destStep env w d last fr' out') := by
  cases d with
  | target t =>
    refine targetStep_same h hout ?_ _
    rintro cl rfl hch text hmasq
    exact hreads text ⟨hch, hmasq⟩
  | aggregation aggr names =>
    have hnames : names.map (outputName env.outside fr'.metric fr'.firstspace w.nmatch fr.pmatch) =
        names.map (outputName env.outside fr'.metric fr'.firstspace w.nmatch fr'.pmatch) :=
      map_congr_left fun text htext => outputName_reads fun hn => hreads text ⟨hn, htext⟩
    simp only [destStep, h.metric, h.firstspace, hnames]
    exact .some ⟨⟨rfl, rfl, ⟨rfl, rfl, h.stop⟩, hout.add_log _⟩, [], fun _ => rfl,
      ⟨rfl, rfl⟩, rfl, rfl⟩
  | rewrite replacement =>
    rw [destStep, destStep, h.metric, h.firstspace,
      routerRewriteMetric_reads (hreads replacement rfl)]
    split
    · exact .some ⟨⟨rfl, rfl, h, hout⟩, [], fun _ => rfl, ⟨rfl, rfl⟩, rfl, rfl⟩
    · exact .some ⟨⟨rfl, rfl, ⟨rfl, rfl, h.stop⟩, hout⟩, [], fun _ => rfl, ⟨rfl, rfl⟩, rfl, rfl⟩
  | stub routes =>
    rw [destStep, destStep]
    refine optionRel_map (fun o o' ho => ?_) (routeStub_same w routes h hout)
    exact ⟨⟨rfl, rfl, ⟨h.metric, h.firstspace, h.stop⟩, ho⟩, [], fun _ => rfl, ⟨rfl, rfl⟩, rfl, rfl⟩
  | validation v =>
    obtain ⟨spans, hlength, hvalid⟩ := validData_eq env v fr'
    have hspans : (Dest.validation v).MaySet (spans.getD []) := by
      intro hzero
      cases spans with
      | none => rfl
      | some l => exact eq_nil_of_length_eq_zero ((hlength l rfl).trans (hzero v rfl))
    rw [destStep, destStep, hvalid fr h.metric h.firstspace, hvalid fr' rfl rfl, h.metric, h.stop]
    dsimp only
    split
    · exact .some ⟨⟨rfl, rfl, ⟨rfl, h.firstspace, rfl⟩, hout⟩, _, hspans, ⟨rfl, rfl⟩, rfl, rfl⟩
    split
    · exact .some ⟨⟨rfl, rfl, ⟨rfl, h.firstspace, rfl⟩, hout.add_log _⟩, _, hspans,
        ⟨rfl, rfl⟩, rfl, rfl⟩
    · exact .some ⟨⟨rfl, rfl, ⟨rfl, h.firstspace, rfl⟩, hout⟩, _, hspans, ⟨rfl, rfl⟩, rfl, rfl⟩

end

/-! ## Loops -/

/-- Two parts of runs ended alike, with frames in some relation. -/
structure RouteStep.Same (R : RouteFrame → RouteFrame → Prop) (s s' : RouteStep) : Prop where
  full : s.full = s'.full
  frame : R s.frame s'.frame
  out : s.out.Same s'.out

theorem RouteStep.Same.finish {R : RouteFrame → RouteFrame → Prop} {s s' : RouteStep}
    (h : s.Same R s') (hstop : s.frame.stop = s'.frame.stop) :
    s.finish.1 = s'.finish.1 ∧ s.finish.2.Same s'.finish.2 := by
  rw [RouteStep.finish, RouteStep.finish, h.full, hstop]
  split
  · exact ⟨rfl, h.out⟩
  · exact ⟨rfl, h.out.ret, h.out.log⟩

section
variable {D : Type} {R : RouteFrame → RouteFrame → Prop} {env : RouteEnv} {fr fr' : RouteFrame}
  {out out' : RouteOut} {w : RuleOf D} {step step' : RuleOf D → D → Bool → RouteFrame → RouteOut →
    Option DestStep}
  {K : List D → RouteFrame → RouteFrame → RouteOut → Prop}

/-- Two steps for the destinations of a rule do the same, as far as something is known of the
destinations that are left. -/
def StepsAlike (R : RouteFrame → RouteFrame → Prop)
    (K : List D → RouteFrame → RouteFrame → RouteOut → Prop)
    (step step' : RuleOf D → D → Bool → RouteFrame → RouteOut → Option DestStep) (w : RuleOf D) :
    Prop :=
  ∀ d ds fr fr' out out', R fr fr' → out.Same out' → K (d :: ds) fr fr' out' →
    Option.Rel (fun s s' => s.Same R s' ∧
      (s'.full = false → s'.skip = false → K ds s.frame s'.frame s'.out))
      (step w d ds.isEmpty fr out) (step' w d ds.isEmpty fr' out')

theorem routeDests_same (hsteps : StepsAlike R K step step' w) {ds : List D} (h : R fr fr')
    (hout : out.Same out') (hK : K ds fr fr' out') :
    Option.Rel (RouteStep.Same R) (routeDests step w ds fr out)
      (routeDests step' w ds fr' out') := by
  induction ds generalizing fr fr' out out' with
  | nil => exact .some ⟨rfl, h, hout⟩
  | cons d ds ih =>
    have hstep := hsteps d ds fr fr' out out' h hout hK
    rw [routeDests, routeDests]
    rcases optionRel_cases hstep with ⟨hs, hs'⟩ | ⟨s, s', hs, hs', hsame, hnext⟩
    · rw [hs, hs']
      exact .none
    · simp only [hs, hs', hsame.full, hsame.skip]
      split
      · exact .some ⟨rfl, hsame.frame, hsame.out⟩
      case isFalse hfull =>
        split
        · exact .some ⟨rfl, hsame.frame, hsame.out⟩
        case isFalse hskip =>
          exact ih hsame.frame hsame.out
            (hnext (Bool.eq_false_iff.2 hfull) (Bool.eq_false_iff.2 hskip))

/-- A rule for arrays of spans with anything in them: behind the match they agree on the spans that
the expression sets. -/
theorem routeRule_same (hsteps : StepsAlike R K step step' w) (h : R fr fr')
    (hmetric : fr.metric = fr'.metric)
    (hfirstspace : fr.firstspace = fr'.firstspace) (hout : out.Same out')
    (hfires : ∀ spans : List Span, spans.length = w.spans →
      routerMetricMatches env.regex env.outside w.toMatcher fr'.metric fr'.firstspace fr'.pmatch =
        (true, setSpans spans fr'.pmatch) →
      R { fr with pmatch := setSpans spans fr.pmatch, stop := w.stop }
        { fr' with pmatch := setSpans spans fr'.pmatch, stop := w.stop } ∧
      K (w.dest :: w.dests) { fr with pmatch := setSpans spans fr.pmatch, stop := w.stop }
        { fr' with pmatch := setSpans spans fr'.pmatch, stop := w.stop }
        { out' with log := out'.log ++ [.fired w.id] }) :
    Option.Rel (RouteStep.Same R) (routeRule env step w fr out)
      (routeRule env step' w fr' out') := by
  obtain ⟨spans, hmatch, hspans⟩ :=
    routerMetricMatches_found env.regex env.outside w.toMatcher fr.metric
    fr.firstspace
  have hmatch' := hmatch fr'.pmatch
  rw [hmetric, hfirstspace] at hmatch'
  rw [routeRule, routeRule, hmatch, hmatch']
  cases spans with
  | none => exact .some ⟨rfl, h, hout⟩
  | some l =>
    obtain ⟨hR, hK⟩ := hfires l (hspans l rfl) hmatch'
    exact routeDests_same hsteps hR (hout.add_log _) hK

/-- The loop goes on in step, as long as the steps that it comes to do the same. -/
theorem runUntil_same {α : Type} {step step' : α → RouteFrame → RouteOut → Option RouteStep}
    {C : Reached α → Prop} {l : List α} (hstop : ∀ fr fr', R fr fr' → fr.stop = fr'.stop)
    (hstep : ∀ a ∈ l, ∀ fr fr' out out', R fr fr' → out.Same out' → C ⟨a, fr', out'⟩ →
      Option.Rel (RouteStep.Same R) (step a fr out) (step' a fr' out'))
    (hreached : ∀ v ∈ reached step' l fr' out', C v) (h : R fr fr') (hout : out.Same out') :
    Option.Rel (RouteStep.Same R) (runUntil step l fr out) (runUntil step' l fr' out') := by
  induction l generalizing fr fr' out out' with
  | nil => exact .some ⟨rfl, h, hout⟩
  | cons a l ih =>
    have hfirst := hstep a mem_cons_self fr fr' out out' h hout (hreached _ mem_cons_self)
    rw [runUntil, runUntil]
    rcases optionRel_cases hfirst with ⟨hs, hs'⟩ | ⟨s, s', hs, hs', hsame⟩
    · rw [hs, hs']
      exact .none
    · simp only [hs, hs', hsame.full, hstop _ _ hsame.frame]
      split
      · exact .some hsame
      case isFalse hends =>
        simp only [reached, hs', if_neg hends, forall_mem_cons] at hreached
        exact ih (fun a ha => hstep a (mem_cons_of_mem _ ha)) hreached.2 hsame.frame hsame.out

end

/-- Whether the rule matches a line. -/
def Rule.hits (env : RouteEnv) (w : Rule) (metric : Text) (firstspace : Nat) : Bool :=
  (routerMetricMatches env.regex env.outside w.toMatcher metric firstspace env.garbage).1

/-- The spans do not matter for it. -/
theorem Rule.hits_eq {env : RouteEnv} (w : Rule) {metric : Text} {firstspace : Nat}
    (pmatch : Nat → Span) :
    (routerMetricMatches env.regex env.outside w.toMatcher metric firstspace pmatch).1 =
      w.hits env metric firstspace := by
  obtain ⟨spans, hmatch, -⟩ := routerMetricMatches_found env.regex env.outside w.toMatcher metric
    firstspace
  rw [Rule.hits, hmatch, hmatch]

/-- Two moments of calls with the same line and, under a condition, the same spans. -/
def RouteFrame.SameSpans (P : Prop) (fr fr' : RouteFrame) : Prop :=
  fr.SameLine fr' ∧ (P → fr.pmatch = fr'.pmatch)

section
variable {env : RouteEnv} {fr fr' : RouteFrame} {out out' : RouteOut}

/-- A rule does the same for the same spans, and for others if it keeps to its own. -/
theorem routeRule_sameSpans {w : Rule} (P : Prop) (h : fr.SameSpans P fr') (hout : out.Same out')
    (hw : w.hits env fr'.metric fr'.firstspace = true → P ∨ w.OwnSpans) :
    Option.Rel (RouteStep.Same (RouteFrame.SameSpans P)) (routeRule env (destStep env) w fr out)
      (routeRule env (destStep env) w fr' out') := by
  have hsteps : StepsAlike (RouteFrame.SameSpans P)
      (fun ds g g' _ => (∀ d ∈ ds, d ∈ w.dest :: w.dests) ∧
      (P ∨ w.OwnSpans ∧ AgreeUpTo w.spans g.pmatch g'.pmatch)) (destStep env) (destStep env) w := by
    rintro d ds g g' out out' hsame hout ⟨hds, hspans⟩
    rw [forall_mem_cons] at hds
    have hreads : ∀ text, d.Expands w text → w.toMatcher.Reads text g.pmatch g'.pmatch := by
      intro text htext
      rcases hspans with hP | ⟨hown, hagree⟩
      · exact .inl (hsame.2 hP)
      · exact .inr ⟨hown d hds.1 text htext, hagree⟩
    refine optionRel_mono ?_ (destStep_same ds.isEmpty hsame.1 hout hreads)
    rintro s s' ⟨hstep, spans, -, hset, hset'⟩
    refine ⟨⟨hstep.full, hstep.skip, ⟨hstep.frame, fun hP => ?_⟩, hstep.out⟩,
      fun _ _ => ⟨hds.2, hspans.imp_right ?_⟩⟩
    · rw [hset.pmatch, hset'.pmatch, hsame.2 hP]
    · rintro ⟨hown, hagree⟩
      rw [hset.pmatch, hset'.pmatch]
      exact ⟨hown, hagree.setSpans spans⟩
  refine routeRule_same hsteps h h.1.metric h.1.firstspace hout fun spans hspans hmatch =>
    ⟨⟨?_, ?_⟩, ?_, ?_⟩
  · exact ⟨h.1.metric, h.1.firstspace, rfl⟩
  · exact fun hP => congrArg (setSpans spans) (h.2 hP)
  · exact fun d hd => hd
  · rw [← w.hits_eq fr'.pmatch, hmatch] at hw
    exact (hw rfl).imp_right fun hown => ⟨hown, .of_set hspans.ge _ _⟩

end

end CarbonRelay
