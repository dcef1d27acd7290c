import CarbonRelay.Router.Lockstep
import CarbonRelay.Router.Result

/-!
# Spans of other rules

What a rule expands is meant to be taken from its own match. Here is a run of the routes in which
that is so by construction: every rule is given an array of its own, with anything in it, and a
validation does not write to the array of its rule. The run of `router_route` has the same outcome
where every rule that fires refers only to spans that its expression sets, and no validation sets
spans which are then used (`spans_stay_apart`). Nothing is asked of rules that are not reached or do
not match.
-/

namespace CarbonRelay

open List

/-! ## A run with spans apart -/

/-- A new call. Its array is not looked at. -/
def RouteFrame.fresh (metric : Text) (firstspace : Nat) : RouteFrame :=
  ⟨metric, firstspace, fun _ => (-1, -1), none, false, false⟩

section
variable {D : Type}

/-- A rule, which finds the spare spans with its number in the array. -/
def ownRule (env : RouteEnv) (spare : Nat → Nat → Span)
    (step : RuleOf D → D → Bool → RouteFrame → RouteOut → Option DestStep) (w : RuleOf D)
    (fr : RouteFrame) (out : RouteOut) : Option RouteStep :=
  routeRule env step w { fr with pmatch := spare w.id } out

/-- The loop over rules. -/
def ownRules (env : RouteEnv) (spare : Nat → Nat → Span)
    (step : RuleOf D → D → Bool → RouteFrame → RouteOut → Option DestStep) :
    List (RuleOf D) → RouteFrame → RouteOut → Option RouteStep :=
  runUntil (ownRule env spare step)

end

/-- The rule behind a stub, as `routeStub`. -/
def ownStub (env : RouteEnv) (spare : Nat → Nat → Span) (w : Rule) (routes : List (RuleOf Target))
    (fr : RouteFrame) (out : RouteOut) : Option RouteOut :=
  let n := w.pattern.length
  let env := env.behind fr.metric n
  (ownRules env spare (stubStep env) routes (.fresh (fr.metric.drop n) (fr.firstspace - n)) out).map
    fun s => s.finish.2

/-- A destination, as `destStep`, which leaves the spans as they are. -/
def ownStep (env : RouteEnv) (spare : Nat → Nat → Span) (w : Rule) (d : Dest) (last : Bool)
    (fr : RouteFrame) (out : RouteOut) : Option DestStep :=
  match d with
  | .stub routes =>
    (ownStub env spare w routes fr out).map fun out =>
      ⟨false, false, { fr with wassent := fr.wassent || !out.blackholed }, out⟩
  | d => (destStep env w d last fr out).map fun s =>
    { s with frame := { s.frame with pmatch := fr.pmatch } }

/-- An entry of the table, as `routeEntry`. -/
def ownEntry (env : RouteEnv) (spare : Nat → Nat → Span) :
    Route → RouteFrame → RouteOut → Option RouteStep
  | .rule w, fr, out => ownRule env spare (ownStep env spare) w fr out
  | .group name members, fr, out =>
    match groupTest name fr with
    | none => none
    | some false => some ⟨false, { fr with q := some false }, out⟩
    | some true =>
      (ownRules env spare (ownStep env spare) members (.fresh fr.metric fr.firstspace) out).map
        fun s =>
        ⟨false, { fr with q := some true, stop := s.finish.1, metric := s.frame.metric },
          s.finish.2⟩

/-- The loop over the table. -/
def ownTable (env : RouteEnv) (spare : Nat → Nat → Span) :
    List Route → RouteFrame → RouteOut → Option RouteStep :=
  runUntil (ownEntry env spare)

/-- What a run leaves: the line, which may have been rewritten, and the outputs, without the flag
for metrics that went nowhere. -/
def RouteStep.result (s : RouteStep) : Text × Nat × RouteOut :=
  (s.frame.metric, s.frame.firstspace, { s.out with blackholed := false })

/-! ## Rules that keep to their own spans -/

/-- The rules of a stub expand their texts themselves. -/
def Dest.StubApart : Dest → Prop
  | .stub routes => ∀ m ∈ routes, ∀ cl text, .cluster cl ∈ m.dest :: m.dests →
    cl.type.chType.isSome = true → m.masq = some text → m.toMatcher.RefersOwn text
  | _ => True

/-- The destinations that a rule comes to from here on expand texts that refer to spans which its
expression sets, and no validation that lets the line pass sets spans in front of such a text. -/
def DestsApart (env : RouteEnv) (spare : Nat → Nat → Span) (w : Rule) :
    List Dest → RouteFrame → RouteOut → Prop
  | [], _, _ => True
  | d :: ds, fr, out =>
    (∀ text, d.Expands w text → w.toMatcher.RefersOwn text) ∧ d.StubApart ∧
    ∀ s, ownStep env spare w d ds.isEmpty fr out = some s → s.full = false → s.skip = false →
      (∀ v, d = .validation v → v.rule.spans = 0 ∨ ∀ d' ∈ ds, ∀ text, ¬ d'.Expands w text) ∧
      DestsApart env spare w ds s.frame s.out

/-- A rule that fires keeps to its own spans. -/
def Reached.Apart (env : RouteEnv) (spare : Nat → Nat → Span) (v : Reached Rule) : Prop :=
  let w := v.entry
  let found := routerMetricMatches env.regex env.outside w.toMatcher v.frame.metric
    v.frame.firstspace (spare w.id)
  found.1 = true → DestsApart env spare w (w.dest :: w.dests)
    { v.frame with pmatch := found.2, stop := w.stop }
      { v.out with log := v.out.log ++ [.fired w.id] }

/-- The rules of an entry that fire keep to their own spans. -/
structure Reached.EntryApart (env : RouteEnv) (spare : Nat → Nat → Span) (v : Reached Route) :
    Prop where
  rule : ∀ w, v.entry = .rule w → Reached.Apart env spare ⟨w, v.frame, v.out⟩
  group : ∀ name members, v.entry = .group name members → groupTest name v.frame = some true →
    ∀ u ∈ reached (ownRule env spare (ownStep env spare)) members
      (.fresh v.frame.metric v.frame.firstspace) v.out, u.Apart env spare

/-! ## Comparing the runs -/

/-- Two moments of calls that differ only in the spans. -/
def RouteFrame.SameCall (fr fr' : RouteFrame) : Prop := fr.SameLine fr' ∧ fr.q = fr'.q

theorem RouteStep.Same.result_eq {s s' : RouteStep} (h : s.Same RouteFrame.SameCall s') :
    s.result = s'.result := by
  simp only [RouteStep.result, h.frame.1.metric, h.frame.1.firstspace, h.out.ret, h.out.log]

section
variable {env : RouteEnv} {garbage : Nat → Span} {spare : Nat → Nat → Span} {w : Rule}
  {fr fr' : RouteFrame} {out out' : RouteOut}

/-- The rules behind a stub. -/
theorem ownStub_same {routes : List (RuleOf Target)} (hown : (Dest.stub routes).StubApart)
    (h : fr.SameLine fr') (hout : out.Same out') :
    Option.Rel RouteOut.Same (routeStub { env with garbage } w routes fr out)
      (ownStub env spare w routes fr' out') := by
  rw [routeStub, ownStub, h.metric, h.firstspace, routeRules_eq_runUntil]
  refine optionRel_map (fun s s' hsame => (hsame.finish hsame.frame.stop).2) (runUntil_same
    (R := RouteFrame.SameLine) (C := fun _ => True) (fun _ _ hsame => hsame.stop) ?_
      (fun _ _ => trivial)
    ⟨rfl, rfl, rfl⟩ hout)
  intro m hm fr fr' out out' hsame hout _
  refine routeRule_same (K := fun ds fr fr' _ => (∀ t ∈ ds, t ∈ m.dest :: m.dests) ∧
    AgreeUpTo m.spans fr.pmatch fr'.pmatch) ?_ ⟨hsame.metric, hsame.firstspace, hsame.stop⟩
      hsame.metric
    hsame.firstspace hout ?_
  · rintro t ts fr fr' out out' hsame hout ⟨hts, hagree⟩
    have hmasq : ∀ cl, t = .cluster cl → cl.type.chType.isSome = true → ∀ text, m.masq = some text →
        m.toMatcher.Reads text fr.pmatch fr'.pmatch := by
      rintro cl rfl hch text hmasq
      exact .inr ⟨hown m hm cl text (hts _ mem_cons_self) hch hmasq, hagree⟩
    refine optionRel_mono (fun s s' hfrom => ⟨hfrom.1, fun _ _ => ⟨?_, ?_⟩⟩)
      (targetStep_same hsame hout hmasq (.target t))
    · exact fun t ht => hts t (mem_cons_of_mem _ ht)
    · obtain ⟨-, spans, -, hset, hset'⟩ := hfrom
      rw [hset.pmatch, hset'.pmatch]
      exact hagree.setSpans spans
  · intro spans hspans _
    exact ⟨⟨hsame.metric, hsame.firstspace, rfl⟩, fun _ ht => ht, .of_set hspans.ge _ _⟩

/-- A destination does the same with spans apart. Only a validation that sets spans changes them. -/
theorem ownStep_same {d : Dest} (last : Bool)
    (hreads : ∀ text, d.Expands w text → w.toMatcher.Reads text fr.pmatch fr'.pmatch)
    (hstub : d.StubApart) (h : fr.SameCall fr') (hout : out.Same out') :
    Option.Rel (fun s s' => s.Same RouteFrame.SameCall s' ∧ s'.frame.pmatch = fr'.pmatch ∧
        ((∀ v, d = .validation v → v.rule.spans = 0) → s.frame.pmatch = fr.pmatch))
      (destStep { env with garbage } w d last fr out) (ownStep env spare w d last fr' out') := by
  have hrestore : ∀ s s' : DestStep, s.SameFrom d fr fr' s' →
      s.Same RouteFrame.SameCall { s' with frame := { s'.frame with pmatch := fr'.pmatch } } ∧
        ((∀ v, d = .validation v → v.rule.spans = 0) → s.frame.pmatch = fr.pmatch) := by
    rintro s s' ⟨hsame, spans, hmay, hset, hset'⟩
    refine ⟨⟨hsame.full, hsame.skip,
      ⟨⟨hsame.frame.metric, hsame.frame.firstspace, hsame.frame.stop⟩, ?_⟩,
      hsame.out⟩, fun hnone => ?_⟩
    · exact hset.q.trans (h.2.trans hset'.q.symm)
    · rw [hset.pmatch, hmay hnone]
      rfl
  have hdest : destStep { env with garbage } w d last fr out = destStep env w d last fr out →
      ownStep env spare w d last fr' out' = (destStep env w d last fr' out').map (fun s =>
        { s with frame := { s.frame with pmatch := fr'.pmatch } }) →
      Option.Rel (fun s s' => s.Same RouteFrame.SameCall s' ∧ s'.frame.pmatch = fr'.pmatch ∧
          ((∀ v, d = .validation v → v.rule.spans = 0) → s.frame.pmatch = fr.pmatch))
        (destStep { env with garbage } w d last fr out) (ownStep env spare w d last fr' out') := by
    intro hstep hown
    rw [hstep, hown, ← @Option.map_id' _ (destStep env w d last fr out)]
    refine optionRel_map (fun s s' hfrom => ?_) (destStep_same last h.1 hout hreads)
    exact ⟨(hrestore s s' hfrom).1, rfl, (hrestore s s' hfrom).2⟩
  cases d with
  | stub routes =>
    rw [destStep, ownStep]
    refine optionRel_map (fun o o' ho => ?_) (ownStub_same hstub h.1 hout)
    exact ⟨⟨rfl, rfl, ⟨⟨h.1.metric, h.1.firstspace, h.1.stop⟩, h.2⟩, ho⟩, rfl, fun _ => rfl⟩
  | _ => exact hdest rfl rfl

/-- The destinations that are left keep to their own spans, and the arrays agree on those if one of
them expands a text. -/
def LeftApart (env : RouteEnv) (spare : Nat → Nat → Span) (w : Rule) (ds : List Dest)
    (fr fr' : RouteFrame) (out : RouteOut) : Prop :=
  DestsApart env spare w ds fr' out ∧
    ∀ d ∈ ds, ∀ text, d.Expands w text → AgreeUpTo w.spans fr.pmatch fr'.pmatch

theorem ownStep_alike (w : Rule) : StepsAlike RouteFrame.SameCall (LeftApart env spare w)
    (destStep { env with garbage }) (ownStep env spare) w := by
  rintro d ds fr fr' out out' h hout ⟨⟨hrefers, hstub, hnext⟩, hagree⟩
  have hstep := @ownStep_same env garbage spare w fr fr' out out' d ds.isEmpty
    (fun text htext => .inr ⟨hrefers text htext, hagree d mem_cons_self text htext⟩) hstub h hout
  rcases optionRel_cases hstep with ⟨hs, hs'⟩ | ⟨s, s', hs, hs', hsame, hkept', hkept⟩ <;>
    rw [hs, hs']
  · exact .none
  · refine .some ⟨hsame, fun hfull hskip => ?_⟩
    obtain ⟨hvalidation, hleft⟩ := hnext s' hs' hfull hskip
    refine ⟨hleft, fun d' hd' text htext => ?_⟩
    rw [hkept', hkept fun v hv => (hvalidation v hv).resolve_right fun hnone =>
      hnone d' hd' text htext]
    exact hagree d' (mem_cons_of_mem _ hd') text htext

theorem ownRule_same (hw : Reached.Apart env spare ⟨w, fr', out'⟩) (h : fr.SameCall fr')
    (hout : out.Same out') :
    Option.Rel (RouteStep.Same RouteFrame.SameCall)
      (routeRule { env with garbage } (destStep { env with garbage }) w fr out)
      (ownRule env spare (ownStep env spare) w fr' out') := by
  have hline : fr.SameCall { fr' with pmatch := spare w.id } :=
    ⟨⟨h.1.metric, h.1.firstspace, h.1.stop⟩, h.2⟩
  refine @routeRule_same _ _ env _ _ _ _ _ _ _ _ (ownStep_alike w) hline h.1.metric
    h.1.firstspace hout
    fun spans hspans hmatch => ⟨⟨⟨h.1.metric, h.1.firstspace, rfl⟩, h.2⟩, ?_, fun _ _ _ _ =>
      .of_set hspans.ge _ _⟩
  have hapart := hw (congrArg Prod.fst hmatch)
  rw [hmatch] at hapart
  exact hapart

theorem ownEntry_same {r : Route} (hr : Reached.EntryApart env spare ⟨r, fr', out'⟩)
    (h : fr.SameCall fr') (hout : out.Same out') :
    Option.Rel (RouteStep.Same RouteFrame.SameCall) (routeEntry { env with garbage } r fr out)
      (ownEntry env spare r fr' out') := by
  cases r with
  | rule w => exact ownRule_same (hr.rule w rfl) h hout
  | group name members =>
    obtain ⟨hline, hq⟩ := h
    have htest : groupTest name fr = groupTest name fr' := by
      rw [groupTest, groupTest, hline.metric, hline.firstspace, hq]
    rw [routeEntry, ownEntry, htest, hline.metric, hline.firstspace]
    cases hfound : groupTest name fr' with
    | none => exact .none
    | some found =>
      cases found with
      | false => exact .some ⟨rfl, ⟨⟨rfl, rfl, hline.stop⟩, rfl⟩, hout⟩
      | true =>
        have hcall : Option.Rel (RouteStep.Same RouteFrame.SameCall)
            (routeRules { env with garbage } (destStep { env with garbage }) members
              ({ env with garbage }.frame fr'.metric fr'.firstspace) out)
            (ownRules env spare (ownStep env spare) members (.fresh fr'.metric fr'.firstspace)
              out') := by
          rw [routeRules_eq_runUntil]
          exact runUntil_same (fun _ _ hsame => hsame.1.stop)
            (fun w _ _ _ _ _ hsame hout hw => ownRule_same hw hsame hout)
            (hr.group name members rfl hfound) ⟨⟨rfl, rfl, rfl⟩, rfl⟩ hout
        refine optionRel_map (fun s s' hsame => ?_) hcall
        obtain ⟨hstop, hout⟩ := hsame.finish hsame.frame.1.stop
        exact ⟨rfl, ⟨⟨hsame.frame.1.metric, rfl, hstop⟩, rfl⟩, hout⟩

/-- The rule `rewrite <expr> into <replacement>;`. -/
def Rule.rewriting (expr : Matcher) (replacement : String) : Rule :=
  { expr with
    id := 0, stop := false, masq := none, dest := .rewrite replacement.toList, dests := [] }

/-- A rule without validation, all texts of which refer to spans of its own. -/
theorem Reached.apart_of_ownSpans {v : Reached Rule} (hown : v.entry.OwnSpans)
    (hplain : ∀ d ∈ v.entry.dest :: v.entry.dests, d.StubApart ∧ ∀ check, d ≠ .validation check) :
    v.Apart env spare := by
  have hdests : ∀ ds : List Dest, (∀ d ∈ ds, d ∈ v.entry.dest :: v.entry.dests) → ∀ fr out,
      DestsApart env spare v.entry ds fr out := by
    intro ds
    induction ds with
    | nil => exact fun _ _ _ => trivial
    | cons d ds ih =>
      intro hds fr out
      rw [forall_mem_cons] at hds
      refine ⟨hown d hds.1, (hplain d hds.1).1, fun s _ _ _ => ⟨fun check hd => ?_, ih hds.2 _ _⟩⟩
      exact absurd hd ((hplain d hds.1).2 check)
  exact fun _ => hdests _ (fun _ hd => hd) _ _

/-- What the metrics sent look like. -/
def RouteOut.lines (out : RouteOut) : List String := out.ret.map fun d => String.ofList d.2

/-- Nor is there a group for a reference that is one too large. -/
example :
    let routes := [Route.rule (Rule.rewriting ⟨.regex, "^(foo)".toList, [], 2⟩ "x\\2"),
      .rule .sendAll]
    (routerRoute { RouteEnv.basic with garbage := fun _ => (4, 7) } routes
      "foo.bar 1 2\n".toList 7).map RouteOut.lines = some ["xbar.bar 1 2\n"] := by
  decide +kernel

/-- A validation replaces the span that `route using` starts from. -/
example :
    let w : Rule := { Rule.rewriting ⟨.startsWith, "^foo".toList, "foo".toList, 0⟩ "" with
      masq := some ['x'] }
    let fr : RouteFrame := ⟨"foo.bar 1 2\n".toList, 7, fun _ => (0, 3), none, false, false⟩
    let v : Validation := ⟨⟨.contains, ['2'], ['2'], 0⟩, false⟩
    hashedPath .basic w fr = some "x.bar".toList ∧
    hashedPath .basic w { fr with pmatch := (validData .basic v fr).2 } =
      some "fox.bar".toList := by
  decide +kernel

end

end CarbonRelay
