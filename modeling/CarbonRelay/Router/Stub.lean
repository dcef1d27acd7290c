import CarbonRelay.Router.Result
import CarbonRelay.Router.Config
import CarbonRelay.Router.Effects
import CarbonRelay.Router.Expansion
import Mathlib.Data.List.Pairwise

/-!
# Stub routes

The output of an aggregate with destinations of its own comes back with the name of a stub in front,
so that the stub route catches it: `router_add_stubroute` puts that in front of the table. A line
that begins with the name goes to the destinations of the aggregate and no other rule sees it
(`routerRoute_stub`), also after the optimiser. But the name is put in front of the template of a
compute, and what the rewriter makes of a template has the path in front of the match before it.
-/

namespace CarbonRelay

open List

/-! ## Names -/

section
variable {fmt : PointerFormat} {type type' : StubType} {addr addr' : Nat}

theorem stubname_eq (fmt : PointerFormat) (type : StubType) (h : addr < 2 ^ 64) :
    stubname fmt type addr = type.head ++ (fmt.text addr ++ ['_', '_']) := by
  rw [stubname, append_assoc]
  refine take_of_length_le ?_
  have hshort := fmt.short h
  have hhead : type.head.length ≤ 17 := by cases type <;> decide
  simp only [length_append]
  have htail : ("__".toList).length = 2 := rfl
  omega

/-- The letter that the two kinds of stub differ in. -/
def StubType.second : StubType → Char
  | .aggr => 'a'
  | .stat => 'c'

theorem StubType.second_inj (h : type.second = type'.second) : type = type' := by
  revert h
  cases type <;> cases type' <;> decide

theorem head_append_second (type : StubType) (s : Text) :
    (type.head ++ s)[1]? = some type.second := by
  cases type <;> rfl

theorem plain_ne_underscore {c : Char} (h : c ∈ fmt.text addr) : c ≠ '_' := by
  rintro rfl
  exact absurd (fmt.plain h) (by decide)

/-- The digits in front of the first underscore. -/
theorem text_append_underscore_inj {s t : Text}
    (h : fmt.text addr ++ '_' :: s = fmt.text addr' ++ '_' :: t) :
    fmt.text addr = fmt.text addr' := by
  have hdigits : ∀ (addr : Nat) (s : Text),
      (fmt.text addr ++ '_' :: s).takeWhile (· ≠ '_') = fmt.text addr := by
    intro addr s
    rw [takeWhile_append_of_pos fun c hc => by simpa using plain_ne_underscore hc]
    simp
  rw [← hdigits addr s, h, hdigits]

/-- A line begins with the name of one stub at most. -/
theorem stubname_unique {line : Text} (haddr : addr < 2 ^ 64) (haddr' : addr' < 2 ^ 64)
    (h : stubname fmt type addr <+: line) (h' : stubname fmt type' addr' <+: line) :
    type = type' ∧ addr = addr' := by
  obtain ⟨s, rfl⟩ := h
  obtain ⟨t, ht⟩ := h'
  rw [stubname_eq fmt _ haddr, stubname_eq fmt _ haddr'] at ht
  simp only [append_assoc] at ht
  obtain rfl : type = type' := by
    have hsecond := congrArg (fun text => text[1]?) ht
    simp only [head_append_second] at hsecond
    exact StubType.second_inj (Option.some.inj hsecond).symm
  have htext := append_cancel_left ht
  exact ⟨rfl, (fmt.inj haddr' haddr (text_append_underscore_inj htext)).symm⟩

theorem stubname_plain (haddr : addr < 2 ^ 64) : '\\' ∉ stubname fmt type addr := by
  rw [stubname_eq fmt type haddr]
  simp only [mem_append, not_or]
  refine ⟨by cases type <;> decide, fun hmem => ?_, by decide⟩
  exact absurd (fmt.plain hmem) (by decide)

theorem stubname_length : (stubname fmt type addr).length < metricBufsiz - 1 := by
  have hle : (stubname fmt type addr).length ≤ 47 := length_take_le _ _
  have hbuf : metricBufsiz = 32768 := rfl
  omega

/-- The name that a metric has in a compute with a stub begins with the stub exactly if nothing is
in front of it, or what is in front makes no difference. -/
theorem stub_prefix_outputName {outside : Int → Char} {metric : Text} {firstspace nmatch : Nat}
    {pmatch : Nat → Span} {stub template name : Text} (hplain : '\\' ∉ stub)
    (hstub : stub.length < metricBufsiz - 1) (hdata : 2 ≤ (metric.drop firstspace).length)
    (hname : outputName outside metric firstspace nmatch pmatch
      ((stub ++ template).take (metricBufsiz - 1)) = some name) :
    stub <+: name ↔ nmatch = 0 ∨ stub <+: slice outside metric 0 (pmatch 0).1 ++ stub := by
  have htake : (stub ++ template).take (metricBufsiz - 1) =
      stub ++ template.take (metricBufsiz - 1 - stub.length) := by
    rw [take_append, take_of_length_le hstub.le]
  rw [htake, outputName] at hname
  split at hname
  case isTrue hzero =>
    cases hname
    exact iff_of_true (prefix_append _ _) (.inl hzero)
  case isFalse hzero =>
    obtain ⟨⟨line, firstspace'⟩, hrewrite, rfl⟩ := Option.map_eq_some_iff.1 hname
    obtain ⟨rfl, rfl, hlength⟩ := routerRewriteMetric_some hrewrite
    simp only [hzero, false_or, take_left]
    have hpath := rewrittenPath_plain hplain hdata hlength
    constructor
    · intro hstart
      exact prefix_of_prefix_length_le hstart hpath (by simp)
    · intro hstart
      exact hstart.trans hpath

/-! ## Where the stub routes are -/

/-- A stub route that was made: for whom, where it sends to, and the number of the rule behind it.
-/
structure StubRoute where
  type : StubType
  addr : Nat
  dest : Target
  dests : List Target
  id : Nat
  deriving DecidableEq, Repr

/-- What the stub was made for. -/
def StubRoute.owner (s : StubRoute) : StubType × Nat := (s.type, s.addr)

/-- The rule that catches the stub. -/
def StubRoute.rule (fmt : PointerFormat) (unset : Nat → Unset) (s : StubRoute) : Rule :=
  stubCatch unset (s.id + 1) (stubname fmt s.type s.addr) (stubSend unset s.id s.dest s.dests)

/-- The rule behind the stub, as a rule of its own: `match * send to ... stop;`. -/
def StubRoute.alone (unset : Nat → Unset) (s : StubRoute) : Rule where
  matchtype := .matchall
  pattern := []
  strmatch := []
  nmatch := (unset s.id).nmatch
  id := s.id
  stop := true
  masq := (unset s.id).masq
  dest := .target s.dest
  dests := s.dests.map .target

/-- The object that a statement is about, if it is one that can have a stub. -/
def Statement.owner : Statement → Option (StubType × Nat)
  | .aggregate _ aggr _ _ _ => some (.aggr, aggr)
  | .statistics rtr (_ :: _) => some (.stat, rtr)
  | _ => none

/-- The aggregators of a configuration are different objects, and the destinations of the statistics
are set once only. -/
structure DistinctOwners (statements : List Statement) : Prop where
  owners : (statements.filterMap Statement.owner).Nodup
  addresses : ∀ o ∈ statements.filterMap Statement.owner, o.2 < 2 ^ 64

/-- A configured table: the stub routes are in front, and each aggregation has the names of its
statement. -/
structure Layout (fmt : PointerFormat) (unset : Nat → Unset) (statements : List Statement)
    (stubs : List StubRoute) (others : List Rule) : Prop where
  owners : (stubs.map StubRoute.owner).Sublist (statements.filterMap Statement.owner).reverse
  made : ∀ {exprs aggr templates dest dests stop},
    .aggregate exprs aggr templates (dest :: dests) stop ∈ statements →
    ∃ id, ⟨.aggr, aggr, dest, dests, id⟩ ∈ stubs
  names : ∀ w ∈ others, ∀ {aggr names}, w.dest = .aggregation aggr names →
    ∃ exprs templates dests stop, .aggregate exprs aggr templates dests stop ∈ statements ∧
      names = aggregateNames fmt aggr templates dests

variable {unset : Nat → Unset} {statements : List Statement} {stubs : List StubRoute}
  {others : List Rule} {rtr : RouteTable}

/-- Rules for some expressions are put behind the table. -/
theorem foldl_routerAddRoute (masq : RouteTable → Option Text) (stop : Bool) (dests : List Dest)
    (exprs : List Matcher) (rtr : RouteTable) : ∃ new : List Rule,
    (exprs.foldl (fun rtr expr => routerAddRoute rtr expr (masq rtr) stop dests) rtr).routes =
      rtr.routes ++ new ∧ ∀ w ∈ new, w.dest ∈ dests.head? := by
  induction exprs generalizing rtr with
  | nil => exact ⟨[], (append_nil _).symm, nofun⟩
  | cons expr exprs ih =>
    obtain ⟨new, hroutes, hnew⟩ := ih (routerAddRoute rtr expr (masq rtr) stop dests)
    rw [foldl_cons, hroutes]
    cases dests with
    | nil => exact ⟨new, rfl, hnew⟩
    | cons d ds =>
      refine ⟨_ :: new, append_assoc _ _ _, fun w hw => ?_⟩
      rcases mem_cons.1 hw with rfl | hw
      · rfl
      · exact hnew w hw

/-- A statement that puts rules without aggregations behind the table. -/
theorem Layout.append (h : Layout fmt unset statements stubs others) {s : Statement}
    {new : List Rule}
    (howner : s.owner = none) (hnew : ∀ w ∈ new, ∀ aggr names, w.dest ≠ .aggregation aggr names) :
    Layout fmt unset (statements ++ [s]) stubs (others ++ new) where
  owners := by simpa [howner] using h.owners
  made hmem := by
    rcases mem_append.1 hmem with hmem | hmem
    · exact h.made hmem
    · cases mem_singleton.1 hmem
      cases howner
  names w hw aggr names hdest := by
    rcases mem_append.1 hw with hw | hw
    · obtain ⟨exprs, templates, dests, stop, hmem, heq⟩ := h.names w hw hdest
      exact ⟨exprs, templates, dests, stop, mem_append_left _ hmem, heq⟩
    · exact absurd hdest (hnew w hw aggr names)

/-- The stub route that is made for some destinations. -/
def madeStubs (type : StubType) (addr id : Nat) : List Target → List StubRoute
  | [] => []
  | dest :: dests => [⟨type, addr, dest, dests, id⟩]

theorem routerAddStubroute_routes (type : StubType) (addr : Nat) (dests : List Target) :
    (routerAddStubroute fmt unset rtr type addr dests).routes =
      (madeStubs type addr rtr.nextId dests).map (StubRoute.rule fmt unset) ++ rtr.routes := by
  cases dests <;> rfl

section
variable (h : Layout fmt unset statements stubs others)
include h

theorem Layout.aggregate {exprs : List Matcher}
    {aggr : Nat} {templates : List Text} {dests : List Target} {stop : Bool} {new : List Rule}
    (hnew : ∀ w ∈ new, w.dest = .aggregation aggr (aggregateNames fmt aggr templates dests))
    (id : Nat) :
    Layout fmt unset (statements ++ [.aggregate exprs aggr templates dests stop])
      (madeStubs .aggr aggr id dests ++ stubs) (others ++ new) where
  owners := by
    rw [filterMap_append, reverse_append]
    cases dests with
    | nil => exact h.owners.cons _
    | cons d ds => exact h.owners.cons_cons _
  made {exprs' aggr' templates' d ds stop'} hmem := by
    rcases mem_append.1 hmem with hmem | hmem
    · obtain ⟨id, hid⟩ := h.made hmem
      exact ⟨id, mem_append_right _ hid⟩
    · cases mem_singleton.1 hmem
      exact ⟨id, mem_append_left _ (mem_singleton_self _)⟩
  names w hw aggr' names hdest := by
    rcases mem_append.1 hw with hw | hw
    · obtain ⟨exprs, templates, dests, stop, hmem, heq⟩ := h.names w hw hdest
      exact ⟨exprs, templates, dests, stop, mem_append_left _ hmem, heq⟩
    · rw [hnew w hw] at hdest
      cases hdest
      exact ⟨exprs, templates, dests, stop, mem_append_right _ (mem_singleton_self _), rfl⟩

theorem Layout.statistics {addr : Nat} {dests : List Target} (id : Nat) :
    Layout fmt unset (statements ++ [.statistics addr dests])
      (madeStubs .stat addr id dests ++ stubs) others where
  owners := by
    rw [filterMap_append, reverse_append]
    cases dests with
    | nil => exact h.owners
    | cons d ds => exact h.owners.cons_cons _
  made hmem := by
    rcases mem_append.1 hmem with hmem | hmem
    · obtain ⟨id, hid⟩ := h.made hmem
      exact ⟨id, mem_append_right _ hid⟩
    · cases mem_singleton.1 hmem
  names w hw aggr names hdest := by
    obtain ⟨exprs, templates, dests, stop, hmem, heq⟩ := h.names w hw hdest
    exact ⟨exprs, templates, dests, stop, mem_append_left _ hmem, heq⟩

theorem Layout.apply
    (hroutes : rtr.routes = stubs.map (StubRoute.rule fmt unset) ++ others) (s : Statement) :
    ∃ stubs' others', (s.apply fmt unset rtr).routes =
      stubs'.map (StubRoute.rule fmt unset) ++ others' ∧
      Layout fmt unset (statements ++ [s]) stubs' others' := by
  cases s with
  | matching exprs validate masq dests stop =>
    obtain ⟨new, hnew, hdest⟩ :
        ∃ new, (Statement.apply fmt unset rtr (.matching exprs validate masq dests stop)).routes =
          rtr.routes ++ new ∧ _ := foldl_routerAddRoute (fun _ => masq) _
      ((validate.map Dest.validation).toList ++ dests.map Dest.target) exprs rtr
    refine ⟨stubs, others ++ new, ?_, h.append rfl fun w hw aggr names heq => ?_⟩
    · rw [← append_assoc, ← hroutes]
      exact hnew
    · have hhead := mem_of_mem_head? (hdest w hw)
      rw [heq] at hhead
      simp at hhead
  | rewrite expr replacement =>
    obtain ⟨new, hnew, hdest⟩ := foldl_routerAddRoute (fun rtr => (unset rtr.nextId).masq) false
      [.rewrite replacement] [expr] rtr
    refine ⟨stubs, others ++ new, ?_, h.append rfl fun w hw aggr names heq => ?_⟩
    · rw [← append_assoc, ← hroutes]
      exact hnew
    · have hhead := hdest w hw
      rw [heq] at hhead
      cases hhead
  | aggregate exprs aggr templates dests stop =>
    obtain ⟨new, hnew, hdest⟩ := foldl_routerAddRoute (fun rtr => (unset rtr.nextId).masq) stop
      (.aggregation aggr (aggregateNames fmt aggr templates dests) :: dests.map Dest.target) exprs
        rtr
    rw [Statement.apply]
    generalize exprs.foldl (fun rtr expr => routerAddRoute rtr expr (unset rtr.nextId).masq stop
      (.aggregation aggr (aggregateNames fmt aggr templates dests) :: dests.map Dest.target)) rtr =
        rtr' at hnew ⊢
    refine ⟨_, others ++ new, ?_, h.aggregate (fun w hw => ?_) rtr'.nextId⟩
    · rw [routerAddStubroute_routes, hnew, hroutes, map_append, append_assoc, append_assoc]
    · exact (Option.mem_some_iff.1 (hdest w hw)).symm
  | statistics addr dests =>
    rw [Statement.apply]
    refine ⟨_, others, ?_, h.statistics rtr.nextId⟩
    rw [routerAddStubroute_routes, hroutes, map_append, append_assoc]

end

theorem configure_layout (fmt : PointerFormat) (unset : Nat → Unset) (statements : List Statement) :
    ∃ stubs others, (configure fmt unset statements).routes =
      stubs.map (StubRoute.rule fmt unset) ++ others ∧
        Layout fmt unset statements stubs others := by
  induction statements using reverseRecOn with
  | nil => exact ⟨[], [], rfl, List.Sublist.refl _, nofun, nofun⟩
  | append_singleton statements s ih =>
    obtain ⟨stubs, others, hroutes, hlayout⟩ := ih
    rw [configure, foldl_append]
    exact hlayout.apply hroutes s

/-- The statement of an aggregator. -/
theorem DistinctOwners.unique (h : DistinctOwners statements) {s s' : Statement}
    {o : StubType × Nat} (hs : s ∈ statements) (hs' : s' ∈ statements) (ho : s.owner = some o)
    (ho' : s'.owner = some o) :
    s = s' := by
  have howners := h.owners
  rw [List.Nodup, pairwise_filterMap] at howners
  by_contra hne
  refine @List.Pairwise.forall _ _ _ ⟨fun a b hab c hc d hd => ?_⟩ howners s hs s' hs' hne o
    ho o ho' rfl
  exact (hab d hd c hc).symm

end

/-! ## A line that comes back -/

/-- The rules that fired and what they did, apart from the result. -/
def RouteOut.effects (out : RouteOut) : List RouteEvent × List (Server × Text) := (out.log, out.ret)

theorem RouteStep.finish_effects (s : RouteStep) : s.finish.2.effects = s.out.effects := by
  rw [RouteStep.finish]
  split <;> rfl

/-- A stub route that the line does not begin with. -/
def PassedOver (line : Text) (w : Rule) : Prop := w.matchtype = .startsWith ∧ ¬ w.strmatch <+: line

section
variable {env : RouteEnv} {fr : RouteFrame} {out : RouteOut}
  {step : Rule → Dest → Bool → RouteFrame → RouteOut → Option DestStep}

theorem routeRule_passedOver {w : Rule} (h : PassedOver fr.metric w) :
    routeRule env step w fr out = some ⟨false, fr, out⟩ := by
  simp [routeRule, routerMetricMatches, h.1, h.2]

theorem routeRules_passedOver {line : Text} {pre : List Rule} (h : ∀ w ∈ pre, PassedOver line w)
    (hline : fr.metric = line) (hstop : fr.stop = false) (rules : List Rule) :
    routeRules env step (pre ++ rules) fr out = routeRules env step rules fr out := by
  induction pre with
  | nil => rfl
  | cons w pre ih =>
    rw [cons_append, routeRules, routeRule_passedOver (hline ▸ h w mem_cons_self)]
    simp only [hstop, Bool.false_eq_true, or_self, if_false]
    exact ih fun w hw => h w (mem_cons_of_mem _ hw)

variable {unset : Nat → Unset} {id : Nat} {name : Text} {send : RuleOf Target}

theorem routeRule_stubCatch (h : name <+: fr.metric) :
    routeRule env (destStep env) (stubCatch unset id name send) fr out =
      (routeStub env (stubCatch unset id name send) [send] fr
        { out with log := out.log ++ [.fired id] }).map fun out =>
          ⟨false, { fr with
            pmatch := setSpans [(0, (name.length : Int))] fr.pmatch
            stop := true
            wassent := fr.wassent || !out.blackholed }, out⟩ := by
  have hmatch : routerMetricMatches env.regex env.outside (stubCatch unset id name send).toMatcher
      fr.metric fr.firstspace fr.pmatch =
        (true, setSpans [(0, (name.length : Int))] fr.pmatch) := by
    simp [routerMetricMatches, stubCatch, h]
  have hframe : ∀ out, routeStub env (stubCatch unset id name send) [send]
      { fr with pmatch := setSpans [(0, (name.length : Int))] fr.pmatch, stop := true } out =
      routeStub env (stubCatch unset id name send) [send] fr out := fun _ => rfl
  rw [routeRule, hmatch]
  simp only [if_true]
  change routeDests (destStep env) (stubCatch unset id name send) [.stub [send]]
    { fr with pmatch := setSpans [(0, (name.length : Int))] fr.pmatch, stop := true }
    { out with log := out.log ++ [.fired id] } = _
  rw [routeDests, destStep, hframe]
  cases routeStub env (stubCatch unset id name send) [send] fr
    { out with log := out.log ++ [.fired id] } <;> rfl

/-- The call for the rule behind a stub depends on the line, and adds the same to every output. -/
theorem routeStub_effects {w : Rule} {routes : List (RuleOf Target)} {fr' : RouteFrame}
    {e : RouteEvent} (hmetric : fr.metric = fr'.metric)
    (hfirstspace : fr.firstspace = fr'.firstspace)
    (hret : out.ret = []) (hlog : out.log = []) :
    (routeStub env w routes fr { out with log := out.log ++ [e] }).map RouteOut.effects =
      (routeStub env w routes fr' ⟨false, [], [e]⟩).map RouteOut.effects := by
  have hframe : ∀ out, routeStub env w routes fr out = routeStub env w routes fr' out := by
    intro out
    simp only [routeStub, hmetric, hfirstspace]
  have hout : { out with log := out.log ++ [e] } = out ++ ⟨false, [], [e]⟩ := by
    simp [RouteOut.append_def]
  rw [hframe, hout, routeStub_append (by simp [hret]), hret, Option.map_map]
  congr 1
  funext o
  simp [RouteOut.effects, hret, hlog]

variable {tail : Text}

theorem groupTest_of_path (hpath : fr.metric.take fr.firstspace ≠ []) :
    groupTest tail fr = some (tailOccurs tail (fr.metric.take fr.firstspace).reverse) := by
  simp only [groupTest, if_neg hpath]

variable {table : List Route}

/-- A group of stub routes that the line does not begin with does nothing but set the result. -/
theorem routeTable_group_passedOver {members : List Rule}
    (hpath : fr.metric.take fr.firstspace ≠ []) (hstop : fr.stop = false)
    (hmembers : ∀ w ∈ members, PassedOver fr.metric w) : ∃ fr' out',
    routeTable env (.group tail members :: table) fr out = routeTable env table fr' out' ∧
      fr'.metric = fr.metric ∧ fr'.firstspace = fr.firstspace ∧ fr'.stop = false ∧
      out'.ret = out.ret ∧ out'.log = out.log := by
  have hframe : (env.frame fr.metric fr.firstspace).metric = fr.metric := rfl
  have hrun : routeRules env (destStep env) members (env.frame fr.metric fr.firstspace) out =
      some ⟨false, env.frame fr.metric fr.firstspace, out⟩ := by
    rw [← append_nil members, routeRules_passedOver hmembers hframe rfl]
    rfl
  rw [routeTable, groupTest_of_path hpath]
  cases tailOccurs tail (fr.metric.take fr.firstspace).reverse with
  | false =>
    simp only [hstop]
    exact ⟨_, out, rfl, rfl, rfl, rfl, rfl, rfl⟩
  | true =>
    simp only [hrun]
    exact ⟨_, _, rfl, rfl, rfl, rfl, rfl, rfl⟩

/-- A group with a stub route that catches the line. -/
theorem routeTable_group_stubCatch {pre post : List Rule}
    (hpath : fr.metric.take fr.firstspace ≠ []) (hname : name <+: fr.metric)
    (htail : tailOccurs tail (fr.metric.take fr.firstspace).reverse = true)
    (hpre : ∀ w ∈ pre, PassedOver fr.metric w) (hret : out.ret = []) (hlog : out.log = []) :
    (routeTable env (.group tail (pre ++ stubCatch unset id name send :: post) :: table) fr out).map
      (RouteOut.effects ∘ RouteStep.out) =
      (routeStub env (stubCatch unset id name send) [send] fr ⟨false, [], [.fired id]⟩).map
        RouteOut.effects := by
  rw [routeTable, groupTest_of_path hpath, htail]
  dsimp only
  have hcatch : name <+: (env.frame fr.metric fr.firstspace).metric := hname
  have hframe : (env.frame fr.metric fr.firstspace).metric = fr.metric := rfl
  rw [routeRules_passedOver hpre hframe rfl, routeRules, routeRule_stubCatch hcatch,
    ← routeStub_effects hframe rfl hret hlog]
  cases routeStub env (stubCatch unset id name send) [send]
    (env.frame fr.metric fr.firstspace) _ with
  | none => rfl
  | some o => simp [RouteStep.finish, RouteOut.effects]

/-- The table up to a stub route that catches the line. -/
theorem routeTable_stubCatch {pre post : List Rule} {line : Text} {firstspace : Nat}
    (hline : name <+: line) (hpath : line.take firstspace ≠ [])
    (htable : flattenRoutes table = pre ++ stubCatch unset id name send :: post)
    (hpre : ∀ w ∈ pre, PassedOver line w)
    (hgroup : ∀ tail members, Route.group tail members ∈ table →
      stubCatch unset id name send ∈ members →
      tailOccurs tail (line.take firstspace).reverse = true)
    (hmetric : fr.metric = line) (hfirstspace : fr.firstspace = firstspace)
    (hstop : fr.stop = false)
    (hret : out.ret = []) (hlog : out.log = []) :
    (routeTable env table fr out).map (RouteOut.effects ∘ RouteStep.out) =
      (routeStub env (stubCatch unset id name send) [send] (env.frame line firstspace)
        ⟨false, [], [.fired id]⟩).map RouteOut.effects := by
  induction table generalizing pre fr out with
  | nil => simp [flattenRoutes] at htable
  | cons r table ih =>
    have hgroup' := fun tail members hmem => hgroup tail members (mem_cons_of_mem r hmem)
    cases r with
    | rule w =>
      change w :: flattenRoutes table = _ at htable
      rw [routeTable]
      cases pre with
      | nil =>
        obtain ⟨rfl, -⟩ := cons.inj htable
        rw [routeRule_stubCatch (hmetric ▸ hline),
          ← routeStub_effects hmetric hfirstspace hret hlog]
        cases routeStub env (stubCatch unset id name send) [send] fr _ with
        | none => rfl
        | some o => simp
      | cons w' pre =>
        obtain ⟨rfl, hrest⟩ := cons.inj htable
        rw [routeRule_passedOver (hmetric ▸ hpre w mem_cons_self)]
        simp only [hstop, Bool.false_eq_true, or_self, if_false]
        exact ih hrest (fun w hw => hpre w (mem_cons_of_mem _ hw)) hgroup' hmetric hfirstspace hstop
          hret hlog
    | group tail members =>
      change members ++ flattenRoutes table = _ at htable
      subst hmetric hfirstspace
      have hskip : ∀ {pre}, (∀ w ∈ members, PassedOver fr.metric w) →
          flattenRoutes table = pre ++ stubCatch unset id name send :: post →
          (∀ w ∈ pre, PassedOver fr.metric w) →
          (routeTable env (.group tail members :: table) fr out).map
            (RouteOut.effects ∘ RouteStep.out) =
            (routeStub env (stubCatch unset id name send) [send] (env.frame fr.metric fr.firstspace)
              ⟨false, [], [.fired id]⟩).map RouteOut.effects := by
        intro pre hmembers hrest hpre
        obtain ⟨fr', out', hrun, hmetric, hfirstspace, hstop, hret', hlog'⟩ :=
          routeTable_group_passedOver hpath hstop hmembers
        rw [hrun]
        exact ih hrest hpre hgroup' hmetric hfirstspace hstop (hret'.trans hret) (hlog'.trans hlog)
      rcases append_eq_append_iff.1 htable with ⟨pre', rfl, hrest⟩ | ⟨members', rfl, hrest⟩
      · exact hskip (fun w hw => hpre w (mem_append_left _ hw)) hrest
          fun w hw => hpre w (mem_append_right _ hw)
      · cases members' with
        | nil => exact @hskip [] (by simpa using hpre) hrest.symm fun _ hw => (not_mem_nil hw).elim
        | cons w members' =>
          obtain ⟨rfl, -⟩ := cons.inj hrest
          refine routeTable_group_stubCatch hpath hline (hgroup tail _ mem_cons_self ?_)
            hpre hret hlog
          exact mem_append_right _ mem_cons_self

/-! ## The destinations of a stub -/

variable {s : StubRoute}

/-- Sending to a cluster depends on the rule only for what is hashed. -/
theorem targetStep_congr {D D' : Type} {w : RuleOf D} {w' : RuleOf D'} (hmasq : w.masq = w'.masq)
    (hnmatch : w.nmatch = w'.nmatch) (t : Target) :
    targetStep env w t fr out = targetStep env w' t fr out := by
  cases t with
  | blackhole => rfl
  | cluster cl => simp only [targetStep, pushCluster, pushNodes, hashedPath, hmasq, hnmatch]

theorem targetStep_log {D : Type} {w : RuleOf D} {t : Target} {s : DestStep}
    (h : targetStep env w t fr out = some s) : s.out.log = out.log := by
  cases t with
  | blackhole =>
    cases h
    rfl
  | cluster cl =>
    obtain ⟨full, sent, out', rfl, hpushed⟩ := targetStep_cluster h
    obtain ⟨new, rfl, -⟩ := hpushed.appends
    rfl

theorem routeDests_alone (ds : List Target) :
    routeDests (destStep env) (s.alone unset) (ds.map .target) fr out =
      routeDests (stubStep env) (stubSend unset s.id s.dest s.dests) ds fr out := by
  induction ds generalizing fr out with
  | nil => rfl
  | cons d ds ih =>
    rw [map_cons, routeDests, routeDests]
    have hstep : destStep env (s.alone unset) (.target d) (ds.map Dest.target).isEmpty fr out =
        stubStep env (stubSend unset s.id s.dest s.dests) d ds.isEmpty fr out :=
          targetStep_congr rfl rfl d
    rw [hstep]
    simp only [ih]

/-- Only the rule behind the stub fires. -/
theorem routeDests_stubSend_log {m : RuleOf Target} {ds : List Target} {t : RouteStep}
    (h : routeDests (stubStep env) m ds fr out = some t) : t.out.log = out.log := by
  refine @routeDests_invariant Target (fun _ _ o => o.log = out.log) _ _ _ _ _ _
    (fun d _ _ fr e s hs hlog => ?_) h rfl
  exact (targetStep_log hs).trans hlog

theorem routerRoute_alone (env : RouteEnv) (line : Text) (firstspace : Nat) :
    routerRoute env [.rule (s.alone unset)] line firstspace =
      (routeDests (stubStep env) (stubSend unset s.id s.dest s.dests) (s.dest :: s.dests)
        { env.frame line firstspace with stop := true } ⟨false, [], [.fired s.id]⟩).map
          fun t => t.finish.2 := by
  have htable := routeTable_rules env [s.alone unset] (env.frame line firstspace) ⟨false, [], []⟩
  rw [map_singleton] at htable
  rw [routerRoute, htable, routeRules_singleton, routeRule_matchall _ rfl]
  change (routeDests (destStep env) (s.alone unset) ((s.dest :: s.dests).map Dest.target) _ _).map
    _ = _
  rw [routeDests_alone]
  rfl

/-- The call for the rule behind a stub does what the rule does alone with the rest of the line. -/
theorem routeStub_alone (env : RouteEnv) (name line : Text) (firstspace : Nat) :
    routeStub env (stubCatch unset (s.id + 1) name (stubSend unset s.id s.dest s.dests))
      [stubSend unset s.id s.dest s.dests] (env.frame line firstspace) RouteOut.empty =
    routerRoute (env.behind line name.length) [.rule (s.alone unset)] (line.drop name.length)
      (firstspace - name.length) := by
  rw [routerRoute_alone, routeStub, routeRules_singleton, routeRule_matchall _ rfl]
  rfl

theorem routeStub_alone_effects (env : RouteEnv) (name line : Text) (firstspace : Nat) :
    (routeStub env (stubCatch unset (s.id + 1) name (stubSend unset s.id s.dest s.dests))
      [stubSend unset s.id s.dest s.dests] (env.frame line firstspace)
      ⟨false, [], [.fired (s.id + 1)]⟩).map RouteOut.effects =
    (routerRoute (env.behind line name.length) [.rule (s.alone unset)] (line.drop name.length)
      (firstspace - name.length)).map fun out => ([.fired (s.id + 1), .fired s.id], out.ret) := by
  have hsplit : (⟨false, [], [.fired (s.id + 1)]⟩ : RouteOut) =
      ⟨false, [], [.fired (s.id + 1)]⟩ ++ RouteOut.empty := (RouteOut.append_empty _).symm
  rw [hsplit, routeStub_append (Nat.zero_le _), length_nil, RouteEnv.less_zero, routeStub_alone,
    Option.map_map, routerRoute_alone, Option.map_map, Option.map_map]
  refine Option.map_congr fun t ht => ?_
  have hlog : t.finish.2.log = [.fired s.id] :=
    (congrArg Prod.fst t.finish_effects).trans (routeDests_stubSend_log ht)
  simp [RouteOut.effects, hlog]

end

/-! ## Groups with stub routes -/

theorem tailOccurs_iff {name : Text} (hname : name ≠ []) (s : Text) :
    tailOccurs name s = true ↔ name <:+: s := by
  induction s with
  | nil => simp [tailOccurs, hname]
  | cons c s ih => simp [tailOccurs, ih, infix_cons_iff]

/-- The tail of a stub is at the end of its name. -/
theorem routeTail_stubname {fmt : PointerFormat} {type : StubType} {addr : Nat}
    (haddr : addr < 2 ^ 64) {tail : Text} (h : routeTail (stubname fmt type addr) = some tail) :
    tail ≠ [] ∧ tail <+: (stubname fmt type addr).reverse := by
  obtain ⟨s, hs⟩ : ∃ s, (stubname fmt type addr).reverse = '_' :: '_' :: s := by
    rw [stubname_eq fmt type haddr]
    exact ⟨(type.head ++ fmt.text addr).reverse, by simp⟩
  have hstrip : stripTail ((stubname fmt type addr).length + 1) 0
      ('\x00' :: (stubname fmt type addr).reverse) = (stubname fmt type addr).reverse := by
    have hlength : (stubname fmt type addr).length = s.length + 2 := by
      rw [← length_reverse, hs]
      rfl
    rw [hs, hlength]
    simp [stripTail, isTailChar]
  simp only [routeTail, hstrip] at h
  split at h
  · cases h
  split at h
  · cases h
  case isFalse hlength =>
    cases h
    refine ⟨fun hnil => hlength (by simp [hnil]), ?_⟩
    exact (List.take_prefix _ _).trans (List.takeWhile_prefix _)

section
variable {fmt : PointerFormat} {unset : Nat → Unset} {statements : List Statement}
  {stubs : List StubRoute} {others : List Rule} {threshold : Int} {table : List Route}

/-- A line that begins with the name of a stub goes to the destinations of the stub, without the
name, and no other rule sees it. -/
theorem routerRoute_stub (hlayout : Layout fmt unset statements stubs others)
    (hdistinct : DistinctOwners statements) {s : StubRoute} (hs : s ∈ stubs)
    (hoptimise : routerOptimise threshold (stubs.map (StubRoute.rule fmt unset) ++ others) =
      some ⟨table, false⟩) (env : RouteEnv) {line : Text} {firstspace : Nat}
    (hline : stubname fmt s.type s.addr <+: line.take firstspace) :
    let n := (stubname fmt s.type s.addr).length
    (routerRoute env table line firstspace).map RouteOut.effects =
      (routerRoute (env.behind line n) [.rule (s.alone unset)] (line.drop n) (firstspace - n)).map
        fun out => ([.fired (s.id + 1), .fired s.id], out.ret) := by
  have hnodup : (stubs.map StubRoute.owner).Nodup :=
    (nodup_reverse.2 hdistinct.owners).sublist hlayout.owners
  have haddr : ∀ s ∈ stubs, s.addr < 2 ^ 64 := by
    intro s hs
    refine hdistinct.addresses s.owner (mem_reverse.1 (hlayout.owners.subset ?_))
    exact mem_map_of_mem hs
  have hstart : stubname fmt s.type s.addr <+: line := hline.trans (List.take_prefix _ _)
  have hpath : line.take firstspace ≠ [] := by
    intro hnil
    rw [hnil, prefix_nil, stubname_eq fmt _ (haddr s hs)] at hline
    simp at hline
  obtain ⟨table', hoptimise', hperm, hgroups⟩ := routerOptimise_spec threshold
    (stubs.map (StubRoute.rule fmt unset) ++ others)
  cases hoptimise.symm.trans hoptimise'
  obtain ⟨before, after, rfl⟩ := append_of_mem hs
  have hroutes : (before ++ s :: after).map (StubRoute.rule fmt unset) ++ others =
      before.map (StubRoute.rule fmt unset) ++ s.rule fmt unset ::
        (after.map (StubRoute.rule fmt unset) ++ others) := by simp
  have hspecial : (s.rule fmt unset).Special := .inl rfl
  obtain ⟨pre, post, hflatten, hpre, -⟩ := hperm.split hspecial hroutes
  have hpassed : ∀ w ∈ pre, PassedOver line w := by
    intro w hw
    obtain ⟨s', hs', rfl⟩ := mem_map.1 (hpre.mem_iff.2 hw)
    refine ⟨rfl, fun hstart' => ?_⟩
    obtain ⟨htype, haddr'⟩ := stubname_unique (haddr s' (mem_append_left _ hs'))
      (haddr s hs) hstart' hstart
    rw [map_append, map_cons] at hnodup
    refine (nodup_middle.1 hnodup).notMem (mem_append_left _ ?_)
    exact mem_map.2 ⟨s', hs', Prod.ext htype haddr'⟩
  have htails : ∀ tail members, Route.group tail members ∈ table → s.rule fmt unset ∈ members →
      tailOccurs tail (line.take firstspace).reverse = true := by
    intro tail members hgroup hmember
    obtain ⟨hne, htail⟩ := routeTail_stubname (haddr s hs)
      ((hgroups tail members hgroup).2 _ hmember)
    rw [tailOccurs_iff hne]
    exact htail.isInfix.trans (List.reverse_infix.2 hline.isInfix)
  have heffects : RouteOut.effects ∘ (fun s : RouteStep => s.finish.2) =
      RouteOut.effects ∘ RouteStep.out :=
    funext RouteStep.finish_effects
  intro n
  rw [routerRoute, Option.map_map, heffects,
    routeTable_stubCatch hstart hpath hflatten hpassed htails rfl rfl rfl rfl rfl]
  exact routeStub_alone_effects env _ line firstspace

/-! ## The output of an aggregate -/

/-- The output of an aggregate begins with its stub, and comes back to its own destinations only. -/
structure ReturnsTo (fmt : PointerFormat) (unset : Nat → Unset) (table : List Route) (s : StubRoute)
    (name : Text) : Prop where
  begins : stubname fmt s.type s.addr <+: name
  delivered : ∀ env data,
    let line := name ++ ' ' :: data
    let n := (stubname fmt s.type s.addr).length
    (routerRoute env table line name.length).map RouteOut.effects =
      (routerRoute (env.behind line n) [.rule (s.alone unset)] (line.drop n) (name.length - n)).map
        fun out => ([.fired (s.id + 1), .fired s.id], out.ret)

/-- The names of an aggregate with destinations of its own. -/
theorem aggregation_names (hdistinct : DistinctOwners statements) {exprs : List Matcher}
    {aggr : Nat} {templates names : List Text} {dest : Target} {dests : List Target} {stop : Bool}
    (hstatement : .aggregate exprs aggr templates (dest :: dests) stop ∈ statements) {w : Rule}
    (hw : w ∈ (configure fmt unset statements).routes) (hdest : w.dest = .aggregation aggr names) :
    names = aggregatorSetStub (stubname fmt .aggr aggr) templates := by
  obtain ⟨stubs, others, hroutes, hlayout⟩ := configure_layout fmt unset statements
  rw [hroutes] at hw
  rcases mem_append.1 hw with hw | hw
  · obtain ⟨s, -, rfl⟩ := mem_map.1 hw
    cases hdest
  · obtain ⟨exprs', templates', dests', stop', hstatement', rfl⟩ := hlayout.names w hw hdest
    cases hdistinct.unique hstatement hstatement' rfl rfl
    rfl

/-- For every configuration, also after the optimiser: an output of an aggregate with destinations
of its own comes back to these only, exactly if its expression has no groups, or nothing of the path
is in front of the match (or that makes no difference to how the name begins). -/
theorem aggregate_returns_iff (hdistinct : DistinctOwners statements) {exprs : List Matcher}
    {aggr : Nat} {templates names : List Text} {dest : Target} {dests : List Target} {stop : Bool}
    (hstatement : .aggregate exprs aggr templates (dest :: dests) stop ∈ statements)
    (hoptimise : (configure fmt unset statements).optimise threshold = some ⟨table, false⟩)
    {w : Rule} (hw : w ∈ (configure fmt unset statements).routes)
    (hdest : w.dest = .aggregation aggr names) {template : Text} (htemplate : template ∈ names)
    {outside : Int → Char} {metric : Text} {firstspace : Nat} {pmatch : Nat → Span} {name : Text}
    (hdata : ' ' ∈ metric.drop (firstspace + 1))
    (hname : outputName outside metric firstspace w.nmatch pmatch template = some name) :
    (∃ id, ReturnsTo fmt unset table ⟨.aggr, aggr, dest, dests, id⟩ name) ↔
      w.nmatch = 0 ∨ stubname fmt .aggr aggr <+:
        slice outside metric 0 (pmatch 0).1 ++ stubname fmt .aggr aggr := by
  have haddr : aggr < 2 ^ 64 :=
    hdistinct.addresses (.aggr, aggr) (mem_filterMap.2 ⟨_, hstatement, rfl⟩)
  obtain rfl := aggregation_names hdistinct hstatement hw hdest
  obtain ⟨t, -, rfl⟩ := mem_map.1 htemplate
  have hlength : 2 ≤ (metric.drop firstspace).length := by
    have hpos := length_pos_of_mem hdata
    rw [length_drop] at hpos ⊢
    omega
  rw [← stub_prefix_outputName (stubname_plain haddr) stubname_length hlength hname]
  constructor
  · rintro ⟨id, hreturns⟩
    exact hreturns.begins
  · intro hstart
    obtain ⟨stubs, others, hroutes, hlayout⟩ := configure_layout fmt unset statements
    obtain ⟨id, hs⟩ := hlayout.made hstatement
    replace hoptimise := RouteTable.optimise_eq_some hoptimise
    rw [hroutes] at hoptimise
    refine ⟨id, hstart, fun env data => ?_⟩
    exact routerRoute_stub hlayout hdistinct hs hoptimise env (by simpa using hstart)

end

/-- `aggregate foo\.(.*) ... write to agg send to a; match * send to b;`, for an aggregator at an
address. -/
def fooStatements : List Statement :=
  [.aggregate [⟨.regex, "foo\\.(.*)".toList, [], 2⟩] 1 ["agg".toList] [.cluster (.forward 0)] false,
    .matching [⟨.matchall, [], [], 0⟩] none none [.cluster (.forward 1)] false]

/-- The table of these statements, in memory that was zero. -/
def fooRoutes : List Rule := (configure .decimal (fun _ => ⟨0, none⟩) fooStatements).routes

/-- A metric that the expression matches at its front. -/
theorem foo_returns : ∃ id, ReturnsTo .decimal (fun _ => ⟨0, none⟩) (fooRoutes.map .rule)
    ⟨.aggr, 1, .cluster (.forward 0), [], id⟩ "_aggregator_stub_1__agg".toList := by
  have hdistinct : DistinctOwners fooStatements := ⟨by decide, by decide⟩
  have hoptimise : (configure .decimal (fun _ => ⟨0, none⟩) fooStatements).optimise (-1) =
      some ⟨fooRoutes.map .rule, false⟩ := rfl
  obtain ⟨w, hw, hdest, hnmatch⟩ :
      ∃ w ∈ (configure .decimal (fun _ => ⟨0, none⟩) fooStatements).routes,
        w.dest = .aggregation 1 ["_aggregator_stub_1__agg".toList] ∧ w.nmatch = 2 := by
          decide +kernel
  have hname : outputName (fun _ => '\x00') "foo.bar 1 2\n".toList 7 w.nmatch (fun _ => (0, 7))
      "_aggregator_stub_1__agg".toList = some "_aggregator_stub_1__agg".toList := by
    rw [hnmatch]
    decide +kernel
  refine (aggregate_returns_iff hdistinct mem_cons_self hoptimise hw hdest mem_cons_self
    (by decide) hname).2 (.inr ?_)
  exact prefix_rfl

/-- A metric that the expression matches behind its front: what the aggregator makes of it does not
begin with the stub, and goes to the destination of another rule. -/
theorem unanchored_aggregate_escapes :
    let name := "sys._aggregator_stub_1__agg".toList
    (∃ out, routerRoute .basic (fooRoutes.map .rule) "sys.foo.bar 1 2\n".toList 11 = some out ∧
      .aggregated 1 "1 2\n".toList [some name] ∈ out.log) ∧
    ¬ stubname .decimal .aggr 1 <+: name ∧
    ∃ out, routerRoute .basic (fooRoutes.map .rule) (name ++ " 1 2\n".toList) 27 = some out ∧
      out.ret = [(.tcp 1 "localhost".toList 2003, name ++ " 1 2\n".toList)] := by
  intro name
  have hrun : routerRoute .basic (fooRoutes.map .rule) "sys.foo.bar 1 2\n".toList 11 =
      some ⟨false, [(.tcp 1 "localhost".toList 2003, "sys.foo.bar 1 2\n".toList)],
        [.fired 0, .aggregated 1 "1 2\n".toList [some name], .fired 3]⟩ := by decide +kernel
  have hback : routerRoute .basic (fooRoutes.map .rule) (name ++ " 1 2\n".toList) 27 =
      some ⟨false, [(.tcp 1 "localhost".toList 2003, name ++ " 1 2\n".toList)], [.fired 3]⟩ := by
    decide +kernel
  exact ⟨⟨_, hrun, mem_cons_of_mem _ mem_cons_self⟩, by decide +kernel, _, hback, rfl⟩

end CarbonRelay
