import CarbonRelay.Router.Optimise

/-!
# The table of a configuration

The statements of the configuration that make rules, and what the parser does for each: `match`,
`rewrite` and `aggregate` put rules at the end of the table, and an aggregate or the statistics with
destinations of their own put a stub route in front of it. A `match` without destinations is
accepted as well, but to use the table then is undefined (`RouteTable.optimise`).
-/

namespace CarbonRelay

open List

/-- What `%p` prints, which is left to the C library. -/
structure PointerFormat where
  text : Nat → Text
  inj : ∀ {a b}, a < 2 ^ 64 → b < 2 ^ 64 → text a = text b → a = b
  plain : ∀ {a c}, c ∈ text a → c.isAlphanum = true
  short : ∀ {a}, a < 2 ^ 64 → (text a).length ≤ 28

/-- The decimal digits of an address. -/
def PointerFormat.decimal : PointerFormat where
  text := Text.decimal
  inj {a b} _ _ h := by
    rw [← Nat.ofDigitChars_toDigits (b := 10) (n := a) (by decide) (by decide),
      ← Nat.ofDigitChars_toDigits (b := 10) (n := b) (by decide) (by decide)]
    exact congrArg (Nat.ofDigitChars 10 · 0) h
  plain h := by
    rw [Char.isAlphanum, Nat.isDigit_of_mem_toDigits (by decide) (by decide) h, Bool.or_true]
  short h := (Nat.length_toDigits_le_iff (by decide) (by decide)).2 (h.trans (by decide))

/-- The two kinds of stub, `AGGRSTUB` and `STATSTUB`. -/
inductive StubType
  | aggr
  | stat
  deriving DecidableEq, Repr

/-- `router.c:81 STUB_AGGR`, `STUB_STATS`. -/
def StubType.head : StubType → Text
  | .aggr => "_aggregator_stub_".toList
  | .stat => "_collector_stub_".toList

/-- The name of a stub, in a buffer of 48 bytes. -/
def stubname (fmt : PointerFormat) (type : StubType) (addr : Nat) : Text :=
  (type.head ++ fmt.text addr ++ "__".toList).take 47

/-- `aggregator.c:136 aggregator_set_stub`: the new names of the computes. -/
def aggregatorSetStub (stub : Text) (templates : List Text) : List Text :=
  templates.map fun template => (stub ++ template).take (metricBufsiz - 1)

/-- The names of the computes of an aggregate, which has a stub if it has destinations. -/
def aggregateNames (fmt : PointerFormat) (aggr : Nat) (templates : List Text) :
    List Target → List Text
  | [] => templates
  | _ :: _ => aggregatorSetStub (stubname fmt .aggr aggr) templates

/-- A statement that makes rules. An aggregator and the router have an address. -/
inductive Statement
  | matching (exprs : List Matcher) (validate : Option Validation) (masq : Option Text)
      (dests : List Target) (stop : Bool)
  | rewrite (expr : Matcher) (replacement : Text)
  | aggregate (exprs : List Matcher) (aggr : Nat) (templates : List Text) (dests : List Target)
      (stop : Bool)
  | statistics (rtr : Nat) (dests : List Target)
  deriving DecidableEq, Repr

/-- The fields of a new rule that are not set. -/
structure Unset where
  nmatch : Nat
  masq : Option Text
  deriving DecidableEq, Repr

/-- The table while it is made. `nextId` numbers the rules, and `bare` are those without
destinations. -/
structure RouteTable where
  routes : List Rule
  bare : List Nat
  nextId : Nat
  deriving DecidableEq, Repr

/-- `router.c:1006 router_add_route`. -/
def routerAddRoute (rtr : RouteTable) (expr : Matcher) (masq : Option Text) (stop : Bool) :
    List Dest → RouteTable
  | [] => { rtr with bare := rtr.bare ++ [rtr.nextId], nextId := rtr.nextId + 1 }
  | dest :: dests =>
    { rtr with
      routes := rtr.routes ++ [{ expr with id := rtr.nextId, stop, masq, dest, dests }]
      nextId := rtr.nextId + 1 }

/-- The rule behind a stub. -/
def stubSend (unset : Nat → Unset) (id : Nat) (dest : Target) (dests : List Target) :
    RuleOf Target where
  matchtype := .matchall
  pattern := []
  strmatch := []
  nmatch := (unset id).nmatch
  id
  stop := true
  masq := (unset id).masq
  dest
  dests

/-- The rule that catches a stub. -/
def stubCatch (unset : Nat → Unset) (id : Nat) (name : Text) (send : RuleOf Target) : Rule where
  matchtype := .startsWith
  pattern := name
  strmatch := name
  nmatch := (unset id).nmatch
  id
  stop := true
  masq := (unset id).masq
  dest := .stub [send]
  dests := []

/-- `router.c:1051 router_add_stubroute`, which is called only with destinations. -/
def routerAddStubroute (fmt : PointerFormat) (unset : Nat → Unset) (rtr : RouteTable)
    (type : StubType) (addr : Nat) : List Target → RouteTable
  | [] => rtr
  | dest :: dests =>
    { rtr with
      routes := stubCatch unset (rtr.nextId + 1) (stubname fmt type addr)
        (stubSend unset rtr.nextId dest dests) :: rtr.routes
      nextId := rtr.nextId + 2 }

/-- What the parser does for a statement. -/
def Statement.apply (fmt : PointerFormat) (unset : Nat → Unset) (rtr : RouteTable) :
    Statement → RouteTable
  | .matching exprs validate masq dests stop =>
    let stop := match dests with
      | [] => false
      | .blackhole :: _ => true
      | _ => stop
    exprs.foldl (fun rtr expr => routerAddRoute rtr expr masq stop
      ((validate.map Dest.validation).toList ++ dests.map Dest.target)) rtr
  | .rewrite expr replacement =>
    routerAddRoute rtr expr (unset rtr.nextId).masq false [.rewrite replacement]
  | .aggregate exprs aggr templates dests stop =>
    let names := aggregateNames fmt aggr templates dests
    let rtr := exprs.foldl (fun rtr expr => routerAddRoute rtr expr (unset rtr.nextId).masq stop
      (.aggregation aggr names :: dests.map Dest.target)) rtr
    routerAddStubroute fmt unset rtr .aggr aggr dests
  | .statistics addr dests => routerAddStubroute fmt unset rtr .stat addr dests

/-- The table of a configuration. -/
def configure (fmt : PointerFormat) (unset : Nat → Unset) (statements : List Statement) :
    RouteTable :=
  statements.foldl (Statement.apply fmt unset) ⟨[], [], 0⟩

/-- `router_optimise` of a table, where every rule has destinations: it and `router_route` follow
the pointer to the first destination of each rule they come to. -/
def RouteTable.optimise (threshold : Int) (rtr : RouteTable) : Option Optimised :=
  if rtr.bare = [] then routerOptimise threshold rtr.routes else none

theorem RouteTable.optimise_eq_some {threshold : Int} {rtr : RouteTable} {opt : Optimised}
    (h : rtr.optimise threshold = some opt) : routerOptimise threshold rtr.routes = some opt := by
  rw [RouteTable.optimise] at h
  split at h
  · exact h
  · cases h

/-! ## The rules of a table -/

/-- What the rules of a configuration are: the rule of a stub, or one that has clusters behind its
first destination, which is no stub. -/
inductive Rule.Made (fmt : PointerFormat) (unset : Nat → Unset) : Rule → Prop
  | stub (type : StubType) (addr id : Nat) (send : RuleOf Target) :
      Made fmt unset (stubCatch unset id (stubname fmt type addr) send)
  | plain (w : Rule) (hdest : ∀ routes, w.dest ≠ .stub routes)
    (hdests : ∀ d ∈ w.dests, ∃ t, d = .target t) :
      Made fmt unset w

section
variable {fmt : PointerFormat} {unset : Nat → Unset} {rtr : RouteTable}

theorem routerAddRoute_made {expr : Matcher} {masq : Option Text} {stop : Bool} {dests : List Dest}
    (hdest : ∀ routes, dests.head? ≠ some (.stub routes))
    (hdests : ∀ d ∈ dests.tail, ∃ t, d = .target t)
    (h : ∀ w ∈ rtr.routes, Rule.Made fmt unset w) :
    ∀ w ∈ (routerAddRoute rtr expr masq stop dests).routes, Rule.Made fmt unset w := by
  cases dests with
  | nil => exact h
  | cons dest dests =>
    intro w hw
    rcases mem_append.1 hw with hw | hw
    · exact h w hw
    · rw [mem_singleton.1 hw]
      exact .plain _ (fun routes heq => hdest routes (congrArg some heq)) hdests

theorem routerAddStubroute_made {type : StubType} {addr : Nat} {dests : List Target}
    (h : ∀ w ∈ rtr.routes, Rule.Made fmt unset w) :
    ∀ w ∈ (routerAddStubroute fmt unset rtr type addr dests).routes, Rule.Made fmt unset w := by
  cases dests with
  | nil => exact h
  | cons dest dests => exact forall_mem_cons.2 ⟨.stub type addr _ _, h⟩

/-- A rule for each expression. -/
theorem foldl_made {f : RouteTable → Matcher → RouteTable} {exprs : List Matcher}
    (hf : ∀ rtr expr, (∀ w ∈ rtr.routes, Rule.Made fmt unset w) →
      ∀ w ∈ (f rtr expr).routes, Rule.Made fmt unset w)
    (h : ∀ w ∈ rtr.routes, Rule.Made fmt unset w) : ∀ w ∈ (exprs.foldl f rtr).routes,
      Rule.Made fmt unset w := by
  induction exprs generalizing rtr with
  | nil => exact h
  | cons expr exprs ih => exact ih (hf rtr expr h)

theorem Statement.apply_made (st : Statement) (h : ∀ w ∈ rtr.routes, Rule.Made fmt unset w) :
    ∀ w ∈ (st.apply fmt unset rtr).routes, Rule.Made fmt unset w := by
  have htargets (dests : List Target) : ∀ d ∈ dests.map Dest.target, ∃ t, d = .target t := by
    intro d hd
    obtain ⟨t, -, rfl⟩ := mem_map.1 hd
    exact ⟨t, rfl⟩
  cases st with
  | matching exprs validate masq dests stop =>
    refine foldl_made (fun _ _ => routerAddRoute_made ?_ ?_) h
    · intro routes
      cases validate with
      | none => cases dests <;> simp
      | some v => simp
    · cases validate with
      | none => exact fun d hd => htargets dests d (mem_of_mem_tail hd)
      | some v => exact htargets dests
  | rewrite expr replacement =>
    exact routerAddRoute_made (by simp) (forall_mem_nil _) h
  | aggregate exprs aggr templates dests stop =>
    exact routerAddStubroute_made
      (foldl_made (fun _ _ => routerAddRoute_made (by simp) (htargets dests)) h)
  | statistics addr dests => exact routerAddStubroute_made h

theorem configure_made (fmt : PointerFormat) (unset : Nat → Unset) (statements : List Statement) :
    ∀ w ∈ (configure fmt unset statements).routes, Rule.Made fmt unset w := by
  have hfold : ∀ (l : List Statement) (rtr : RouteTable),
      (∀ w ∈ rtr.routes, Rule.Made fmt unset w) →
      ∀ w ∈ (l.foldl (Statement.apply fmt unset) rtr).routes, Rule.Made fmt unset w := by
    intro l
    induction l with
    | nil => exact fun _ h => h
    | cons st l ih => exact fun rtr h => ih _ (st.apply_made h)
  exact hfold statements ⟨[], [], 0⟩ (forall_mem_nil _)

end

end CarbonRelay
