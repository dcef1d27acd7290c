import CarbonRelay.Router.Route

/-!
# What a part of a run adds

The parts of `router_route_intern` only add to the output. What they add does not depend on what is
there already, apart from the number of slots that are left: run on `o ++ e`, a part does what it
does on `e` with fewer slots, behind `o`.
-/

namespace CarbonRelay

open List

/-- An output, and what was added to it. -/
instance : Append RouteOut where
  append o e := ⟨o.blackholed || e.blackholed, o.ret ++ e.ret, o.log ++ e.log⟩

/-- The output before anything is done. -/
def RouteOut.empty : RouteOut := ⟨false, [], []⟩

section
variable (o e : RouteOut)

theorem RouteOut.append_def : o ++ e =
    ⟨o.blackholed || e.blackholed, o.ret ++ e.ret, o.log ++ e.log⟩ := rfl

@[simp] theorem RouteOut.append_blackholed : (o ++ e).blackholed = (o.blackholed || e.blackholed) :=
  rfl
@[simp] theorem RouteOut.append_ret : (o ++ e).ret = o.ret ++ e.ret := rfl
@[simp] theorem RouteOut.append_log : (o ++ e).log = o.log ++ e.log := rfl

@[simp] theorem RouteOut.append_empty : o ++ RouteOut.empty = o := by
  simp [RouteOut.append_def, RouteOut.empty]

theorem RouteOut.append_add_ret (new : List (Server × Text)) :
    { o ++ e with ret := (o ++ e).ret ++ new } = o ++ { e with ret := e.ret ++ new } := by
  simp [RouteOut.append_def]

theorem RouteOut.append_add_log (es : List RouteEvent) :
    { o ++ e with log := (o ++ e).log ++ es } = o ++ { e with log := e.log ++ es } := by
  simp [RouteOut.append_def]

end

/-- The same with fewer slots. -/
def RouteEnv.less (env : RouteEnv) (n : Nat) : RouteEnv := { env with retsize := env.retsize - n }

@[simp] theorem RouteEnv.less_zero (env : RouteEnv) : env.less 0 = env := rfl

/-- The same behind what was put out before. -/
def DestStep.after (o : RouteOut) (s : DestStep) : DestStep := { s with out := o ++ s.out }

def RouteStep.after (o : RouteOut) (s : RouteStep) : RouteStep := { s with out := o ++ s.out }

theorem RouteStep.finish_after (o : RouteOut) (s : RouteStep) :
    (s.after o).finish = (s.finish.1, o ++ s.finish.2) := by
  cases hfull : s.full
  · simp [RouteStep.finish, RouteStep.after, hfull, RouteOut.append_def, Bool.or_assoc]
  · simp [RouteStep.finish, RouteStep.after, hfull]

/-! ## Servers -/

section
variable (o e : RouteOut) (format : Server → Option Text)

theorem setMetrics_append (l : List Server) :
    setMetrics format l (o ++ e) = (setMetrics format l e).map (o ++ ·) := by
  induction l generalizing e with
  | nil => rfl
  | cons s l ih =>
    rw [setMetrics, setMetrics]
    cases format s with
    | none => rfl
    | some t => simpa only [RouteOut.append_add_ret] using ih _

theorem pushServers_append (retsize : Nat) (l : List Server) :
    pushServers retsize format l (o ++ e) = (pushServers (retsize - o.ret.length) format l e).map
      fun (full, e) => (full, o ++ e) := by
  induction l generalizing e with
  | nil => rfl
  | cons s l ih =>
    have hslots : retsize < (o ++ e).ret.length + 1 ↔
        retsize - o.ret.length < e.ret.length + 1 := by
      rw [RouteOut.append_ret, length_append]
      omega
    rw [pushServers, pushServers]
    simp only [hslots]
    split
    · rfl
    · cases format s with
      | none => rfl
      | some t => simpa only [RouteOut.append_add_ret] using ih _

theorem pushServer_append (retsize : Nat) (s : Option Server) :
    pushServer retsize format s (o ++ e) = (pushServer (retsize - o.ret.length) format s e).map
      fun (full, e) => (full, o ++ e) := by
  cases s with
  | none => rfl
  | some s => exact pushServers_append o e format retsize [s]

end

section
variable {D : Type} {env : RouteEnv} {o : RouteOut} (e : RouteOut) (fr : RouteFrame)

section
variable (ho : o.ret.length ≤ env.retsize)
include ho

theorem pushNodes_append (w : RuleOf D) (cl : Cluster) :
    pushNodes env w cl fr (o ++ e) = (pushNodes (env.less o.ret.length) w cl fr e).map
      fun (full, sent, e) => (full, sent, o ++ e) := by
  have hslots : env.retsize < (o ++ e).ret.length + cl.replFactor ↔
      (env.less o.ret.length).retsize < e.ret.length + cl.replFactor := by
    rw [RouteOut.append_ret, length_append]
    show _ ↔ env.retsize - o.ret.length < _
    omega
  rw [pushNodes, pushNodes]
  simp only [hslots, setMetrics_append]
  split
  · rfl
  · have hpath : hashedPath (env.less o.ret.length) w fr = hashedPath env w fr := rfl
    have hnodes (path : Text) : ringNodes (env.less o.ret.length) cl path = ringNodes env cl path :=
      rfl
    simp only [hpath, hnodes]
    cases hashedPath env w fr with
    | none => rfl
    | some path =>
      dsimp only
      cases ringNodes env cl path with
      | none => rfl
      | some nodes =>
        simp only [Option.map_map]
        rfl

theorem pushCluster_append (w : RuleOf D) (cl : Cluster) :
    pushCluster env w cl fr (o ++ e) = (pushCluster (env.less o.ret.length) w cl fr e).map
      fun (full, sent, e) => (full, sent, o ++ e) := by
  rw [pushCluster, pushCluster]
  cases cl.type <;> simp only [pushServers_append, pushServer_append, pushNodes_append e fr ho,
    Option.map_map] <;> rfl

theorem targetStep_append (w : RuleOf D) (t : Target) :
    targetStep env w t fr (o ++ e) =
      (targetStep (env.less o.ret.length) w t fr e).map (DestStep.after o) := by
  cases t with
  | blackhole => simp [targetStep, DestStep.after, RouteOut.append_def]
  | cluster cl =>
    simp only [targetStep, pushCluster_append e fr ho, Option.map_map]
    rfl

end

end

/-! ## Rules -/

section
variable {D : Type} {o : RouteOut}
  {step step' : RuleOf D → D → Bool → RouteFrame → RouteOut → Option DestStep}

theorem routeDests_append {w : RuleOf D} (ds : List D)
    (hstep : ∀ d ∈ ds, ∀ last fr e,
      step w d last fr (o ++ e) = (step' w d last fr e).map (.after o))
    (fr : RouteFrame) (e : RouteOut) :
    routeDests step w ds fr (o ++ e) = (routeDests step' w ds fr e).map (.after o) := by
  induction ds generalizing fr e with
  | nil => rfl
  | cons d ds ih =>
    rw [routeDests, routeDests, hstep d mem_cons_self]
    cases step' w d ds.isEmpty fr e with
    | none => rfl
    | some s =>
      simp only [Option.map_some, DestStep.after]
      rw [ih fun d hd => hstep d (mem_cons_of_mem _ hd)]
      split
      · rfl
      · split <;> rfl

theorem routeRule_append (env : RouteEnv) {w : RuleOf D}
    (hstep : ∀ d ∈ w.dest :: w.dests, ∀ last fr e,
      step w d last fr (o ++ e) = (step' w d last fr e).map (.after o)) (fr : RouteFrame)
        (e : RouteOut) :
    routeRule env step w fr (o ++ e) = (routeRule env step' w fr e).map (.after o) := by
  simp only [routeRule, RouteOut.append_add_log]
  split
  · exact routeDests_append _ hstep _ _
  · rfl

theorem routeRules_append (env : RouteEnv) {rules : List (RuleOf D)}
    (hstep : ∀ w ∈ rules, ∀ d ∈ w.dest :: w.dests, ∀ last fr e,
      step w d last fr (o ++ e) = (step' w d last fr e).map (.after o)) (fr : RouteFrame)
        (e : RouteOut) :
    routeRules env step rules fr (o ++ e) = (routeRules env step' rules fr e).map (.after o) := by
  induction rules generalizing fr e with
  | nil => rfl
  | cons w rules ih =>
    rw [routeRules, routeRules, routeRule_append env (hstep w mem_cons_self)]
    cases routeRule env step' w fr e with
    | none => rfl
    | some s =>
      simp only [Option.map_some, RouteStep.after]
      rw [ih fun w hw => hstep w (mem_cons_of_mem _ hw)]
      split <;> rfl

/-- The slots matter for the destinations only. -/
theorem routeRules_less (env : RouteEnv) (n : Nat) (rules : List (RuleOf D)) (fr : RouteFrame)
    (e : RouteOut) : routeRules (env.less n) step rules fr e = routeRules env step rules fr e := by
  induction rules generalizing fr e with
  | nil => rfl
  | cons w rules ih =>
    rw [routeRules, routeRules]
    simp only [ih]
    rfl

variable {env : RouteEnv}

theorem stubRules_append (ho : o.ret.length ≤ env.retsize) (routes : List (RuleOf Target))
    (fr : RouteFrame) (e : RouteOut) :
    routeRules env (stubStep env) routes fr (o ++ e) =
      (routeRules (env.less o.ret.length) (stubStep (env.less o.ret.length)) routes fr e).map
        (.after o) := by
  rw [routeRules_less]
  exact routeRules_append env (fun m _ t _ _ fr e => targetStep_append e fr ho m t) fr e

theorem routeStub_append (ho : o.ret.length ≤ env.retsize) (w : Rule)
    (routes : List (RuleOf Target)) (fr : RouteFrame) (e : RouteOut) :
    routeStub env w routes fr (o ++ e) =
      (routeStub (env.less o.ret.length) w routes fr e).map (o ++ ·) := by
  have hless : (env.less o.ret.length).behind fr.metric w.pattern.length =
      (env.behind fr.metric w.pattern.length).less o.ret.length := rfl
  have ho' : o.ret.length ≤ (env.behind fr.metric w.pattern.length).retsize := ho
  simp only [routeStub, hless, stubRules_append ho', Option.map_map]
  congr 1
  funext s
  simp only [Function.comp, RouteStep.finish_after]

end

end CarbonRelay
