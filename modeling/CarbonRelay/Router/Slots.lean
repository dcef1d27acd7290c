import CarbonRelay.Router.Result
import CarbonRelay.Router.Config
import CarbonRelay.Cluster.Replicas

/-!
# Destination slots

The caller of `router_route` gives it `retsize` slots. Every branch that fills some of them looks
first whether there are enough, and returns from `router_route_intern` when there are not. The call
for a group hands this on as `stop`. The call for a stub does not, but the rule in front of it
stops, as `router_add_stubroute` makes it. So a run with fewer slots is cut off where it lacks the
first one: what it fills is the front of what the same call fills with more of them
(`slots_filled`).
-/

namespace CarbonRelay

open List Option

/-! ## Runs stay within their slots -/

/-- The slots filled so far: those of `front`, and more behind them, within bounds. -/
def Fills (env : RouteEnv) (front : List (Server × Text)) : CallInvariant := fun _ _ out =>
  front <+: out.ret ∧ out.ret.length ≤ env.retsize

section
variable {retsize : Nat} {format : Server → Option Text} {l : List Server} {out out' : RouteOut}
  {full : Bool}

theorem pushServers_within (h : pushServers retsize format l out = some (full, out'))
    (hout : out.ret.length ≤ retsize) : out'.ret.length ≤ retsize := by
  induction l generalizing out with
  | nil =>
    cases h
    exact hout
  | cons s l ih =>
    rw [pushServers] at h
    split at h
    case isTrue =>
      cases h
      exact hout
    case isFalse hroom =>
      cases hs : format s with
      | none => simp [hs] at h
      | some t =>
        simp only [hs] at h
        refine ih h ?_
        rw [length_append]
        exact Nat.not_lt.1 hroom

variable {D : Type} {env : RouteEnv} {w : RuleOf D} {fr : RouteFrame} {sent : Bool}
  {front : List (Server × Text)}

variable {cl : Cluster}

theorem pushCluster_within (h : pushCluster env w cl fr out = some (full, sent, out'))
    (hout : out.ret.length ≤ env.retsize) : out'.ret.length ≤ env.retsize := by
  rcases pushCluster_cases h with ⟨-, hring⟩ | ⟨-, -, l, -, hpush⟩
  · rcases pushNodes_cases hring with ⟨-, -, -, rfl⟩ | ⟨-, -, -, rfl⟩ |
      ⟨path, nodes, hroom, -, -, hnodes, hset⟩
    · exact hout
    · exact hout
    · obtain ⟨new, rfl, hnew⟩ := setMetrics_eq_some hset
      rwa [← ringNodes_length hnodes, ← hnew, length_map, ← length_append] at hroom
  · exact pushServers_within hpush hout

theorem targetStep_fills {t : Target} {s : DestStep} (h : targetStep env w t fr out = some s)
    (hfills : Fills env front false fr out) : Fills env front s.full s.frame s.out := by
  cases t with
  | blackhole =>
    cases h
    exact hfills
  | cluster cl =>
    obtain ⟨⟨full, sent, out'⟩, hpush, rfl⟩ := map_eq_some_iff.1 h
    obtain ⟨new, hnew, -⟩ := (pushCluster_pushed hpush).appends
    refine ⟨hfills.1.trans ?_, pushCluster_within hpush hfills.2⟩
    rw [hnew]
    exact prefix_append _ _

/-- A rule keeps within the slots if its destinations do. -/
theorem Fills.kept {step : RuleOf D → D → Bool → RouteFrame → RouteOut → Option DestStep}
    (hdest : ∀ d ∈ w.dest :: w.dests, ∀ last fr out s, step w d last fr out = some s →
      Fills env front false fr out → Fills env front s.full s.frame s.out) :
    CallInvariant.Kept (Fills env front) step w where
  miss _ _ _ hfills := hfills
  fire _ _ _ hfills := hfills
  dest := hdest

theorem stubStep_kept (m : RuleOf Target) : CallInvariant.Kept (Fills env front) (stubStep env) m :=
  Fills.kept fun _ _ _ _ _ _ => targetStep_fills

theorem destStep_fills {w : Rule} {d : Dest} {last : Bool} {s : DestStep}
    (h : destStep env w d last fr out = some s) (hfills : Fills env front false fr out) :
    Fills env front s.full s.frame s.out := by
  rcases destStep_cases h with ⟨t, -, ht⟩ | ⟨routes, out', -, hrun, rfl⟩ | ⟨_, _, _, -, -, rfl⟩ |
    ⟨_, _, _, rfl⟩ | ⟨_, _, _, rfl, -⟩
  · exact targetStep_fills ht hfills
  · obtain ⟨t, hrules, rfl⟩ := map_eq_some_iff.1 hrun
    have hbehind : Fills (env.behind fr.metric w.pattern.length) front t.full t.frame t.out :=
      routeRules_invariant (fun m _ => stubStep_kept m) hrules hfills
    exact ⟨t.finish_ret ▸ hbehind.1, t.finish_ret ▸ hbehind.2⟩
  · exact hfills
  · exact hfills
  · exact hfills

theorem destStep_kept (w : Rule) : CallInvariant.Kept (Fills env front) (destStep env) w :=
  Fills.kept fun _ _ _ _ _ _ => destStep_fills

theorem routeEntry_fills {r : Route} {t : RouteStep} (h : routeEntry env r fr out = some t)
    (hfills : Fills env front false fr out) : Fills env front t.full t.frame t.out := by
  refine routeEntry_invariant (I := Fills env front) (fun _ _ h => h)
    (fun w _ _ _ _ => routeRule_invariant (destStep_kept w))
      (fun name members _ fr out s hrun hfills => ?_)
    h hfills
  have hgroup : Fills env front s.full s.frame s.out :=
    routeRules_invariant (fun w _ => destStep_kept w) hrun hfills
  exact ⟨s.finish_ret ▸ hgroup.1, s.finish_ret ▸ hgroup.2⟩

/-! ## Runs that are cut off -/

/-- The same with other slots. -/
def RouteEnv.withSlots (env : RouteEnv) (n : Nat) : RouteEnv := { env with retsize := n }

/-- What a destination does with more slots: the same, or there were too few. -/
def DestStep.Cut (s s' : DestStep) : Prop := s' = s ∨ s.full = true ∧ s.out.ret <+: s'.out.ret

/-- The same for a part of a run, which then is at its end. -/
def RouteStep.Cut (s s' : RouteStep) : Prop :=
  s' = s ∨ (s.full = true ∨ s.frame.stop = true) ∧ s.out.ret <+: s'.out.ret

theorem RouteStep.Cut.prefix_ret {s s' : RouteStep} (h : s.Cut s') : s.out.ret <+: s'.out.ret := by
  rcases h with rfl | ⟨-, h⟩
  · exact prefix_rfl
  · exact h

variable {n : Nat}

theorem pushServers_cut {retsize : Nat} {x x' : Bool × RouteOut} (hle : retsize ≤ n)
    (h : pushServers retsize format l out = some x) (h' : pushServers n format l out = some x') :
    x' = x ∨ x.1 = true ∧ x.2.ret <+: x'.2.ret := by
  induction l generalizing out with
  | nil =>
    cases h
    cases h'
    exact .inl rfl
  | cons s l ih =>
    rw [pushServers] at h
    split at h
    case isTrue =>
      cases h
      obtain ⟨new, hnew, -⟩ := pushServers_eq_some h'
      refine .inr ⟨rfl, ?_⟩
      rw [hnew]
      exact prefix_append _ _
    case isFalse hroom =>
      rw [pushServers, if_neg (fun hlt => hroom (hle.trans_lt hlt))] at h'
      cases hs : format s with
      | none => simp [hs] at h
      | some t =>
        simp only [hs] at h h'
        exact ih h h'

theorem pushNodes_cut {x x' : Bool × Bool × RouteOut} (hle : env.retsize ≤ n)
    (htype : cl.type.chType.isSome = true) (h : pushNodes env w cl fr out = some x)
    (h' : pushNodes (env.withSlots n) w cl fr out = some x') :
    x' = x ∨ x.1 = true ∧ x.2.2.ret <+: x'.2.2.ret := by
  by_cases hroom : env.retsize < out.ret.length + cl.replFactor
  · rw [pushNodes, if_pos hroom] at h
    cases h
    obtain ⟨new, hnew, -⟩ := (Pushed.of_nodes htype h').appends
    refine .inr ⟨rfl, ?_⟩
    rw [hnew]
    exact prefix_append _ _
  · have hroom' : ¬(env.withSlots n).retsize < out.ret.length + cl.replFactor :=
      fun hlt => hroom (hle.trans_lt hlt)
    rw [pushNodes, if_neg hroom] at h
    rw [pushNodes, if_neg hroom'] at h'
    exact .inl (Option.some.inj (h'.symm.trans h))

theorem pushCluster_cut {x x' : Bool × Bool × RouteOut} (hle : env.retsize ≤ n)
    (h : pushCluster env w cl fr out = some x)
    (h' : pushCluster (env.withSlots n) w cl fr out = some x') :
    x' = x ∨ x.1 = true ∧ x.2.2.ret <+: x'.2.2.ret := by
  cases hch : cl.type.chType with
  | none =>
    rw [pushCluster_listed hch] at h h'
    obtain ⟨l, hl, hmap⟩ := bind_eq_some_iff.1 h
    rw [hl] at h'
    obtain ⟨y, hpush, rfl⟩ := map_eq_some_iff.1 hmap
    obtain ⟨y', hpush', rfl⟩ := map_eq_some_iff.1 h'
    rcases pushServers_cut hle hpush hpush' with rfl | hcut
    · exact .inl rfl
    · exact .inr hcut
  | some ch =>
    have hring : cl.type.chType.isSome = true := by rw [hch]; rfl
    rw [pushCluster_ring hring] at h h'
    exact pushNodes_cut hle hring h h'

theorem targetStep_cut {t : Target} {s s' : DestStep} (hle : env.retsize ≤ n)
    (h : targetStep env w t fr out = some s)
    (h' : targetStep (env.withSlots n) w t fr out = some s') :
    s.Cut s' := by
  cases t with
  | blackhole =>
    cases h
    cases h'
    exact .inl rfl
  | cluster cl =>
    obtain ⟨x, hpush, rfl⟩ := map_eq_some_iff.1 h
    obtain ⟨x', hpush', rfl⟩ := map_eq_some_iff.1 h'
    rcases pushCluster_cut hle hpush hpush' with rfl | hcut
    · exact .inl rfl
    · exact .inr hcut

variable {env' : RouteEnv} {s s' : RouteStep}
  {step step' : RuleOf D → D → Bool → RouteFrame → RouteOut → Option DestStep}

/-- The loop over the destinations is cut off where one of them is. -/
theorem routeDests_cut {ds : List D}
    (hcut : ∀ d ∈ ds, ∀ last fr out t t', step w d last fr out = some t →
      step' w d last fr out = some t' → t.Cut t')
    (hfills : ∀ front, ∀ d ∈ ds, ∀ last fr out t, step' w d last fr out = some t →
      Fills env' front false fr out → Fills env' front t.full t.frame t.out)
    (hout : out.ret.length ≤ env'.retsize)
    (h : routeDests step w ds fr out = some s) (h' : routeDests step' w ds fr out = some s') :
    s' = s ∨ s.full = true ∧ s.out.ret <+: s'.out.ret := by
  induction ds generalizing fr out with
  | nil =>
    cases h
    cases h'
    exact .inl rfl
  | cons d ds ih =>
    have hrest := fun front e he => hfills front e (mem_cons_of_mem d he)
    obtain ⟨t, ht, hend⟩ := routeDests_cons h
    obtain ⟨t', ht', hend'⟩ := routeDests_cons h'
    have hnext := (hfills [] d mem_cons_self _ _ _ _ ht' ⟨List.nil_prefix, hout⟩).2
    rcases hcut d mem_cons_self _ _ _ _ _ ht ht' with rfl | ⟨hfull, hret⟩
    · rcases hend with ⟨hends, rfl⟩ | ⟨hfull, hskip, h⟩
      · rcases hend' with ⟨-, rfl⟩ | ⟨hfull, hskip, -⟩
        · exact .inl rfl
        · simp [hfull, hskip] at hends
      · rcases hend' with ⟨hends, -⟩ | ⟨-, -, h'⟩
        · simp [hfull, hskip] at hends
        · exact ih (fun e he => hcut e (mem_cons_of_mem d he)) hrest hnext h h'
    · rcases hend with ⟨-, rfl⟩ | ⟨hnot, -, -⟩
      · refine .inr ⟨hfull, ?_⟩
        rcases hend' with ⟨-, rfl⟩ | ⟨-, -, h'⟩
        · exact hret
        · exact (routeDests_invariant (hrest t.out.ret) h' ⟨hret, hnext⟩).1
      · rw [hfull] at hnot
        cases hnot

/-- The loop over rules or entries is cut off where one of them is. -/
theorem runUntil_cut {α : Type} {l : List α}
    {entry entry' : α → RouteFrame → RouteOut → Option RouteStep}
    (hcut : ∀ a ∈ l, ∀ fr out t t', out.ret.length ≤ env'.retsize → entry a fr out = some t →
      entry' a fr out = some t' → t.Cut t')
    (hfills : ∀ front, ∀ a ∈ l, ∀ fr out t, entry' a fr out = some t →
      Fills env' front false fr out → Fills env' front t.full t.frame t.out)
    (hout : out.ret.length ≤ env'.retsize) (h : runUntil entry l fr out = some s)
    (h' : runUntil entry' l fr out = some s') : s.Cut s' := by
  induction l generalizing fr out with
  | nil =>
    cases h
    cases h'
    exact .inl rfl
  | cons a l ih =>
    have hrest := fun front b hb => hfills front b (mem_cons_of_mem a hb)
    obtain ⟨t, ht, hend⟩ := runUntil_cons h
    obtain ⟨t', ht', hend'⟩ := runUntil_cons h'
    have hnext := (hfills [] a mem_cons_self _ _ _ ht' ⟨List.nil_prefix, hout⟩).2
    rcases hcut a mem_cons_self _ _ _ _ hout ht ht' with rfl | ⟨hends, hret⟩
    · rcases hend with ⟨hends, rfl⟩ | ⟨hfull, hstop, h⟩
      · rcases hend' with ⟨-, rfl⟩ | ⟨hfull, hstop, -⟩
        · exact .inl rfl
        · simp [hfull, hstop] at hends
      · rcases hend' with ⟨hends, -⟩ | ⟨-, -, h'⟩
        · simp [hfull, hstop] at hends
        · exact ih (fun b hb => hcut b (mem_cons_of_mem a hb)) hrest hnext h h'
    · rcases hend with ⟨-, rfl⟩ | ⟨hfull, hstop, -⟩
      · refine .inr ⟨hends, ?_⟩
        rcases hend' with ⟨-, rfl⟩ | ⟨-, -, h'⟩
        · exact hret
        · exact (runUntil_invariant (hrest s.out.ret) h' ⟨hret, hnext⟩).1
      · simp [hfull, hstop] at hends

theorem routeRules_cut {rules : List (RuleOf D)}
    (hcut : ∀ m ∈ rules, ∀ fr out t t', out.ret.length ≤ env'.retsize →
      routeRule env step m fr out = some t → routeRule env' step' m fr out = some t' → t.Cut t')
    (hkept : ∀ front, ∀ m ∈ rules, CallInvariant.Kept (Fills env' front) step' m)
    (hout : out.ret.length ≤ env'.retsize) (h : routeRules env step rules fr out = some s)
    (h' : routeRules env' step' rules fr out = some s') : s.Cut s' := by
  rw [routeRules_eq_runUntil] at h h'
  exact runUntil_cut hcut (fun front m hm _ _ _ => routeRule_invariant (hkept front m hm)) hout h h'

/-- Stub routes are as `router_add_stubroute` makes them: the stub is the only destination of its
rule, and the rule stops. -/
def Rule.StubAlone (w : Rule) : Prop :=
  ∀ routes, .stub routes ∈ w.dest :: w.dests → w.stop = true ∧ w.dests = []

variable {t t' : RouteStep}

/-- The other slots make no difference to whether a rule matches. -/
theorem routeRule_cut_of_dests {D : Type} {w : RuleOf D}
    {step step' : RuleOf D → D → Bool → RouteFrame → RouteOut → Option DestStep}
    (hdests : ∀ fr out', out'.ret = out.ret → fr.stop = w.stop →
      routeDests step w (w.dest :: w.dests) fr out' = some t →
      routeDests step' w (w.dest :: w.dests) fr out' = some t' → t.Cut t')
    (h : routeRule env step w fr out = some t)
    (h' : routeRule (env.withSlots n) step' w fr out = some t') :
    t.Cut t' := by
  simp only [routeRule, RouteEnv.withSlots] at h h'
  split at h
  case isTrue hmatch =>
    simp only [hmatch, if_true] at h'
    exact hdests _ { out with log := out.log ++ [.fired w.id] } rfl rfl h h'
  case isFalse hmatch =>
    simp only [hmatch] at h'
    exact .inl (Option.some.inj (h'.symm.trans h))

/-- The rules behind a stub, for the line that is left. -/
theorem stubRules_cut (env : RouteEnv) {routes : List (RuleOf Target)} (hle : env.retsize ≤ n)
    (hout : out.ret.length ≤ n) (h : routeRules env (stubStep env) routes fr out = some t)
    (h' : routeRules (env.withSlots n) (stubStep (env.withSlots n)) routes fr out = some t') :
    t.Cut t' := by
  refine routeRules_cut (fun m _ fr out t t' hout => ?_)
    (fun front m _ => stubStep_kept m) hout h h'
  refine routeRule_cut_of_dests fun fr out' hret _ hds hds' => ?_
  rcases routeDests_cut (fun d _ _ _ _ _ _ => targetStep_cut hle)
    (fun front => (stubStep_kept m).dest) (hret ▸ hout) hds hds' with heq | ⟨hfull, hcut⟩
  · exact .inl heq
  · exact .inr ⟨.inl hfull, hcut⟩

section
variable (hle : env.retsize ≤ n)
include hle

variable {w : Rule}

theorem routeStub_cut {routes : List (RuleOf Target)} {o o' : RouteOut}
    (hout : out.ret.length ≤ n) (h : routeStub env w routes fr out = some o)
    (h' : routeStub (env.withSlots n) w routes fr out = some o') : o.ret <+: o'.ret := by
  obtain ⟨t, hrun, rfl⟩ := map_eq_some_iff.1 h
  obtain ⟨t', hrun', rfl⟩ := map_eq_some_iff.1 h'
  rw [t.finish_ret, t'.finish_ret]
  have hcut : t.Cut t' := stubRules_cut (env.behind fr.metric w.pattern.length) hle hout hrun hrun'
  exact hcut.prefix_ret

/-- A destination that is no stub is cut off by itself. -/
theorem destStep_cut {d : Dest} {last : Bool} {t t' : DestStep}
    (hd : ∀ routes, d ≠ .stub routes) (h : destStep env w d last fr out = some t)
    (h' : destStep (env.withSlots n) w d last fr out = some t') : t.Cut t' := by
  cases d with
  | target d => exact targetStep_cut hle h h'
  | stub routes => exact absurd rfl (hd routes)
  | aggregation _ _ | rewrite _ | validation _ => exact .inl (Option.some.inj (h'.symm.trans h))

theorem routeRule_cut (hstub : w.StubAlone)
    (hout : out.ret.length ≤ n) (h : routeRule env (destStep env) w fr out = some t)
    (h' : routeRule (env.withSlots n) (destStep (env.withSlots n)) w fr out = some t') :
    t.Cut t' := by
  refine routeRule_cut_of_dests (fun fr out' hret hstop h h' => ?_) h h'
  rw [← hret] at hout
  by_cases hany : ∃ routes, .stub routes ∈ w.dest :: w.dests
  · obtain ⟨routes, hmem⟩ := hany
    obtain ⟨hwstop, hdests⟩ := hstub routes hmem
    rw [hdests] at hmem h h'
    rw [← mem_singleton.1 hmem] at h h'
    simp only [routeDests, destStep] at h h'
    cases hrun : routeStub env w routes fr out' with
    | none =>
      rw [hrun] at h
      cases h
    | some o =>
      cases hrun' : routeStub (env.withSlots n) w routes fr out' with
      | none =>
        rw [hrun'] at h'
        cases h'
      | some o' =>
        rw [hrun] at h
        rw [hrun'] at h'
        cases h
        cases h'
        exact .inr ⟨.inr (hstop.trans hwstop), routeStub_cut hle hout hrun hrun'⟩
  · have hplain : ∀ d ∈ w.dest :: w.dests, ∀ routes, d ≠ .stub routes :=
      fun d hd routes heq => hany ⟨routes, heq ▸ hd⟩
    rcases routeDests_cut (fun d hd _ _ _ _ _ => destStep_cut hle (hplain d hd))
      (fun front => (destStep_kept w).dest) hout h h' with heq | ⟨hfull, hcut⟩
    · exact .inl heq
    · exact .inr ⟨.inl hfull, hcut⟩

/-- An entry of the table is cut off where one of its rules is, as a group hands that on. -/
theorem routeEntry_cut {r : Route}
    (hstub : ∀ w ∈ r.rules, w.StubAlone) (hout : out.ret.length ≤ n)
    (h : routeEntry env r fr out = some t)
    (h' : routeEntry (env.withSlots n) r fr out = some t') : t.Cut t' := by
  cases r with
  | rule w => exact routeRule_cut hle (hstub w (mem_singleton_self w)) hout h h'
  | group name members =>
    rw [routeEntry] at h h'
    split at h
    · cases h
    case h_2 htest =>
      simp only [htest] at h'
      exact .inl (Option.some.inj (h'.symm.trans h))
    case h_3 htest =>
      simp only [htest] at h'
      obtain ⟨s, hrun, rfl⟩ := map_eq_some_iff.1 h
      obtain ⟨s', hrun', rfl⟩ := map_eq_some_iff.1 h'
      have hcut : s.Cut s' := routeRules_cut
        (fun w hw _ _ _ _ hout => routeRule_cut hle (hstub w hw) hout)
          (fun _ w _ => destStep_kept w) hout
        hrun hrun'
      rcases hcut with rfl | ⟨hends, hret⟩
      · exact .inl rfl
      · have hstop : s.finish.1 = true := by
          rw [RouteStep.finish]
          split
          case isTrue => rfl
          case isFalse hfull => exact hends.resolve_left hfull
        rw [← s.finish_ret, ← s'.finish_ret] at hret
        exact .inr ⟨.inr hstop, hret⟩

end

end

/-- The rules of a configuration have their stubs alone. -/
theorem Rule.Made.stubAlone {fmt : PointerFormat} {unset : Nat → Unset} {w : Rule}
    (h : Rule.Made fmt unset w) : w.StubAlone := by
  cases h with
  | stub type addr id send => exact fun _ _ => ⟨rfl, rfl⟩
  | plain _ hdest hdests =>
    intro routes hmem
    rcases mem_cons.1 hmem with heq | hmem
    · exact absurd heq.symm (hdest routes)
    · obtain ⟨t, heq⟩ := hdests _ hmem
      cases heq

/-- The optimiser only puts rules into groups and in another order. -/
theorem mem_of_routerOptimise {threshold : Int} {rules : List Rule} {opt : Optimised}
    (hopt : routerOptimise threshold rules = some opt) {w : Rule}
    (hw : w ∈ flattenRoutes opt.routes) :
    w ∈ rules := by
  obtain ⟨table, htable, hperm, -⟩ := routerOptimise_spec threshold rules
  rw [htable] at hopt
  cases hopt
  exact hperm.perm.mem_iff.2 hw

/-! ## The slots of a ring -/

section
variable {hashpos : ChType → Text → Nat} {past fuel : Nat} {path : Text} {nodes : List Server}

/-- The walk ends only with all slots filled. -/
theorem chWalk_length {entries : List ChRingEntry} {r t : Nat} {ret ret' : List Server}
    (h : chWalk entries r fuel t ret = some ret') (hle : ret.length ≤ r) : ret'.length = r := by
  induction fuel generalizing t ret with
  | zero => cases h
  | succ fuel ih =>
    simp only [chWalk] at h
    split at h
    case isFalse hfull =>
      cases h
      omega
    case isTrue hroom =>
      split at h
      case h_1 => cases h
      case h_2 e _ =>
        split at h
        · exact ih h hle
        · refine ih h ?_
          rw [length_append]
          exact hroom

/-- A lookup in the ring of an accepted cluster that ends fills as many slots as there are replicas.
-/
theorem chGetNodes_length {qsort : (ChRingEntry → ChRingEntry → Int) → List ChRingEntry →
      List ChRingEntry}
    {ntop : AddrInfo → Text} {rtr rtr' : ClusterTable} {name : Text} {type : ClusterType}
    {ch : ChType}
    {replcnt : Int} {useall : Bool} {connections : Nat} {hosts : List Clhost} {cl : Cluster}
    {ring : ChRing}
    (hq : Sorts qsort) (hch : type.chType = some ch)
    (h : clusterStatement hashpos qsort ntop rtr name type replcnt useall connections hosts =
      .ok (rtr', cl)) (hring : cl.ring = some ring)
    (hget : chGetNodes hashpos past fuel ring cl.replFactor path = some nodes) :
    nodes.length = cl.replFactor := by
  obtain ⟨ring', hring', hfill, hone, hle⟩ := clusterStatement_ring hch h
  obtain rfl : ring = ring' := Option.some.inj (hring.symm.trans hring')
  have hne : cl.servers ≠ [] := ne_nil_of_length_pos (by omega)
  have htype : ring.type = ch := type_chRing hne hfill
  by_cases hjump : ch = .jumpFnv1a
  · subst hjump
    obtain ⟨ret, rest, hret, hlen, -⟩ := chReturns_jump hq hne hfill hone hle past path
    have hnodes : ChReturns hashpos past ring cl.replFactor path nodes := by
      refine ⟨0, fun fuel' _ => ?_⟩
      rw [chGetNodes, htype] at hget ⊢
      exact hget
    rw [(hret nodes).1 hnodes, hlen]
  · have hwalk : ∃ t, chWalk ring.entrylist cl.replFactor fuel t [] = some nodes := by
      rw [chGetNodes] at hget
      split at hget
      case h_1 heq => exact absurd (htype.symm.trans heq) hjump
      case h_2 =>
        obtain ⟨t, -, hwalk⟩ := bind_eq_some_iff.1 hget
        exact ⟨t, hwalk⟩
    obtain ⟨t, hwalk⟩ := hwalk
    exact chWalk_length hwalk (Nat.zero_le _)

end

/-- A consistent-hash cluster that the configuration accepts. -/
def Cluster.FromStatement (hashpos : ChType → Text → Nat) (cl : Cluster) : Prop :=
  ∃ qsort ntop rtr rtr' name type ch replcnt useall connections hosts, Sorts qsort ∧
    ClusterType.chType type = some ch ∧
    clusterStatement hashpos qsort ntop rtr name type replcnt useall connections hosts =
      .ok (rtr', cl)

/-- What a call fills over the table of a configuration, optimised or not: no more than its slots,
and the front of what the same call fills with more of them. Every slot gets a server and a metric:
a ring gives as many servers as the slots that were claimed for it, if the lookup ends. -/
theorem slots_filled {fmt : PointerFormat} {unset : Nat → Unset} {statements : List Statement}
    {threshold : Int} {opt : Optimised} {env : RouteEnv} {metric : Text} {firstspace : Nat}
    {out : RouteOut}
    (hopt : (configure fmt unset statements).optimise threshold = some opt)
    (h : routerRoute env opt.routes metric firstspace = some out) :
    out.ret.length ≤ env.retsize ∧
    (∀ n out', env.retsize ≤ n → routerRoute (env.withSlots n) opt.routes metric firstspace =
      some out' → out.ret <+: out'.ret) ∧
    ∀ cl path, cl.FromStatement env.hashpos → ringNodes env cl path =
      cl.ring.bind fun ring => chGetNodes env.hashpos env.past env.fuel ring cl.replFactor
        path := by
  have hstub : ∀ w ∈ flattenRoutes opt.routes, w.StubAlone := fun w hw =>
    (configure_made fmt unset statements w
      (mem_of_routerOptimise (RouteTable.optimise_eq_some hopt) hw)).stubAlone
  obtain ⟨s, hrun, rfl⟩ := map_eq_some_iff.1 h
  rw [routeTable_eq_runUntil] at hrun
  rw [s.finish_ret]
  refine ⟨?_, fun n out' hle h' => ?_, fun cl path hcl => ?_⟩
  · have hfills : Fills env [] s.full s.frame s.out :=
      runUntil_invariant (fun _ _ _ _ _ => routeEntry_fills) hrun ⟨List.nil_prefix, Nat.zero_le _⟩
    exact hfills.2
  · obtain ⟨s', hrun', rfl⟩ := map_eq_some_iff.1 h'
    rw [routeTable_eq_runUntil] at hrun'
    rw [s'.finish_ret]
    have hcut : s.Cut s' := by
      refine @runUntil_cut _ _ (env.withSlots n) _ _ _ _ _ _ (fun r hr _ _ _ _ => ?_)
        (fun _ _ _ _ _ _ => routeEntry_fills) ?_ hrun hrun'
      · exact routeEntry_cut hle fun w hw => hstub w (mem_flatMap.2 ⟨r, hr, hw⟩)
      · exact Nat.zero_le n
    exact hcut.prefix_ret
  · obtain ⟨qsort, ntop, rtr, rtr', name, type, ch, replcnt, useall, connections, hosts, hq, hch,
      hcl⟩ := hcl
    rw [ringNodes]
    cases hring : cl.ring with
    | none => rfl
    | some ring =>
      cases hget : chGetNodes env.hashpos env.past env.fuel ring cl.replFactor path with
      | none => simp [hget]
      | some nodes => simp [hget, chGetNodes_length hq hch hcl hring hget]

/-- The statement `match one\.bar send to relay;`, where the cluster has two servers. -/
def Statement.pair : Statement :=
  .matching [⟨.contains, "one\\.bar".toList, "one.bar".toList, 0⟩] none none
    [.cluster { Cluster.forward 0 with servers := [.tcp 0 [] 1, .tcp 1 [] 2] }] false

/-- With one slot the first of the two servers is there. -/
theorem slots_filled_one : ∃ opt out out',
    (configure .decimal (fun _ => ⟨0, none⟩) [.pair]).optimise 50 = some opt ∧
    routerRoute (RouteEnv.basic.withSlots 1) opt.routes "one.bar 1 2\n".toList 7 = some out ∧
    routerRoute (RouteEnv.basic.withSlots 64) opt.routes "one.bar 1 2\n".toList 7 = some out' ∧
    out'.ret.length = 2 ∧ out.ret.length ≤ 1 ∧ out.ret <+: out'.ret := by
  have hopt : (configure .decimal (fun _ => ⟨0, none⟩) [.pair]).optimise 50 =
      some ⟨(configure .decimal (fun _ => ⟨0, none⟩) [.pair]).routes.map .rule, false⟩ := rfl
  have hrun : routerRoute (RouteEnv.basic.withSlots 1)
      ((configure .decimal (fun _ => ⟨0, none⟩) [.pair]).routes.map .rule)
        "one.bar 1 2\n".toList 7 =
        some ⟨false, [(.tcp 0 [] 1, "one.bar 1 2\n".toList)], [.fired 0]⟩ := by decide +kernel
  have hrun' : routerRoute (RouteEnv.basic.withSlots 64)
      ((configure .decimal (fun _ => ⟨0, none⟩) [.pair]).routes.map .rule)
        "one.bar 1 2\n".toList 7 =
        some ⟨false, [(.tcp 0 [] 1, "one.bar 1 2\n".toList), (.tcp 1 [] 2, "one.bar 1 2\n".toList)],
          [.fired 0]⟩ := by decide +kernel
  have hfilled := slots_filled hopt hrun
  exact ⟨_, _, _, hopt, hrun, hrun', rfl, hfilled.1, hfilled.2.1 64 _ (by decide) hrun'⟩

end CarbonRelay
