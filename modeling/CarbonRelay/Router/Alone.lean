import CarbonRelay.Router.Result
import CarbonRelay.Router.Lockstep
import Mathlib.Algebra.BigOperators.Group.List.Basic

/-!
# What a rule does alone

In the loop of `router_route_intern` a rule sees the line, the array of spans and the slots that are
left. As long as there are slots enough (`destStep_fits`), and it refers to spans of its own only,
it adds to the output what it adds when it is the only rule (`routeRule_alone`).
-/

namespace CarbonRelay

open List Option

/-! ## Slots -/

/-- The slots that a cluster needs. -/
def Cluster.slots (cl : Cluster) : Nat :=
  match cl.type with
  | .carbonCh | .fnv1aCh | .jumpCh => cl.replFactor
  | .forward | .filelog | .filelogip => cl.servers.length
  | .anyof | .failover | .lb => 1

/-- The slots that a target needs. -/
def Target.slots : Target → Nat
  | .blackhole => 0
  | .cluster cl => cl.slots

/-- The slots that the destinations of a stub need. -/
def targetSlots (ts : List Target) : Nat := (ts.map Target.slots).sum

/-- The slots that a destination of a rule needs. -/
def Dest.slots : Dest → Nat
  | .target t => t.slots
  | .stub routes => (routes.map fun w => targetSlots (w.dest :: w.dests)).sum
  | _ => 0

/-- The slots that a rule needs. -/
def Rule.slots (w : Rule) : Nat := ((w.dest :: w.dests).map Dest.slots).sum

theorem Cluster.listed_length {cl : Cluster} {path : Text} {l : List Server}
    (hch : cl.type.chType = none) (h : cl.listed path = some l) : l.length = cl.slots := by
  cases htype : cl.type <;> simp only [htype, ClusterType.chType, reduceCtorEq] at hch <;>
    simp only [Cluster.listed, Cluster.slots, htype] at h ⊢
  case forward | filelog | filelogip =>
    cases h
    rfl
  all_goals
    obtain ⟨s, -, rfl⟩ := map_eq_some_iff.1 h
    rfl

theorem Cluster.slots_ring {cl : Cluster} (h : cl.type.chType.isSome = true) :
    cl.slots = cl.replFactor := by
  cases htype : cl.type <;> simp only [htype, ClusterType.chType, isSome_none,
    Bool.false_eq_true] at h
  all_goals simp only [Cluster.slots, htype]

section
variable {D : Type} {env : RouteEnv} {w : RuleOf D} {fr : RouteFrame}
  {out out' : RouteOut} {n : Nat}

/-- With slots enough it does not matter how many there are. -/
theorem pushCluster_less {cl : Cluster} (h : out.ret.length + cl.slots ≤ env.retsize - n) :
    pushCluster (env.less n) w cl fr out = pushCluster env w cl fr out := by
  have hless : (env.less n).retsize = env.retsize - n := rfl
  cases hch : cl.type.chType with
  | none =>
    rw [pushCluster_listed hch, pushCluster_listed hch]
    cases hl : cl.listed (fr.metric.take fr.firstspace) with
    | none => rfl
    | some l =>
      rw [← Cluster.listed_length hch hl] at h
      rw [bind_some, bind_some, hless, pushServers_fits l out h,
        pushServers_fits l out (h.trans (Nat.sub_le _ _))]
      rfl
  | some ch =>
    have hring : cl.type.chType.isSome = true := by rw [hch]; rfl
    rw [Cluster.slots_ring hring] at h
    rw [pushCluster_ring hring, pushCluster_ring hring, pushNodes, pushNodes, hless,
      if_neg (by omega), if_neg (by omega)]
    rfl

theorem setMetrics_length {format : Server → Option Text} {l : List Server}
    (h : setMetrics format l out = some out') : out'.ret.length = out.ret.length + l.length := by
  obtain ⟨new, rfl, hnew⟩ := setMetrics_eq_some h
  rw [length_append, ← hnew, length_map]

theorem pushCluster_fits {cl : Cluster} {full sent : Bool}
    (h : out.ret.length + cl.slots ≤ env.retsize)
    (hpush : pushCluster env w cl fr out = some (full, sent, out')) :
    full = false ∧ out'.ret.length ≤ out.ret.length + cl.slots := by
  rcases pushCluster_cases hpush with ⟨hring, hpush⟩ | ⟨hch, -, l, hl, hpush⟩
  · rw [Cluster.slots_ring hring] at h ⊢
    rcases pushNodes_cases hpush with ⟨hfull, -⟩ | ⟨-, rfl, -, rfl⟩ |
      ⟨_, nodes, -, rfl, -, hnodes, hset⟩
    · omega
    · exact ⟨rfl, Nat.le_add_right _ _⟩
    · exact ⟨rfl, by rw [setMetrics_length hset, ringNodes_length hnodes]⟩
  · rw [← Cluster.listed_length hch hl] at h ⊢
    rw [pushServers_fits l out h] at hpush
    obtain ⟨o, hset, heq⟩ := map_eq_some_iff.1 hpush
    cases heq
    exact ⟨rfl, (setMetrics_length hset).le⟩

end

/-- With slots enough, a destination adds behind `o` what it adds alone, and takes its slots at
most. -/
def StepFits {D : Type} (env : RouteEnv) (slots : D → Nat)
    (step : RuleOf D → D → Bool → RouteFrame → RouteOut → Option DestStep) : Prop :=
  ∀ w d last fr o e, o.blackholed = false → o.ret.length + e.ret.length + slots d ≤ env.retsize →
    step w d last fr (o ++ e) = (step w d last fr e).map (.after o) ∧
    ∀ s, step w d last fr e = some s → s.full = false ∧ s.out.ret.length ≤ e.ret.length + slots d

section
variable {D : Type} {env : RouteEnv} {fr : RouteFrame} {o e : RouteOut}

theorem targetStep_fits {w : RuleOf D} {t : Target}
    (h : o.ret.length + e.ret.length + t.slots ≤ env.retsize) :
    targetStep env w t fr (o ++ e) = (targetStep env w t fr e).map (.after o) ∧
    ∀ s, targetStep env w t fr e = some s → s.full = false ∧ s.out.ret.length ≤ e.ret.length +
      t.slots := by
  rw [targetStep_append e fr (by omega)]
  cases t with
  | blackhole =>
    refine ⟨rfl, fun s hs => ?_⟩
    cases hs
    exact ⟨rfl, Nat.le_refl _⟩
  | cluster cl =>
    have hslots : e.ret.length + cl.slots ≤ env.retsize - o.ret.length := by
      rw [Target.slots] at h
      omega
    rw [targetStep, targetStep, pushCluster_less hslots]
    refine ⟨rfl, fun s hs => ?_⟩
    obtain ⟨p, hpush, rfl⟩ := map_eq_some_iff.1 hs
    exact pushCluster_fits (hslots.trans (Nat.sub_le _ _)) hpush

section
variable {slots : D → Nat} {step : RuleOf D → D → Bool → RouteFrame → RouteOut → Option DestStep}
  (hstep : StepFits env slots step) (ho : o.blackholed = false) {w : RuleOf D}
include hstep ho

theorem routeDests_fits {ds : List D}
    (h : o.ret.length + e.ret.length + (ds.map slots).sum ≤ env.retsize) :
    routeDests step w ds fr (o ++ e) = (routeDests step w ds fr e).map (.after o) ∧
    ∀ s, routeDests step w ds fr e = some s →
      s.full = false ∧ s.out.ret.length ≤ e.ret.length + (ds.map slots).sum := by
  induction ds generalizing fr e with
  | nil =>
    refine ⟨rfl, fun s hs => ?_⟩
    cases hs
    exact ⟨rfl, Nat.le_refl _⟩
  | cons d ds ih =>
    rw [map_cons, sum_cons] at h ⊢
    obtain ⟨heq, hfits⟩ := hstep w d ds.isEmpty fr o e ho (by omega)
    rw [routeDests, routeDests, heq]
    cases hs : step w d ds.isEmpty fr e with
    | none => exact ⟨rfl, by simp⟩
    | some t =>
      obtain ⟨hfull, hle⟩ := hfits t hs
      obtain ⟨heq', hfits'⟩ := @ih t.frame t.out (by omega)
      simp only [map_some, DestStep.after, hfull, Bool.false_eq_true, if_false, heq']
      split
      · refine ⟨rfl, fun s hs => ?_⟩
        cases hs
        exact ⟨rfl, hle.trans (by omega)⟩
      · refine ⟨rfl, fun s hs => ⟨(hfits' s hs).1, ?_⟩⟩
        have hle' := (hfits' s hs).2
        omega

theorem routeRule_fits (h : o.ret.length + e.ret.length + ((w.dest :: w.dests).map slots).sum ≤
      env.retsize)
    (env' : RouteEnv) :
    routeRule env' step w fr (o ++ e) = (routeRule env' step w fr e).map (.after o) ∧
    ∀ s, routeRule env' step w fr e = some s →
      s.full = false ∧ s.out.ret.length ≤ e.ret.length + ((w.dest :: w.dests).map slots).sum := by
  simp only [routeRule, RouteOut.append_add_log]
  split
  · exact routeDests_fits hstep ho h
  · refine ⟨rfl, fun s hs => ?_⟩
    cases hs
    exact ⟨rfl, Nat.le_add_right _ _⟩

theorem routeRules_fits {rules : List (RuleOf D)}
    (h : o.ret.length + e.ret.length +
      (rules.map fun w => ((w.dest :: w.dests).map slots).sum).sum ≤ env.retsize) :
    routeRules env step rules fr (o ++ e) = (routeRules env step rules fr e).map (.after o) ∧
    ∀ s, routeRules env step rules fr e = some s → s.out.ret.length ≤
      e.ret.length + (rules.map fun w => ((w.dest :: w.dests).map slots).sum).sum := by
  induction rules generalizing fr e with
  | nil =>
    refine ⟨rfl, fun s hs => ?_⟩
    cases hs
    exact Nat.le_refl _
  | cons w rules ih =>
    rw [map_cons, sum_cons] at h ⊢
    obtain ⟨heq, hfits⟩ := @routeRule_fits D env fr o e slots step hstep ho w (by omega) env
    rw [routeRules, routeRules, heq]
    cases hs : routeRule env step w fr e with
    | none => exact ⟨rfl, by simp⟩
    | some t =>
      have hle := (hfits t hs).2
      obtain ⟨heq', hfits'⟩ := @ih t.frame t.out (by omega)
      simp only [map_some, RouteStep.after, heq']
      split
      · refine ⟨rfl, fun s hs => ?_⟩
        cases hs
        omega
      · exact ⟨rfl, fun s hs => (hfits' s hs).trans (by omega)⟩

end

theorem routeStub_fits {w : Rule} {routes : List (RuleOf Target)} (ho : o.blackholed = false)
    (h : o.ret.length + e.ret.length + (Dest.stub routes).slots ≤ env.retsize) :
    routeStub env w routes fr (o ++ e) = (routeStub env w routes fr e).map (o ++ ·) ∧
    ∀ out, routeStub env w routes fr e = some out →
      out.ret.length ≤ e.ret.length + (Dest.stub routes).slots := by
  obtain ⟨heq, hfits⟩ := @routeRules_fits Target (env.behind fr.metric w.pattern.length)
    ((env.behind fr.metric w.pattern.length).frame (fr.metric.drop w.pattern.length)
      (fr.firstspace - w.pattern.length)) o e Target.slots (stubStep _)
    (fun _ _ _ _ _ _ _ => targetStep_fits) ho routes h
  simp only [routeStub, heq, Option.map_map]
  refine ⟨congrFun (congrArg Option.map (funext fun s => ?_)) _, fun out hout => ?_⟩
  · exact congrArg Prod.snd (s.finish_after o)
  · obtain ⟨s, hs, rfl⟩ := map_eq_some_iff.1 hout
    rw [s.finish_ret]
    exact hfits s hs

theorem destStep_fits (env : RouteEnv) : StepFits env Dest.slots (destStep env) := by
  intro w d last fr o e ho h
  have hadds : ∀ {x y : Option DestStep}, x = y.map (.after o) →
      (∀ s, y = some s → s.full = false ∧ s.out.ret = e.ret) → x = y.map (.after o) ∧
        ∀ s, y = some s → s.full = false ∧ s.out.ret.length ≤ e.ret.length + d.slots :=
    fun hxy hy => ⟨hxy, fun s hs => ⟨(hy s hs).1, by rw [(hy s hs).2]; exact Nat.le_add_right _ _⟩⟩
  cases d with
  | target t => exact targetStep_fits h
  | aggregation aggr names =>
    refine hadds ?_ (by simp [destStep])
    rw [destStep, destStep, RouteOut.append_add_log]
    rfl
  | rewrite replacement =>
    simp only [destStep]
    split
    · exact hadds rfl (by simp)
    · exact hadds rfl (by simp)
  | stub routes =>
    obtain ⟨heq, hfits⟩ := @routeStub_fits env fr o e w routes ho h
    rw [destStep, destStep, heq, Option.map_map, Option.map_map]
    refine ⟨congrFun (congrArg Option.map (funext fun out => ?_)) _, fun s hs => ?_⟩
    · simp [DestStep.after, ho]
    · obtain ⟨out, hout, rfl⟩ := map_eq_some_iff.1 hs
      exact ⟨rfl, hfits out hout⟩
  | validation v =>
    simp only [destStep, RouteOut.append_add_log]
    split
    · exact hadds rfl (by simp)
    · split
      · exact hadds rfl (by simp)
      · exact hadds rfl (by simp)

/-- What a rule adds behind `o`, compared with what it does alone. -/
structure RouteStep.Behind (o : RouteOut) (slots : Nat) (s a : RouteStep) : Prop where
  full : s.full = false
  frame : s.frame.SameLine a.frame
  out : s.out.Same (o ++ a.out)
  slots : a.out.ret.length ≤ slots

/-- What the rule does alone. -/
def Rule.alone (env : RouteEnv) (w : Rule) (metric : Text) (firstspace : Nat) : Option RouteStep :=
  routeRule env (destStep env) w (env.frame metric firstspace) .empty

/-- A rule in a call that has not been stopped, compared with the rule alone. The flag for
blackholed metrics does not matter. -/
theorem routeRule_alone {w : Rule} {a : RouteStep} (hown : w.OwnSpans) (hstop : fr.stop = false)
    (hslots : o.ret.length + w.slots ≤ env.retsize)
    (ha : w.alone env fr.metric fr.firstspace = some a) :
    ∃ s, routeRule env (destStep env) w fr o = some s ∧ s.Behind o w.slots a := by
  obtain ⟨heq, hfits⟩ := @routeRule_fits Dest env (env.frame fr.metric fr.firstspace)
    ⟨false, o.ret, o.log⟩ .empty _ _ (destStep_fits env) rfl w hslots env
  have hsame := @routeRule_sameSpans env fr (env.frame fr.metric fr.firstspace) o
    ⟨false, o.ret, o.log⟩ w False ⟨⟨rfl, rfl, hstop⟩, False.elim⟩ ⟨rfl, rfl⟩ fun _ => .inr hown
  rw [Rule.alone] at ha
  rw [RouteOut.append_empty, ha] at heq
  rw [heq] at hsame
  obtain ⟨hfull, hle⟩ := hfits a ha
  rcases optionRel_cases hsame with ⟨-, ha'⟩ | ⟨s, a', hs, ha', hstep⟩ <;> cases ha'
  exact ⟨s, hs, hstep.full.trans hfull, hstep.frame.1, ⟨hstep.out.ret, hstep.out.log⟩,
    hle.trans (Nat.le_of_eq (Nat.zero_add _))⟩

end

end CarbonRelay
