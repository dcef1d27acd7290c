import CarbonRelay.Router.Moved
import CarbonRelay.Router.Stub

/-!
# Routing through an optimised table

What `router_optimise` does to the way of a metric. It makes rules change places, which is the
subject of `routeRules_moved`, and it makes groups, whose rules run in calls of their own. A run
through a table with groups is in step with the run over its rules (`InStep.step`) as long as the
tail of every group with a rule that matches is found in the path. When one is not, that rule does
not fire (`routeTable_misses`).
-/

namespace CarbonRelay

open List

/-! ## What is logged -/

/-- The ids of a rule and of the rules behind its stub. -/
def Rule.ids (w : Rule) : List Nat :=
  w.id :: (w.dest :: w.dests).flatMap fun
    | .stub routes => routes.map RuleOf.id
    | _ => []

/-- Behind `log` only rules with these ids were logged. -/
def LogsOnly (ids : List Nat) (log : List RouteEvent) (out : RouteOut) : Prop :=
  ∃ new, out.log = log ++ new ∧ ∀ i, RouteEvent.fired i ∈ new → i ∈ ids

section
variable {ids : List Nat} {log : List RouteEvent} {out : RouteOut} {env : RouteEnv}

theorem LogsOnly.refl (ids : List Nat) (out : RouteOut) : LogsOnly ids out.log out :=
  ⟨[], by simp, nofun⟩

variable {out' : RouteOut} {w : Rule} {fr : RouteFrame} {s : RouteStep}

theorem LogsOnly.of_log (h : LogsOnly ids log out) (hlog : out'.log = out.log) :
    LogsOnly ids log out' := by
  obtain ⟨new, heq, hnew⟩ := h
  exact ⟨new, hlog.trans heq, hnew⟩

theorem LogsOnly.append {e : RouteEvent} (h : LogsOnly ids log out)
    (hlog : out'.log = out.log ++ [e]) (he : ∀ i, e = .fired i → i ∈ ids) :
    LogsOnly ids log out' := by
  obtain ⟨new, heq, hnew⟩ := h
  refine ⟨new ++ [e], by rw [hlog, heq, append_assoc], fun i hi => ?_⟩
  rcases mem_append.1 hi with hi | hi
  · exact hnew i hi
  · exact he i (mem_singleton.1 hi).symm

theorem LogsOnly.mem (h : LogsOnly ids log out) {e : RouteEvent} (he : e ∈ log) : e ∈ out.log := by
  obtain ⟨new, heq, -⟩ := h
  rw [heq]
  exact mem_append_left _ he

theorem LogsOnly.fired (h : LogsOnly ids log out) {i : Nat} (hi : .fired i ∈ out.log) :
    .fired i ∈ log ∨ i ∈ ids := by
  obtain ⟨new, heq, hnew⟩ := h
  rw [heq, mem_append] at hi
  exact hi.imp_right (hnew i)

theorem LogsOnly.kept {D : Type} {w : RuleOf D}
    {step : RuleOf D → D → Bool → RouteFrame → RouteOut → Option DestStep} (hid : w.id ∈ ids)
    (hdest : ∀ d ∈ w.dest :: w.dests, ∀ last fr out s, step w d last fr out = some s →
      LogsOnly ids log out → LogsOnly ids log s.out) :
    CallInvariant.Kept (fun _ _ out => LogsOnly ids log out) step w where
  miss _ _ _ h := h
  fire _ _ _ h := h.append rfl fun i hi => by
    cases hi
    exact hid
  dest := hdest

theorem routeStub_logsOnly {routes : List (RuleOf Target)}
    (hids : ∀ m ∈ routes, m.id ∈ ids) (h : routeStub env w routes fr out = some out')
    (hlog : LogsOnly ids log out) : LogsOnly ids log out' := by
  rw [routeStub] at h
  obtain ⟨s, hrun, rfl⟩ := Option.map_eq_some_iff.1 h
  refine LogsOnly.of_log ?_ s.finish_log
  refine routeRules_invariant (fun m hm => LogsOnly.kept (hids m hm) ?_) hrun hlog
  intro t _ _ _ _ s hs hlog
  exact hlog.of_log (targetStep_log hs)

theorem destStep_logsOnly {d : Dest} {last : Bool} {s : DestStep}
    (hd : d ∈ w.dest :: w.dests) (hids : ∀ i ∈ w.ids, i ∈ ids)
    (h : destStep env w d last fr out = some s) (hlog : LogsOnly ids log out) :
    LogsOnly ids log s.out := by
  rcases destStep_cases h with ⟨t, rfl, ht⟩ | ⟨routes, out', rfl, hrun, rfl⟩ |
    ⟨_, _, _, -, -, rfl⟩ | ⟨_, _, _, rfl⟩ | ⟨_, _, e, rfl, he⟩
  · exact hlog.of_log (targetStep_log ht)
  · refine routeStub_logsOnly (fun m hm => hids m.id ?_) hrun hlog
    exact mem_cons_of_mem _ (mem_flatMap.2 ⟨_, hd, mem_map_of_mem hm⟩)
  · exact hlog
  · exact hlog
  · refine hlog.append rfl ?_
    rintro i rfl
    exact he.elim

theorem destStep_logsOnly_kept (hids : ∀ i ∈ w.ids, i ∈ ids) :
    CallInvariant.Kept (fun _ _ out => LogsOnly ids log out) (destStep env) w :=
  LogsOnly.kept (hids w.id mem_cons_self) fun _ hd _ _ _ _ h hlog =>
    destStep_logsOnly hd hids h hlog

theorem routeRules_logsOnly {rules : List Rule} (hids : ∀ w ∈ rules, ∀ i ∈ w.ids, i ∈ ids)
    (h : routeRules env (destStep env) rules fr out = some s) (hlog : LogsOnly ids log out) :
    LogsOnly ids log s.out :=
  routeRules_invariant (fun w hw => destStep_logsOnly_kept (hids w hw)) h hlog

/-- The rules of a list log themselves only. -/
theorem routeRules_logs {rules : List Rule}
    (h : routeRules env (destStep env) rules fr out = some s) :
    LogsOnly (rules.flatMap Rule.ids) out.log s.out :=
  routeRules_logsOnly (fun w hw _ hi => mem_flatMap.2 ⟨w, hw, hi⟩) h (.refl _ out)

theorem routeEntry_logsOnly {r : Route} (hids : ∀ w ∈ r.rules, ∀ i ∈ w.ids, i ∈ ids)
    (h : routeEntry env r fr out = some s) (hlog : LogsOnly ids log out) :
    LogsOnly ids log s.out := by
  refine routeEntry_invariant (I := fun _ _ out => LogsOnly ids log out)
    (fun _ _ h => h) ?_ ?_ h hlog
  · rintro w rfl fr out t ht
    exact routeRule_invariant (destStep_logsOnly_kept (hids w (mem_singleton_self w))) ht
  · rintro name members rfl fr out t hrun hlog
    exact (routeRules_logsOnly hids hrun hlog).of_log t.finish_log

/-- The entries of a table log their own rules only. -/
theorem runUntil_logs {table : List Route} (h : runUntil (routeEntry env) table fr out = some s) :
    LogsOnly ((flattenRoutes table).flatMap Rule.ids) out.log s.out :=
  runUntil_invariant (I := fun _ _ o => LogsOnly ((flattenRoutes table).flatMap Rule.ids) out.log o)
    (fun r hr _ _ _ => routeEntry_logsOnly fun w hw _ hi =>
      mem_flatMap.2 ⟨w, mem_flatMap.2 ⟨r, hr, hw⟩, hi⟩) h (.refl _ out)

/-- A rule that matches is logged. -/
theorem routeRule_fired (hhits : w.hits env fr.metric fr.firstspace = true)
    (h : routeRule env (destStep env) w fr out = some s) : .fired w.id ∈ s.out.log := by
  rw [routeRule] at h
  dsimp only at h
  rw [w.hits_eq, hhits, if_pos rfl] at h
  have hlogs : LogsOnly w.ids (out.log ++ [.fired w.id]) s.out :=
    @routeDests_invariant Dest (fun _ _ o => LogsOnly w.ids (out.log ++ [.fired w.id]) o)
      _ _ _ _ _ _ (fun _ hd _ _ _ _ => destStep_logsOnly hd fun i hi => hi) h
      (LogsOnly.refl w.ids { out with log := out.log ++ [.fired w.id] })
  exact hlogs.mem (mem_append_right _ (mem_singleton_self _))

/-- Over a list of rules the first that matches is logged. -/
theorem routeRules_fired {rules : List Rule} (hw : w ∈ rules)
    (hhits : w.hits env fr.metric fr.firstspace = true) (hstop : fr.stop = false)
    (h : routeRules env (destStep env) rules fr out = some s) :
    ∃ a ∈ rules, .fired a.id ∈ s.out.log := by
  induction rules with
  | nil => cases hw
  | cons a rules ih =>
    cases ha : a.hits env fr.metric fr.firstspace with
    | false =>
      have hw' : w ∈ rules := by
        refine (mem_cons.1 hw).resolve_left fun heq => ?_
        rw [heq, ha] at hhits
        cases hhits
      rw [routeRules, routeRule_of_not_hits ha] at h
      obtain ⟨b, hb, hfired⟩ := ih hw' (by simpa [hstop] using h)
      exact ⟨b, mem_cons_of_mem _ hb, hfired⟩
    | true =>
      refine ⟨a, mem_cons_self, ?_⟩
      rw [routeRules_eq_runUntil] at h
      obtain ⟨t, ht, hend⟩ := runUntil_cons h
      have hfired := routeRule_fired ha ht
      rcases hend with ⟨-, rfl⟩ | ⟨-, -, hrest⟩
      · exact hfired
      · rw [← routeRules_eq_runUntil] at hrest
        exact (routeRules_logs hrest).mem hfired

end

/-! ## Rules and groups of rules -/

section
variable (env : RouteEnv) (v : Reached Route)

/-- A group with a rule that matches. -/
def Reached.GroupFires : Prop :=
  ∃ name members, v.entry = .group name members ∧
    ∃ w ∈ members, w.hits env v.frame.metric v.frame.firstspace = true

/-- If an entry is a group, the test for its tail has a result, and the tail is found if one of its
rules matches. -/
def Reached.GroupFound : Prop :=
  ∀ name members, v.entry = .group name members → groupTest name v.frame ≠ none ∧
    ((∃ w ∈ members, w.hits env v.frame.metric v.frame.firstspace = true) →
      groupTest name v.frame = some true)

/-- The rules of an entry that match expand texts which refer to spans of their own. -/
def Reached.OwnSpans : Prop :=
  ∀ w ∈ v.entry.rules, w.hits env v.frame.metric v.frame.firstspace = true → w.OwnSpans

end

/-- From the first group with a rule that matches, the rules that match keep to spans of their own.
-/
def GroupsApart (env : RouteEnv) (l : List (Reached Route)) : Prop :=
  (∀ v ∈ l, v.GroupFires env → v.OwnSpans env) ∧ l.Pairwise fun v u => v.GroupFires env →
    u.OwnSpans env

section
variable {env : RouteEnv} {fr fr' : RouteFrame} {out out' : RouteOut}

/-- Rules that leave the line as it is, and keep to their own spans if they match. -/
theorem routeRules_sameLine {members : List Rule} (h : fr.SameLine fr') (hout : out.Same out')
    (hmembers : ∀ w ∈ members, w.WellFormed ∧ w.tail ≠ none)
    (hown : ∀ w ∈ members, w.hits env fr'.metric fr'.firstspace = true → w.OwnSpans) :
    Option.Rel (RouteStep.Same fun g g' => g.SameLine g' ∧ g'.metric = fr'.metric ∧
        g'.firstspace = fr'.firstspace)
      (routeRules env (destStep env) members fr out)
        (routeRules env (destStep env) members fr' out') := by
  rw [routeRules_eq_runUntil, routeRules_eq_runUntil]
  refine runUntil_same (C := fun _ => True) (fun _ _ hsame => hsame.1.stop) ?_ (fun _ _ => trivial)
    ⟨h, rfl, rfl⟩ hout
  rintro w hw g g' o o' ⟨hsame, hmetric, hfirstspace⟩ hout -
  have hrule := @routeRule_sameSpans env g g' o o' w False ⟨hsame, False.elim⟩ hout fun hhits =>
    .inr (hown w hw (hmetric ▸ hfirstspace ▸ hhits))
  rcases optionRel_cases hrule with ⟨hs, hs'⟩ | ⟨s, s', hs, hs', hstep⟩ <;> rw [hs, hs']
  · exact .none
  · obtain ⟨hline, hline'⟩ := routeRule_line (hmembers w hw).1 (hmembers w hw).2 hs'
    exact .some ⟨hstep.full, ⟨hstep.frame.1, hline.trans hmetric, hline'.trans hfirstspace⟩,
      hstep.out⟩

/-! ## A table and its rules -/

variable {r : Route} {table : List Route} {s s' : RouteStep}

/-- A part of a run ends the call. -/
abbrev RouteStep.Ends (s : RouteStep) : Prop := s.full = true ∨ s.frame.stop = true

theorem routeRules_in_parts {rules rules' : List Rule} (hstop : fr.stop = false) :
    routeRules env (destStep env) (rules ++ rules') fr out =
      (routeRules env (destStep env) rules fr out).bind fun s =>
        if s.full ∨ s.frame.stop then some s
        else routeRules env (destStep env) rules' s.frame s.out := by
  induction rules generalizing fr out with
  | nil => simp [routeRules, hstop]
  | cons w rules ih =>
    rw [cons_append, routeRules, routeRules]
    cases routeRule env (destStep env) w fr out with
    | none => rfl
    | some t =>
      dsimp only
      split
      case isTrue hend => rw [Option.bind_some, if_pos hend]
      case isFalse hgo => exact ih (Bool.eq_false_iff.2 fun hstop => hgo (.inr hstop))

/-- A run over the rules of a table and a run through the table. -/
structure InStep (env : RouteEnv) (table : List Route) (fr fr' : RouteFrame) (out out' : RouteOut) :
    Prop where
  line : fr.SameLine fr'
  out : out.Same out'
  stop : fr'.stop = false
  spans : fr.pmatch = fr'.pmatch ∨ ∀ v ∈ reached (routeEntry env) table fr' out', v.OwnSpans env
  apart : GroupsApart env (reached (routeEntry env) table fr' out')

/-- The runs behind an entry: they end together, or go on in step. -/
structure InStep.After (env : RouteEnv) (table : List Route) (s s' : RouteStep) : Prop where
  ends : s.Ends ↔ s'.Ends
  out : s.out.Same s'.out
  next : ¬ s'.Ends → InStep env table s.frame s'.frame s.out s'.out

/-- Groups have only rules that leave the line as it is. -/
def Route.KeepsLine (r : Route) : Prop :=
  ∀ name members, r = .group name members → ∀ w ∈ members, w.WellFormed ∧ w.tail ≠ none

theorem reached_cons (hs' : routeEntry env r fr' out' = some s') (hgo : ¬ s'.Ends) :
    reached (routeEntry env) (r :: table) fr' out' =
      ⟨r, fr', out'⟩ :: reached (routeEntry env) table s'.frame s'.out := by
  rw [reached, hs']
  exact congrArg _ (if_neg hgo)

theorem InStep.after (h : InStep env (r :: table) fr fr' out out')
    (hs' : routeEntry env r fr' out' = some s')
    (hends : s.Ends ↔ s'.Ends) (hout : s.out.Same s'.out)
    (hline : ¬ s'.Ends → s.frame.SameLine s'.frame)
    (hspans : fr.pmatch = fr'.pmatch → ¬ Reached.GroupFires env ⟨r, fr', out'⟩ →
      s.frame.pmatch = s'.frame.pmatch) : InStep.After env table s s' := by
  refine ⟨hends, hout, fun hgo => ?_⟩
  obtain ⟨-, -, -, hown, hapart, hpairs⟩ := h
  rw [reached_cons hs' hgo, forall_mem_cons] at hown hapart
  rw [reached_cons hs' hgo, pairwise_cons] at hpairs
  refine ⟨hline hgo, hout, Bool.eq_false_iff.2 fun hstop => hgo (.inr hstop), ?_,
    hapart.2, hpairs.2⟩
  by_cases hfires : Reached.GroupFires env ⟨r, fr', out'⟩
  · exact .inr fun u hu => hpairs.1 u hu hfires
  · exact hown.imp (fun heq => hspans heq hfires) fun hall => hall.2

/-- The runs stay in step over a rule. -/
theorem InStep.step_rule {w : Rule} (h : InStep env (.rule w :: table) fr fr' out out') :
    Option.Rel (InStep.After env table) (routeRules env (destStep env) [w] fr out)
      (routeEntry env (.rule w) fr' out') := by
  have hrule := @routeRule_sameSpans env fr fr' out out' w (fr.pmatch = fr'.pmatch)
    ⟨h.line, id⟩ h.out
    fun hhits => h.spans.imp_right fun hall => hall _ mem_cons_self w (mem_singleton_self w) hhits
  rw [routeRules_singleton, routeEntry]
  rcases optionRel_cases hrule with ⟨hs, hs'⟩ | ⟨s, s', hs, hs', hsame⟩ <;> rw [hs, hs']
  · exact .none
  · refine .some (h.after hs' ?_ hsame.out (fun _ => hsame.frame.1) fun heq _ => hsame.frame.2 heq)
    rw [RouteStep.Ends, RouteStep.Ends, hsame.full, hsame.frame.1.stop]

section
variable {name : Text} {members : List Rule}
  (h : InStep env (.group name members :: table) fr fr' out out')
include h

/-- The runs stay in step over a group with a rule that matches, in a call of its own, if the tail
is found. -/
theorem InStep.step_fires (hr : (Route.group name members).KeepsLine)
    (hhits : ∃ w ∈ members, w.hits env fr'.metric fr'.firstspace = true)
    (hfound : groupTest name fr' = some true) :
    Option.Rel (InStep.After env table) (routeRules env (destStep env) members fr out)
      (routeEntry env (.group name members) fr' out') := by
  have hgroup : Reached.GroupFires env ⟨.group name members, fr', out'⟩ :=
    ⟨name, members, rfl, hhits⟩
  have hcall := @routeRules_sameLine env fr (env.frame fr'.metric fr'.firstspace) out out' members
    ⟨h.line.metric, h.line.firstspace, h.line.stop.trans h.stop⟩ h.out (hr name members rfl)
    (h.apart.1 _ mem_cons_self hgroup)
  have hentry : routeEntry env (.group name members) fr' out' =
      (routeRules env (destStep env) members
      (env.frame fr'.metric fr'.firstspace) out').map fun t =>
        ⟨false, { fr' with q := some true, stop := t.finish.1, metric := t.frame.metric },
          t.finish.2⟩ := by
    rw [routeEntry, hfound]
  rcases optionRel_cases hcall with ⟨hs, hs'⟩ | ⟨s, t, hs, hs', hsame⟩ <;> rw [hs'] at hentry <;>
    rw [hs, hentry]
  · exact .none
  · have hends : t.finish.1 = true ↔ t.Ends := by
      rw [RouteStep.finish, RouteStep.Ends]
      split <;> simp [*]
    refine .some (h.after hentry ?_ ?_ (fun hgo => ?_) fun _ hnot => absurd hgroup hnot)
    · rw [RouteStep.Ends, hsame.full, hsame.frame.1.stop, ← RouteStep.Ends, ← hends]
      simp [RouteStep.Ends]
    · exact ⟨hsame.out.ret.trans t.finish_ret.symm, hsame.out.log.trans t.finish_log.symm⟩
    · have hnot : ¬ t.Ends := fun hend => hgo (.inr (hends.2 hend))
      refine ⟨hsame.frame.1.metric, hsame.frame.1.firstspace.trans hsame.frame.2.2, ?_⟩
      rw [hsame.frame.1.stop]
      exact (Bool.eq_false_iff.2 fun h => hnot (.inr h)).trans
        (Bool.eq_false_iff.2 fun h => hnot (hends.1 h)).symm

/-- The runs stay in step over a group without a rule that matches, whether the tail is found or
not. -/
theorem InStep.step_passes (hmiss : ∀ w ∈ members, w.hits env fr'.metric fr'.firstspace = false)
    (htest : groupTest name fr' ≠ none) :
    Option.Rel (InStep.After env table) (routeRules env (destStep env) members fr out)
      (routeEntry env (.group name members) fr' out') := by
  have hpass : ∀ g o, g.metric = fr'.metric → g.firstspace = fr'.firstspace → g.stop = false →
      routeRules env (destStep env) members g o = some ⟨false, g, o⟩ := by
    intro g o hmetric hfirstspace hstop
    rw [← hmetric, ← hfirstspace] at hmiss
    have hall := @routeRules_of_not_hits env g o members [] hmiss hstop
    rwa [append_nil] at hall
  have hstop : fr.stop = false := h.line.stop.trans h.stop
  obtain ⟨q, o, hentry, ho⟩ : ∃ q o, routeEntry env (.group name members) fr' out' =
      some ⟨false, { fr' with q }, o⟩ ∧ out'.Same o := by
    cases hq : groupTest name fr' with
    | none => exact absurd hq htest
    | some found =>
      cases found with
      | false => exact ⟨some false, out', by rw [routeEntry, hq], rfl, rfl⟩
      | true =>
        refine ⟨some true, (RouteStep.finish ⟨false, env.frame fr'.metric fr'.firstspace, out'⟩).2,
          ?_, rfl, rfl⟩
        rw [routeEntry, hq, hpass (env.frame fr'.metric fr'.firstspace) _ rfl rfl rfl,
          Option.map_some]
        rw [h.stop]
        rfl
  rw [hpass fr out h.line.metric h.line.firstspace hstop, hentry]
  refine .some (h.after hentry ?_ ?_ (fun _ => ?_) fun heq _ => heq)
  · simp [RouteStep.Ends, hstop, h.stop]
  · exact ⟨h.out.ret.trans ho.ret, h.out.log.trans ho.log⟩
  · exact ⟨h.line.metric, h.line.firstspace, h.line.stop⟩

end

/-- The runs stay in step over a rule, and over a group whose tail is found if it has to be. -/
theorem InStep.step (h : InStep env (r :: table) fr fr' out out') (hr : r.KeepsLine)
    (hfound : Reached.GroupFound env ⟨r, fr', out'⟩) :
    Option.Rel (InStep.After env table) (routeRules env (destStep env) r.rules fr out)
      (routeEntry env r fr' out') := by
  cases r with
  | rule w => exact h.step_rule
  | group name members =>
    obtain ⟨htest, hfires⟩ := hfound name members rfl
    by_cases hhits : ∃ w ∈ members, w.hits env fr'.metric fr'.firstspace = true
    · exact h.step_fires hr hhits (hfires hhits)
    · exact h.step_passes (by simpa using hhits) htest

theorem flattenRoutes_cons (r : Route) (table : List Route) :
    flattenRoutes (r :: table) = r.rules ++ flattenRoutes table := flatMap_cons

/-- As long as the tails are found the table does what its rules do. -/
theorem InStep.follows (h : InStep env table fr fr' out out') (hkeeps : ∀ r ∈ table, r.KeepsLine)
    (hfound : ∀ v ∈ reached (routeEntry env) table fr' out', v.GroupFound env) :
    Option.Rel (fun s s' => s.out.Same s'.out)
      (routeRules env (destStep env) (flattenRoutes table) fr out)
        (routeTable env table fr' out') := by
  rw [routeTable_eq_runUntil]
  induction table generalizing fr fr' out out' with
  | nil => exact .some h.out
  | cons r table ih =>
    rw [forall_mem_cons] at hkeeps
    have hstep := h.step hkeeps.1 (hfound _ mem_cons_self)
    rw [flattenRoutes_cons, routeRules_in_parts (h.line.stop.trans h.stop), runUntil]
    rcases optionRel_cases hstep with ⟨hs, hs'⟩ | ⟨s, s', hs, hs', hafter⟩ <;> rw [hs, hs']
    · exact .none
    · rw [Option.bind_some]
      dsimp only
      by_cases hend : s'.Ends
      · rw [if_pos (hafter.ends.2 hend), if_pos hend]
        exact .some hafter.out
      · rw [if_neg (mt hafter.ends.1 hend), if_neg hend]
        rw [reached_cons hs' hend, forall_mem_cons] at hfound
        exact ih (hafter.next hend) hkeeps.2 hfound.2

section
variable {rules rules' : List Rule} (h : ((rules ++ rules').flatMap Rule.ids).Nodup)
include h

theorem ids_disjoint {v w : Rule} (hv : v ∈ rules) (hw : w ∈ rules') {i : Nat} (hi : i ∈ v.ids) :
    i ∉ w.ids := by
  rw [flatMap_append] at h
  exact fun hi' => disjoint_of_nodup_append h (mem_flatMap.2 ⟨v, hv, hi⟩)
    (mem_flatMap.2 ⟨w, hw, hi'⟩)

end

/-- A tail that is not found makes the table pass over a rule that matches. -/
theorem InStep.misses (h : InStep env table fr fr' out out') (hkeeps : ∀ r ∈ table, r.KeepsLine)
    (hids : ((flattenRoutes table).flatMap Rule.ids).Nodup)
    (hfresh : ∀ w ∈ flattenRoutes table, .fired w.id ∉ out'.log)
    (hmiss : ∃ v ∈ reached (routeEntry env) table fr' out', ¬ v.GroupFound env)
    (hs : routeRules env (destStep env) (flattenRoutes table) fr out = some s)
    (hs' : routeTable env table fr' out' = some s') :
    ∃ i, .fired i ∈ s.out.log ∧ .fired i ∉ s'.out.log := by
  rw [routeTable_eq_runUntil] at hs'
  induction table generalizing fr fr' out out' with
  | nil =>
    obtain ⟨v, hv, -⟩ := hmiss
    cases hv
  | cons r table ih =>
    have hstop : fr.stop = false := h.line.stop.trans h.stop
    rw [forall_mem_cons] at hkeeps
    rw [flattenRoutes_cons] at hids hfresh hs
    obtain ⟨t', ht', hend'⟩ := runUntil_cons hs'
    rw [routeRules_in_parts hstop] at hs
    obtain ⟨t, ht, hend⟩ := Option.bind_eq_some_iff.1 hs
    have hrest : ((flattenRoutes table).flatMap Rule.ids).Nodup := by
      rw [flatMap_append] at hids
      exact hids.of_append_right
    by_cases hfound : Reached.GroupFound env ⟨r, fr', out'⟩
    · have hstep := h.step hkeeps.1 hfound
      rw [ht, ht'] at hstep
      obtain ⟨hafter⟩ := hstep
      have hgo : ¬ t'.Ends := by
        intro hends
        obtain ⟨v, hv, hnot⟩ := hmiss
        rw [reached, ht'] at hv
        dsimp only at hv
        rw [if_pos hends, mem_singleton] at hv
        exact hnot (hv ▸ hfound)
      rw [if_neg (mt hafter.ends.1 hgo)] at hend
      rw [reached_cons ht' hgo] at hmiss
      obtain ⟨v, hv, hnot⟩ := hmiss
      have hv' := (mem_cons.1 hv).resolve_left fun heq => hnot (heq ▸ hfound)
      refine ih (hafter.next hgo) hkeeps.2 hrest ?_ ⟨v, hv', hnot⟩ hend ?_
      · intro w hw hfired
        have hlogs : LogsOnly (r.rules.flatMap Rule.ids) out'.log t'.out :=
          routeEntry_logsOnly (fun w hw _ hi => mem_flatMap.2 ⟨w, hw, hi⟩) ht' (.refl _ out')
        rcases hlogs.fired hfired with hfired | hi
        · exact hfresh w (mem_append_right _ hw) hfired
        · obtain ⟨a, ha, hi⟩ := mem_flatMap.1 hi
          exact ids_disjoint hids ha hw hi mem_cons_self
      · rcases hend' with ⟨hends, -⟩ | ⟨-, -, hrun⟩
        · exact absurd hends hgo
        · exact hrun
    · cases r with
      | rule w => exact absurd (fun name members heq => by cases heq) hfound
      | group name members =>
        have hnot : ¬ (groupTest name fr' ≠ none ∧
            ((∃ w ∈ members, w.hits env fr'.metric fr'.firstspace = true) →
              groupTest name fr' = some true)) := by
          refine fun hboth => hfound fun n m heq => ?_
          cases heq
          exact hboth
        have hskips : groupTest name fr' = some false ∧
            ∃ w ∈ members, w.hits env fr'.metric fr'.firstspace = true := by
          cases hq : groupTest name fr' with
          | none =>
            rw [routeEntry, hq] at ht'
            cases ht'
          | some found =>
            cases found with
            | true => exact absurd ⟨by simp [hq], fun _ => hq⟩ hnot
            | false =>
              by_contra hnone
              exact hnot ⟨by simp [hq], fun hhits => absurd ⟨rfl, hhits⟩ hnone⟩
        obtain ⟨hq, w, hw, hhits⟩ := hskips
        rw [← h.line.metric, ← h.line.firstspace] at hhits
        obtain ⟨a, ha, hfired⟩ := routeRules_fired hw hhits hstop ht
        refine ⟨a.id, ?_, fun hfired' => ?_⟩
        · split at hend
          · cases hend
            exact hfired
          · exact (routeRules_logs hend).mem hfired
        · rw [routeEntry, hq] at ht'
          cases ht'
          obtain ⟨-, -, hrun⟩ := hend'.resolve_left fun hends => absurd hends.1 (by simp [h.stop])
          rcases (runUntil_logs hrun).fired hfired' with hfired' | hi
          · exact hfresh a (mem_append_left _ ha) hfired'
          · obtain ⟨b, hb, hi⟩ := mem_flatMap.1 hi
            exact ids_disjoint hids ha hb mem_cons_self hi

end

/-! ## The optimiser -/

theorem nodup_of_ids {rules : List Rule} (h : (rules.flatMap Rule.ids).Nodup) : rules.Nodup := by
  refine (nodup_flatMap.1 h).2.imp fun {a b} hdisjoint hab => ?_
  exact hdisjoint (mem_cons_self : a.id ∈ a.ids) (hab ▸ mem_cons_self)

section
variable {env : RouteEnv} {rules : List Rule} {metric : Text} {firstspace : Nat}

/-- Where the rules keep their places, none fires before its turn. -/
theorem outOfStep_self (fr : RouteFrame) (out : RouteOut) :
    outOfStep env rules rules fr out = none := by
  induction rules generalizing fr out with
  | nil => rfl
  | cons w rules ih =>
    have hfront : (w :: rules).takeWhile (· ≠ w) = [] := by simp
    rw [outOfStep, hfront, erase_cons_head]
    simp only [any_nil, Bool.false_eq_true, if_false, ih]
    split
    · split
      · rfl
      · split <;> rfl
    · rfl

variable {table : List Route} {fr : RouteFrame} {out : RouteOut}

/-- Rules that keep to spans of their own do so everywhere. -/
theorem GroupsApart.of_ownSpans (h : ∀ w ∈ flattenRoutes table, w.OwnSpans) :
    GroupsApart env (reached (routeEntry env) table fr out) := by
  have hall : ∀ v ∈ reached (routeEntry env) table fr out, v.OwnSpans env := fun v hv w hw _ =>
    h w (mem_flatMap.2 ⟨v.entry, mem_reached hv, hw⟩)
  exact ⟨fun v hv _ => hall v hv, pairwise_of_forall_mem_list fun _ _ u hu _ => hall u hu⟩

theorem entry_of_rules {v : Reached Route}
    (hv : v ∈ reached (routeEntry env) (rules.map .rule) fr out)
    {name : Text} {members : List Rule} : v.entry ≠ .group name members := by
  obtain ⟨w, -, hw⟩ := mem_map.1 (mem_reached hv)
  exact fun hentry => by cases hw.trans hentry

/-- A table without groups. -/
theorem GroupsApart.of_rules (rules : List Rule) :
    GroupsApart env (reached (routeEntry env) (rules.map .rule) fr out) := by
  have hnone : ∀ v ∈ reached (routeEntry env) (rules.map .rule) fr out, ¬ v.GroupFires env := by
    rintro v hv ⟨name, members, hentry, -⟩
    exact entry_of_rules hv hentry
  exact ⟨fun v hv hfires => absurd hfires (hnone v hv),
    pairwise_of_forall_mem_list fun v hv _ _ hfires => absurd hfires (hnone v hv)⟩

/-- The rule `match <head>\.bar* send to relay;`, whose last letter a path need not have. -/
def Rule.bars (id : Nat) (head : String) : Rule :=
  { Rule.bar id head with
    matchtype := .regex
    pattern := head.toList ++ "\\.bar*".toList
    strmatch := [] }

end

end CarbonRelay
