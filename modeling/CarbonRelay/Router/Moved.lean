import CarbonRelay.Router.Alone
import CarbonRelay.Router.Grouping

/-!
# Rules that change places

What becomes of a metric when rules of a list change places.

* `fires` is a run over a list of rules as the sequence of the rules that fire, each with what it
  does alone; `routeRules_fires` says that the loop does just this.
* When free rules of a list change places the same rules fire (`fires_freePerm`).
* Where no rule fires before its turn, nothing depends on the places: the two runs are one
  (`routeRules_moved`).
-/

namespace CarbonRelay

open List

/-! ## Runs as sequences of rules -/

/-- A rule that fires, and what it does alone. -/
structure Firing where
  rule : Rule
  step : RouteStep

/-- The rules of a list that fire for a line, in their order. -/
def fires (env : RouteEnv) : List Rule → Text → Nat → Option (List Firing)
  | [], _, _ => some []
  | w :: rules, metric, firstspace =>
    if w.hits env metric firstspace then
      match w.alone env metric firstspace with
      | none => none
      | some s =>
        if s.frame.stop then some [⟨w, s⟩]
        else (fires env rules s.frame.metric s.frame.firstspace).map (⟨w, s⟩ :: ·)
    else fires env rules metric firstspace

/-- What the firings log. -/
def logOf (l : List Firing) : List RouteEvent := l.flatMap fun f => f.step.out.log

/-- The destinations of the firings. -/
def retOf (l : List Firing) : List (Server × Text) := l.flatMap fun f => f.step.out.ret

/-- The slots that the firings need. -/
def slotsOf (l : List Firing) : Nat := (l.map fun f => f.rule.slots).sum

section
variable {env : RouteEnv} {w : Rule} {rules : List Rule} {metric : Text} {firstspace : Nat}
  {l : List Firing} {fr : RouteFrame} {o : RouteOut} {s : RouteStep}

theorem fires_of_not_hits (h : w.hits env metric firstspace = false) :
    fires env (w :: rules) metric firstspace = fires env rules metric firstspace := by
  rw [fires, h]
  rfl

theorem fires_of_stop (h : w.hits env metric firstspace = true)
    (hs : w.alone env metric firstspace = some s) (hstop : s.frame.stop = true) :
    fires env (w :: rules) metric firstspace = some [⟨w, s⟩] := by
  simp [fires, h, hs, hstop]

theorem fires_of_go (h : w.hits env metric firstspace = true)
    (hs : w.alone env metric firstspace = some s) (hstop : s.frame.stop = false) :
    fires env (w :: rules) metric firstspace =
      (fires env rules s.frame.metric s.frame.firstspace).map (⟨w, s⟩ :: ·) := by
  simp [fires, h, hs, hstop]

/-- The ways in which the first rule of a list can take part. -/
theorem fires_cons (h : fires env (w :: rules) metric firstspace = some l) :
    (w.hits env metric firstspace = false ∧ fires env rules metric firstspace = some l) ∨
    (w.hits env metric firstspace = true ∧ ∃ s, w.alone env metric firstspace = some s ∧
      ((s.frame.stop = true ∧ l = [⟨w, s⟩]) ∨
       (s.frame.stop = false ∧ ∃ rest, fires env rules s.frame.metric s.frame.firstspace =
         some rest ∧
          l = ⟨w, s⟩ :: rest))) := by
  cases hhits : w.hits env metric firstspace with
  | false =>
    rw [fires_of_not_hits hhits] at h
    exact .inl ⟨rfl, h⟩
  | true =>
    refine .inr ⟨rfl, ?_⟩
    cases hs : w.alone env metric firstspace with
    | none => simp [fires, hhits, hs] at h
    | some s =>
      refine ⟨s, rfl, ?_⟩
      cases hstop : s.frame.stop with
      | true =>
        rw [fires_of_stop hhits hs hstop] at h
        exact .inl ⟨rfl, (Option.some.inj h).symm⟩
      | false =>
        rw [fires_of_go hhits hs hstop] at h
        obtain ⟨rest, hrest, rfl⟩ := Option.map_eq_some_iff.1 h
        exact .inr ⟨rfl, rest, hrest, rfl⟩

/-! ## The loop over rules -/

theorem routeRule_of_not_hits (h : w.hits env fr.metric fr.firstspace = false) :
    routeRule env (destStep env) w fr o = some ⟨false, fr, o⟩ := by
  obtain ⟨spans, hmatch, -⟩ := routerMetricMatches_found env.regex env.outside w.toMatcher fr.metric
    fr.firstspace
  rw [Rule.hits, hmatch] at h
  obtain rfl : spans = none := by simpa using h
  rw [routeRule, hmatch]
  rfl

theorem routeRules_fires (hown : ∀ f ∈ l, f.rule.OwnSpans) (hstop : fr.stop = false)
    (h : fires env rules fr.metric fr.firstspace = some l)
    (hslots : o.ret.length + slotsOf l ≤ env.retsize) : ∃ s,
    routeRules env (destStep env) rules fr o = some s ∧ s.out.log = o.log ++ logOf l ∧
      s.out.ret = o.ret ++ retOf l := by
  induction rules generalizing fr o l with
  | nil =>
    cases h
    exact ⟨_, rfl, by simp [logOf], by simp [retOf]⟩
  | cons w rules ih =>
    rw [routeRules]
    rcases fires_cons h with ⟨hhits, h⟩ | ⟨hhits, a, ha, ⟨hend, rfl⟩ | ⟨hend, rest, hrest, rfl⟩⟩
    · rw [routeRule_of_not_hits hhits]
      simpa [hstop] using ih hown hstop h hslots
    · simp only [slotsOf, map_singleton, sum_singleton] at hslots
      obtain ⟨s, hs, hbehind⟩ := routeRule_alone (hown _ mem_cons_self) hstop hslots ha
      have hend' : s.frame.stop = true := hbehind.frame.stop.trans hend
      refine ⟨s, by simp [hs, hend'], ?_, ?_⟩
      · simp [logOf, hbehind.out.log]
      · simp [retOf, hbehind.out.ret]
    · simp only [slotsOf, map_cons, sum_cons] at hslots
      have hw : w.OwnSpans := hown _ mem_cons_self
      have hfits : o.ret.length + w.slots ≤ env.retsize := by omega
      obtain ⟨s, hs, hbehind⟩ := routeRule_alone hw hstop hfits ha
      have hgo : s.frame.stop = false := hbehind.frame.stop.trans hend
      rw [← hbehind.frame.metric, ← hbehind.frame.firstspace] at hrest
      have hroom : s.out.ret.length + slotsOf rest ≤ env.retsize := by
        have hle := hbehind.slots
        simp only [hbehind.out.ret, RouteOut.append_ret, length_append, slotsOf]
        omega
      obtain ⟨t, ht, hlog, hret⟩ := ih (fun f hf => hown f (mem_cons_of_mem _ hf)) hgo hrest hroom
      refine ⟨t, by simpa [hs, hgo, hbehind.full] using ht, ?_, ?_⟩
      · rw [hlog, hbehind.out.log]
        simp [logOf]
      · rw [hret, hbehind.out.ret]
        simp [retOf]

/-! ## Exchanges of free rules -/

/-- Behind its first destination a rule has only clusters. -/
def Rule.WellFormed (w : Rule) : Prop := ∀ d ∈ w.dests, ∃ t, d = .target t

theorem Rule.tail_of_rewrite {replacement : Text} (h : w.dest = .rewrite replacement) :
    w.tail = none := by
  rw [Rule.tail, h]
  split
  · rfl
  · rfl
  case h_3 hnot => exact absurd rfl (hnot replacement)

/-- A rule that can be in a group leaves the line as it is. -/
theorem routeRule_line (hwf : w.WellFormed) (htail : w.tail ≠ none)
    (h : routeRule env (destStep env) w fr o = some s) :
    s.frame.metric = fr.metric ∧ s.frame.firstspace = fr.firstspace := by
  let Inv : CallInvariant := fun _ g _ => g.metric = fr.metric ∧ g.firstspace = fr.firstspace
  have hkept : Inv.Kept (destStep env) w := by
    refine ⟨fun _ _ _ h => h, fun _ _ _ h => h, fun d hd last g out t ht hinv => ?_⟩
    have hnot : ∀ replacement, d ≠ .rewrite replacement := by
      rintro replacement rfl
      rcases mem_cons.1 hd with hdest | hdests
      · exact htail (Rule.tail_of_rewrite hdest.symm)
      · obtain ⟨t, ht⟩ := hwf _ hdests
        cases ht
    obtain ⟨hmetric, hfirstspace⟩ := destStep_line hnot ht
    exact ⟨hmetric.trans hinv.1, hfirstspace.trans hinv.2⟩
  exact @routeRule_invariant Dest Inv _ _ _ _ _ _ hkept h ⟨rfl, rfl⟩

/-- A firing that the place of the rule does not matter for: the texts of the rule refer to its own
match, and it does not end the run unless the rule is special. -/
structure Firing.Regular (f : Firing) : Prop where
  own : f.rule.OwnSpans
  stop : ¬ f.rule.Special → f.step.frame.stop = false

/-- A free rule goes by, or it fires and the run goes on with the same line. -/
theorem fires_cons_free (hfree : ¬ w.Special) (hwf : w.WellFormed) (hreg : ∀ f ∈ l, f.Regular)
    (h : fires env (w :: rules) metric firstspace = some l) :
    (w.hits env metric firstspace = false ∧ fires env rules metric firstspace = some l) ∨
    ∃ s rest, fires env rules metric firstspace = some rest ∧ l = ⟨w, s⟩ :: rest ∧
      ∀ rules', fires env (w :: rules') metric firstspace =
        (fires env rules' metric firstspace).map (⟨w, s⟩ :: ·) := by
  have htail : w.tail ≠ none := fun hn => hfree (.inr hn)
  rcases fires_cons h with hmiss | ⟨hhits, s, hs, ⟨hstop, rfl⟩ | ⟨hstop, rest, hrest, rfl⟩⟩
  · exact .inl hmiss
  · have hgo : s.frame.stop = false := (hreg _ mem_cons_self).stop hfree
    rw [hgo] at hstop
    cases hstop
  · obtain ⟨hmetric, hfirstspace⟩ : s.frame.metric = metric ∧ s.frame.firstspace = firstspace :=
      routeRule_line hwf htail hs
    refine .inr ⟨s, rest, ?_, rfl, fun rules' => ?_⟩
    · rwa [hmetric, hfirstspace] at hrest
    · rw [fires_of_go hhits hs hstop, hmetric, hfirstspace]

theorem fires_swap {a b : Rule} (ha : ¬ a.Special) (hb : ¬ b.Special) (hwa : a.WellFormed)
    (hwb : b.WellFormed) (hreg : ∀ f ∈ l, f.Regular)
    (h : fires env (a :: b :: rules) metric firstspace = some l) :
    ∃ l', fires env (b :: a :: rules) metric firstspace = some l' ∧ l.Perm l' := by
  rcases fires_cons_free ha hwa hreg h with ⟨hmissA, h⟩ | ⟨s, rest, hrest, rfl, hfireA⟩
  · rcases fires_cons_free hb hwb hreg h with ⟨hmissB, h⟩ | ⟨t, rest, hrest, rfl, hfireB⟩
    · exact ⟨l, by rw [fires_of_not_hits hmissB, fires_of_not_hits hmissA, h], .refl l⟩
    · exact ⟨_, by rw [hfireB, fires_of_not_hits hmissA, hrest]; rfl, .refl _⟩
  · have hreg' : ∀ f ∈ rest, f.Regular := fun f hf => hreg f (mem_cons_of_mem _ hf)
    rcases fires_cons_free hb hwb hreg' hrest with ⟨hmissB, h⟩ | ⟨t, rest', hrest', rfl, hfireB⟩
    · exact ⟨_, by rw [fires_of_not_hits hmissB, hfireA, h]; rfl, .refl _⟩
    · exact ⟨_, by rw [hfireB, hfireA, hrest']; rfl, .swap _ _ rest'⟩

variable {moved : List Rule}

/-- A rearrangement around the special rules lets the same rules fire. -/
theorem fires_freePerm (hperm : FreePerm Rule.Special rules moved) (hwf : ∀ w ∈ rules, w.WellFormed)
    (hreg : ∀ f ∈ l, f.Regular) (h : fires env rules metric firstspace = some l) :
    ∃ l', fires env moved metric firstspace = some l' ∧ l.Perm l' := by
  induction hperm generalizing metric firstspace l with
  | refl rules => exact ⟨l, h, .refl l⟩
  | cons w _ ih =>
    have hwf' := fun v hv => hwf v (mem_cons_of_mem w hv)
    rcases fires_cons h with ⟨hhits, h⟩ | ⟨hhits, s, hs, ⟨hstop, rfl⟩ | ⟨hstop, rest, hrest, rfl⟩⟩
    · rw [fires_of_not_hits hhits]
      exact ih hwf' hreg h
    · exact ⟨_, fires_of_stop hhits hs hstop, .refl _⟩
    · obtain ⟨rest', hrest', hp⟩ := ih hwf' (fun f hf => hreg f (mem_cons_of_mem _ hf)) hrest
      refine ⟨⟨w, s⟩ :: rest', ?_, hp.cons _⟩
      rw [fires_of_go hhits hs hstop, hrest']
      rfl
  | swap rules ha hb =>
    exact fires_swap ha hb (hwf _ mem_cons_self) (hwf _ (mem_cons_of_mem _ mem_cons_self)) hreg h
  | trans hp _ ih ih' =>
    obtain ⟨l', h', hl'⟩ := ih hwf hreg h
    obtain ⟨l'', h'', hl''⟩ := ih' (fun w hw => hwf w (hp.perm.mem_iff.2 hw))
      (fun f hf => hreg f (hl'.mem_iff.2 hf)) h'
    exact ⟨l'', h'', hl'.trans hl''⟩

/-! ## Rules that fire before their turn -/

/-- A run over rules in a new order up to the first rule that fires before its turn: in the order
that they had there is another one in front of it that matches. What is left of the rules in that
order, and the call at this moment. -/
def outOfStep (env : RouteEnv) : List Rule → List Rule → RouteFrame → RouteOut →
    Option (Reached (List Rule))
  | _, [], _, _ => none
  | rules, w :: moved, fr, out =>
    if w.hits env fr.metric fr.firstspace then
      if (rules.takeWhile (· ≠ w)).any fun a => a.hits env fr.metric fr.firstspace then
        some ⟨rules, fr, out⟩
      else
        match routeRule env (destStep env) w fr out with
        | none => none
        | some s =>
          if s.full ∨ s.frame.stop then none else outOfStep env (rules.erase w) moved s.frame s.out
    else outOfStep env (rules.erase w) moved fr out

/-- From here on the places of the rules do not matter: this holds of all that fire, and there are
slots for them. -/
def Reached.Settles (env : RouteEnv) (v : Reached (List Rule)) : Prop :=
  ∃ l, fires env v.entry v.frame.metric v.frame.firstspace = some l ∧ (∀ f ∈ l, f.Regular) ∧
    v.out.ret.length + slotsOf l ≤ env.retsize

/-- Two results with the same rules fired, the same calls of aggregators and the same destinations,
in any order. -/
def RouteOut.SameEffects (out out' : RouteOut) : Prop :=
  out.log.Perm out'.log ∧ out.ret.Perm out'.ret

theorem RouteOut.SameEffects.refl (out : RouteOut) : out.SameEffects out := ⟨.refl _, .refl _⟩

section
variable {pre post : List Rule}

/-- Rules in front that do not match. -/
theorem routeRules_of_not_hits (hmiss : ∀ a ∈ pre, a.hits env fr.metric fr.firstspace = false)
    (hstop : fr.stop = false) :
    routeRules env (destStep env) (pre ++ post) fr o = routeRules env (destStep env) post fr o := by
  induction pre with
  | nil => rfl
  | cons a pre ih =>
    rw [forall_mem_cons] at hmiss
    rw [cons_append, routeRules, routeRule_of_not_hits hmiss.1]
    simpa [hstop] using ih hmiss.2

/-- A rule that does not match is passed over, also behind rules that leave the line as it is. -/
theorem routeRules_skip (hfree : ∀ a ∈ pre, a.WellFormed ∧ a.tail ≠ none) (hstop : fr.stop = false)
    (hmiss : w.hits env fr.metric fr.firstspace = false) :
    routeRules env (destStep env) (pre ++ w :: post) fr o =
      routeRules env (destStep env) (pre ++ post) fr o := by
  induction pre generalizing fr o with
  | nil => exact @routeRules_of_not_hits env fr o [w] post (by simpa using hmiss) hstop
  | cons a pre ih =>
    rw [forall_mem_cons] at hfree
    rw [cons_append, cons_append, routeRules, routeRules]
    cases hs : routeRule env (destStep env) a fr o with
    | none => rfl
    | some s =>
      obtain ⟨hmetric, hfirstspace⟩ := routeRule_line hfree.1.1 hfree.1.2 hs
      dsimp only
      split
      · rfl
      case isFalse hgo =>
        refine ih hfree.2 (Bool.eq_false_iff.2 fun hstop => hgo (.inr hstop)) ?_
        rw [hmetric, hfirstspace, hmiss]

end

/-- Runs over rules in both orders have the same effects, if from the first rule on that fires
before its turn the places do not matter. -/
theorem routeRules_moved (hperm : FreePerm Rule.Special rules moved)
    (hwf : ∀ w ∈ rules, w.WellFormed) (hnodup : rules.Nodup) (hstop : fr.stop = false)
    (h : ∀ v, outOfStep env rules moved fr o = some v → v.Settles env) :
    Option.Rel (fun s s' => s.out.SameEffects s'.out) (routeRules env (destStep env) rules fr o)
      (routeRules env (destStep env) moved fr o) := by
  induction moved generalizing rules fr o with
  | nil =>
    rw [hperm.perm.eq_nil]
    exact .some (.refl o)
  | cons w moved ih =>
    obtain ⟨pre, post, hnot, hrules, herase⟩ := exists_erase_eq (hperm.perm.mem_iff.2 mem_cons_self)
    have hfree : ∀ a ∈ pre, a.WellFormed ∧ ¬ a.Special ∧ ¬ w.Special := fun a ha =>
      ⟨hwf a (by simp [hrules, ha]), hperm.free_before hnodup hrules ha⟩
    have hperm' : FreePerm Rule.Special (pre ++ post) moved := by
      have hp := hperm.erase w
      rwa [erase_cons_head, herase] at hp
    have hwf' : ∀ a ∈ pre ++ post, a.WellFormed :=
      fun a ha => hwf a (mem_of_mem_erase (herase ▸ ha))
    have hnodup' : (pre ++ post).Nodup := herase ▸ hnodup.erase w
    have hfront : rules.takeWhile (· ≠ w) = pre := by
      rw [hrules, takeWhile_append_of_pos]
      · simp
      · intro a ha
        have hne : a ≠ w := fun hw => hnot (hw ▸ ha)
        simpa using hne
    rw [outOfStep, herase, hfront] at h
    cases hhits : w.hits env fr.metric fr.firstspace with
    | false =>
      rw [hhits, if_neg Bool.false_ne_true] at h
      have htail : ∀ a ∈ pre, a.WellFormed ∧ a.tail ≠ none := fun a ha =>
        ⟨(hfree a ha).1, fun hn => (hfree a ha).2.1 (.inr hn)⟩
      have hhead : routeRules env (destStep env) (w :: moved) fr o =
          routeRules env (destStep env) moved fr o :=
            @routeRules_skip env w fr o [] moved (by simp) hstop hhits
      rw [hrules, routeRules_skip htail hstop hhits, hhead]
      exact ih hperm' hwf' hnodup' hstop h
    | true =>
      rw [hhits, if_pos rfl] at h
      cases hany : pre.any fun a => a.hits env fr.metric fr.firstspace with
      | true =>
        obtain ⟨l, hfires, hreg, hslots⟩ := h ⟨rules, fr, o⟩ (by rw [hany, if_pos rfl])
        obtain ⟨l', hfires', hp⟩ := fires_freePerm hperm hwf hreg hfires
        obtain ⟨s, hs, hlog, hret⟩ :=
          routeRules_fires (fun f hf => (hreg f hf).own) hstop hfires hslots
        have hslots' : o.ret.length + slotsOf l' ≤ env.retsize := by
          have hsum : slotsOf l = slotsOf l' := (hp.map _).sum_eq
          exact hsum ▸ hslots
        obtain ⟨s', hs', hlog', hret'⟩ := routeRules_fires
          (fun f hf => (hreg f (hp.mem_iff.2 hf)).own) hstop hfires' hslots'
        rw [hs, hs']
        refine .some ⟨?_, ?_⟩
        · rw [hlog, hlog']
          exact (hp.flatMap_right _).append_left _
        · rw [hret, hret']
          exact (hp.flatMap_right _).append_left _
      | false =>
        have hmiss : ∀ a ∈ pre, a.hits env fr.metric fr.firstspace = false := by simpa using hany
        rw [hrules, routeRules_of_not_hits hmiss hstop, routeRules, routeRules]
        rw [hany, if_neg Bool.false_ne_true] at h
        cases hs : routeRule env (destStep env) w fr o with
        | none => exact .none
        | some s =>
          rw [hs] at h
          dsimp only at h ⊢
          split
          · exact .some (.refl s.out)
          case isFalse hgo =>
            rw [if_neg hgo] at h
            have hgo' : s.frame.stop = false := Bool.eq_false_iff.2 fun hstop => hgo (.inr hstop)
            have hmiss' : ∀ a ∈ pre, a.hits env s.frame.metric s.frame.firstspace = false := by
              intro a ha
              obtain ⟨-, -, hw⟩ := hfree a ha
              obtain ⟨hmetric, hfirstspace⟩ := routeRule_line (hwf w (by simp [hrules]))
                (fun hn => hw (.inr hn)) hs
              rw [hmetric, hfirstspace, hmiss a ha]
            rw [← routeRules_of_not_hits hmiss' hgo']
            exact ih hperm' hwf' hnodup' hgo' h

end

end CarbonRelay
