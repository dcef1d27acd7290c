import CarbonRelay.Router.Route

/-!
# The parts of a run

What the destinations, the rules and the entries of a table can do. The loop over rules and the loop
over the table are one loop (`runUntil`), over the rules and over the entries; it keeps what each
step keeps (`runUntil_invariant`).
-/

namespace CarbonRelay

open List Option

/-! ## Clusters -/

/-- The servers that a cluster without a ring has for a path. -/
def Cluster.listed (cl : Cluster) (path : Text) : Option (List Server) :=
  match cl.type with
  | .anyof => cl.servers[Fnv1a.hash32 path % cl.servers.length]?.map ([·])
  | .failover | .lb => cl.servers[0]?.map ([·])
  | _ => some cl.servers

/-- What these are sent. -/
def Cluster.produce (env : RouteEnv) (cl : Cluster) (metric : Text) (s : Server) : Option Text :=
  match cl.type with
  | .filelogip => routerFormatLinemodeip env metric
  | _ => produceMetric env metric s

section
variable {D : Type} {env : RouteEnv} {w : RuleOf D} {cl : Cluster} {fr : RouteFrame}
  {out out' : RouteOut} {full sent : Bool} {path : Text} {l : List Server}

theorem Cluster.listed_ne_nil (h : cl.listed path = some l) (hne : cl.servers ≠ []) : l ≠ [] := by
  rw [Cluster.listed] at h
  split at h
  · obtain ⟨s, -, rfl⟩ := map_eq_some_iff.1 h
    exact cons_ne_nil s []
  · obtain ⟨s, -, rfl⟩ := map_eq_some_iff.1 h
    exact cons_ne_nil s []
  · obtain ⟨s, -, rfl⟩ := map_eq_some_iff.1 h
    exact cons_ne_nil s []
  · cases h
    exact hne

theorem pushCluster_listed (h : cl.type.chType = none) : pushCluster env w cl fr out =
    (cl.listed (fr.metric.take fr.firstspace)).bind fun l =>
      (pushServers env.retsize (cl.produce env fr.metric) l out).map fun (full, out) =>
        (full, true, out) := by
  have hone {format : Server → Option Text} (s : Option Server) :
      (pushServer env.retsize format s out).map (fun (full, out) => (full, true, out)) =
        (s.map ([·])).bind fun l => (pushServers env.retsize format l out).map
          fun (full, out) => (full, true, out) := by
    cases s <;> rfl
  have hproduce : cl.type ≠ .filelogip → cl.produce env fr.metric =
      produceMetric env fr.metric := by
    intro hne
    funext s
    rw [Cluster.produce]
    split
    case h_1 heq => exact absurd heq hne
    · rfl
  cases htype : cl.type <;> simp only [htype, ClusterType.chType, reduceCtorEq] at h
  case filelogip =>
    have hip : cl.produce env fr.metric = fun _ => routerFormatLinemodeip env fr.metric := by
      funext s
      simp only [Cluster.produce, htype]
    simp only [pushCluster, htype, Cluster.listed, hip, bind_some]
  all_goals simp only [pushCluster, htype, Cluster.listed,
    hproduce (by simp [htype]), hone, bind_some]

theorem pushCluster_ring (h : cl.type.chType.isSome = true) :
    pushCluster env w cl fr out = pushNodes env w cl fr out := by
  cases htype : cl.type <;> simp only [htype, ClusterType.chType, isSome_none,
    Bool.false_eq_true] at h
  all_goals simp only [pushCluster, htype]

/-- A cluster with a ring lacks slots, has no path to hash, or appends its nodes. -/
theorem pushNodes_cases (h : pushNodes env w cl fr out = some (full, sent, out')) :
    (env.retsize < out.ret.length + cl.replFactor ∧ full = true ∧ sent = false ∧ out' = out) ∨
    (hashedPath env w fr = none ∧ full = false ∧ sent = false ∧ out' = out) ∨
    ∃ path nodes, out.ret.length + cl.replFactor ≤ env.retsize ∧ full = false ∧ sent = true ∧
      ringNodes env cl path = some nodes ∧
      setMetrics (produceMetric env fr.metric) nodes out = some out' := by
  rw [pushNodes] at h
  split at h
  case isTrue hfull =>
    cases h
    exact .inl ⟨hfull, rfl, rfl, rfl⟩
  case isFalse hroom =>
    split at h
    case h_1 hpath =>
      cases h
      exact .inr (.inl ⟨hpath, rfl, rfl, rfl⟩)
    case h_2 path _ =>
      split at h
      · cases h
      case h_2 nodes hnodes =>
        obtain ⟨o, hset, heq⟩ := map_eq_some_iff.1 h
        cases heq
        exact .inr (.inr ⟨path, nodes, Nat.not_lt.1 hroom, rfl, rfl, hnodes, hset⟩)

/-- What sending to a cluster comes to. -/
theorem pushCluster_cases (h : pushCluster env w cl fr out = some (full, sent, out')) :
    (cl.type.chType.isSome = true ∧ pushNodes env w cl fr out = some (full, sent, out')) ∨
    cl.type.chType = none ∧ sent = true ∧ ∃ l, cl.listed (fr.metric.take fr.firstspace) = some l ∧
      pushServers env.retsize (cl.produce env fr.metric) l out = some (full, out') := by
  cases hch : cl.type.chType with
  | none =>
    rw [pushCluster_listed hch] at h
    obtain ⟨l, hl, hmap⟩ := bind_eq_some_iff.1 h
    obtain ⟨⟨f, o⟩, hpush, heq⟩ := map_eq_some_iff.1 hmap
    cases heq
    exact .inr ⟨rfl, rfl, l, hl, hpush⟩
  | some ch =>
    have hring : cl.type.chType.isSome = true := by rw [hch]; rfl
    rw [pushCluster_ring hring] at h
    exact .inl ⟨rfl, h⟩

end

theorem pushServers_fits {retsize : Nat} {format : Server → Option Text} (l : List Server)
    (out : RouteOut) (h : out.ret.length + l.length ≤ retsize) :
    pushServers retsize format l out = (setMetrics format l out).map fun out => (false, out) := by
  induction l generalizing out with
  | nil => rfl
  | cons s l ih =>
    rw [length_cons] at h
    rw [pushServers, setMetrics, if_neg (by omega)]
    cases format s with
    | none => rfl
    | some t =>
      refine ih _ ?_
      simp only [length_append, length_singleton]
      omega

/-- Without a look at the slots there are enough of them. -/
theorem pushServers_of_setMetrics {format : Server → Option Text}
    (h : setMetrics format l out = some out') :
    pushServers (out.ret.length + l.length) format l out = some (false, out') := by
  rw [pushServers_fits l out (Nat.le_refl _), h]
  rfl

/-! ## Destinations -/

/-- The events for which the metric counts as sent. -/
def RouteEvent.Notes : RouteEvent → Prop
  | .fired _ => False
  | _ => True

variable {env : RouteEnv} {fr : RouteFrame} {out : RouteOut}

/-- What a destination can do: it sends, runs the rule behind a stub, rewrites the line, does
nothing to the output, or logs something. -/
theorem destStep_cases {w : Rule} {d : Dest} {last : Bool}
    {s : DestStep} (h : destStep env w d last fr out = some s) :
    (∃ t, d = .target t ∧ targetStep env w t fr out = some s) ∨
    (∃ routes out', d = .stub routes ∧ routeStub env w routes fr out = some out' ∧
      s = ⟨false, false, { fr with wassent := fr.wassent || !out'.blackholed }, out'⟩) ∨
    (∃ replacement metric firstspace, d = .rewrite replacement ∧
      routerRewriteMetric env.outside fr.metric fr.firstspace replacement w.nmatch fr.pmatch =
        some (metric, firstspace) ∧ s = ⟨false, false, { fr with metric, firstspace }, out⟩) ∨
    (∃ skip pmatch stop, s = ⟨false, skip, { fr with pmatch, stop }, out⟩) ∨
    ∃ pmatch stop e,
      s = ⟨false, true, { fr with pmatch, stop, wassent := true },
        { out with log := out.log ++ [e] }⟩ ∧
      RouteEvent.Notes e := by
  cases d with
  | target t => exact .inl ⟨t, rfl, h⟩
  | aggregation aggr templates =>
    cases h
    exact .inr (.inr (.inr (.inr ⟨_, _, _, rfl, trivial⟩)))
  | rewrite replacement =>
    rw [destStep] at h
    split at h
    · cases h
      exact .inr (.inr (.inr (.inl ⟨_, _, _, rfl⟩)))
    case h_2 metric firstspace hrewrite =>
      cases h
      exact .inr (.inr (.inl ⟨replacement, metric, firstspace, rfl, hrewrite, rfl⟩))
  | stub routes =>
    obtain ⟨out', hrun, rfl⟩ := map_eq_some_iff.1 h
    exact .inr (.inl ⟨routes, out', rfl, hrun, rfl⟩)
  | validation v =>
    rw [destStep] at h
    dsimp only at h
    split at h
    · cases h
      exact .inr (.inr (.inr (.inl ⟨_, _, _, rfl⟩)))
    · split at h <;> cases h
      · exact .inr (.inr (.inr (.inr ⟨_, _, _, rfl, trivial⟩)))
      · exact .inr (.inr (.inr (.inl ⟨_, _, _, rfl⟩)))

/-- Only a rewrite changes the line. -/
theorem destStep_line {w : Rule} {d : Dest} {last : Bool}
    {s : DestStep} (hd : ∀ replacement, d ≠ .rewrite replacement)
    (h : destStep env w d last fr out = some s) :
    s.frame.metric = fr.metric ∧ s.frame.firstspace = fr.firstspace := by
  rcases destStep_cases h with ⟨t, -, ht⟩ | ⟨_, _, -, -, rfl⟩ | ⟨replacement, _, _, rfl, -, -⟩ |
    ⟨_, _, _, rfl⟩ | ⟨_, _, _, rfl, -⟩
  · cases t with
    | blackhole =>
      cases ht
      exact ⟨rfl, rfl⟩
    | cluster cl =>
      obtain ⟨p, -, rfl⟩ := map_eq_some_iff.1 ht
      exact ⟨rfl, rfl⟩
  · exact ⟨rfl, rfl⟩
  · exact absurd rfl (hd replacement)
  · exact ⟨rfl, rfl⟩
  · exact ⟨rfl, rfl⟩

/-! ## Loops -/

/-- The loop over rules or over the entries of a table: it ends where a step lacks slots or stops.
-/
def runUntil {α : Type} (step : α → RouteFrame → RouteOut → Option RouteStep) :
    List α → RouteFrame → RouteOut → Option RouteStep
  | [], fr, out => some ⟨false, fr, out⟩
  | a :: l, fr, out =>
    match step a fr out with
    | none => none
    | some s => if s.full ∨ s.frame.stop then some s else runUntil step l s.frame s.out

/-- A step of a loop, with what it finds when the loop comes to it. -/
structure Reached (α : Type) where
  entry : α
  frame : RouteFrame
  out : RouteOut

/-- The steps that the loop comes to. -/
def reached {α : Type} (step : α → RouteFrame → RouteOut → Option RouteStep) :
    List α → RouteFrame → RouteOut → List (Reached α)
  | [], _, _ => []
  | a :: l, fr, out =>
    ⟨a, fr, out⟩ ::
      match step a fr out with
      | none => []
      | some s => if s.full ∨ s.frame.stop then [] else reached step l s.frame s.out

section
variable {α : Type} {step : α → RouteFrame → RouteOut → Option RouteStep} {fr : RouteFrame}
  {out : RouteOut}

theorem mem_reached {l : List α} {v : Reached α} (h : v ∈ reached step l fr out) : v.entry ∈ l := by
  induction l generalizing fr out with
  | nil => cases h
  | cons a l ih =>
    rw [reached, mem_cons] at h
    rcases h with rfl | h
    · exact mem_cons_self
    split at h
    · cases h
    · split at h
      · cases h
      · exact mem_cons_of_mem a (ih h)

theorem reached_singleton (a : α) : reached step [a] fr out = [⟨a, fr, out⟩] := by
  rw [reached]
  cases step a fr out with
  | none => rfl
  | some s => simp [reached]

end

/-- What an entry of the table does. -/
def routeEntry (env : RouteEnv) : Route → RouteFrame → RouteOut → Option RouteStep
  | .rule w, fr, out => routeRule env (destStep env) w fr out
  | .group name members, fr, out =>
    match groupTest name fr with
    | none => none
    | some false => some ⟨false, { fr with q := some false }, out⟩
    | some true =>
      (routeRules env (destStep env) members (env.frame fr.metric fr.firstspace) out).map fun s =>
        ⟨false, { fr with q := some true, stop := s.finish.1, metric := s.frame.metric },
          s.finish.2⟩

theorem routeRules_eq_runUntil {D : Type} (env : RouteEnv)
    (step : RuleOf D → D → Bool → RouteFrame → RouteOut → Option DestStep) (rules : List (RuleOf D))
    (fr : RouteFrame) (out : RouteOut) :
    routeRules env step rules fr out = runUntil (routeRule env step) rules fr out := by
  induction rules generalizing fr out with
  | nil => rfl
  | cons w rules ih =>
    rw [routeRules, runUntil]
    cases routeRule env step w fr out with
    | none => rfl
    | some s => simp only [ih]

theorem routeTable_eq_runUntil (env : RouteEnv) (table : List Route) (fr : RouteFrame)
    (out : RouteOut) : routeTable env table fr out = runUntil (routeEntry env) table fr out := by
  induction table generalizing fr out with
  | nil => rfl
  | cons r table ih =>
    cases r with
    | rule w =>
      rw [routeTable, runUntil, routeEntry]
      cases routeRule env (destStep env) w fr out with
      | none => rfl
      | some s => simp only [ih]
    | group name members =>
      simp only [routeTable, runUntil, routeEntry, ih]
      cases groupTest name fr with
      | none => rfl
      | some found =>
        cases found with
        | false => simp only [Bool.false_eq_true, false_or]
        | true =>
          cases routeRules env (destStep env) members (env.frame fr.metric fr.firstspace) out with
          | none => rfl
          | some s => simp only [map_some, Bool.false_eq_true, false_or]

/-! ## What a call keeps -/

/-- What holds of a call at every moment, with whether it is about to end for lack of slots. -/
abbrev CallInvariant := Bool → RouteFrame → RouteOut → Prop

/-- An invariant that a rule keeps when it does not match, when it fires, and with each destination.
-/
structure CallInvariant.Kept {D : Type} (I : CallInvariant)
    (step : RuleOf D → D → Bool → RouteFrame → RouteOut → Option DestStep) (w : RuleOf D) :
    Prop where
  miss : ∀ fr out pmatch, I false fr out → I false { fr with pmatch } out
  fire : ∀ fr out pmatch, I false fr out →
    I false { fr with pmatch, stop := w.stop } { out with log := out.log ++ [.fired w.id] }
  dest : ∀ d ∈ w.dest :: w.dests, ∀ last fr out s, step w d last fr out = some s →
    I false fr out → I s.full s.frame s.out

section
variable {D : Type} {I : CallInvariant} {env : RouteEnv}
  {step : RuleOf D → D → Bool → RouteFrame → RouteOut → Option DestStep}
  {fr : RouteFrame} {out : RouteOut} {s : RouteStep}

variable {w : RuleOf D}

/-- The loop over destinations ends with the first of them, or goes on behind it. -/
theorem routeDests_cons {d : D} {ds : List D}
    (h : routeDests step w (d :: ds) fr out = some s) : ∃ t, step w d ds.isEmpty fr out = some t ∧
      ((t.full = true ∨ t.skip = true) ∧ s = ⟨t.full, t.frame, t.out⟩ ∨
        t.full = false ∧ t.skip = false ∧ routeDests step w ds t.frame t.out = some s) := by
  rw [routeDests] at h
  cases hd : step w d ds.isEmpty fr out with
  | none => simp [hd] at h
  | some t =>
    simp only [hd] at h
    refine ⟨t, rfl, ?_⟩
    split at h
    case isTrue hfull =>
      cases h
      exact .inl ⟨.inl hfull, by rw [hfull]⟩
    case isFalse hfull =>
      rw [Bool.not_eq_true] at hfull
      split at h
      case isTrue hskip =>
        cases h
        exact .inl ⟨.inr hskip, by rw [hfull]⟩
      case isFalse hskip => exact .inr ⟨hfull, Bool.eq_false_iff.2 hskip, h⟩

theorem routeDests_invariant {ds : List D}
    (hstep : ∀ d ∈ ds, ∀ last fr out s, step w d last fr out = some s → I false fr out →
      I s.full s.frame s.out) (h : routeDests step w ds fr out = some s) (hinv : I false fr out) :
    I s.full s.frame s.out := by
  induction ds generalizing fr out with
  | nil =>
    cases h
    exact hinv
  | cons d ds ih =>
    obtain ⟨t, ht, hend⟩ := routeDests_cons h
    have hnext : I t.full t.frame t.out := hstep d mem_cons_self _ _ _ _ ht hinv
    rcases hend with ⟨-, rfl⟩ | ⟨hfull, -, hrest⟩
    · exact hnext
    · rw [hfull] at hnext
      exact ih (fun d hd => hstep d (mem_cons_of_mem _ hd)) hrest hnext

theorem routeRule_invariant (hkept : I.Kept step w)
    (h : routeRule env step w fr out = some s) (hinv : I false fr out) :
    I s.full s.frame s.out := by
  rw [routeRule] at h
  dsimp only at h
  split at h
  · exact routeDests_invariant hkept.dest h (hkept.fire _ _ _ hinv)
  · cases h
    exact hkept.miss _ _ _ hinv

section
variable {α : Type} {entry : α → RouteFrame → RouteOut → Option RouteStep} {a : α} {l : List α}

theorem runUntil_cons (h : runUntil entry (a :: l) fr out = some s) : ∃ t, entry a fr out = some t ∧
    ((t.full = true ∨ t.frame.stop = true) ∧ s = t ∨
      t.full = false ∧ t.frame.stop = false ∧ runUntil entry l t.frame t.out = some s) := by
  rw [runUntil] at h
  cases ht : entry a fr out with
  | none => simp [ht] at h
  | some t =>
    simp only [ht] at h
    refine ⟨t, rfl, ?_⟩
    split at h
    case isTrue hends =>
      cases h
      exact .inl ⟨hends, rfl⟩
    case isFalse hends =>
      rw [not_or, Bool.not_eq_true, Bool.not_eq_true] at hends
      exact .inr ⟨hends.1, hends.2, h⟩

/-- The loop keeps what its steps keep. -/
theorem runUntil_invariant
    (hstep : ∀ a ∈ l, ∀ fr out t, entry a fr out = some t → I false fr out → I t.full t.frame t.out)
    (h : runUntil entry l fr out = some s) (hinv : I false fr out) : I s.full s.frame s.out := by
  induction l generalizing fr out with
  | nil =>
    cases h
    exact hinv
  | cons a l ih =>
    obtain ⟨t, ht, hend⟩ := runUntil_cons h
    have hnext : I t.full t.frame t.out := hstep a mem_cons_self _ _ _ ht hinv
    rcases hend with ⟨-, rfl⟩ | ⟨hfull, -, hrest⟩
    · exact hnext
    · rw [hfull] at hnext
      exact ih (fun a ha => hstep a (mem_cons_of_mem _ ha)) hrest hnext

/-- What a step can only bring about holds at the end if it did at first, or one of the steps that
the loop comes to brings it about. -/
theorem runUntil_iff_reached {C : Reached α → Prop}
    (hstep : ∀ a ∈ l, ∀ fr out t, entry a fr out = some t →
      (I t.full t.frame t.out ↔ I false fr out ∨ C ⟨a, fr, out⟩))
    (h : runUntil entry l fr out = some s) :
    I s.full s.frame s.out ↔ I false fr out ∨ ∃ v ∈ reached entry l fr out, C v := by
  induction l generalizing fr out with
  | nil =>
    cases h
    simp [reached]
  | cons a l ih =>
    obtain ⟨t, ht, hend⟩ := runUntil_cons h
    have hfirst := hstep a mem_cons_self fr out t ht
    rcases hend with ⟨hends, rfl⟩ | ⟨hfull, hstop, hrest⟩
    · simp only [reached, ht, if_pos hends, mem_singleton, exists_eq_left, hfirst]
    · have hreached : reached entry (a :: l) fr out = ⟨a, fr, out⟩ ::
          reached entry l t.frame t.out := by
        simp [reached, ht, hfull, hstop]
      rw [hfull] at hfirst
      rw [ih (fun a ha => hstep a (mem_cons_of_mem _ ha)) hrest, hfirst, hreached,
        exists_mem_cons_iff]
      grind

end

theorem routeRules_keeps {rules : List (RuleOf D)}
    (hrule : ∀ w ∈ rules, ∀ fr out t, routeRule env step w fr out = some t → I false fr out →
      I t.full t.frame t.out) (h : routeRules env step rules fr out = some s)
        (hinv : I false fr out) :
    I s.full s.frame s.out := by
  rw [routeRules_eq_runUntil] at h
  exact runUntil_invariant hrule h hinv

theorem routeRules_invariant {rules : List (RuleOf D)} (hkept : ∀ w ∈ rules, I.Kept step w)
    (h : routeRules env step rules fr out = some s) (hinv : I false fr out) :
    I s.full s.frame s.out :=
  routeRules_keeps (fun w hw _ _ _ => routeRule_invariant (hkept w hw)) h hinv

end

/-- A group is passed over, or its rules run in a call of their own. -/
theorem routeEntry_group {name : Text} {members : List Rule}
    {t : RouteStep} (h : routeEntry env (.group name members) fr out = some t) :
    t = ⟨false, { fr with q := some false }, out⟩ ∨
    ∃ s, routeRules env (destStep env) members (env.frame fr.metric fr.firstspace) out = some s ∧
      t = ⟨false, { fr with q := some true, stop := s.finish.1, metric := s.frame.metric },
        s.finish.2⟩ := by
  rw [routeEntry] at h
  split at h
  · cases h
  · cases h
    exact .inl rfl
  · obtain ⟨s, hs, rfl⟩ := map_eq_some_iff.1 h
    exact .inr ⟨s, hs, rfl⟩

/-- An entry keeps what its rules keep, if a group gets from before its call to behind it. -/
theorem routeEntry_invariant {I : CallInvariant} {r : Route}
    {t : RouteStep} (hq : ∀ fr out, I false fr out → I false { fr with q := some false } out)
    (hrule : ∀ w, r = .rule w → ∀ fr out t, routeRule env (destStep env) w fr out = some t →
      I false fr out → I t.full t.frame t.out)
    (hgroup : ∀ name members, r = .group name members → ∀ fr out s,
      routeRules env (destStep env) members (env.frame fr.metric fr.firstspace) out = some s →
      I false fr out →
      I false { fr with q := some true, stop := s.finish.1, metric := s.frame.metric } s.finish.2)
    (h : routeEntry env r fr out = some t) (hinv : I false fr out) : I t.full t.frame t.out := by
  cases r with
  | rule w => exact hrule w rfl fr out t h hinv
  | group name members =>
    rcases routeEntry_group h with rfl | ⟨s, hs, rfl⟩
    · exact hq fr out hinv
    · exact hgroup name members rfl fr out s hs hinv

theorem routeTable_invariant {I : CallInvariant} {table : List Route}
    {s : RouteStep} (hq : ∀ fr out, I false fr out → I false { fr with q := some false } out)
    (hrule : ∀ w, .rule w ∈ table → ∀ fr out t, routeRule env (destStep env) w fr out = some t →
      I false fr out → I t.full t.frame t.out)
    (hgroup : ∀ name members, .group name members ∈ table → ∀ fr out s,
      routeRules env (destStep env) members (env.frame fr.metric fr.firstspace) out = some s →
      I false fr out →
      I false { fr with q := some true, stop := s.finish.1, metric := s.frame.metric } s.finish.2)
    (h : routeTable env table fr out = some s) (hinv : I false fr out) : I s.full s.frame
      s.out := by
  rw [routeTable_eq_runUntil] at h
  refine runUntil_invariant (fun r hr _ _ _ => routeEntry_invariant hq ?_ ?_) h hinv
  · rintro w rfl
    exact hrule w hr
  · rintro name members rfl
    exact hgroup name members hr

/-! ## The end of a call -/

theorem RouteStep.finish_ret (s : RouteStep) : s.finish.2.ret = s.out.ret := by
  rw [RouteStep.finish]
  split <;> rfl

theorem RouteStep.finish_log (s : RouteStep) : s.finish.2.log = s.out.log := by
  rw [RouteStep.finish]
  split <;> rfl

end CarbonRelay
