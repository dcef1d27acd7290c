import CarbonRelay.Aggregator.Steps
import Mathlib.Algebra.Order.Floor.Div

/-!
# The fields of an aggregator

The grammar hands interval and expiry time on as integers, and the fields of an aggregator that take
them are shorter: two bytes for the times, one for the number of buckets, and two for the expiry
time of an invocation with its splay. This module states what the set-up of an aggregator is meant
to give (`SetUpRight`), up to the acceptance of a metric with the current time, and that it does so
exactly if the values fit.
-/

namespace CarbonRelay

open List

universe u

variable {V : Type u}

/-- An aggregate statement the grammar accepts (`conffile.y:664`). A compute is its name template,
its type and its percentile. -/
structure AggrStatement where
  interval : Nat
  expire : Nat
  tswhen : AggrTimestamp
  computes : List (Text × ComputeType × Nat)
  interval_pos : 0 < interval
  interval_lt : interval < expire
  expire_lt : expire < 2 ^ 31
  computes_ne : computes ≠ []
  percentile_mem : ∀ c ∈ computes, c.2.1 = .pctl → 1 ≤ c.2.2 ∧ c.2.2 ≤ 99

namespace AggrStatement

/-- The aggregator of the statement. -/
def new (S : AggrStatement) : Aggregator V :=
  S.computes.foldl (fun s c => aggregatorAddCompute s c.1 c.2.1 c.2.2)
    (aggregatorNew S.interval S.expire S.tswhen)

/-- All values fit the fields they are put into. -/
def Fits (S : AggrStatement) : Prop :=
  S.expire + S.interval ≤ 2 ^ 16 ∧ S.expire ⌈/⌉ S.interval + 2 < 2 ^ 8

theorem bucketcnt_eq (S : AggrStatement) :
    (S.expire + (S.interval - 1)) / S.interval + 1 + 1 = S.expire ⌈/⌉ S.interval + 2 := by
  rw [Nat.ceilDiv_eq_add_pred_div, Nat.add_sub_assoc S.interval_pos]

end AggrStatement

/-- Memory can be allocated for a new invocation. -/
def PutOracle.allocates (o : PutOracle) : Bool :=
  o.invocationAlloc && o.metricAlloc && o.bucketsAlloc

/-- What is expected of the aggregator of a statement: its fields have the values of the statement,
an invocation expires up to an interval later, in every run, and a metric with the current time for
which an invocation is created is accepted. -/
structure SetUpRight (F : FloatOps V) (atof : Text → V) (qsort : (V → V → Int) → List V → List V)
    (S : AggrStatement) : Prop where
  interval : (S.new : Aggregator V).interval = S.interval
  expire : (S.new : Aggregator V).expire = S.expire
  bucketcnt : (S.new : Aggregator V).bucketcnt = S.expire ⌈/⌉ S.interval + 2
  splay : ∀ steps s os, Machine.run (aggrStep F atof qsort) S.new steps = some (s, os) →
    ∀ i inv, s.HasInvocation i inv → ∃ splay < S.interval, inv.expire = s.expire + splay
  accepted : ∀ steps s os, Machine.run (aggrStep F atof qsort) S.new steps = some (s, os) →
    ∀ now data val rewrite oracle i c metric, parseData atof data = some (val, now) →
      s.computes[i]? = some c → rewrite c.metric = some metric → ¬ s.HasName i metric →
      (oracle i).allocates = true →
      ∃ s' es start growth, aggregatorPutmetric F atof true now data rewrite oracle s =
        some (s', es) ∧ .accepted i metric start now val growth ∈ es

section
variable {F : FloatOps V} {s s' : Aggregator V} {i : Nat} {n r : Bool} {now epoch : Int} {val : V}
  {metric : Text} {rewrite : Text → Option Text} {o : PutOracle} {chain : List (Invocation V)}
  {c : Compute V} {es : List (AggrEvent V)}

/-! ## A metric with the current time -/

/-- The current time is in a bucket of a new invocation. -/
theorem now_mem_buckets (S : AggrStatement) (now : Int) :
    0 ≤ now - (now - S.expire).tdiv S.interval * S.interval ∧
      now - (now - S.expire).tdiv S.interval * S.interval <
        ((S.expire ⌈/⌉ S.interval + 2 : Nat) : Int) * S.interval := by
  have hpos : (0 : Int) < S.interval := by exact_mod_cast S.interval_pos
  have hlt : (S.interval : Int) < S.expire := by exact_mod_cast S.interval_lt
  have hdiv := Int.tmod_add_mul_tdiv (now - S.expire) S.interval
  have hmod := Int.tmod_lt_of_pos (now - S.expire) hpos
  have hmod' := Int.lt_tmod_of_pos (now - S.expire) hpos
  have hceil : (S.expire : Int) ≤ (S.expire ⌈/⌉ S.interval : Nat) * S.interval := by
    rw [mul_comm]
    exact_mod_cast (ceilDiv_le_iff_le_mul S.interval_pos).1 (le_refl (S.expire ⌈/⌉ S.interval))
  rw [mul_comm] at hdiv
  push_cast
  constructor <;> linarith

variable {atof : Text → V}

section
variable (hle : 0 ≤ epoch - (now - s.expire).tdiv s.interval * s.interval)
  (hlt : epoch - (now - s.expire).tdiv s.interval * s.interval < s.bucketcnt * s.interval)
include hle hlt

/-- A new invocation accepts a value of a time that is in one of its buckets. -/
theorem putInvocation_new (i : Nat) (n r : Bool) (val : V) (metric : Text) (rand : Nat)
    (hpos : 0 < s.interval) :
    ∃ inv' start growth, putInvocation F s i n r epoch val (newInvocation F s now metric rand) =
      some (inv', [.accepted i metric start epoch val growth]) := by
  have hpos' : (0 : Int) < s.interval := by exact_mod_cast hpos
  have hk : ((epoch - (now - s.expire).tdiv s.interval * s.interval) / s.interval).toNat <
      s.bucketcnt := by
    rw [Int.toNat_lt (Int.ediv_nonneg hle hpos'.le)]
    exact Int.ediv_lt_of_lt_mul hpos' hlt
  have hcnt : 0 < s.bucketcnt := Nat.zero_lt_of_lt hk
  rw [putInvocation, newInvocation]
  simp only [head?_map, head?_range, hcnt.ne', if_false, Option.map_some, Nat.cast_zero,
    zero_mul, add_zero, getElem?_map, getElem?_range hk, not_lt.2 hle, not_le.2 hlt,
    reduceCtorEq]
  exact ⟨_, _, _, rfl⟩

theorem putCompute_new (F : FloatOps V) (i : Nat) (val : V) (hpos : 0 < s.interval)
    (hname : rewrite c.metric = some metric)
    (hchain : c.invocationsHt[omhtbucket (Fnv1a.hash32 metric)]? = some chain)
    (hany : chain.any (Invocation.isFor metric) = false) (ho : o.allocates = true) :
    ∃ c' start growth, putCompute F s now epoch val rewrite o i c =
        some (c', [.accepted i metric start epoch val growth]) ∧
      ∃ inv, c'.Has inv ∧ SameRow (newInvocation F s now metric o.rand) inv := by
  obtain ⟨inv', start, growth, hput⟩ := putInvocation_new (F := F) hle hlt i c.entriesNeeded
    o.realloc val metric o.rand hpos
  simp only [PutOracle.allocates, Bool.and_eq_true] at ho
  obtain ⟨⟨hinv, hmetric⟩, hbuckets⟩ := ho
  have hfind : findOrAdd F s now metric o chain =
      some (newInvocation F s now metric o.rand :: chain) := by
    simp [findOrAdd, hany, hinv, hmetric, hbuckets, hpos.ne']
  have hchain' : putChain F s i c.entriesNeeded o.realloc epoch val metric
      (newInvocation F s now metric o.rand :: chain) =
        some (inv' :: chain, [.accepted i metric start epoch val growth]) := by
    have hfor : (newInvocation F s now metric o.rand).isFor metric = true := (isFor_iff rfl).2 rfl
    rw [putChain, if_pos hfor, hput]
  refine ⟨_, start, growth, putCompute_eq hname hchain hfind hchain', inv',
    ⟨omhtbucket (Fnv1a.hash32 metric), inv' :: chain, ?_, mem_cons_self⟩,
    (putInvocation_took hput).1.toSameRow⟩
  exact getElem?_set_self (List.getElem?_eq_some_iff.1 hchain).1

/-- Taking in a metric of a time that is in a bucket of the new invocation. -/
theorem AggrOK.putmetric_new {P : AggrParams V} {tr : List (AggrEvent V)} (h : AggrOK P tr s)
    (hcnt : 0 < P.bucketcnt) {data : Text} {oracle : Nat → PutOracle}
    (hdata : parseData atof data = some (val, epoch))
    (hc : s.computes[i]? = some c) (hname : rewrite c.metric = some metric)
    (hnew : ¬ s.HasName i metric) (ho : (oracle i).allocates = true) :
    ∃ s' es start growth, aggregatorPutmetric P.F atof true now data rewrite oracle s =
      some (s', es) ∧ .accepted i metric start epoch val growth ∈ es ∧
      ∃ inv, s'.HasInvocation i inv ∧
        SameRow (newInvocation P.F s now metric (oracle i).rand) inv := by
  obtain ⟨chain, hchain, hany⟩ := h.exists_chain_of_not_hasName hc hnew
  obtain ⟨c', start, growth, hput, inv, hinv, hrow⟩ := putCompute_new hle hlt P.F i val
    (h.fits.interval ▸ P.interval_pos) hname hchain hany ho
  obtain ⟨⟨s', es⟩, hs'⟩ := h.exists_putmetric hcnt atof true now data rewrite oracle
  refine ⟨s', es, start, growth, hs', ?_⟩
  rw [aggregatorPutmetric, if_neg (not_not.2 rfl), hdata] at hs'
  dsimp only at hs'
  split at hs'
  case h_1 => cases hs'
  case h_2 computes es₁ hmap =>
    cases hs'
    have hput' : putCompute P.F s now epoch val rewrite (oracle (0 + i)) (0 + i) c =
        some (c', [.accepted i metric start epoch val growth]) := by rw [Nat.zero_add]; exact hput
    obtain ⟨c'', es'', hc'', hput''⟩ := (mapEmit_getElem? hmap).2 i c hc
    cases hput'.symm.trans hput''
    exact ⟨mem_of_mapEmit hmap hc hput' mem_cons_self, inv, hasInvocation_iff.2 ⟨c', hc'', hinv⟩,
      hrow⟩

end

/-! ## Runs -/

/-- No step changes the times of the aggregator. -/
theorem expire_aggrStep {qsort : (V → V → Int) → List V → List V} {a : AggrStep}
    (h : aggrStep F atof qsort s a = some (s', es)) : s'.expire = s.expire := by
  cases a with
  | putmetric =>
    simp only [aggrStep, aggregatorPutmetric] at h
    split at h
    · cases h; rfl
    · split at h
      · cases h; rfl
      · split at h
        · cases h
        · cases h; rfl
  | expire =>
    simp only [aggrStep, aggregatorExpire] at h
    split at h
    · cases h
    · cases h; rfl
  | cleanup => cases h; rfl

/-- The expiry time of an invocation is as much after that of the aggregator as it was at its
creation. -/
structure SplayOK (P : AggrParams V) (expire : Nat) (tr : List (AggrEvent V)) (s : Aggregator V) :
    Prop where
  ok : AggrOK P tr s
  expire_eq : s.expire = expire
  splay : ∀ i inv, s.HasInvocation i inv → ∃ splay < P.interval, inv.expire = expire + splay

theorem SplayOK.step {P : AggrParams V} {expire : Nat} {tr : List (AggrEvent V)}
    (h : SplayOK P expire tr s) (hfits : expire + P.interval ≤ 2 ^ 16) {a : AggrStep}
    (hstep : aggrStep P.F atof P.qsort s a = some (s', es)) : SplayOK P expire (tr ++ es) s' := by
  refine ⟨h.ok.step hstep, (expire_aggrStep hstep).trans h.expire_eq, fun i inv' hinv' => ?_⟩
  cases a with
  | putmetric running now data rewrite oracle =>
    rcases (h.ok.putmetric_hasInvocation hstep).2 i inv' hinv' with ⟨_, inv, -, hinv, hrow⟩ |
      ⟨_, metric, -, -, -, -, hrow⟩
    · rw [hrow.expire]
      exact h.splay i inv hinv
    · refine ⟨(oracle i).rand % P.interval, Nat.mod_lt _ P.interval_pos, ?_⟩
      have hlt := Nat.mod_lt (oracle i).rand P.interval_pos
      rw [hrow.expire, newInvocation, h.expire_eq, h.ok.fits.interval, Nat.mod_eq_of_lt (by omega)]
  | expire running now sent =>
    refine (@aggregatorExpire_framed V tr es s s' (fun _ => True)
      (fun _ _ inv => ∃ splay < P.interval, inv.expire = expire + splay) P.F P.qsort
        running now sent
      (fun _ _ _ inv inv' _ _ hsplay hscan => ⟨trivial, ?_⟩) (fun _ _ _ _ hsplay _ => hsplay)
      (fun i c hc => h.ok.placed hc) trivial h.splay hstep).2 i inv' hinv'
    obtain ⟨front, back, -, -, rfl, -⟩ := scanInvocation_eq_some hscan
    exact hsplay
  | cleanup =>
    cases hstep
    obtain ⟨inv, hinv, hclean⟩ := aggregatorCleanup_hasInvocation hinv'
    rw [cleanInvocation_eq_some hclean]
    exact h.splay i inv hinv

end

namespace AggrStatement

/-- The configuration of a statement whose values fit their fields. -/
def config (S : AggrStatement) (hexpire : S.expire < 2 ^ 16)
    (hcnt : S.expire ⌈/⌉ S.interval + 2 < 2 ^ 8) : AggrConfig where
  interval := S.interval
  expire := S.expire
  tswhen := S.tswhen
  computes := S.computes
  interval_pos := S.interval_pos
  interval_lt := S.interval_lt
  expire_lt := hexpire
  bucketcnt_lt := S.bucketcnt_eq ▸ hcnt
  percentile_mem := S.percentile_mem

section
variable (S : AggrStatement)

theorem new_interval : (S.new : Aggregator V).interval = S.interval % 2 ^ 16 := by
  rw [new, foldl_aggregatorAddCompute]
  rfl

theorem new_expire : (S.new : Aggregator V).expire = S.expire % 2 ^ 16 := by
  rw [new, foldl_aggregatorAddCompute]
  rfl

theorem new_bucketcnt : (S.new : Aggregator V).bucketcnt =
    (S.expire ⌈/⌉ S.interval + 2) % 2 ^ 8 := by
  rw [new, foldl_aggregatorAddCompute, ← bucketcnt_eq]
  rfl

/-- A new aggregator has no invocations. -/
theorem not_hasInvocation_new (i : Nat) (inv : Invocation V) :
    ¬ (S.new : Aggregator V).HasInvocation i inv := by
  rintro ⟨c, k, chain, hc, hk, hmem⟩
  rw [new, foldl_aggregatorAddCompute, aggregatorNew, nil_append, getElem?_map,
    Option.map_eq_some_iff] at hc
  obtain ⟨_, -, rfl⟩ := hc
  cases (mem_replicate.1 (mem_of_getElem? hk)).2
  cases hmem

end

end AggrStatement

section
variable {F : FloatOps V} {qsort : (V → V → Int) → List V → List V} {hq : Sorts qsort}
  {S : AggrStatement} {hexpire : S.expire < 2 ^ 16} {hcnt : S.expire ⌈/⌉ S.interval + 2 < 2 ^ 8}
  {tr : List (AggrEvent V)} {s : Aggregator V}

theorem aggrOK_statement (F : FloatOps V) (hq : Sorts qsort) (hexpire : S.expire < 2 ^ 16)
    (hcnt : S.expire ⌈/⌉ S.interval + 2 < 2 ^ 8) :
    AggrOK ((S.config hexpire hcnt).params F hq) [] S.new :=
  aggrOK_new (S.config hexpire hcnt) F hq

/-- With the times of the statement, a metric of the current time that creates an invocation is
accepted. -/
theorem AggrOK.putmetric_now (h : AggrOK ((S.config hexpire hcnt).params F hq) tr s)
    (hs : s.expire = S.expire) {atof : Text → V} {now : Int} {data : Text} {val : V}
    {rewrite : Text → Option Text} {oracle : Nat → PutOracle} {i : Nat} {c : Compute V}
    {metric : Text}
    (hdata : parseData atof data = some (val, now)) (hc : s.computes[i]? = some c)
    (hname : rewrite c.metric = some metric) (hnew : ¬ s.HasName i metric)
    (ho : (oracle i).allocates = true) :
    ∃ s' es start growth, aggregatorPutmetric F atof true now data rewrite oracle s =
      some (s', es) ∧ .accepted i metric start now val growth ∈ es ∧
      ∃ inv, s'.HasInvocation i inv ∧
        SameRow (newInvocation F s now metric (oracle i).rand) inv := by
  obtain ⟨hle, hlt⟩ := now_mem_buckets S now
  have hinterval : s.interval = S.interval := h.fits.interval
  have hbucketcnt : s.bucketcnt = S.expire ⌈/⌉ S.interval + 2 :=
    h.fits.bucketcnt.trans S.bucketcnt_eq
  rw [← hs, ← hinterval] at hle
  rw [← hbucketcnt, ← hs, ← hinterval] at hlt
  exact h.putmetric_new hle hlt (Nat.succ_pos _) hdata hc hname hnew ho

/-- Every allocation succeeds, and an invocation gets the longest splay. -/
def longestSplay (interval : Nat) (_ : Nat) : PutOracle := ⟨true, true, true, true, interval - 1⟩

/-- An invocation that is created with the longest splay expires when it should only if that fits.
-/
theorem expire_add_interval_le (F : FloatOps V) (atof : Text → V) (hq : Sorts qsort)
    (h : SetUpRight F atof qsort S) (hexpire : S.expire < 2 ^ 16)
    (hcnt : S.expire ⌈/⌉ S.interval + 2 < 2 ^ 8) : S.expire + S.interval ≤ 2 ^ 16 := by
  have hnone (metric : Text) : ¬ (S.new : Aggregator V).HasName 0 metric := by
    rintro ⟨inv, hinv, -⟩
    exact S.not_hasInvocation_new 0 inv hinv
  obtain ⟨c, hc⟩ : ∃ c, (S.new : Aggregator V).computes[0]? = some c := by
    rw [AggrStatement.new, foldl_aggregatorAddCompute]
    exact ⟨_, getElem?_eq_getElem (by
      simpa [aggregatorNew] using length_pos_iff.2 S.computes_ne)⟩
  have hdata : parseData atof ['0', ' ', '0'] = some (atof ['0', ' ', '0'], 0) := rfl
  have ho : (longestSplay S.interval 0).allocates = true := rfl
  obtain ⟨s', es, start, growth, hput, -, inv, hinv, hrow⟩ :=
    (aggrOK_statement F hq hexpire hcnt).putmetric_now h.expire hdata hc rfl (hnone c.metric) ho
  have hstep : aggrStep F atof qsort (S.new : Aggregator V)
      (.putmetric true 0 ['0', ' ', '0'] some (longestSplay S.interval)) = some (s', es) := hput
  have hrun : Machine.run (aggrStep F atof qsort) (S.new : Aggregator V)
      [.putmetric true 0 ['0', ' ', '0'] some (longestSplay S.interval)] = some (s', [es]) :=
    Machine.run_cons_eq_some.2 ⟨s', es, [], hstep, rfl, rfl⟩
  obtain ⟨splay, hlt, heq⟩ := h.splay _ s' _ hrun 0 inv hinv
  have hlongest : inv.expire = (S.expire + (S.interval - 1)) % 2 ^ 16 := by
    rw [hrow.expire, newInvocation, h.expire, h.interval, longestSplay,
      Nat.mod_eq_of_lt (Nat.sub_lt S.interval_pos Nat.one_pos)]
  rw [hlongest, expire_aggrStep hstep, h.expire] at heq
  have := S.interval_pos
  have := S.interval_lt
  omega

end

/-- The set-up of an aggregator gives what is expected of it exactly if all values fit their fields.
-/
theorem setUpRight_iff (F : FloatOps V) (atof : Text → V)
    {qsort : (V → V → Int) → List V → List V} (hq : Sorts qsort) (S : AggrStatement) :
    SetUpRight F atof qsort S ↔ S.Fits := by
  constructor
  · intro h
    have hexpire : S.expire < 2 ^ 16 := by
      rw [← h.expire, S.new_expire]
      exact Nat.mod_lt _ (by decide)
    have hcnt : S.expire ⌈/⌉ S.interval + 2 < 2 ^ 8 := by
      rw [← h.bucketcnt, S.new_bucketcnt]
      exact Nat.mod_lt _ (by decide)
    exact ⟨expire_add_interval_le F atof hq h hexpire hcnt, hcnt⟩
  · rintro ⟨hsplay, hcnt⟩
    have hexpire : S.expire < 2 ^ 16 := by have := S.interval_pos; omega
    have hnew : (S.new : Aggregator V).expire = S.expire :=
      S.new_expire.trans (Nat.mod_eq_of_lt hexpire)
    have hok (steps s os)
        (hrun : Machine.run (aggrStep F atof qsort) (S.new : Aggregator V) steps = some (s, os)) :
        SplayOK ((S.config hexpire hcnt).params F hq) S.expire ([] ++ os.flatten) s := by
      refine Machine.run_trace_invariant (p := fun _ => True)
        (fun _ _ _ _ _ _ h hstep => h.step hsplay hstep) (fun _ _ => trivial) ?_ hrun
      exact ⟨aggrOK_statement F hq hexpire hcnt, hnew,
        fun i inv hinv => absurd hinv (S.not_hasInvocation_new i inv)⟩
    refine ⟨?_, hnew, ?_, fun steps s os hrun i inv hinv => ?_, ?_⟩
    · rw [S.new_interval, Nat.mod_eq_of_lt (S.interval_lt.trans hexpire)]
    · rw [S.new_bucketcnt, Nat.mod_eq_of_lt hcnt]
    · rw [(hok steps s os hrun).expire_eq]
      exact (hok steps s os hrun).splay i inv hinv
    · intro steps s os hrun now data val rewrite oracle i c metric hdata hc hname hnone ho
      have h := hok steps s os hrun
      obtain ⟨s', es, start, growth, hput, haccepted, -⟩ :=
        h.ok.putmetric_now h.expire_eq hdata hc hname hnone ho
      exact ⟨s', es, start, growth, hput, haccepted⟩

/-- A sum of `interval` seconds each. -/
def sumStatement (interval expire : Nat) (hpos : 0 < interval) (hlt : interval < expire)
    (hexpire : expire < 2 ^ 31) : AggrStatement where
  interval
  expire
  tswhen := .end
  computes := [(['m'], .sum, 0)]
  interval_pos := hpos
  interval_lt := hlt
  expire_lt := hexpire
  computes_ne := cons_ne_nil _ _
  percentile_mem c hc h := by cases mem_singleton.1 hc; cases h

/-- Every 10 seconds, expiring after 20. -/
theorem setUpRight_small :
    SetUpRight intOps (fun t => (Text.strtol t).1) insertSort
      (sumStatement 10 20 (by decide) (by decide) (by decide)) :=
  (setUpRight_iff intOps _ Sorts.insertSort _).2 ⟨by decide, by decide⟩

/-- Every second, expiring after five minutes: there are 46 buckets instead of 302, and a metric of
the current time is dropped as too far in the future. -/
theorem many_buckets_narrowed :
    ((sumStatement 1 300 (by decide) (by decide) (by decide)).new : Aggregator Int).bucketcnt = 46 ∧
      (putInvocation intOps (aggregatorNew 1 300 .end) 0 false true 1000 7
        (newInvocation intOps (aggregatorNew 1 300 .end) 1000 ['m'] 0)).map Prod.snd =
          some [.dropped 0 ['m']] ∧ ¬ SetUpRight intOps (fun t => (Text.strtol t).1) insertSort
        (sumStatement 1 300 (by decide) (by decide) (by decide)) := by
  refine ⟨by decide, by decide +kernel, fun h => ?_⟩
  have hcnt : 46 = 300 ⌈/⌉ 1 + 2 := h.bucketcnt
  exact absurd hcnt (by decide)

end CarbonRelay
