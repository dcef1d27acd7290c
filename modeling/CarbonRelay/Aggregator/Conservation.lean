import CarbonRelay.Aggregator.Table

/-!
# An aggregator conserves what it accepts

The invariant of a whole aggregator (`AggrOK`), that its steps keep it, and what follows for every
run from a configuration that fits the fields of the aggregator (`AggrConfig`): the buckets are
where they should be, an accepted value is in the one open bucket of its time until an aggregate is
written for it, and that aggregate is computed from exactly the values of its bucket. The last fails
in two cases, and only in these (`CanCompute`): the array of values could not grow, or a percentile
has rank zero.
-/

namespace CarbonRelay

open List

universe u

variable {V : Type u}

/-- An aggregator after the events `tr`. -/
structure AggrOK (P : AggrParams V) (tr : List (AggrEvent V)) (s : Aggregator V) : Prop where
  fits : P.Fits s
  trace : P.TraceOK tr
  computes : ∀ i c, s.computes[i]? = some c → ComputeOK P i tr c
  absent : ∀ i, s.computes.length ≤ i → ∀ metric start, pending tr i metric start = []

section
variable {P : AggrParams V} {tr es : List (AggrEvent V)} {s s' : Aggregator V}

/-- A pass over the computes, from what it does to one of them. -/
theorem AggrOK.mapEmit {f : Nat → Compute V → Option (Compute V × List (AggrEvent V))}
    (hf : ∀ i tr c c' es, P.TraceOK tr → ComputeOK P i tr c → f i c = some (c', es) →
      ComputeKept P i tr es c')
    (h : AggrOK P tr s) (hmap : mapEmit f 0 s.computes = some (s'.computes, es))
    (hfits : P.Fits s') :
    AggrOK P (tr ++ es) s' := by
  obtain ⟨htr, hgood, habout⟩ := mapEmit_framed P.TraceOK (fun i tr c => ComputeOK P i tr c)
    (fun i _ e => e.key.1 = i)
    (fun i tr c c' es htr hc hstep =>
      have hkept := hf i tr c c' es htr hc hstep
      ⟨hkept.trace, hkept.ok, hkept.key, fun _ he => he⟩)
    (fun _ _ _ _ hc hes => hc.frame hes) h.trace
    (fun i c hi => by rw [Nat.zero_add]; exact h.computes i c hi)
    (fun j k _ _ hjk _ _ e hj hk => hjk (by simpa using hj.symm.trans hk)) hmap
  refine ⟨hfits, htr, fun i c hi => ?_, fun i hi metric start => ?_⟩
  · have := hgood i c hi
    rwa [Nat.zero_add] at this
  · rw [(mapEmit_getElem? hmap).1] at hi
    rw [pending_append_of_key fun e he hkey => ?_]
    · exact h.absent i hi metric start
    · obtain ⟨j, c, hj, hje⟩ := habout e he
      have hlt := (List.getElem?_eq_some_iff.1 hj).1
      rw [hkey, Nat.zero_add] at hje
      cases hje
      exact Nat.not_lt.2 hi hlt

variable {atof : Text → V} {now : Int} {qsort : (V → V → Int) → List V → List V}

/-- A metric is taken in. -/
theorem AggrOK.putmetric (h : AggrOK P tr s) {running : Bool}
    {data : Text} {rewrite : Text → Option Text} {oracle : Nat → PutOracle}
    (hput : aggregatorPutmetric P.F atof running now data rewrite oracle s = some (s', es)) :
    AggrOK P (tr ++ es) s' := by
  rw [aggregatorPutmetric] at hput
  split at hput
  case isTrue => cases hput; rwa [append_nil]
  case isFalse =>
    split at hput
    case h_1 => cases hput; rwa [append_nil]
    case h_2 =>
      split at hput
      case h_1 => cases hput
      case h_2 computes es₁ hmap =>
        cases hput
        exact h.mapEmit (fun _ _ _ _ _ htr hc hstep => hc.put h.fits htr hstep) hmap
          ⟨h.fits.interval, h.fits.bucketcnt⟩

/-- The pass that writes aggregates. -/
theorem AggrOK.expire (h : AggrOK P tr s) {running : Bool} {sent : Nat → Bool}
    (hexp : aggregatorExpire P.F P.qsort running now sent s = some (s', es)) :
    AggrOK P (tr ++ es) s' := by
  rw [aggregatorExpire] at hexp
  dsimp only at hexp
  split at hexp
  case h_1 => cases hexp
  case h_2 computes es₁ hmap =>
    cases hexp
    exact h.mapEmit (fun _ _ _ _ _ htr hc hstep => hc.scan htr hstep) hmap
      ⟨h.fits.interval, h.fits.bucketcnt⟩

/-- The events of the pass, while the relay runs, are those of the scan of the computes. -/
theorem exists_aggregatorExpire {F : FloatOps V} {sent : Nat → Bool} {computes : List (Compute V)}
    (hmap : mapEmit (scanCompute F qsort s true now) 0 s.computes = some (computes, es)) :
    ∃ s', aggregatorExpire F qsort true now sent s = some (s', es) := by
  rw [aggregatorExpire, if_pos rfl, add_zero]
  dsimp only
  rw [hmap]
  exact ⟨_, rfl⟩

/-- The pass that cleans up. -/
theorem AggrOK.cleanup (h : AggrOK P tr s) : AggrOK P tr (aggregatorCleanup s) := by
  refine ⟨⟨h.fits.interval, h.fits.bucketcnt⟩, h.trace, fun i c hi => ?_, fun i hi => ?_⟩
  · rw [aggregatorCleanup, getElem?_map, Option.map_eq_some_iff] at hi
    obtain ⟨c₀, hi, rfl⟩ := hi
    rw [h.fits.interval]
    exact (h.computes i c₀ hi).clean
  · rw [aggregatorCleanup, length_map] at hi
    exact h.absent i hi

/-- Every step keeps the invariant. -/
theorem AggrOK.step (h : AggrOK P tr s) {a : AggrStep}
    (hstep : aggrStep P.F atof P.qsort s a = some (s', es)) : AggrOK P (tr ++ es) s' := by
  cases a with
  | putmetric => exact h.putmetric hstep
  | expire => exact h.expire hstep
  | cleanup => cases hstep; rw [append_nil]; exact h.cleanup

/-- Taking in a metric never reads outside of the buckets, nor divides by zero. -/
theorem AggrOK.exists_putmetric (h : AggrOK P tr s) (hcnt : 0 < P.bucketcnt) (atof : Text → V)
    (running : Bool) (now : Int) (data : Text) (rewrite : Text → Option Text)
    (oracle : Nat → PutOracle) :
    ∃ r, aggregatorPutmetric P.F atof running now data rewrite oracle s = some r := by
  rw [aggregatorPutmetric]
  split
  case isTrue => exact ⟨_, rfl⟩
  case isFalse =>
    split
    case h_1 => exact ⟨_, rfl⟩
    case h_2 val epoch _ =>
      obtain ⟨⟨computes, es⟩, hmap⟩ := exists_mapEmit
        (f := fun i c => putCompute P.F s now epoch val rewrite (oracle i) i c) (l := s.computes)
        (n := 0) fun i c hi => by
          rw [Nat.zero_add]
          exact (h.computes i c hi).exists_put h.fits hcnt now epoch val rewrite (oracle i)
      rw [hmap]
      exact ⟨_, rfl⟩

/-! ## Configurations -/

/-- What the grammar accepts for an aggregator (`conffile.y:663`), where interval, expiry time and
the number of buckets fit their fields. A compute is its name template, its type and its percentile.
-/
structure AggrConfig where
  interval : Nat
  expire : Nat
  tswhen : AggrTimestamp
  computes : List (Text × ComputeType × Nat)
  interval_pos : 0 < interval
  interval_lt : interval < expire
  expire_lt : expire < 2 ^ 16
  bucketcnt_lt : (expire + (interval - 1)) / interval + 1 + 1 < 2 ^ 8
  percentile_mem : ∀ c ∈ computes, c.2.1 = .pctl → 1 ≤ c.2.2 ∧ c.2.2 ≤ 99

/-- The aggregator of a configuration. -/
def AggrConfig.new (C : AggrConfig) : Aggregator V :=
  C.computes.foldl (fun s c => aggregatorAddCompute s c.1 c.2.1 c.2.2)
    (aggregatorNew C.interval C.expire C.tswhen)

/-- The types and percentiles of the computes. -/
def AggrConfig.types (C : AggrConfig) : List (ComputeType × Nat) :=
  C.computes.map fun c => (c.2.1, c.2.1.percentile c.2.2)

theorem AggrConfig.percentile_lt (C : AggrConfig) {i : Nat} {type : ComputeType} {percentile : Nat}
    (h : C.types[i]? = some (type, percentile)) (hranked : type.ranked = true) :
    percentile < 100 := by
  rw [AggrConfig.types, getElem?_map, Option.map_eq_some_iff] at h
  obtain ⟨⟨metric, act, pctl⟩, hi, heq⟩ := h
  cases heq
  cases act with
  | medn => exact (by decide : 50 % 2 ^ 7 < 100)
  | pctl =>
    have hle := (C.percentile_mem _ (mem_of_getElem? hi) rfl).2
    exact Nat.lt_of_le_of_lt (Nat.mod_le _ _) (Nat.lt_succ_of_le hle)
  | sum | cnt | max | min | avg | var | sdev => cases hranked

/-- What stays fixed while the aggregator of a configuration runs. -/
def AggrConfig.params (C : AggrConfig) (F : FloatOps V) {qsort : (V → V → Int) → List V → List V}
    (hq : Sorts qsort) : AggrParams V where
  F
  qsort
  sorts := hq
  interval := C.interval
  interval_pos := C.interval_pos
  bucketcnt := (C.expire + (C.interval - 1)) / C.interval + 1 + 1
  conf := C.types
  percentile_lt := C.percentile_lt

/-- Adding computes appends them, and changes nothing else. -/
theorem foldl_aggregatorAddCompute (cs : List (Text × ComputeType × Nat)) (s : Aggregator V) :
    cs.foldl (fun s c => aggregatorAddCompute s c.1 c.2.1 c.2.2) s =
      { s with computes := s.computes ++ cs.map fun c => newCompute c.1 c.2.1 c.2.2 } := by
  induction cs generalizing s with
  | nil => rw [map_nil, append_nil]; rfl
  | cons c cs ih => rw [foldl_cons, ih, aggregatorAddCompute, append_assoc]; rfl

/-- A new aggregator satisfies the invariant. -/
theorem aggrOK_new (C : AggrConfig) (F : FloatOps V)
    (hq : Sorts qsort) : AggrOK (C.params F hq) [] C.new := by
  rw [AggrConfig.new, foldl_aggregatorAddCompute]
  refine ⟨⟨?_, ?_⟩, fun pre e post h => ?_, fun i c hi => ?_, fun _ _ _ _ => rfl⟩
  · exact Nat.mod_eq_of_lt (C.interval_lt.trans C.expire_lt)
  · exact Nat.mod_eq_of_lt C.bucketcnt_lt
  · exact absurd h (append_ne_nil_of_right_ne_nil pre (cons_ne_nil e post)).symm
  · rw [aggregatorNew, nil_append, getElem?_map, Option.map_eq_some_iff] at hi
    obtain ⟨⟨metric, act, pctl⟩, hi, rfl⟩ := hi
    refine ⟨?_, rfl, length_replicate, fun k chain hk => ?_⟩
    · show C.types[i]? = _
      rw [AggrConfig.types, getElem?_map, hi]
      rfl
    · cases (mem_replicate.1 (mem_of_getElem? hk)).2
      exact chainOK_nil

theorem aggrOK_run {C : AggrConfig} {F : FloatOps V}
    (hq : Sorts qsort) {steps : List AggrStep} {s : Aggregator V} {os : List (List (AggrEvent V))}
    (hrun : Machine.run (aggrStep F atof qsort) C.new steps = some (s, os)) :
    AggrOK (C.params F hq) os.flatten s :=
  Machine.run_trace_invariant (p := fun _ => True) (fun _ _ _ _ _ _ h hstep => h.step hstep)
    (fun _ _ => trivial) (aggrOK_new C F hq) hrun

/-! ## Conservation -/

/-- The invocation is in the hash table of compute `i`. -/
def Aggregator.HasInvocation (s : Aggregator V) (i : Nat) (inv : Invocation V) : Prop :=
  ∃ (c : Compute V) (k : Nat) (chain : List (Invocation V)), s.computes[i]? = some c ∧
    c.invocationsHt[k]? = some chain ∧ inv ∈ chain

/-- The aggregator `s` conserves what was accepted and written in the events `tr`. -/
structure Conserves (F : FloatOps V) (qsort : (V → V → Int) → List V → List V) (C : AggrConfig)
    (tr : List (AggrEvent V)) (s : Aggregator V) : Prop where
  /-- Bucket `k` of an invocation starts `k` intervals after the first. -/
  spaced : ∀ i inv, s.HasInvocation i inv → ∀ (k : Nat) b₀ b, inv.buckets[0]? = some b₀ →
    inv.buckets[k]? = some b → b.start = b₀.start + k * C.interval
  /-- The expired buckets come first. -/
  expired_first : ∀ i inv, s.HasInvocation i inv → ∀ (j k : Nat) a b, j < k →
    inv.buckets[j]? = some a → inv.buckets[k]? = some b → b.state = .expire → a.state = .expire
  /-- There is one invocation of a name at most. -/
  unique : ∀ i inv inv', s.HasInvocation i inv → s.HasInvocation i inv' → inv.metric = inv'.metric →
    inv = inv'
  /-- A value is accepted for the interval its time is in. -/
  accepted : ∀ pre post i metric (start epoch : Int) val growth,
    tr = pre ++ .accepted i metric start epoch val growth :: post →
      start ≤ epoch ∧ epoch < start + C.interval
  /-- An open bucket has counted exactly the values that were accepted for it and not written yet.
  -/
  counted : ∀ i inv type percentile, s.HasInvocation i inv → C.types[i]? = some (type, percentile) →
    ∀ b ∈ inv.buckets, b.state = .open → Holds F type.store (pending tr i inv.metric b.start) b
  /-- All values of an expired bucket were written. -/
  written : ∀ i inv, s.HasInvocation i inv → ∀ b ∈ inv.buckets, b.state = .expire →
    pending tr i inv.metric b.start = []
  /-- An aggregate is computed from exactly the values accepted for its bucket, if and only if they
  can be computed with. -/
  emitted : ∀ pre post i metric start ts val, tr = pre ++ .emitted i metric start ts val :: post →
    pending pre i metric start ≠ [] ∧ ∃ type percentile, C.types[i]? = some (type, percentile) ∧
      (ComputedFrom F qsort type percentile ((pending pre i metric start).map Prod.fst) val ↔
        CanCompute type percentile (pending pre i metric start))
  /-- A value that was accepted and not written has its invocation and its open bucket. -/
  kept : ∀ i metric start, pending tr i metric start ≠ [] → ∃ inv, s.HasInvocation i inv ∧
    inv.metric = metric ∧ ∃ b ∈ inv.buckets, b.state = .open ∧ b.start = start

variable {i : Nat} {inv : Invocation V}

theorem AggrOK.invocation (h : AggrOK P tr s) (hinv : s.HasInvocation i inv) :
    ∃ type percentile, P.conf[i]? = some (type, percentile) ∧ InvOK P type i tr inv := by
  obtain ⟨c, k, chain, hc, hk, hmem⟩ := hinv
  have hok := h.computes i c hc
  exact ⟨c.type, c.percentile, hok.conf, (hok.chains k chain hk).invocations inv hmem⟩

theorem AggrOK.unique (h : AggrOK P tr s) {inv' : Invocation V} (hinv : s.HasInvocation i inv)
    (hinv' : s.HasInvocation i inv') (heq : inv.metric = inv'.metric) : inv = inv' := by
  obtain ⟨c, k, chain, hc, hk, hmem⟩ := hinv
  obtain ⟨c', k', chain', hc', hk', hmem'⟩ := hinv'
  cases hc.symm.trans hc'
  have hok := (h.computes i c hc).chains k chain hk
  have hok' := (h.computes i c hc).chains k' chain' hk'
  cases (hok.bucket inv hmem).symm.trans
    ((congrArg _ (congrArg _ heq)).trans (hok'.bucket inv' hmem'))
  cases hk.symm.trans hk'
  exact inj_on_of_nodup_map hok.nodup hmem hmem' heq

theorem AggrOK.kept (h : AggrOK P tr s) {metric : Text} {start : Int}
    (hne : pending tr i metric start ≠ []) : ∃ inv, s.HasInvocation i inv ∧ inv.metric = metric ∧
      ∃ b ∈ inv.buckets, b.state = .open ∧ b.start = start := by
  by_cases hi : i < s.computes.length
  · have hc : s.computes[i]? = some s.computes[i] := getElem?_eq_getElem hi
    have hok := h.computes i _ hc
    obtain ⟨chain, hk⟩ := hok.exists_chain (Fnv1a.hash32 metric)
    have hchain := hok.chains _ chain hk
    by_cases hmem : metric ∈ chain.map Invocation.metric
    · obtain ⟨inv, hinv, rfl⟩ := mem_map.1 hmem
      exact ⟨inv, ⟨_, _, chain, hc, hk, hinv⟩, rfl,
        (hchain.invocations inv hinv).row.covered start hne⟩
    · exact absurd (hchain.absent metric rfl hmem start) hne
  · exact absurd (h.absent i (Nat.le_of_not_lt hi) metric start) hne

end

/-- The invariant gives conservation. -/
theorem AggrOK.conserves {C : AggrConfig} {F : FloatOps V} {qsort : (V → V → Int) → List V → List V}
    {hq : Sorts qsort} {tr : List (AggrEvent V)} {s : Aggregator V}
    (h : AggrOK (C.params F hq) tr s) :
    Conserves F qsort C tr s where
  spaced i inv hinv k b₀ b hb₀ hb := by
    obtain ⟨type, percentile, -, hok⟩ := h.invocation hinv
    obtain ⟨t, ht⟩ := hok.row.spaced
    rw [ht.start_eq hb, ht.start_eq hb₀, Nat.cast_zero, zero_mul, add_zero]
    rfl
  expired_first i inv hinv j k a b hjk ha hb := by
    obtain ⟨type, percentile, -, hok⟩ := h.invocation hinv
    obtain ⟨hj, rfl⟩ := List.getElem?_eq_some_iff.1 ha
    obtain ⟨hk, rfl⟩ := List.getElem?_eq_some_iff.1 hb
    exact pairwise_iff_getElem.1 hok.row.expired_first j k hj hk hjk
  unique i inv inv' hinv hinv' heq := h.unique hinv hinv' heq
  accepted pre post i metric start epoch val growth heq := h.trace pre _ post heq
  counted i inv type percentile hinv htype b hb hopen := by
    obtain ⟨type', percentile', htype', hok⟩ := h.invocation hinv
    cases htype.symm.trans htype'
    exact (hok.row.buckets b hb).holds hopen
  written i inv hinv b hb hexp := by
    obtain ⟨type, percentile, -, hok⟩ := h.invocation hinv
    exact (hok.row.buckets b hb).pending_eq_nil hexp
  emitted pre post i metric start ts val heq := h.trace pre _ post heq
  kept i metric start hne := h.kept hne

/-! ## A run with one value -/

/-- Integers as values, with exact ranks. -/
def intOps : FloatOps Int where
  add := (· + ·)
  sub := (· - ·)
  div := (· / ·)
  ofNat := Int.ofNat
  sq x := x * x
  sqrt x := Nat.sqrt x.toNat
  lt x y := x < y
  cmpEntry := (· - ·)
  junk := 0
  rank := exactRank
  rank_pos_iff _ := exactRank_pos_iff
  rank_le := exactRank_le

/-- A percentile of the values of every ten seconds, a low one or the 50th. -/
def lowOrMiddle (low : Bool) : Nat := if low then 5 else 50

def percentileConfig (low : Bool) : AggrConfig where
  interval := 10
  expire := 20
  tswhen := .end
  computes := [(['m'], .pctl, lowOrMiddle low)]
  interval_pos := by decide
  interval_lt := by decide
  expire_lt := by decide
  bucketcnt_lt := by decide
  percentile_mem c hc _ := by cases mem_singleton.1 hc; cases low <;> decide

/-- The value 7 at time 1000, and a pass when its bucket has expired. -/
def oneValue : List AggrStep :=
  [.putmetric true 1000 ['7', ' ', '1', '0', '0', '0'] some fun _ => ⟨true, true, true, true, 0⟩,
   .expire true 1025 fun _ => true]

/-- The invocation with the value, and after the pass. -/
def oneValueInvocation (state : BucketState) : Invocation Int where
  metric := ['m']
  hash := Fnv1a.hash32 ['m']
  expire := 20
  buckets :=
    [⟨state, 980, 0, 0, 0, 0, []⟩, ⟨state, 990, 0, 0, 0, 0, []⟩,
     ⟨state, 1000, 1, 7, 7, 7, some 7 :: List.replicate 63 none⟩, ⟨.open, 1010, 0, 0, 0, 0, []⟩]

/-- The compute of the configuration with the chain of its name. -/
def percentileCompute (low : Bool) (chain : List (Invocation Int)) : Compute Int :=
  { (newCompute ['m'] .pctl (lowOrMiddle low) : Compute Int) with
    invocationsHt :=
      (List.replicate (2 ^ aggrHtPowSize) []).set (omhtbucket (Fnv1a.hash32 ['m'])) chain }

/-- The aggregator that has taken in the value. -/
def oneValueTaken (low : Bool) : Aggregator Int :=
  { ((percentileConfig low).new : Aggregator Int) with
    received := 1
    computes := [percentileCompute low [oneValueInvocation .open]] }

theorem putmetric_oneValue (low : Bool) :
    aggregatorPutmetric intOps (fun t => (Text.strtol t).1) true 1000
      ['7', ' ', '1', '0', '0', '0'] some
      (fun _ => ⟨true, true, true, true, 0⟩) (percentileConfig low).new =
        some (oneValueTaken low, [.accepted 0 ['m'] 1000 1000 7 (some true)]) := by
  have hput : putCompute intOps (percentileConfig low).new 1000 1000 7 some
      ⟨true, true, true, true, 0⟩ 0 (newCompute ['m'] .pctl (lowOrMiddle low)) =
        some (percentileCompute low [oneValueInvocation .open],
          [.accepted 0 ['m'] 1000 1000 7 (some true)]) := by
    refine putCompute_eq rfl (?_ : _ = some [])
      (?_ : _ = some [newInvocation intOps (percentileConfig low).new 1000 ['m'] 0]) ?_
    · rw [newCompute, getElem?_replicate, if_pos (omhtbucket_lt _)]
    · rfl
    · cases low <;> decide +kernel
  have hmap : mapEmit (fun i c => putCompute intOps (percentileConfig low).new 1000 1000 7 some
      ⟨true, true, true, true, 0⟩ i c) 0 (percentileConfig low).new.computes =
        some ((oneValueTaken low).computes, [.accepted 0 ['m'] 1000 1000 7 (some true)]) :=
    mapEmit_cons_eq_some.2 ⟨_, _, [], [], hput, rfl, rfl, rfl⟩
  have hdata : parseData (fun t => (Text.strtol t).1) ['7', ' ', '1', '0', '0', '0'] =
      some (7, 1000) := by
    decide +kernel
  simp only [aggregatorPutmetric, hdata, hmap]
  rfl

theorem scanInvocation_oneValue (low : Bool) :
    scanInvocation intOps insertSort (oneValueTaken low) true 1025 0
      (percentileCompute low [oneValueInvocation .open]) (oneValueInvocation .open) =
        some (oneValueInvocation .expire,
          [.emitted 0 ['m'] 1000 1010 (if low then none else some 7)]) := by
  cases low <;> decide +kernel

theorem scanCompute_oneValue (low : Bool) :
    scanCompute intOps insertSort (oneValueTaken low) true 1025 0
      (percentileCompute low [oneValueInvocation .open]) =
        some (percentileCompute low [oneValueInvocation .expire],
          [.emitted 0 ['m'] 1000 1010 (if low then none else some 7)]) := by
  refine scanCompute_eq (mapEmit_set_replicate (fun _ => rfl) (omhtbucket_lt _) ?_)
  exact mapEmit_cons_eq_some.2 ⟨_, _, [], [], scanInvocation_oneValue low, rfl, rfl, rfl⟩

theorem expire_oneValue (low : Bool) :
    ∃ s, aggregatorExpire intOps insertSort true 1025 (fun _ => true) (oneValueTaken low) =
      some (s, [.emitted 0 ['m'] 1000 1010 (if low then none else some 7)]) := by
  have hmap : mapEmit (scanCompute intOps insertSort (oneValueTaken low) true 1025) 0
      (oneValueTaken low).computes = some ([percentileCompute low [oneValueInvocation .expire]],
        [.emitted 0 ['m'] 1000 1010 (if low then none else some 7)]) :=
    mapEmit_cons_eq_some.2 ⟨_, _, [], [], scanCompute_oneValue low, rfl, rfl, rfl⟩
  exact exists_aggregatorExpire hmap

/-- The value is accepted, and what is written for it is not a value if the percentile is low. -/
theorem run_oneValue (low : Bool) :
    ∃ s, Machine.run (aggrStep intOps (fun t => (Text.strtol t).1) insertSort)
        (percentileConfig low).new oneValue =
      some (s, [[.accepted 0 ['m'] 1000 1000 7 (some true)],
        [.emitted 0 ['m'] 1000 1010 (if low then none else some 7)]]) := by
  obtain ⟨s, hexp⟩ := expire_oneValue low
  exact ⟨s, Machine.run_cons_eq_some.2 ⟨oneValueTaken low, _, _, putmetric_oneValue low,
    Machine.run_cons_eq_some.2 ⟨s, _, [], hexp, rfl, rfl⟩, rfl⟩⟩

/-- Every run of an aggregator, in whichever order metrics are taken in, aggregates are written and
buckets are recycled, conserves what it accepts. -/
theorem aggregator_conserves (C : AggrConfig) (F : FloatOps V) (atof : Text → V)
    {qsort : (V → V → Int) → List V → List V} (hq : Sorts qsort) {steps : List AggrStep}
    {s : Aggregator V} {os : List (List (AggrEvent V))}
    (hrun : Machine.run (aggrStep F atof qsort) C.new steps = some (s, os)) :
    Conserves F qsort C os.flatten s := by
  exact (aggrOK_run hq hrun).conserves

/-- The 50th percentile of one value: the run conserves it, and the aggregate is computed from it.
-/
theorem aggregator_conserves_oneValue :
    ∃ s os, Machine.run (aggrStep intOps (fun t => (Text.strtol t).1) insertSort)
        (percentileConfig false).new oneValue = some (s, os) ∧
      Conserves intOps insertSort (percentileConfig false) os.flatten s :=
  let ⟨s, hrun⟩ := run_oneValue false
  ⟨s, _, hrun, aggregator_conserves _ intOps _ Sorts.insertSort hrun⟩

/-- The 5th percentile of one value is read from before the array: its rank is zero. -/
theorem low_percentile_not_computed :
    ∃ s os pre, Machine.run (aggrStep intOps (fun t => (Text.strtol t).1) insertSort)
        (percentileConfig true).new oneValue = some (s, os) ∧
      os.flatten = pre ++ [.emitted 0 ['m'] 1000 1010 none] ∧
      pending pre 0 ['m'] 1000 = [(7, some true)] ∧
      ¬ ComputedFrom intOps insertSort .pctl 5 [7] none :=
  let ⟨s, hrun⟩ := run_oneValue true
  ⟨s, _, [.accepted 0 ['m'] 1000 1000 7 (some true)], hrun, rfl,
    by decide, fun ⟨_, h, _⟩ => nomatch h⟩

end CarbonRelay
