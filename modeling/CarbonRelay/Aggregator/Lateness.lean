import CarbonRelay.Aggregator.Emission
import CarbonRelay.Aggregator.Timing

/-!
# Metrics that arrive late

A metric is taken in if the bucket of its time is in the row of its invocation and open (`TakesIn`).
How late it may arrive is meant to be the expiry time. But a bucket expires that long after its
start, not after its end, so a metric of its last second comes too late almost an interval earlier
(`acceptsLate_iff`). On the other side the row has to be moved on: it reaches one interval beyond
the last pass that was cleaned up after, and the metrics of later times are too far in the future
for it.
-/

namespace CarbonRelay

open List

universe u

variable {V : Type u}

/-- The metric is accepted by every compute that has a name for it, for the bucket of its time, and
is not counted as dropped. -/
def TakesIn (F : FloatOps V) (atof : Text → V) (s : Aggregator V) (now : Int) (data : Text)
    (rewrite : Text → Option Text) (oracle : Nat → PutOracle) : Prop :=
  ∃ val epoch s' es, parseData atof data = some (val, epoch) ∧
    aggregatorPutmetric F atof true now data rewrite oracle s = some (s', es) ∧
    s'.dropped = s.dropped ∧
    ∀ i c metric, s.computes[i]? = some c → rewrite c.metric = some metric → ∃ start growth,
      .accepted i metric start epoch val growth ∈ es ∧ start ≤ epoch ∧ epoch < start + s.interval

/-! ## Accepting -/

section
variable {P : AggrParams V} {tr : List (AggrEvent V)} {s : Aggregator V} {i : Nat}
  {type : ComputeType} {inv : Invocation V} {epoch : Int}

/-- An invocation accepts a value of a time that its row covers, if the bucket there is open. -/
theorem InvOK.put_accepts (hs : P.Fits s) (h : InvOK P type i tr inv) (hcnt : 0 < P.bucketcnt)
    (hle : ∀ b ∈ inv.buckets.head?, b.start ≤ epoch)
    (hlt : ∀ b ∈ inv.buckets.head?, epoch < b.start + P.bucketcnt * P.interval)
    (hopen : ∀ b ∈ inv.buckets, b.start ≤ epoch → epoch < b.start + P.interval → b.state = .open)
    (n r : Bool) (val : V) :
    ∃ inv' start growth, putInvocation P.F s i n r epoch val inv =
      some (inv', [.accepted i inv.metric start epoch val growth]) := by
  have hlen : 0 < inv.buckets.length := h.count ▸ hcnt
  have hpos : (0 : Int) < P.interval := by exact_mod_cast P.interval_pos
  obtain ⟨t, ht⟩ := h.row.spaced
  have hhead : inv.buckets.head? = some inv.buckets[0] := by
    rw [head?_eq_getElem?, getElem?_eq_getElem hlen]
  have hstart : inv.buckets[0].start = t := by
    rw [ht.start_eq (getElem?_eq_getElem hlen), Nat.cast_zero, zero_mul, add_zero]
  have hle := hle _ hhead
  have hlt := hlt _ hhead
  rw [hstart] at hle hlt
  have hk : ((epoch - t) / P.interval).toNat < inv.buckets.length := by
    rw [h.count, Int.toNat_lt (Int.ediv_nonneg (by omega) hpos.le)]
    exact Int.ediv_lt_of_lt_mul hpos (by omega)
  obtain ⟨hge, hend⟩ := ht.mem_interval P.interval_pos hle (getElem?_eq_getElem hk)
  have hstate := hopen _ (getElem_mem hk) hge hend
  rw [putInvocation, hhead]
  simp only [hstart, hs.interval, hs.bucketcnt]
  rw [if_neg (by omega), if_neg (by omega), getElem?_eq_getElem hk]
  simp only [hstate, reduceCtorEq, if_false]
  exact ⟨_, _, _, rfl⟩

variable {val : V}

/-- A value put into the chain of its name goes to the invocation of the name. -/
theorem putChain_of_mem {F : FloatOps V} {n r : Bool} {metric : Text}
    {chain : List (Invocation V)} (hhash : ∀ inv ∈ chain, inv.hash = Fnv1a.hash32 inv.metric)
    (hnodup : (chain.map Invocation.metric).Nodup) (hmem : inv ∈ chain)
    (hname : inv.metric = metric)
    {inv' : Invocation V} {es : List (AggrEvent V)}
    (hput : putInvocation F s i n r epoch val inv = some (inv', es)) :
    ∃ chain', putChain F s i n r epoch val metric chain = some (chain', es) := by
  induction chain with
  | nil => cases hmem
  | cons inv₀ chain ih =>
    rw [map_cons, nodup_cons] at hnodup
    have hfor : inv₀.isFor metric = true ↔ inv₀.metric = metric :=
      isFor_iff (hhash inv₀ mem_cons_self)
    rw [putChain]
    rcases mem_cons.1 hmem with rfl | hmem
    · rw [if_pos (hfor.2 hname), hput]
      exact ⟨_, rfl⟩
    · have hne : ¬inv₀.isFor metric = true := by
        intro heq
        rw [hfor, ← hname] at heq
        exact hnodup.1 (heq ▸ mem_map_of_mem hmem)
      obtain ⟨chain', hchain'⟩ :=
        ih (fun inv hinv => hhash inv (mem_cons_of_mem inv₀ hinv)) hnodup.2 hmem
      rw [if_neg hne, hchain']
      exact ⟨_, rfl⟩

/-- A compute puts a value into the invocation it has of the name. -/
theorem ComputeOK.put_of_has {c : Compute V} (h : ComputeOK P i tr c) (hinv : c.Has inv)
    {rewrite : Text → Option Text} (hname : rewrite c.metric = some inv.metric)
    {o : PutOracle} {inv' : Invocation V} {es : List (AggrEvent V)}
    (hput : putInvocation P.F s i c.entriesNeeded o.realloc epoch val inv = some (inv', es))
    (now : Int) : ∃ c', putCompute P.F s now epoch val rewrite o i c = some (c', es) := by
  obtain ⟨k, chain, hk, hmem⟩ := hinv
  have hok := h.chains k chain hk
  cases hok.bucket inv hmem
  have hhash := fun inv hinv => (hok.invocations inv hinv).hash
  have hfind : findOrAdd P.F s now inv.metric o chain = some chain := by
    have : chain.any (Invocation.isFor inv.metric) = true :=
      any_eq_true.2 ⟨inv, hmem, (isFor_iff (hhash inv hmem)).2 rfl⟩
    rw [findOrAdd, if_pos this]
  obtain ⟨chain', hchain'⟩ := putChain_of_mem hhash hok.nodup hmem rfl hput
  exact ⟨_, putCompute_eq hname hk hfind hchain'⟩

/-- A metric is taken in, if every compute that has a name for it accepts it. -/
theorem AggrOK.takesIn (h : AggrOK P tr s) (hcnt : 0 < P.bucketcnt) {atof : Text → V} {now : Int}
    {data : Text} {rewrite : Text → Option Text} {oracle : Nat → PutOracle}
    (hdata : parseData atof data = some (val, epoch))
    (haccept : ∀ i c metric, s.computes[i]? = some c → rewrite c.metric = some metric →
      ∃ c' start growth, putCompute P.F s now epoch val rewrite (oracle i) i c =
        some (c', [.accepted i metric start epoch val growth])) :
    TakesIn P.F atof s now data rewrite oracle := by
  obtain ⟨⟨s', es⟩, hput⟩ := h.exists_putmetric hcnt atof true now data rewrite oracle
  refine ⟨val, epoch, s', es, hdata, hput, ?_⟩
  have htrace := (h.putmetric hput).trace
  rw [aggregatorPutmetric, if_neg (not_not.2 rfl), hdata] at hput
  dsimp only at hput
  split at hput
  case h_1 => cases hput
  case h_2 computes es₁ hmap =>
    cases hput
    constructor
    · refine Nat.add_eq_left.2 (countP_eq_zero.2 fun e he => ?_)
      obtain ⟨i, c, c', es', hc, hstep, he⟩ := mem_mapEmit hmap he
      rw [Nat.zero_add] at hstep
      cases hname : rewrite c.metric with
      | none =>
        rw [putCompute, hname] at hstep
        cases hstep
        cases he
      | some metric =>
        obtain ⟨c'', start, growth, haccepted⟩ := haccept i c metric hc hname
        cases hstep.symm.trans haccepted
        cases mem_singleton.1 he
        exact Bool.false_ne_true
    · intro i c metric hc hname
      obtain ⟨c', start, growth, haccepted⟩ := haccept i c metric hc hname
      have hmem := mem_of_mapEmit hmap hc (by rw [Nat.zero_add]; exact haccepted) mem_cons_self
      refine ⟨start, growth, hmem, ?_⟩
      obtain ⟨pre, post, rfl⟩ := append_of_mem hmem
      have hev := htrace (tr ++ pre) _ post (by rw [append_assoc])
      rwa [h.fits.interval]

/-! ## Accepting what is late -/

variable {t : PassTimes} {expire : Nat} {now : Int}

/-- An invocation accepts a value that is not too late, nor from later than an interval after the
last clean-up. -/
theorem TimesOK.put_accepts (h : TimesOK P expire t tr s) (hcnt : expire + 2 * P.interval ≤
      P.bucketcnt * P.interval) (hinv : s.HasInvocation i inv) (hclock : t.clock ≤ now)
    (hprompt : now ≤ t.recycled + P.interval) (hlate : now + P.interval ≤ epoch + expire + 1)
    (hnow : epoch ≤ now) (n r : Bool) (val : V) :
    ∃ inv' start growth, putInvocation P.F s i n r epoch val inv =
      some (inv', [.accepted i inv.metric start epoch val growth]) := by
  obtain ⟨_, _, -, hok⟩ := h.splay.ok.invocation hinv
  have hw := h.window i inv hinv
  have hpos : 0 < P.bucketcnt := by
    refine Nat.pos_of_ne_zero fun h0 => ?_
    have := P.interval_pos
    rw [h0, Nat.zero_mul] at hcnt
    omega
  have hcnt' : (expire : Int) + 2 * P.interval ≤ P.bucketcnt * P.interval := by exact_mod_cast hcnt
  refine hok.put_accepts h.splay.ok.fits hpos (fun b hb => ?_) (fun b hb => ?_)
    (fun b hb hge hlt => ?_) n r val
  · have := hw.first_lt b hb
    omega
  · have := hw.first_gt b hb
    omega
  · cases hstate : b.state with
    | «open» => rfl
    | expire =>
      have := hw.expired b hb hstate
      omega

end

/-- The aggregator takes in every metric that is at most `late` seconds old, in every run of a relay
in which the clock does not go back, if memory can be allocated and the last clean-up is at most an
interval ago. -/
def AcceptsLate (F : FloatOps V) (atof : Text → V) (qsort : (V → V → Int) → List V → List V)
    (C : AggrConfig) (late : Nat) : Prop :=
  ∀ t steps s os, Machine.Admissible PassTimes.after PassTimes.Allows (.start t) steps →
    Machine.run (aggrStep F atof qsort) C.new steps = some (s, os) →
    ∀ now data val epoch rewrite oracle, parseData atof data = some (val, epoch) →
      (steps.foldl PassTimes.after (.start t)).clock ≤ now →
      now ≤ (steps.foldl PassTimes.after (.start t)).recycled + C.interval →
      now - late ≤ epoch → epoch ≤ now → (∀ i, (oracle i).allocates = true) →
      TakesIn F atof s now data rewrite oracle

section
variable {C : AggrConfig} {F : FloatOps V} {atof : Text → V}
  {qsort : (V → V → Int) → List V → List V}

/-- The buckets reach from the expiry time to two intervals after the current time. -/
theorem AggrConfig.le_bucketcnt_mul (C : AggrConfig) : C.expire + 2 * C.interval ≤
    ((C.expire + (C.interval - 1)) / C.interval + 1 + 1) * C.interval := by
  have hdiv := Nat.lt_div_mul_add (a := C.expire + (C.interval - 1)) C.interval_pos
  have := C.interval_pos
  rw [Nat.add_assoc, Nat.add_mul]
  omega

/-- An aggregator takes in what is less than its expiry time late, by an interval. -/
theorem acceptsLate_of_le (hq : Sorts qsort) (hfits : C.expire + C.interval ≤ 2 ^ 16) {late : Nat}
    (hlate : late + C.interval ≤ C.expire + 1) : AcceptsLate F atof qsort C late := by
  intro t steps s os hsteps hrun now data val epoch rewrite oracle hdata hclock hprompt hold
    hnow halloc
  have h := timesOK_run C hfits F atof hq hsteps hrun
  have hok := h.splay.ok
  have hcnt := C.le_bucketcnt_mul
  have hepoch : now + C.interval ≤ epoch + C.expire + 1 := by omega
  refine hok.takesIn (Nat.succ_pos _) hdata fun i c metric hc hname => ?_
  by_cases hhas : s.HasName i metric
  · obtain ⟨inv, hinv, rfl⟩ := hhas
    obtain ⟨inv', start, growth, hput⟩ := h.put_accepts hcnt hinv hclock hprompt hepoch hnow
      c.entriesNeeded (oracle i).realloc val
    obtain ⟨c₀, hc₀, hcinv⟩ := hasInvocation_iff.1 hinv
    cases hc.symm.trans hc₀
    obtain ⟨c', hc'⟩ := (hok.computes i c hc).put_of_has hcinv hname hput now
    exact ⟨c', start, growth, hc'⟩
  · obtain ⟨chain, hchain, hany⟩ := hok.exists_chain_of_not_hasName hc hhas
    have hinterval : s.interval = C.interval := hok.fits.interval
    have hbucketcnt : s.bucketcnt = (C.expire + (C.interval - 1)) / C.interval + 1 + 1 :=
      hok.fits.bucketcnt
    have hcnt' : (C.expire : Int) + 2 * C.interval ≤ s.bucketcnt * s.interval := by
      rw [hinterval, hbucketcnt]
      exact_mod_cast hcnt
    have hpos : 0 < s.interval := hinterval ▸ C.interval_pos
    obtain ⟨hgt, hlt⟩ := tdiv_mul_near (now - s.expire) hpos
    have hexpire : s.expire = C.expire := h.splay.expire_eq
    have hle : 0 ≤ epoch - (now - s.expire).tdiv s.interval * s.interval := by omega
    have hlt : epoch - (now - s.expire).tdiv s.interval * s.interval <
        s.bucketcnt * s.interval := by
      omega
    obtain ⟨c', start, growth, hput, -⟩ :=
      putCompute_new hle hlt F i val hpos hname hchain hany (halloc i)
    exact ⟨c', start, growth, hput⟩

end

/-! ## Dropping what is later -/

section
variable {P : AggrParams V} {tr es : List (AggrEvent V)} {s s' : Aggregator V} {i : Nat}
  {metric : Text} {start : Int}

/-- While nothing is written, a value that is accepted stays pending. -/
theorem pending_ne_nil (tr : List (AggrEvent V)) (hes : Unwritten es) {epoch : Int} {val : V}
    {growth : Option Bool} (hmem : .accepted i metric start epoch val growth ∈ es) :
    pending (tr ++ es) i metric start ≠ [] := by
  obtain ⟨pre, post, rfl⟩ := append_of_mem hmem
  have hpost : ∀ (l : List (AggrEvent V)), (∀ e ∈ l, e ∈ post) →
      pending (tr ++ (pre ++ .accepted i metric start epoch val growth :: l)) i metric start ≠
        [] := by
    intro l
    induction l using reverseRecOn with
    | nil =>
      intro _
      rw [← append_assoc, pending_append_singleton, pendingStep, if_pos ⟨rfl, rfl, rfl⟩]
      exact append_ne_nil_of_right_ne_nil _ (cons_ne_nil _ _)
    | append_singleton l e ih =>
      intro hl
      have hne := ih fun e' he' => hl e' (mem_append_left _ he')
      have he := hl e (mem_append_right _ mem_cons_self)
      rw [← cons_append, ← append_assoc, ← append_assoc, pending_append_singleton, append_assoc]
      cases e with
      | accepted i' metric' start' _ val' growth' =>
        rw [pendingStep]
        split
        · exact append_ne_nil_of_left_ne_nil hne _
        · exact hne
      | emitted i' metric' start' ts val' =>
        exact absurd (mem_append_right _ (mem_cons_of_mem _ he)) (hes i' metric' start' ts val')
      | dropped => exact hne
  exact hpost post fun e he => he

/-- A value is accepted for a bucket that was open before, or for a new invocation. -/
theorem AggrOK.accepted_of_open (h : AggrOK P tr s) {atof : Text → V} {now : Int} {data : Text}
    {rewrite : Text → Option Text} {oracle : Nat → PutOracle}
    (hput : aggregatorPutmetric P.F atof true now data rewrite oracle s = some (s', es))
    {epoch : Int} {val : V} {growth : Option Bool}
    (hmem : .accepted i metric start epoch val growth ∈ es) (hname : s.HasName i metric) :
    ∃ inv, s.HasInvocation i inv ∧ inv.metric = metric ∧
      ∃ b ∈ inv.buckets, b.state = .open ∧ b.start = start := by
  obtain ⟨hes, horigin⟩ := h.putmetric_hasInvocation hput
  obtain ⟨inv', hinv', rfl, b', hb', hopen, hstart⟩ :=
    (h.putmetric hput).kept (pending_ne_nil tr hes hmem)
  rcases horigin i inv' hinv' with ⟨_, inv, -, hinv, hrow⟩ | ⟨_, metric, -, -, -, hnot, hrow⟩
  · obtain ⟨b, hb, hstate, hstart'⟩ := hrow.exists_mem hb'
    exact ⟨inv, hinv, hrow.metric.symm, b, hb, hstate.trans hopen, hstart'.trans hstart⟩
  · rw [hrow.metric] at hname
    exact absurd hname hnot

end

section
variable (C : AggrConfig) (F : FloatOps V) (atof : Text → V)
  {qsort : (V → V → Int) → List V → List V}

/-- Every allocation succeeds, and an invocation gets no splay. -/
def noSplay (_ : Nat) : PutOracle := ⟨true, true, true, true, 0⟩

/-- An invocation that is created at the expiry time, so that its first bucket starts at zero, and a
pass in the second after. -/
def expireFirst : List AggrStep :=
  [.putmetric true C.expire ['0', ' ', '0'] some noSplay, .expire true (C.expire + 1) fun _ => true]

/-- The row of an invocation that is created within an interval of the expiry time, without a splay.
-/
structure FromZero (inv : Invocation V) : Prop where
  expire : inv.expire = C.expire
  starts : ∀ b ∈ inv.buckets, ∃ k : Nat, k ≤ C.expire ⌈/⌉ C.interval + 1 ∧ b.start = k * C.interval
  second : ∃ b ∈ inv.buckets, b.start = C.interval

theorem SameRow.fromZero {inv inv' : Invocation V} (h : SameRow inv inv') (hinv : FromZero C inv) :
    FromZero C inv' where
  expire := h.expire.trans hinv.expire
  starts b' hb' := by
    obtain ⟨b, hb, -, hstart⟩ := h.exists_mem hb'
    obtain ⟨k, hle, hk⟩ := hinv.starts b hb
    exact ⟨k, hle, hstart ▸ hk⟩
  second := by
    obtain ⟨b, hb, hstart⟩ := hinv.second
    obtain ⟨b', hb', -, hstart'⟩ := h.symm.exists_mem hb
    exact ⟨b', hb', hstart'.trans hstart⟩

theorem AggrConfig.bucketcnt_eq : (C.expire + (C.interval - 1)) / C.interval + 1 + 1 =
    C.expire ⌈/⌉ C.interval + 2 := by
  rw [Nat.ceilDiv_eq_add_pred_div, Nat.add_sub_assoc C.interval_pos]

variable {now : Nat}

/-- The first bucket starts at zero. -/
theorem tdiv_new (hle : C.expire ≤ now) (hlt : now < C.expire + C.interval) :
    ((now : Int) - (C.new : Aggregator V).expire).tdiv (C.new : Aggregator V).interval *
      (C.new : Aggregator V).interval = 0 := by
  have hexpire : (C.new : Aggregator V).expire = C.expire := by
    rw [AggrConfig.new, foldl_aggregatorAddCompute]
    exact Nat.mod_eq_of_lt C.expire_lt
  have hinterval : (C.new : Aggregator V).interval = C.interval := by
    rw [AggrConfig.new, foldl_aggregatorAddCompute]
    exact Nat.mod_eq_of_lt (C.interval_lt.trans C.expire_lt)
  rw [hexpire, hinterval, Int.tdiv_eq_zero_of_lt (by omega) (by omega), zero_mul]

theorem fromZero_new (hle : C.expire ≤ now) (hlt : now < C.expire + C.interval)
    (metric : Text) : FromZero C (newInvocation F (C.new : Aggregator V) now metric 0) := by
  have hexpire : (C.new : Aggregator V).expire = C.expire :=
    (timesOK_new C F .insertSort 0).splay.expire_eq
  have hfits := (aggrOK_new C F Sorts.insertSort).fits
  have hinterval : (C.new : Aggregator V).interval = C.interval := hfits.interval
  have hcnt : (C.new : Aggregator V).bucketcnt = C.expire ⌈/⌉ C.interval + 2 :=
    hfits.bucketcnt.trans C.bucketcnt_eq
  have hstart := tdiv_new (V := V) C hle hlt
  constructor
  · rw [newInvocation, hexpire, Nat.zero_mod, Nat.add_zero, Nat.mod_eq_of_lt C.expire_lt]
  · intro b hb
    obtain ⟨k, hk, rfl⟩ := mem_map.1 hb
    rw [mem_range, hcnt] at hk
    exact ⟨k, by omega, by rw [hstart, zero_add, hinterval]⟩
  · refine ⟨_, mem_map_of_mem (mem_range.2 (?_ : 1 < _)), ?_⟩
    · rw [hcnt]
      omega
    · rw [hstart, zero_add, hinterval, Nat.cast_one, one_mul]

/-- A metric that is put into a new aggregator within an interval of the expiry time. -/
theorem exists_put_fromZero (hq : Sorts qsort) (hne : C.computes ≠ [])
    (hle : C.expire ≤ now) (hlt : now < C.expire + C.interval) :
    ∃ s es, aggregatorPutmetric F atof true now ['0', ' ', '0'] some noSplay
      (C.new : Aggregator V) =
        some (s, es) ∧ AggrOK (C.params F hq) es s ∧ (∃ inv, s.HasInvocation 0 inv) ∧
      ∀ i inv, s.HasInvocation i inv → FromZero C inv := by
  have hnew := aggrOK_new C F hq
  obtain ⟨c, hc⟩ : ∃ c, (C.new : Aggregator V).computes[0]? = some c := by
    rw [AggrConfig.new, foldl_aggregatorAddCompute]
    exact ⟨_, getElem?_eq_getElem (by
      simpa [aggregatorNew] using length_pos_iff.2 hne)⟩
  have hnone (metric : Text) : ¬(C.new : Aggregator V).HasName 0 metric := by
    rintro ⟨inv, hinv, -⟩
    exact not_hasInvocation_config C 0 inv hinv
  have hdata : parseData atof ['0', ' ', '0'] = some (atof ['0', ' ', '0'], 0) := rfl
  have hstart := tdiv_new (V := V) C hle hlt
  have hpos : (0 : Int) < (C.new : Aggregator V).bucketcnt * (C.new : Aggregator V).interval := by
    have hcnt : 0 < (C.params F hq).bucketcnt := Nat.succ_pos _
    rw [hnew.fits.bucketcnt, hnew.fits.interval]
    exact_mod_cast Nat.mul_pos hcnt C.interval_pos
  have halloc : (noSplay 0).allocates = true := rfl
  obtain ⟨s, es, _, _, hput, -, inv, hinv, -⟩ := hnew.putmetric_new
    (by rw [hstart]; exact le_refl 0) (by rw [hstart]; exact hpos) (Nat.succ_pos _) hdata hc rfl
    (hnone c.metric) halloc
  refine ⟨s, es, hput, hnew.putmetric hput, ⟨inv, hinv⟩, fun i inv hinv => ?_⟩
  rcases (hnew.putmetric_hasInvocation hput).2 i inv hinv with ⟨_, inv₀, -, hinv₀, -⟩ |
    ⟨_, metric, -, -, -, -, hrow⟩
  · exact absurd hinv₀ (not_hasInvocation_config C i inv₀)
  · exact hrow.fromZero C (fromZero_new C F hle hlt metric)

/-- A pass in the second after the expiry time marks the bucket that starts at zero. -/
theorem FromZero.scan {C : AggrConfig} {F : FloatOps V} {qsort : (V → V → Int) → List V → List V}
    {s : Aggregator V} {i : Nat} {c : Compute V} {inv inv' : Invocation V} {es : List (AggrEvent V)}
    (h : FromZero C inv) (hasc : inv.buckets.Pairwise fun a b => a.start < b.start)
    (hscan : scanInvocation F qsort s true (C.expire + 1) i c inv = some (inv', es)) :
    ∀ b ∈ inv'.buckets, b.state = .open → C.interval ≤ b.start := by
  obtain ⟨front, back, hsplit, ⟨-, b₀, hb₀, hle⟩, rfl, -⟩ := scanInvocation_eq_some hscan
  rw [Invocation.limit, if_pos rfl, h.expire] at hle
  intro b hb hopen
  rcases mem_append.1 hb with hb | hb
  · obtain ⟨b, -, rfl⟩ := mem_map.1 hb
    cases hopen
  · have hmem : b ∈ inv.buckets := hsplit ▸ mem_append_right front hb
    obtain ⟨k, -, hk⟩ := h.starts b hmem
    have hpos : 0 < b.start := by
      rw [hsplit] at hasc
      cases back with
      | nil => cases hb
      | cons b₁ back =>
        cases hb₀
        rcases mem_cons.1 hb with rfl | hb
        · omega
        · have := (pairwise_cons.1 (pairwise_append.1 hasc).2.1).1 b hb
          omega
    have hkpos : 1 ≤ (k : Int) := by
      by_contra hk0
      obtain rfl : k = 0 := by omega
      rw [Nat.cast_zero, zero_mul] at hk
      omega
    rw [hk]
    exact le_mul_of_one_le_left (Int.natCast_nonneg _) hkpos

/-- The run: there is an invocation, and the buckets that are still open start an interval after
zero. -/
theorem run_expireFirst (hq : Sorts qsort) (hne : C.computes ≠ []) :
    ∃ s os, Machine.run (aggrStep F atof qsort) (C.new : Aggregator V) (expireFirst C) =
      some (s, os) ∧ (∃ inv, s.HasInvocation 0 inv) ∧ ∀ i inv, s.HasInvocation i inv →
        ∀ b ∈ inv.buckets, b.state = .open → C.interval ≤ b.start := by
  obtain ⟨s₁, es₁, hput, hok₁, ⟨inv₁, hinv₁⟩, hfrom⟩ :=
    exists_put_fromZero C F atof hq hne (le_refl C.expire) (Nat.lt_add_of_pos_right C.interval_pos)
  have htime : expireTime s₁ true (C.expire + 1) = C.expire + 1 := by simp [expireTime]
  obtain ⟨⟨s₂, es₂⟩, hexp⟩ : ∃ r, aggregatorExpire F qsort true (C.expire + 1) (fun _ => true) s₁ =
      some r := by
    refine exists_aggregatorExpire_iff.2 fun i inv hinv => ?_
    obtain ⟨b, hb, hstart⟩ := (hfrom i inv hinv).second
    refine ⟨b, hb, ?_⟩
    have := C.interval_pos
    rw [htime, hstart, Invocation.limit, if_pos rfl, (hfrom i inv hinv).expire]
    omega
  refine ⟨s₂, [es₁, es₂], ?_, ?_, ?_⟩
  · exact Machine.run_cons_eq_some.2 ⟨s₁, es₁, [es₂], hput,
      Machine.run_cons_eq_some.2 ⟨s₂, es₂, [], hexp, rfl, rfl⟩, rfl⟩
  · obtain ⟨_, inv₂, _, hinv₂, -⟩ := aggregatorExpire_hasInvocation_of hexp hinv₁
    exact ⟨inv₂, hinv₂⟩
  · intro i inv₂ hinv₂
    obtain ⟨c, inv, es', hinv, hscan⟩ := aggregatorExpire_hasInvocation hexp hinv₂
    rw [htime] at hscan
    obtain ⟨_, _, -, hinvok⟩ := hok₁.invocation hinv
    obtain ⟨t, ht⟩ := hinvok.row.spaced
    exact (hfrom i inv hinv).scan (ht.pairwise C.interval_pos) hscan

/-- A metric of the last second before the end of the first interval. -/
def lastSecond (interval : Nat) : Text := '0' :: ' ' :: Text.decimal (interval - 1)

theorem parseData_lastSecond (hinterval : C.interval < 2 ^ 63) :
    parseData atof (lastSecond C.interval) =
      some (atof (lastSecond C.interval), ((C.interval - 1 : Nat) : Int)) := by
  have hread : Text.strtol (Text.decimal (C.interval - 1)) = (((C.interval - 1 : Nat) : Int), []) :=
    Text.strtol_decimal (by omega)
  have hdrop : (lastSecond C.interval).dropWhile (· ≠ ' ') =
      ' ' :: Text.decimal (C.interval - 1) := by
    simp [lastSecond]
  rw [parseData, hdrop]
  dsimp only
  rw [hread]

end

/-- An aggregator takes in what is up to `late` seconds late exactly if `late` is at most the expiry
time less an interval and one more second. -/
theorem acceptsLate_iff (F : FloatOps V) (atof : Text → V)
    {qsort : (V → V → Int) → List V → List V} (hq : Sorts qsort) (C : AggrConfig)
    (hne : C.computes ≠ []) (hfits : C.expire + C.interval ≤ 2 ^ 16) (late : Nat) :
    AcceptsLate F atof qsort C late ↔ late + C.interval ≤ C.expire + 1 := by
  refine ⟨fun h => ?_, fun hlate => acceptsLate_of_le hq hfits hlate⟩
  by_contra hlate
  have hpos := C.interval_pos
  have hlt := C.interval_lt
  obtain ⟨s, os, hrun, ⟨inv₀, hinv₀⟩, hstarts⟩ := run_expireFirst C F atof hq hne
  have hsteps : Machine.Admissible PassTimes.after PassTimes.Allows (.start C.expire)
      (expireFirst C) :=
    ⟨le_refl _, ⟨rfl, by show (C.expire : Int) ≤ C.expire + 1; omega⟩, trivial⟩
  have hdata := parseData_lastSecond C atof (by omega)
  obtain ⟨c, hc, -⟩ := hasInvocation_iff.1 hinv₀
  obtain ⟨val, epoch, s', es, hdata', hput, -, haccepted⟩ := h C.expire _ s os hsteps hrun
    (C.expire + 1) _ _ _ (fun _ => some inv₀.metric) noSplay hdata (le_refl _)
    (by show (C.expire : Int) + 1 ≤ C.expire + C.interval; omega) (by omega) (by omega) fun _ => rfl
  cases hdata.symm.trans hdata'
  obtain ⟨start, growth, hmem, hle, -⟩ := haccepted 0 c inv₀.metric hc rfl
  have hok := aggrOK_run hq hrun
  obtain ⟨inv, hinv, -, b, hb, hopen, rfl⟩ := hok.accepted_of_open hput hmem ⟨inv₀, hinv₀, rfl⟩
  have := hstarts 0 inv hinv b hb hopen
  omega

/-- With buckets of ten seconds that expire after twenty, metrics may be eleven seconds late. -/
theorem acceptsLate_eleven :
    AcceptsLate intOps (fun t => (Text.strtol t).1) insertSort (percentileConfig false) 11 :=
  (acceptsLate_iff intOps _ Sorts.insertSort (percentileConfig false) (cons_ne_nil _ _)
    (by decide) 11).2 (by decide)

/-- With these buckets, a metric that is sixteen seconds late, in a run with a pass each second. -/
theorem late_metric_dropped :
    (1001 : Int) - (percentileConfig false).expire ≤ 985 ∧
    ∃ s, Machine.run (aggrStep intOps (fun t => (Text.strtol t).1) insertSort)
      (percentileConfig false).new
        [.putmetric true 1000 ['7', ' ', '1', '0', '0', '0'] some noSplay,
         .expire true 1001 fun _ => true,
         .putmetric true 1001 ['8', ' ', '9', '8', '5'] some noSplay] =
      some (s, [[.accepted 0 ['m'] 1000 1000 7 (some true)], [], [.dropped 0 ['m']]]) :=
  ⟨by decide, run_oneName (by decide +kernel)⟩

end CarbonRelay
