import CarbonRelay.Aggregator.Steps

/-!
# One aggregate for each bucket

An invocation without values is removed, and a late metric creates it again, with buckets that start
where the expiry time of the aggregator puts them. Aggregates are written in the order of the
starts, so the buckets that are still open are ahead of everything that was written for their name
(`Ahead`), and no bucket is written twice, as long as the first bucket of an invocation that is
created again is behind those written before (`RecreatedLate`). That is not always so: a bucket may
be written and created again within the same interval.
-/

namespace CarbonRelay

open List

universe u

variable {V : Type u}

/-! ## What was written -/

/-- The start of the bucket, for an aggregate that is written for the name by compute `i`. -/
def AggrEvent.writtenFor (i : Nat) (metric : Text) : AggrEvent V → Option Int
  | .emitted i' metric' start _ _ => if i' = i ∧ metric' = metric then some start else none
  | _ => none

/-- The starts of the buckets of a name that compute `i` wrote an aggregate for. -/
def written (tr : List (AggrEvent V)) (i : Nat) (metric : Text) : List Int :=
  tr.filterMap (AggrEvent.writtenFor i metric)

/-- No compute writes two aggregates for a bucket of a name. -/
def WritesOnce (tr : List (AggrEvent V)) : Prop := ∀ i metric, (written tr i metric).Nodup

section
variable {tr es : List (AggrEvent V)} {i : Nat} {metric : Text}

theorem written_append : written (tr ++ es) i metric = written tr i metric ++ written es i metric :=
  filterMap_append

theorem written_append_of_key (h : ∀ e ∈ es, e.key ≠ (i, metric)) :
    written (tr ++ es) i metric = written tr i metric := by
  rw [written_append, append_right_eq_self, written, filterMap_eq_nil_iff]
  intro e he
  cases e with
  | emitted i' metric' start ts val =>
    exact if_neg fun hkey => h _ he (by rw [AggrEvent.key, hkey.1, hkey.2])
  | accepted | dropped => rfl

theorem written_append_of_unwritten (h : Unwritten es) :
    written (tr ++ es) i metric = written tr i metric := by
  rw [written_append, append_right_eq_self, written, filterMap_eq_nil_iff]
  intro e he
  cases e with
  | emitted i' metric' start ts val => exact absurd he (h i' metric' start ts val)
  | accepted | dropped => rfl

/-- The buckets a scan writes an aggregate for. -/
def Bucket.pends (b : Bucket V) : Bool := b.state = .open ∧ 0 < b.cnt

theorem written_emissions {F : FloatOps V} {qsort : (V → V → Int) → List V → List V}
    {s : Aggregator V} {c : Compute V} (front : List (Bucket V)) :
    written (front.filterMap (emission F qsort s i c metric)) i metric =
      (front.filter Bucket.pends).map Bucket.start := by
  rw [written, filterMap_filterMap, ← filterMap_eq_map, ← filterMap_eq_filter, filterMap_filterMap]
  refine filterMap_congr fun b _ => ?_
  rw [emission, Option.guard, Bucket.pends]
  split
  case isTrue h => simp [h, AggrEvent.writtenFor]
  case isFalse h => simp [h]

/-! ## Rows -/

/-- The open buckets of a row are ahead of what was written, and the row reaches as far as that. -/
structure Ahead (ws : List Int) (bs : List (Bucket V)) : Prop where
  opened : ∀ w ∈ ws, ∀ b ∈ bs, b.state = .open → w < b.start
  within : ∀ w ∈ ws, ∃ b ∈ bs, w ≤ b.start

section
variable {ws : List Int} {bs : List (Bucket V)} {interval : Nat} {t : Int}

theorem SameRow.ahead {inv inv' : Invocation V} (h : SameRow inv inv') (ha : Ahead ws inv.buckets) :
    Ahead ws inv'.buckets := by
  constructor
  · intro w hw b hb hopen
    obtain ⟨b₀, hb₀, hstate, hstart⟩ := h.exists_mem hb
    rw [← hstart]
    exact ha.opened w hw b₀ hb₀ (hstate.trans hopen)
  · intro w hw
    obtain ⟨b, hb, hle⟩ := ha.within w hw
    obtain ⟨b', hb', -, hstart⟩ := h.symm.exists_mem hb
    exact ⟨b', hb', hstart ▸ hle⟩

/-- A new row is ahead of what was written if its first bucket is. -/
theorem Spaced.ahead (h : Spaced interval t bs) (hne : bs ≠ []) (ht : ∀ w ∈ ws, w < t) :
    Ahead ws bs where
  opened w hw b hb _ := (ht w hw).trans_le (h.le_start b hb)
  within w hw :=
    let ⟨b, hb⟩ := exists_mem_of_ne_nil bs hne
    ⟨b, hb, ((ht w hw).trans_le (h.le_start b hb)).le⟩

/-- A scan writes for open buckets only, in the order of their starts, and those it leaves open are
ahead of them. -/
theorem Ahead.scan {front back : List (Bucket V)} {g : Bucket V → Bucket V} (hpos : 0 < interval)
    (hspaced : Spaced interval t (front ++ back)) (hg : ∀ b, (g b).state = .expire)
    (hstart : ∀ b, (g b).start = b.start) (h : Ahead ws (front ++ back)) (hws : ws.Nodup) :
    (ws ++ (front.filter Bucket.pends).map Bucket.start).Nodup ∧
      Ahead (ws ++ (front.filter Bucket.pends).map Bucket.start) (front.map g ++ back) := by
  have hlt := pairwise_append.1 (hspaced.pairwise hpos)
  have hopen : ∀ b ∈ front.filter Bucket.pends, b ∈ front ∧ b.state = .open := fun b hb => by
    obtain ⟨hb, hpends⟩ := mem_filter.1 hb
    exact ⟨hb, (of_decide_eq_true hpends).1⟩
  have hnodup : ((front.filter Bucket.pends).map Bucket.start).Nodup := by
    rw [List.Nodup, pairwise_map]
    exact (hlt.1.filter _).imp fun hab => hab.ne
  refine ⟨nodup_append.2 ⟨hws, hnodup, fun w hw w' hw' => ?_⟩, fun w hw b hb hb' => ?_,
    fun w hw => ?_⟩
  · obtain ⟨b, hb, rfl⟩ := mem_map.1 hw'
    obtain ⟨hmem, hopen⟩ := hopen b hb
    exact (h.opened w hw b (mem_append_left _ hmem) hopen).ne
  · rcases mem_append.1 hb with hb | hb
    · obtain ⟨b₀, -, rfl⟩ := mem_map.1 hb
      rw [hg] at hb'
      cases hb'
    · rcases mem_append.1 hw with hw | hw
      · exact h.opened w hw b (mem_append_right _ hb) hb'
      · obtain ⟨a, ha, rfl⟩ := mem_map.1 hw
        exact hlt.2.2 a (hopen a ha).1 b hb
  · rcases mem_append.1 hw with hw | hw
    · obtain ⟨a, ha, hle⟩ := h.within w hw
      rcases mem_append.1 ha with ha | ha
      · exact ⟨g a, mem_append_left _ (mem_map_of_mem ha), by rw [hstart]; exact hle⟩
      · exact ⟨a, mem_append_right _ ha, hle⟩
    · obtain ⟨a, ha, rfl⟩ := mem_map.1 hw
      exact ⟨g a, mem_append_left _ (mem_map_of_mem (hopen a ha).1), (hstart a).ge⟩

/-- Moving an expired bucket behind the others. -/
theorem Ahead.rotate (hpos : 0 < interval) {F : FloatOps V} {type : ComputeType}
    (hrow : RowOK F type interval i metric tr bs) (h : Ahead ws bs) (n : Nat) :
    Ahead ws (rotateBuckets interval n bs) := by
  induction n generalizing bs with
  | zero => exact h
  | succ n ih =>
    cases bs with
    | nil => exact h
    | cons b bs =>
      rw [rotateBuckets]
      split
      case isFalse => exact h
      case isTrue hb =>
        obtain ⟨t, ht⟩ := hrow.spaced
        have hrec : ∀ w ∈ ws, w < (recycle interval b (bs.getLast?.getD b)).start := by
          intro w hw
          obtain ⟨_, hb', hle⟩ := h.within w hw
          exact hle.trans_lt (ht.lt_recycle hpos hb')
        refine ih (hrow.recycle hpos hb) ⟨fun w hw b' hb' hopen => ?_, fun w hw => ?_⟩
        · rcases mem_append.1 hb' with hb' | hb'
          · exact h.opened w hw b' (mem_cons_of_mem b hb') hopen
          · cases mem_singleton.1 hb'
            exact hrec w hw
        · exact ⟨_, mem_append_right _ mem_cons_self, (hrec w hw).le⟩

end

end

/-! ## Runs -/

/-- The steps that do not create an invocation again too early: when a metric makes an invocation
for a name that has none, every bucket that was written for this name ended before the expiry time.
-/
def RecreatedLate (tr : List (AggrEvent V)) (s : Aggregator V) : AggrStep → Prop
  | .putmetric running now data rewrite oracle => ∀ i c metric, (oracle i).Creates running data →
    s.computes[i]? = some c → rewrite c.metric = some metric → ¬ s.HasName i metric →
      ∀ start ∈ written tr i metric, start + s.interval ≤ now - s.expire
  | .expire .. | .cleanup => True

/-- What a run keeps: every invocation is ahead of what was written for its name, and nothing was
written twice. -/
structure AheadOK (P : AggrParams V) (tr : List (AggrEvent V)) (s : Aggregator V) : Prop where
  ok : AggrOK P tr s
  ahead : ∀ i inv, s.HasInvocation i inv → Ahead (written tr i inv.metric) inv.buckets
  once : WritesOnce tr

section
variable {P : AggrParams V} {tr es : List (AggrEvent V)} {s s' : Aggregator V}

variable {now : Int}

/-- The first bucket of a new invocation is behind a bucket that ended before the expiry time. -/
theorem lt_newInvocation_start {start : Int} (hpos : 0 < s.interval)
    (h : start + s.interval ≤ now - s.expire) :
    start < (now - s.expire).tdiv s.interval * s.interval := by
  have hpos' : (0 : Int) < s.interval := by exact_mod_cast hpos
  have hdiv := Int.tmod_add_mul_tdiv (now - s.expire) s.interval
  have hmod := Int.tmod_lt_of_pos (now - s.expire) hpos'
  rw [mul_comm]
  linarith

variable {running : Bool}

theorem AheadOK.putmetric (h : AheadOK P tr s) (hcnt : 0 < P.bucketcnt) {atof : Text → V}
    {data : Text} {rewrite : Text → Option Text} {oracle : Nat → PutOracle}
    (hlate : RecreatedLate tr s (.putmetric running now data rewrite oracle))
    (hput : aggregatorPutmetric P.F atof running now data rewrite oracle s = some (s', es)) :
    AheadOK P (tr ++ es) s' := by
  obtain ⟨hes, horigin⟩ := h.ok.putmetric_hasInvocation hput
  have hwritten (i : Nat) (metric : Text) : written (tr ++ es) i metric = written tr i metric :=
    written_append_of_unwritten hes
  refine ⟨h.ok.putmetric hput, fun i inv' hinv' => ?_, fun i metric => ?_⟩
  · rw [hwritten]
    rcases horigin i inv' hinv' with ⟨_, inv, -, hinv, hrow⟩ |
      ⟨c, metric, hcreates, hc, hname, hnot, hrow⟩
    · rw [hrow.metric]
      exact hrow.ahead (h.ahead i inv hinv)
    · rw [hrow.metric]
      have hpos : 0 < s.interval := h.ok.fits.interval ▸ P.interval_pos
      have hspaced : Spaced s.interval ((now - s.expire).tdiv s.interval * s.interval)
          (newInvocation P.F s now metric (oracle i).rand).buckets := spaced_range (fun _ => rfl) _
      have hne : (newInvocation P.F s now metric (oracle i).rand).buckets ≠ [] := by
        rw [← length_pos_iff, newInvocation, length_map, length_range, h.ok.fits.bucketcnt]
        exact hcnt
      exact hrow.ahead (hspaced.ahead hne fun start hstart =>
        lt_newInvocation_start hpos (hlate i c metric hcreates hc hname hnot start hstart))
  · rw [hwritten]
    exact h.once i metric

/-- The scan of one invocation. -/
theorem WritesOnce.scan {i : Nat} {c : Compute V}
    {inv inv' : Invocation V} (honce : WritesOnce tr)
    (hspaced : ∃ t, Spaced P.interval t inv.buckets)
    (hahead : Ahead (written tr i inv.metric) inv.buckets)
    (hscan : scanInvocation P.F P.qsort s running now i c inv = some (inv', es)) :
    WritesOnce (tr ++ es) ∧ (∃ t, Spaced P.interval t inv'.buckets) ∧
      Ahead (written (tr ++ es) i inv'.metric) inv'.buckets := by
  obtain ⟨front, back, hsplit, -, rfl, rfl⟩ := scanInvocation_eq_some hscan
  obtain ⟨t, ht⟩ := hspaced
  have hstarts : (front.map (markExpired P.F P.qsort c) ++ back).map Bucket.start =
      inv.buckets.map Bucket.start := by
    rw [hsplit, map_append, map_append, map_map]
    exact congrArg (· ++ _) (map_congr_left fun b _ => start_markExpired)
  have hspaced' := ht.congr hstarts
  rw [hsplit] at ht hahead
  obtain ⟨hnodup, hahead'⟩ := hahead.scan P.interval_pos ht (g := markExpired P.F P.qsort c)
    (fun _ => rfl) (fun _ => start_markExpired) (honce i inv.metric)
  rw [← written_emissions, ← written_append] at hnodup hahead'
  refine ⟨fun i' metric' => ?_, ⟨t, hspaced'⟩, hahead'⟩
  by_cases hkey : (i, inv.metric) = (i', metric')
  · cases hkey
    exact hnodup
  · rw [written_append_of_key fun e he heq => hkey ((key_scanInvocation hscan e he).symm.trans heq)]
    exact honce i' metric'

theorem AheadOK.expire (h : AheadOK P tr s) {sent : Nat → Bool}
    (hexp : aggregatorExpire P.F P.qsort running now sent s = some (s', es)) :
    AheadOK P (tr ++ es) s' := by
  obtain ⟨honce, hinvs⟩ := aggregatorExpire_framed (T := WritesOnce)
    (J := fun i tr inv => (∃ t, Spaced P.interval t inv.buckets) ∧
      Ahead (written tr i inv.metric) inv.buckets)
    (fun i c tr inv inv' es honce hinv hscan => honce.scan hinv.1 hinv.2 hscan)
    (fun i tr es inv hinv hes => by
      rw [written_append_of_key hes]
      exact hinv)
    (fun i c hc => h.ok.placed hc) h.once
    (fun i inv hinv =>
      let ⟨_, _, _, hok⟩ := h.ok.invocation hinv
      ⟨hok.row.spaced, h.ahead i inv hinv⟩) hexp
  exact ⟨h.ok.expire hexp, fun i inv hinv => (hinvs i inv hinv).2, honce⟩

theorem AheadOK.cleanup (h : AheadOK P tr s) : AheadOK P tr (aggregatorCleanup s) := by
  refine ⟨h.ok.cleanup, fun i inv' hinv' => ?_, h.once⟩
  obtain ⟨inv, hinv, hclean⟩ := aggregatorCleanup_hasInvocation hinv'
  obtain ⟨type, percentile, -, hok⟩ := h.ok.invocation hinv
  rw [cleanInvocation_eq_some hclean, h.ok.fits.interval]
  exact (h.ahead i inv hinv).rotate P.interval_pos hok.row _

theorem AheadOK.step (h : AheadOK P tr s) (hcnt : 0 < P.bucketcnt) {atof : Text → V} {a : AggrStep}
    (hlate : RecreatedLate tr s a) (hstep : aggrStep P.F atof P.qsort s a = some (s', es)) :
    AheadOK P (tr ++ es) s' := by
  cases a with
  | putmetric => exact h.putmetric hcnt hlate hstep
  | expire => exact h.expire hstep
  | cleanup => cases hstep; rw [append_nil]; exact h.cleanup

end

/-! ## Runs with one name -/

/-- An aggregator with one compute and one name: what it has received, sent and dropped, and the
chain of the name. -/
structure OneName where
  received : Nat
  sent : Nat
  dropped : Nat
  chain : List (Invocation Int)
  deriving DecidableEq

/-- The aggregator, which writes the median of every ten seconds. -/
def OneName.aggregator (t : OneName) : Aggregator Int :=
  { ((percentileConfig false).new : Aggregator Int) with
    received := t.received
    sent := t.sent
    dropped := t.dropped
    computes := [percentileCompute false t.chain] }

/-- A step of the aggregator, on the chain of its name. -/
def oneNameStep (t : OneName) : AggrStep → Option (OneName × List (AggrEvent Int))
  | .putmetric running now data rewrite oracle =>
    if running = true ∧ rewrite ['m'] = some ['m'] then
      match parseData (fun t => (Text.strtol t).1) data with
      | none => none
      | some (val, epoch) =>
        match findOrAdd intOps t.aggregator now ['m'] (oracle 0) t.chain with
        | none => none
        | some chain =>
          match putChain intOps t.aggregator 0 true (oracle 0).realloc epoch val ['m'] chain with
          | none => none
          | some (chain, es) =>
            some (⟨t.received + 1, t.sent, t.dropped + es.countP AggrEvent.isDropped, chain⟩, es)
    else none
  | .expire running now sent =>
    if running then
      match mapEmit (fun _ inv => scanInvocation intOps insertSort t.aggregator true now 0
          (percentileCompute false t.chain) inv) 0 t.chain with
      | none => none
      | some (chain, es) =>
        let ok := (List.range es.length).countP sent
        some (⟨t.received, t.sent + ok, t.dropped + (es.length - ok), chain⟩, es)
    else none
  | .cleanup => some (⟨t.received, t.sent, t.dropped, t.chain.filterMap (cleanInvocation 10)⟩, [])

theorem percentileCompute_chain (chain : List (Invocation Int)) :
    (percentileCompute false chain).invocationsHt[omhtbucket (Fnv1a.hash32 ['m'])]? =
      some chain := by
  rw [percentileCompute, getElem?_set_self]
  rw [length_replicate]
  exact omhtbucket_lt _

theorem aggrStep_oneName {t t' : OneName} {a : AggrStep} {es : List (AggrEvent Int)}
    (h : oneNameStep t a = some (t', es)) :
    aggrStep intOps (fun t => (Text.strtol t).1) insertSort t.aggregator a =
      some (t'.aggregator, es) := by
  cases a with
  | putmetric running now data rewrite oracle =>
    rw [oneNameStep] at h
    split at h
    case isFalse => cases h
    case isTrue hcond =>
      obtain ⟨rfl, hname⟩ := hcond
      split at h
      case h_1 => cases h
      case h_2 val epoch hdata =>
        split at h
        case h_1 => cases h
        case h_2 chain hfind =>
          split at h
          case h_1 => cases h
          case h_2 chain' es' hput =>
            cases h
            have hcompute := putCompute_eq (c := percentileCompute false t.chain) (i := 0) hname
              (percentileCompute_chain t.chain) hfind hput
            rw [percentileCompute, set_set] at hcompute
            have hmap : mapEmit (fun i c => putCompute intOps t.aggregator now epoch val rewrite
                (oracle i) i c) 0 t.aggregator.computes =
                  some ([percentileCompute false chain'], es ++ []) :=
              mapEmit_cons_eq_some.2 ⟨_, _, [], [], hcompute, rfl, rfl, rfl⟩
            rw [append_nil] at hmap
            rw [aggrStep, aggregatorPutmetric, if_neg (not_not.2 rfl), hdata]
            simp only [hmap]
            rfl
  | expire running now sent =>
    rw [oneNameStep] at h
    split at h
    case isFalse => cases h
    case isTrue hrunning =>
      split at h
      case h_1 => cases h
      case h_2 chain es' hscan =>
        cases h
        have hcompute : scanCompute intOps insertSort t.aggregator true now 0
            (percentileCompute false t.chain) = some (percentileCompute false chain, es) :=
          scanCompute_eq (mapEmit_set_replicate (fun _ => rfl) (omhtbucket_lt _) hscan)
        have hmap : mapEmit (scanCompute intOps insertSort t.aggregator true now) 0
            t.aggregator.computes = some ([percentileCompute false chain], es ++ []) :=
          mapEmit_cons_eq_some.2 ⟨_, _, [], [], hcompute, rfl, rfl, rfl⟩
        rw [append_nil] at hmap
        rw [hrunning, aggrStep, aggregatorExpire, if_pos rfl, add_zero]
        simp only [hmap]
        rfl
  | cleanup =>
    cases h
    have hchains : (percentileCompute false t.chain).invocationsHt.map
        (filterMap (cleanInvocation 10)) =
          (percentileCompute false (t.chain.filterMap (cleanInvocation 10))).invocationsHt := by
      rw [percentileCompute, map_set, map_replicate]
      rfl
    show some ({ t.aggregator with computes := [{ percentileCompute false t.chain with
      invocationsHt := (percentileCompute false t.chain).invocationsHt.map
        (filterMap (cleanInvocation 10)) }] }, []) = _
    rw [hchains]
    rfl

/-- The value 7 of time 1000, which is written and its invocation removed, and then a value that
comes at time `late`, and a pass that writes what is expired at 1031. -/
def lateValue (late : Int) (data : Text) : List AggrStep :=
  [.putmetric true 1000 ['7', ' ', '1', '0', '0', '0'] some fun _ => ⟨true, true, true, true, 0⟩,
   .expire true 1021 fun _ => true,
   .cleanup,
   .putmetric true late data some fun _ => ⟨true, true, true, true, 0⟩,
   .expire true 1031 fun _ => true]

theorem new_oneName : (percentileConfig false).new = OneName.aggregator ⟨0, 0, 0, []⟩ := by
  have hcompute : percentileCompute false [] = newCompute ['m'] .pctl 50 := by
    rw [percentileCompute, set_replicate_self]
    rfl
  rw [OneName.aggregator, hcompute]
  rfl

/-- What the run writes: the late value is accepted for the bucket that starts at `start`. -/
def lateEvents (start epoch : Int) : List (List (AggrEvent Int)) :=
  [[.accepted 0 ['m'] 1000 1000 7 (some true)], [.emitted 0 ['m'] 1000 1010 (some 7)], [],
   [.accepted 0 ['m'] start epoch 8 (some true)], [.emitted 0 ['m'] start (start + 10) (some 8)]]

theorem run_oneName {steps : List AggrStep} {os : List (List (AggrEvent Int))}
    (h : (Machine.run oneNameStep ⟨0, 0, 0, []⟩ steps).map Prod.snd = some os) :
    ∃ s, Machine.run (aggrStep intOps (fun t => (Text.strtol t).1) insertSort)
      (percentileConfig false).new steps = some (s, os) := by
  obtain ⟨⟨t, os'⟩, hrun, rfl⟩ := Option.map_eq_some_iff.1 h
  obtain ⟨s, hs, -⟩ := Machine.run_simulates (R := fun s t => s = OneName.aggregator t)
    (fun s t a t' es hR hstep => ⟨t'.aggregator, hR ▸ aggrStep_oneName hstep, rfl⟩) new_oneName hrun
  exact ⟨s, hs⟩

/-- The condition on the steps, for the one name. -/
def oneNameLate (tr : List (AggrEvent Int)) (_ : OneName) : AggrStep → Prop
  | .putmetric _ now _ rewrite _ =>
    rewrite ['m'] = some ['m'] ∧ ∀ start ∈ written tr 0 ['m'], start + 10 ≤ now - 20
  | .expire .. | .cleanup => True

instance decidableOneNameLate (tr : List (AggrEvent Int)) (t : OneName) :
    ∀ a, Decidable (oneNameLate tr t a)
  | .putmetric .. => inferInstanceAs (Decidable (_ ∧ _))
  | .expire .. | .cleanup => isTrue trivial

theorem recreatedLate_oneName {tr : List (AggrEvent Int)} {t : OneName} {a : AggrStep}
    (h : oneNameLate tr t a) : RecreatedLate tr t.aggregator a := by
  cases a with
  | putmetric running now data rewrite oracle =>
    intro i c metric _ hc hname _ start hstart
    cases i with
    | succ i => cases hc
    | zero =>
      cases hc
      cases h.1.symm.trans hname
      exact h.2 start hstart
  | expire => trivial
  | cleanup => trivial

theorem traceAlong_oneName {steps : List AggrStep}
    (hrun : (Machine.run oneNameStep ⟨0, 0, 0, []⟩ steps).isSome)
    (h : Machine.TraceAlong oneNameStep oneNameLate [] ⟨0, 0, 0, []⟩ steps) :
    Machine.TraceAlong (aggrStep intOps (fun t => (Text.strtol t).1) insertSort) RecreatedLate []
      (percentileConfig false).new steps := by
  obtain ⟨⟨t, os⟩, hrun⟩ := Option.isSome_iff_exists.1 hrun
  exact Machine.traceAlong_of_simulates (R := fun s t => s = OneName.aggregator t)
    (fun s t a t' es hR hstep => ⟨t'.aggregator, hR ▸ aggrStep_oneName hstep, rfl⟩)
    (fun tr s t a hR hlate => hR ▸ recreatedLate_oneName hlate) new_oneName hrun h

/-- In a run that creates no invocation again too early, no compute writes two aggregates for a
bucket. -/
theorem aggregator_writesOnce (C : AggrConfig) (F : FloatOps V) (atof : Text → V)
    {qsort : (V → V → Int) → List V → List V} (hq : Sorts qsort) {steps : List AggrStep}
    {s : Aggregator V} {os : List (List (AggrEvent V))}
    (hrun : Machine.run (aggrStep F atof qsort) C.new steps = some (s, os))
    (hlate : Machine.TraceAlong (aggrStep F atof qsort) RecreatedLate [] C.new steps) :
    WritesOnce os.flatten := by
  have hnew : AheadOK (C.params F hq) [] C.new := by
    refine ⟨aggrOK_new C F hq, fun i inv _ => ⟨?_, ?_⟩, fun i metric => .nil⟩ <;>
      exact nofun
  have hok : AheadOK (C.params F hq) ([] ++ os.flatten) s :=
    Machine.run_trace_along (fun _ _ _ _ _ hlate h hstep => h.step (Nat.succ_pos _) hlate hstep)
      hlate hnew hrun
  exact hok.once

/-- A late value 8 of time 1014, when the bucket written before ended at the expiry time: nothing is
written twice. -/
theorem aggregator_writesOnce_late :
    ∃ s os, Machine.run (aggrStep intOps (fun t => (Text.strtol t).1) insertSort)
        (percentileConfig false).new (lateValue 1030 ['8', ' ', '1', '0', '1', '4']) =
          some (s, os) ∧
      written os.flatten 0 ['m'] = [1000, 1010] ∧ WritesOnce os.flatten := by
  have hevents : (Machine.run oneNameStep ⟨0, 0, 0, []⟩
      (lateValue 1030 ['8', ' ', '1', '0', '1', '4'])).map Prod.snd =
        some (lateEvents 1010 1014) := by
    decide +kernel
  obtain ⟨s, hrun⟩ := run_oneName hevents
  exact ⟨s, _, hrun, by decide, aggregator_writesOnce _ intOps _ Sorts.insertSort hrun
    (traceAlong_oneName (by decide +kernel) (by decide +kernel))⟩

/-- A late value 8 of time 1005, one second after its bucket was written: the bucket is created
again, and written again. -/
theorem recreated_bucket_written_twice :
    ∃ s os, Machine.run (aggrStep intOps (fun t => (Text.strtol t).1) insertSort)
        (percentileConfig false).new (lateValue 1021 ['8', ' ', '1', '0', '0', '5']) =
          some (s, os) ∧
      written os.flatten 0 ['m'] = [1000, 1000] ∧ ¬ WritesOnce os.flatten := by
  have hevents : (Machine.run oneNameStep ⟨0, 0, 0, []⟩
      (lateValue 1021 ['8', ' ', '1', '0', '0', '5'])).map Prod.snd =
        some (lateEvents 1000 1005) := by
    decide +kernel
  obtain ⟨s, hrun⟩ := run_oneName hevents
  exact ⟨s, _, hrun, by decide, fun h => absurd (h 0 ['m']) (by decide)⟩

end CarbonRelay
