import CarbonRelay.Aggregator.Emission
import CarbonRelay.Aggregator.Timing

/-!
# The values a bucket has

A median, a percentile, a variance and a standard deviation are computed from the values of a
bucket, in an array that grows by `realloc` as values come in. A value that finds no place is
counted all the same, and as the array grows only where the count is its size, none of the values
after it finds a place either. The pass that writes the bucket reads as many values as were counted.
So the array covers the count exactly if no `realloc` failed for the bucket since it was recycled
(`covers_iff`).
-/

namespace CarbonRelay

open List

universe u

variable {V : Type u}

/-- The array has `cnt` values, and they are those accepted for the bucket, in their order. -/
def Covers (tr : List (AggrEvent V)) (i : Nat) (metric : Text) (b : Bucket V) : Prop :=
  readValues b.values b.cnt = some ((pending tr i metric b.start).map Prod.fst)

/-- A bucket that a pass writes when it is past, of a compute that needs the values. -/
structure Writable (C : AggrConfig) (s : Aggregator V) (i : Nat) (inv : Invocation V)
    (b : Bucket V) : Prop where
  needed : ∃ type percentile, C.types[i]? = some (type, percentile) ∧ type.store = true
  invocation : s.HasInvocation i inv
  mem : b ∈ inv.buckets
  pends : b.state = .open ∧ 0 < b.cnt

/-- The array of a bucket can grow whenever it has to. -/
def AggrStep.Grows : AggrStep → Prop
  | .putmetric _ _ _ _ oracle => ∀ i, (oracle i).realloc = true
  | .expire .. | .cleanup => True

/-! ## One bucket -/

section
variable {F : FloatOps V} {qsort : (V → V → Int) → List V → List V} {b : Bucket V}

theorem Holds.readValues_iff {vs : List (V × Option Bool)} (h : Holds F true vs b) :
    readValues b.values b.cnt = some (vs.map Prod.fst) ↔ ∀ p ∈ vs, p.2 ≠ some false := by
  refine ⟨fun hread => ?_, h.kept rfl⟩
  by_contra hall
  have hlost : ∃ p ∈ vs, p.2 = some false := by simpa using hall
  have hlt := (h.lost hlost).2
  rw [readValues, if_neg (by omega)] at hread
  cases hread

/-- A bucket with a place for every value it counts has lost none. -/
theorem Holds.stored_of_le {n : Bool} {vs : List (V × Option Bool)} (h : Holds F n vs b)
    (hle : b.cnt ≤ b.values.length) : ∀ p ∈ vs, p.2 ≠ some false := by
  intro p hp hfailed
  have hlt := (h.lost ⟨p, hp, hfailed⟩).2
  omega

theorem cnt_le_putBucket (h : b.cnt ≤ b.values.length) (val : V) :
    (putBucket F true true val b).cnt ≤ (putBucket F true true val b).values.length := by
  rw [putBucket, if_pos rfl, length_set]
  exact cnt_lt_growValues rfl h (growth_true_ne true b)

theorem length_sortedValues (hq : Sorts qsort) (type : ComputeType) (b : Bucket V) :
    (sortedValues F qsort type b).length = b.values.length := by
  have hsorted : ∀ vs, readValues b.values b.cnt = some vs →
      ((qsort F.cmpEntry vs).map some ++ b.values.drop b.cnt).length = b.values.length := by
    intro vs hvs
    obtain ⟨hlen, hpre⟩ := readValues_eq_some.1 hvs
    have hle := hpre.length_le
    rw [length_map] at hle
    rw [length_append, length_map, (hq.perm F.cmpEntry vs).length_eq, length_drop]
    omega
  unfold sortedValues
  split
  case h_1 vs hvs => exact hsorted vs hvs
  case h_2 vs hvs => exact hsorted vs hvs
  case h_3 => rfl

theorem cnt_le_markExpired (hq : Sorts qsort) (c : Compute V) (h : b.cnt ≤ b.values.length) :
    (markExpired F qsort c b).cnt ≤ (markExpired F qsort c b).values.length := by
  rw [markExpired]
  split
  · exact h.trans_eq (length_sortedValues hq c.type b).symm
  · exact h

/-- The buckets that are moved behind the others are empty. -/
theorem mem_rotateBuckets {interval n : Nat} {bs : List (Bucket V)}
    (hb : b ∈ rotateBuckets interval n bs) : b ∈ bs ∨ b.cnt = 0 := by
  induction n generalizing bs with
  | zero => exact .inl hb
  | succ n ih =>
    cases bs with
    | nil => exact .inl hb
    | cons b₀ bs =>
      rw [rotateBuckets] at hb
      split at hb
      case isFalse => exact .inl hb
      case isTrue =>
        rcases ih hb with hmem | hzero
        · rcases mem_append.1 hmem with hmem | hmem
          · exact .inl (mem_cons_of_mem b₀ hmem)
          · cases mem_singleton.1 hmem
            exact .inr rfl
        · exact .inr hzero

end

/-! ## Runs in which the arrays can grow -/

/-- Every bucket has a place for every value it counts, where values are needed. -/
structure RoomOK (P : AggrParams V) (tr : List (AggrEvent V)) (s : Aggregator V) : Prop where
  ok : AggrOK P tr s
  room : ∀ i type percentile, P.conf[i]? = some (type, percentile) → type.store = true →
    ∀ inv, s.HasInvocation i inv → ∀ b ∈ inv.buckets, b.cnt ≤ b.values.length

section
variable {P : AggrParams V} {tr es : List (AggrEvent V)} {s s' : Aggregator V}

section
variable (h : RoomOK P tr s)
include h

theorem RoomOK.putmetric {atof : Text → V} {running : Bool} {now : Int}
    {data : Text} {rewrite : Text → Option Text} {oracle : Nat → PutOracle}
    (hgrows : ∀ i, (oracle i).realloc = true)
    (hput : aggregatorPutmetric P.F atof running now data rewrite oracle s = some (s', es)) :
    RoomOK P (tr ++ es) s' := by
  refine ⟨h.ok.putmetric hput, fun i type percentile hconf hstore inv' hinv' b' hb' => ?_⟩
  have hneeded : ∀ c, s.computes[i]? = some c → c.entriesNeeded = true := by
    intro c hc
    have hok := h.ok.computes i c hc
    cases hconf.symm.trans hok.conf
    exact hok.needed.trans hstore
  have htook : ∀ inv, (∀ b ∈ inv.buckets, b.cnt ≤ b.values.length) → Took P.F true true inv inv' →
      b'.cnt ≤ b'.values.length := by
    intro inv hinv htook
    rcases htook.buckets b' hb' with hmem | ⟨b, hb, val, rfl⟩
    · exact hinv b' hmem
    · exact cnt_le_putBucket (hinv b hb) val
  rcases (h.ok.putmetric_hasInvocation hput).2 i inv' hinv' with ⟨c, inv, hc, hinv, ht⟩ |
    ⟨c, metric, -, hc, -, -, ht⟩
  · rw [hneeded c hc, hgrows i] at ht
    exact htook inv (h.room i type percentile hconf hstore inv hinv) ht
  · rw [hneeded c hc, hgrows i] at ht
    refine htook _ (fun b hb => ?_) ht
    obtain ⟨k, -, rfl⟩ := mem_map.1 hb
    exact Nat.zero_le _

theorem RoomOK.expire {running : Bool} {now : Int} {sent : Nat → Bool}
    (hexp : aggregatorExpire P.F P.qsort running now sent s = some (s', es)) :
    RoomOK P (tr ++ es) s' := by
  refine ⟨h.ok.expire hexp, fun i type percentile hconf hstore inv' hinv' b' hb' => ?_⟩
  obtain ⟨c, inv, es', hinv, hscan⟩ := aggregatorExpire_hasInvocation hexp hinv'
  obtain ⟨front, back, hsplit, -, rfl, -⟩ := scanInvocation_eq_some hscan
  have hroom := h.room i type percentile hconf hstore inv hinv
  rw [hsplit] at hroom
  rcases mem_append.1 hb' with hb' | hb'
  · obtain ⟨b, hb, rfl⟩ := mem_map.1 hb'
    exact cnt_le_markExpired P.sorts c (hroom b (mem_append_left _ hb))
  · exact hroom b' (mem_append_right _ hb')

theorem RoomOK.cleanup : RoomOK P tr (aggregatorCleanup s) := by
  refine ⟨h.ok.cleanup, fun i type percentile hconf hstore inv' hinv' b hb => ?_⟩
  obtain ⟨inv, hinv, hclean⟩ := aggregatorCleanup_hasInvocation hinv'
  cases cleanInvocation_eq_some hclean
  rcases mem_rotateBuckets hb with hmem | hzero
  · exact h.room i type percentile hconf hstore inv hinv b hmem
  · exact hzero ▸ Nat.zero_le _

theorem RoomOK.step {atof : Text → V} {a : AggrStep} (hgrows : a.Grows)
    (hstep : aggrStep P.F atof P.qsort s a = some (s', es)) : RoomOK P (tr ++ es) s' := by
  cases a with
  | putmetric => exact h.putmetric hgrows hstep
  | expire => exact h.expire hstep
  | cleanup => cases hstep; rw [append_nil]; exact h.cleanup

end

end

/-- In every run, the array of a bucket that is to be written covers its count exactly if no
`realloc` has failed for the bucket since it was last written, and it does so for all buckets if
none fails. -/
theorem covers_iff (C : AggrConfig) (F : FloatOps V) (atof : Text → V)
    {qsort : (V → V → Int) → List V → List V} (hq : Sorts qsort) {steps : List AggrStep}
    {s : Aggregator V} {os : List (List (AggrEvent V))}
    (hrun : Machine.run (aggrStep F atof qsort) C.new steps = some (s, os)) :
    (∀ i inv b, Writable C s i inv b → (Covers os.flatten i inv.metric b ↔
      ∀ p ∈ pending os.flatten i inv.metric b.start, p.2 ≠ some false)) ∧
    ((∀ a ∈ steps, a.Grows) → ∀ i inv b, Writable C s i inv b →
      Covers os.flatten i inv.metric b) := by
  have hok := aggrOK_run hq hrun
  have hiff : ∀ i inv b, Writable C s i inv b → (Covers os.flatten i inv.metric b ↔
      ∀ p ∈ pending os.flatten i inv.metric b.start, p.2 ≠ some false) := by
    intro i inv b hb
    obtain ⟨type, percentile, htype, hstore⟩ := hb.needed
    have hholds := hok.conserves.counted i inv type percentile hb.invocation htype b hb.mem
      hb.pends.1
    rw [hstore] at hholds
    exact hholds.readValues_iff
  refine ⟨hiff, fun hgrows i inv b hb => (hiff i inv b hb).2 ?_⟩
  have hnew : RoomOK (C.params F hq) [] (C.new : Aggregator V) :=
    ⟨aggrOK_new C F hq, fun i _ _ _ _ inv hinv => absurd hinv (not_hasInvocation_config C i inv)⟩
  have hroom : RoomOK (C.params F hq) ([] ++ os.flatten) s :=
    Machine.run_trace_invariant (fun _ _ _ _ _ hp h hstep => h.step hp hstep) hgrows hnew hrun
  obtain ⟨type, percentile, htype, hstore⟩ := hb.needed
  have hholds := hok.conserves.counted i inv type percentile hb.invocation htype b hb.mem hb.pends.1
  exact hholds.stored_of_le (hroom.room i type percentile htype hstore inv hb.invocation b hb.mem)

/-- The value 7 of time 1000, in the bucket of which `realloc` answers so. -/
def oneStored (realloc : Bool) : AggrStep :=
  .putmetric true 1000 ['7', ' ', '1', '0', '0', '0'] some fun _ => ⟨true, true, true, realloc, 0⟩

/-- The aggregator with the value, which has a place only if there was memory for it. -/
def oneStoredName (realloc : Bool) : OneName where
  received := 1
  sent := 0
  dropped := 0
  chain := [{ oneValueInvocation .open with
    buckets :=
      [⟨.open, 980, 0, 0, 0, 0, []⟩, ⟨.open, 990, 0, 0, 0, 0, []⟩,
       ⟨.open, 1000, 1, 7, 7, 7, if realloc then some 7 :: List.replicate 63 none else []⟩,
       ⟨.open, 1010, 0, 0, 0, 0, []⟩] }]

theorem run_oneStored (realloc : Bool) :
    Machine.run (aggrStep intOps (fun t => (Text.strtol t).1) insertSort)
      (percentileConfig false).new [oneStored realloc] =
        some ((oneStoredName realloc).aggregator,
          [[.accepted 0 ['m'] 1000 1000 7 (some realloc)]]) := by
  have hstep : oneNameStep ⟨0, 0, 0, []⟩ (oneStored realloc) =
      some (oneStoredName realloc, [.accepted 0 ['m'] 1000 1000 7 (some realloc)]) := by
    cases realloc <;> decide +kernel
  exact Machine.run_cons_eq_some.2 ⟨_, _, [], new_oneName ▸ aggrStep_oneName hstep, rfl, rfl⟩

theorem writable_oneStored (realloc : Bool) :
    ∃ inv b, Writable (percentileConfig false) (oneStoredName realloc).aggregator 0 inv b ∧
      inv.metric = ['m'] ∧ b.start = 1000 ∧ b.cnt = 1 ∧ b.values.length =
        if realloc then 64 else 0 := by
  refine ⟨_, ⟨.open, 1000, 1, 7, 7, 7, if realloc then some 7 :: List.replicate 63 none else []⟩,
    ⟨⟨_, _, rfl, rfl⟩, ⟨_, _, _, rfl, percentileCompute_chain _, mem_cons_self⟩, ?_, rfl, ?_⟩,
    rfl, rfl, rfl, ?_⟩
  · exact mem_cons_of_mem _ (mem_cons_of_mem _ mem_cons_self)
  · exact Nat.one_pos
  · cases realloc <;> rfl

/-- With memory for it, the value is there when its bucket is written. -/
theorem covers_oneStored :
    ∃ s os inv b, Machine.run (aggrStep intOps (fun t => (Text.strtol t).1) insertSort)
        (percentileConfig false).new [oneStored true] = some (s, os) ∧
      Writable (percentileConfig false) s 0 inv b ∧ b.cnt = 1 ∧
        Covers os.flatten 0 inv.metric b := by
  obtain ⟨inv, b, hb, -, -, hcnt, -⟩ := writable_oneStored true
  have hgrows : ∀ a ∈ [oneStored true], a.Grows := by
    intro a ha
    cases mem_singleton.1 ha
    exact fun _ => rfl
  exact ⟨_, _, inv, b, run_oneStored true, hb, hcnt,
    (covers_iff _ intOps _ Sorts.insertSort (run_oneStored true)).2 hgrows 0 inv b hb⟩

/-- Without memory for its array, the bucket counts the value 7 that it does not have. -/
theorem counted_not_stored :
    ∃ s os inv b, Machine.run (aggrStep intOps (fun t => (Text.strtol t).1) insertSort)
        (percentileConfig false).new [oneStored false] = some (s, os) ∧
      Writable (percentileConfig false) s 0 inv b ∧ b.cnt = 1 ∧ b.values = [] ∧
      pending os.flatten 0 inv.metric b.start = [(7, some false)] ∧
        ¬ Covers os.flatten 0 inv.metric b := by
  obtain ⟨inv, b, hb, hmetric, hstart, hcnt, hlen⟩ := writable_oneStored false
  have hvalues : b.values = [] := length_eq_zero_iff.1 hlen
  refine ⟨_, _, inv, b, run_oneStored false, hb, hcnt, hvalues, ?_, ?_⟩
  · rw [hmetric, hstart]
    rfl
  · rw [Covers, hcnt, hvalues]
    exact fun h => nomatch h

end CarbonRelay
