import CarbonRelay.Aggregator.Basic
import CarbonRelay.Lib.Comparator
import Mathlib.Data.List.Nodup

/-!
# What an aggregator holds

The events of a run say which values a bucket should hold: those accepted for its compute, its name
and its start since the last aggregate that was written for them (`pending`). This module states the
invariant that ties the buckets to the events. An open bucket holds exactly the pending values
(`Holds`), an expired one has none. The buckets of an invocation start one interval after another,
the expired ones come first, and no pending value is without an open bucket (`RowOK`). The chains of
the hash table carry this to all invocations (`ChainOK`), with at most one for each name.
-/

namespace CarbonRelay

open List

universe u

variable {V : Type u}

/-! ## Pending values -/

/-- The compute and the name an event is about. -/
def AggrEvent.key : AggrEvent V → Nat × Text
  | .accepted i metric _ _ _ _ => (i, metric)
  | .emitted i metric _ _ _ => (i, metric)
  | .dropped i metric => (i, metric)

/-- What an event does to the pending values of a bucket. -/
def pendingStep (i : Nat) (metric : Text) (start : Int) (vs : List (V × Option Bool)) :
    AggrEvent V → List (V × Option Bool)
  | .accepted i' metric' start' _ val growth =>
    if i' = i ∧ metric' = metric ∧ start' = start then vs ++ [(val, growth)] else vs
  | .emitted i' metric' start' _ _ =>
    if i' = i ∧ metric' = metric ∧ start' = start then [] else vs
  | .dropped _ _ => vs

/-- The values accepted for a bucket since its last aggregate, each with the outcome of its
`realloc`. -/
def pending (tr : List (AggrEvent V)) (i : Nat) (metric : Text) (start : Int) :
    List (V × Option Bool) :=
  tr.foldl (pendingStep i metric start) []

section
variable {tr es : List (AggrEvent V)} {i : Nat} {metric : Text} {start : Int}

theorem pending_append_singleton (e : AggrEvent V) :
    pending (tr ++ [e]) i metric start =
      pendingStep i metric start (pending tr i metric start) e := by
  rw [pending, foldl_append]
  rfl

/-- Events about another compute or name leave the pending values alone. -/
theorem pending_append_of_key (h : ∀ e ∈ es, e.key ≠ (i, metric)) :
    pending (tr ++ es) i metric start = pending tr i metric start := by
  induction es generalizing tr with
  | nil => rw [append_nil]
  | cons e es ih =>
    rw [← singleton_append, ← append_assoc,
      ih fun e' he' => h e' (mem_cons_of_mem e he'), pending_append_singleton]
    have hkey := h e mem_cons_self
    cases e with
    | accepted i' metric' _ _ _ _ =>
      exact if_neg fun hk => hkey (by rw [AggrEvent.key, hk.1, hk.2.1])
    | emitted i' metric' _ _ _ =>
      exact if_neg fun hk => hkey (by rw [AggrEvent.key, hk.1, hk.2.1])
    | dropped => rfl

end

/-! ## The contents of a bucket -/

/-- The values combined from the left, the first one being the start. -/
def foldFrom (f : V → V → V) (d : V) : List V → V
  | [] => d
  | v :: vs => vs.foldl f v

/-- A value `x` that is the combination of `vs` so far, combined with one more, or replaced by it if
it is the first. -/
theorem foldFrom_concat {f : V → V → V} {d x : V} {vs : List (V × Option Bool)}
    (h : vs ≠ [] → x = foldFrom f d (vs.map Prod.fst)) (p : V × Option Bool) :
    (if vs = [] then p.1 else f x p.1) = foldFrom f d ((vs ++ [p]).map Prod.fst) := by
  cases vs with
  | nil => rfl
  | cons q vs =>
    rw [if_neg (cons_ne_nil q vs), h (cons_ne_nil q vs), map_append, map_cons,
      cons_append, foldFrom, foldFrom, foldl_append]
    rfl

/-- The sum, in the order in which values came in. -/
def FloatOps.sumOf (F : FloatOps V) : List V → V := foldFrom F.add F.junk

def FloatOps.maxOf (F : FloatOps V) : List V → V :=
  foldFrom (fun m v => if F.lt m v then v else m) F.junk

def FloatOps.minOf (F : FloatOps V) : List V → V :=
  foldFrom (fun m v => if F.lt v m then v else m) F.junk

/-- The aggregate of a list of values. -/
def aggregateOf (F : FloatOps V) (qsort : (V → V → Int) → List V → List V) (type : ComputeType)
    (percentile : Nat) (vs : List V) : Option V :=
  computeValue F qsort type percentile vs.length (F.sumOf vs) (F.maxOf vs) (F.minOf vs) (some vs)

variable {vs : List V}

theorem mapM_id_eq_some {l : List (Option V)} : l.mapM id = some vs ↔ l = vs.map some := by
  induction l generalizing vs with
  | nil => cases vs <;> simp
  | cons a l ih =>
    rw [mapM_cons]
    cases a with
    | none => cases vs <;> simp
    | some a =>
      cases vs with
      | nil => simp [Option.bind_eq_some_iff]
      | cons v vs =>
        simp only [id, Option.bind_eq_bind, Option.bind_some, Option.bind_eq_some_iff,
          Option.pure_def, Option.some.injEq, cons.injEq, map_cons, ih]
        constructor
        · rintro ⟨ws, hl, rfl, rfl⟩
          exact ⟨rfl, hl⟩
        · rintro ⟨rfl, hl⟩
          exact ⟨vs, hl, rfl, rfl⟩

/-- The values that can be read from an array are those it starts with. -/
theorem readValues_eq_some {values : List (Option V)} {cnt : Nat} :
    readValues values cnt = some vs ↔ vs.length = cnt ∧ vs.map some <+: values := by
  rw [readValues]
  constructor
  · intro h
    split at h
    case isTrue hle =>
      have htake := mapM_id_eq_some.1 h
      refine ⟨?_, htake ▸ take_prefix cnt values⟩
      rw [← length_map (f := some), ← htake, length_take, Nat.min_eq_left hle]
    case isFalse => cases h
  · rintro ⟨rfl, rest, rfl⟩
    rw [if_pos (by rw [length_append,
      length_map]; omega), mapM_id_eq_some, take_left' (length_map _)]

/-- The bucket holds the values: it counts them, it has their sum, maximum and minimum, and, where
values are needed, it has all of them if no `realloc` failed, and counts more than it has places
otherwise. -/
structure Holds (F : FloatOps V) (entriesNeeded : Bool) (vs : List (V × Option Bool))
    (b : Bucket V) : Prop where
  cnt : b.cnt = vs.length
  sum : vs ≠ [] → b.sum = F.sumOf (vs.map Prod.fst)
  max : vs ≠ [] → b.max = F.maxOf (vs.map Prod.fst)
  min : vs ≠ [] → b.min = F.minOf (vs.map Prod.fst)
  kept : entriesNeeded = true → (∀ p ∈ vs, p.2 ≠ some false) →
    readValues b.values b.cnt = some (vs.map Prod.fst)
  lost : (∃ p ∈ vs, p.2 = some false) → entriesNeeded = true ∧ b.values.length < b.cnt

/-- An empty bucket holds no values. -/
theorem holds_nil {F : FloatOps V} {n : Bool} {b : Bucket V} (h : b.cnt = 0) : Holds F n [] b where
  cnt := h
  sum hne := absurd rfl hne
  max hne := absurd rfl hne
  min hne := absurd rfl hne
  kept _ _ := by rw [h]; exact readValues_eq_some.2 ⟨rfl, nil_prefix⟩
  lost := by rintro ⟨p, hp, -⟩; cases hp

/-- An array grows only where it is full, and keeps what it has. -/
theorem prefix_growValues (r : Bool) (b : Bucket V) : b.values <+: growValues r b := by
  rw [growValues]
  split
  · exact prefix_append ..
  · exact prefix_rfl

theorem growValues_of_lt {r : Bool} {b : Bucket V} (h : b.values.length < b.cnt) :
    growValues r b = b.values := if_neg fun hfull => by omega

theorem growth_true_ne (n : Bool) (b : Bucket V) : growth n true b ≠ some false := by
  rw [growth]
  split
  · exact fun h => Bool.noConfusion (Option.some_inj.1 h)
  · exact Option.some_ne_none _ ∘ Eq.symm

/-- An array that is not full, or can grow, has a place for a value. -/
theorem cnt_lt_growValues {n r : Bool} {b : Bucket V} (hn : n = true)
    (hle : b.cnt ≤ b.values.length)
    (h : growth n r b ≠ some false) : b.cnt < (growValues r b).length := by
  by_cases hfull : b.cnt = b.values.length
  · rw [growth, if_pos ⟨hn, hfull⟩, Ne, Option.some_inj, Bool.not_eq_false] at h
    rw [growValues, if_pos ⟨hfull, h⟩, length_append, length_replicate]
    omega
  · exact (lt_of_le_of_ne hle hfull).trans_le (prefix_growValues r b).length_le

/-- The next value written behind the values an array starts with. -/
theorem prefix_set_length {values : List (Option V)} (hpre : vs.map some <+: values)
    (hlt : vs.length < values.length) (v : V) :
    (vs ++ [v]).map some <+: values.set vs.length (some v) := by
  obtain ⟨rest, rfl⟩ := hpre
  cases rest with
  | nil => rw [append_nil, length_map] at hlt; omega
  | cons x rest =>
    rw [set_append_right _ _ (by rw [length_map]), length_map, Nat.sub_self, set_cons_zero,
      map_append]
    exact ⟨rest, by rw [append_assoc]; rfl⟩

section
variable {F : FloatOps V} {n : Bool} {vs : List (V × Option Bool)} {b : Bucket V}

/-- Putting a value into a bucket adds it to what the bucket holds. -/
theorem Holds.putBucket (h : Holds F n vs b) (r : Bool) (val : V) :
    Holds F n (vs ++ [(val, growth n r b)]) (putBucket F n r val b) := by
  have hzero : (b.cnt = 0) = (vs = []) := by rw [h.cnt, length_eq_zero_iff]
  constructor
  case cnt => rw [length_append, ← h.cnt]; rfl
  case sum =>
    intro _
    rw [FloatOps.sumOf, ← foldFrom_concat h.sum]
    simp only [CarbonRelay.putBucket, hzero]
  case max =>
    intro _
    rw [FloatOps.maxOf, ← foldFrom_concat h.max]
    simp only [CarbonRelay.putBucket, hzero, ite_or]
  case min =>
    intro _
    rw [FloatOps.minOf, ← foldFrom_concat h.min]
    simp only [CarbonRelay.putBucket, hzero, ite_or]
  case kept =>
    intro hn hall
    obtain ⟨hlen, hpre⟩ := readValues_eq_some.1
      (h.kept hn fun p hp => hall p (mem_append_left _ hp))
    have hle := hpre.length_le
    rw [length_map, hlen] at hle
    have hplace : b.cnt < (growValues r b).length :=
      cnt_lt_growValues hn hle (hall (val, growth n r b) (mem_append_right _ mem_cons_self))
    rw [readValues_eq_some, map_append]
    refine ⟨by rw [length_append, hlen]; rfl, ?_⟩
    rw [CarbonRelay.putBucket, if_pos hn, ← hlen]
    exact prefix_set_length (hpre.trans (prefix_growValues r b)) (hlen ▸ hplace) val
  case lost =>
    rintro ⟨p, hp, hlost⟩
    rcases mem_append.1 hp with hp | hp
    · obtain ⟨hn, hlt⟩ := h.lost ⟨p, hp, hlost⟩
      refine ⟨hn, ?_⟩
      rw [CarbonRelay.putBucket, if_pos hn, length_set, growValues_of_lt hlt]
      exact Nat.lt_succ_of_lt hlt
    · cases mem_singleton.1 hp
      simp only [growth] at hlost
      split at hlost
      case isTrue hfull =>
        cases hlost
        refine ⟨hfull.1, ?_⟩
        rw [CarbonRelay.putBucket, if_pos hfull.1, length_set, growValues, if_neg fun h =>
          Bool.noConfusion h.2]
        exact Nat.lt_succ_of_le hfull.2.ge
      case isFalse => cases hlost

end

/-! ## What an aggregate is computed from -/

/-- The types of computes that pick one of the sorted values. -/
def ComputeType.ranked : ComputeType → Bool
  | .medn | .pctl => true
  | _ => false

/-- The value that is written is the aggregate of these values. -/
def ComputedFrom (F : FloatOps V) (qsort : (V → V → Int) → List V → List V) (type : ComputeType)
    (percentile : Nat) (vs : List V) (val : Option V) : Prop :=
  ∃ x, val = some x ∧ aggregateOf F qsort type percentile vs = some x

/-- The bucket has what its aggregate is computed from: no `realloc` failed for its values, and
there are enough of them for a percentile to have a rank. -/
def CanCompute (type : ComputeType) (percentile : Nat) (vs : List (V × Option Bool)) : Prop :=
  (∀ p ∈ vs, p.2 ≠ some false) ∧ (type.ranked = true → 10 ≤ percentile * vs.length)

/-- A rank picks a value of a list exactly if it is not zero and not above the length. -/
theorem exists_valueAtRank_iff {k : Nat} : (∃ x, valueAtRank vs k = some x) ↔
    0 < k ∧ k ≤ vs.length := by
  cases k with
  | zero => simp [valueAtRank]
  | succ k =>
    simp only [valueAtRank, getElem?_eq_some_iff, exists_comm, exists_eq', exists_prop, and_true]
    omega

section
variable {F : FloatOps V} {qsort : (V → V → Int) → List V → List V} {type : ComputeType}
  {percentile : Nat}

/-- Values have an aggregate unless the rank of a percentile is zero. -/
theorem exists_aggregateOf_iff (hq : Sorts qsort) (hp : type.ranked = true → percentile < 100)
    {vs : List V} : (∃ x, aggregateOf F qsort type percentile vs = some x) ↔
      (type.ranked = true → 10 ≤ percentile * vs.length) := by
  have hrank (hlt : percentile < 100) :
      (∃ x, valueAtRank (qsort F.cmpEntry vs) (F.rank percentile vs.length) = some x) ↔
        10 ≤ percentile * vs.length := by
    rw [exists_valueAtRank_iff, (hq.perm F.cmpEntry vs).length_eq, F.rank_pos_iff hlt]
    exact and_iff_left (F.rank_le hlt)
  cases type with
  | medn | pctl =>
    exact (hrank (hp rfl)).trans ⟨fun h _ => h, fun h => h rfl⟩
  | sum | cnt | max | min | avg | var | sdev =>
    exact ⟨fun _ h => Bool.noConfusion h, fun _ => ⟨_, rfl⟩⟩

/-- Without a need for the values, the aggregate does not depend on them. -/
theorem computeValue_congr (h : type.store = false) (cnt : Nat) (sum max min : V)
    (values values' : Option (List V)) :
    computeValue F qsort type percentile cnt sum max min values =
      computeValue F qsort type percentile cnt sum max min values' := by
  cases type with
  | medn | pctl | var | sdev => cases h
  | sum | cnt | max | min | avg => rfl

/-- With a need for the values, there is no aggregate without them. -/
theorem computeValue_none (h : type.store = true) (cnt : Nat) (sum max min : V) :
    computeValue F qsort type percentile cnt sum max min none = none := by
  cases type with
  | medn | pctl | var | sdev => rfl
  | sum | cnt | max | min | avg => cases h

end

section
variable {F : FloatOps V} {qsort : (V → V → Int) → List V → List V} {c : Compute V}
  {vs : List (V × Option Bool)} {b : Bucket V}

/-- A bucket for whose values no `realloc` failed is written as their aggregate. -/
theorem Holds.writeMetric_eq (h : Holds F c.type.store vs b) (hne : vs ≠ [])
    (hall : ∀ p ∈ vs, p.2 ≠ some false) :
    (writeMetric F qsort c b).1 = aggregateOf F qsort c.type c.percentile (vs.map Prod.fst) := by
  rw [writeMetric, aggregateOf, h.sum hne, h.max hne, h.min hne, length_map, ← h.cnt]
  cases hstore : c.type.store with
  | true => rw [h.kept hstore hall]
  | false => exact computeValue_congr hstore ..

/-- A bucket that lost a value is written without one. -/
theorem Holds.writeMetric_eq_none (h : Holds F c.type.store vs b)
    (hlost : ∃ p ∈ vs, p.2 = some false) : (writeMetric F qsort c b).1 = none := by
  obtain ⟨hstore, hlt⟩ := h.lost hlost
  rw [writeMetric, readValues, if_neg (by omega)]
  exact computeValue_none hstore ..

/-- The aggregate of a bucket is computed from exactly the values it holds, if and only if they can
be computed with. -/
theorem Holds.computedFrom_iff (hq : Sorts qsort) (hp : c.type.ranked = true → c.percentile < 100)
    (h : Holds F c.type.store vs b) (hne : vs ≠ []) :
    ComputedFrom F qsort c.type c.percentile (vs.map Prod.fst) (writeMetric F qsort c b).1 ↔
      CanCompute c.type c.percentile vs := by
  rw [CanCompute]
  by_cases hall : ∀ p ∈ vs, p.2 ≠ some false
  · have hagg : (∃ x, aggregateOf F qsort c.type c.percentile (vs.map Prod.fst) = some x) ↔
        (c.type.ranked = true → 10 ≤ c.percentile * vs.length) := by
      rw [exists_aggregateOf_iff hq hp, length_map]
    rw [and_iff_right hall, ← hagg, ComputedFrom, h.writeMetric_eq hne hall]
    simp only [and_self]
  · have hlost : ∃ p ∈ vs, p.2 = some false := by simpa using hall
    rw [ComputedFrom, h.writeMetric_eq_none hlost]
    exact ⟨fun ⟨x, hx, _⟩ => (by cases hx), fun hc => absurd hc.1 hall⟩

end

/-! ## Traces -/

/-- What is required of an event that happens after the events `tr`: a value is accepted for the
interval its time is in, and an aggregate is written for a bucket with values and is computed from
exactly those, if they can be computed with. `conf` has the types and percentiles of the computes.
-/
def EventOK (F : FloatOps V) (qsort : (V → V → Int) → List V → List V) (interval : Nat)
    (conf : List (ComputeType × Nat)) (tr : List (AggrEvent V)) : AggrEvent V → Prop
  | .accepted _ _ start epoch _ _ => start ≤ epoch ∧ epoch < start + interval
  | .emitted i metric start _ val =>
    pending tr i metric start ≠ [] ∧ ∃ type percentile, conf[i]? = some (type, percentile) ∧
      (ComputedFrom F qsort type percentile ((pending tr i metric start).map Prod.fst) val ↔
        CanCompute type percentile (pending tr i metric start))
  | .dropped _ _ => True

/-- Every event of the trace is right after those before it. -/
def TraceOK (F : FloatOps V) (qsort : (V → V → Int) → List V → List V) (interval : Nat)
    (conf : List (ComputeType × Nat)) (tr : List (AggrEvent V)) : Prop :=
  ∀ pre e post, tr = pre ++ e :: post → EventOK F qsort interval conf pre e

theorem TraceOK.concat {F : FloatOps V} {qsort : (V → V → Int) → List V → List V} {interval : Nat}
    {conf : List (ComputeType × Nat)} {tr : List (AggrEvent V)} {e : AggrEvent V}
    (h : TraceOK F qsort interval conf tr) (he : EventOK F qsort interval conf tr e) :
    TraceOK F qsort interval conf (tr ++ [e]) := by
  intro pre e' post heq
  rcases eq_nil_or_concat post with rfl | ⟨post, e'', rfl⟩
  · obtain ⟨rfl, htail⟩ := append_inj' heq rfl
    cases htail
    exact he
  · rw [concat_eq_append, ← cons_append, ← append_assoc] at heq
    exact h pre e' post (append_inj_left' heq rfl)

end CarbonRelay
