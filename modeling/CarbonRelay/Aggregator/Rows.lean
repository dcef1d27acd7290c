import CarbonRelay.Aggregator.Invariant
import Mathlib.Data.List.Pairwise
import Mathlib.Tactic.Linarith
import Mathlib.Tactic.Ring

/-!
# The row of buckets of an invocation

The invariant of one row of buckets (`RowOK`), and that the three things that happen to a row keep
it: a value is put into an open bucket (`RowOK.put`), the first buckets are marked and written
(`RowOK.scan`), and expired buckets are moved behind the others (`RowOK.rotate`). The last rests on
the fact that a pending value always has an open bucket: a bucket that is recycled gets a start no
bucket of the row has, so nothing is pending for it.
-/

namespace CarbonRelay

open List

universe u

variable {V : Type u}

/-! ## Consecutive starts -/

/-- The buckets start one interval after another, the first at `t`. -/
def Spaced (interval : Nat) : Int → List (Bucket V) → Prop
  | _, [] => True
  | t, b :: bs => b.start = t ∧ Spaced interval (t + interval) bs

section
variable {interval : Nat} {t : Int} {bs bs' : List (Bucket V)} {b : Bucket V}

/-- Bucket `k` starts `k` intervals after the first one. -/
theorem Spaced.start_eq (h : Spaced interval t bs) {k : Nat} (hk : bs[k]? = some b) :
    b.start = t + k * interval := by
  induction bs generalizing t k with
  | nil => cases hk
  | cons b₀ bs ih =>
    cases k with
    | zero =>
      cases hk
      rw [h.1, Nat.cast_zero, zero_mul, add_zero]
    | succ k => rw [ih h.2 hk, Nat.cast_add_one]; ring

/-- Being spaced is a matter of the starts only. -/
theorem Spaced.congr (h : Spaced interval t bs)
    (hstarts : bs'.map Bucket.start = bs.map Bucket.start) : Spaced interval t bs' := by
  induction bs generalizing t bs' with
  | nil => rw [map_eq_nil_iff.1 hstarts]; trivial
  | cons b bs ih =>
    cases bs' with
    | nil => cases hstarts
    | cons b' bs' =>
      obtain ⟨hb, hbs⟩ := cons.inj hstarts
      exact ⟨hb.trans h.1, ih h.2 hbs⟩

/-- One more bucket, one interval after the last. -/
theorem Spaced.concat (h : Spaced interval t bs) (hb : b.start = t + bs.length * interval) :
    Spaced interval t (bs ++ [b]) := by
  induction bs generalizing t with
  | nil => exact ⟨by rw [hb, length_nil, Nat.cast_zero, zero_mul, add_zero], trivial⟩
  | cons b₀ bs ih =>
    refine ⟨h.1, ih h.2 ?_⟩
    rw [hb, length_cons, Nat.cast_add_one]
    ring

/-- Buckets at different places have different starts. -/
theorem Spaced.index_inj (hpos : 0 < interval) (h : Spaced interval t bs) {j k : Nat}
    {a : Bucket V} (hj : bs[j]? = some a) (hk : bs[k]? = some b) (heq : a.start = b.start) :
    j = k := by
  rw [h.start_eq hj, h.start_eq hk] at heq
  have hmul : (j : Int) * interval = k * interval := add_left_cancel heq
  exact_mod_cast mul_right_cancel₀ (by exact_mod_cast hpos.ne') hmul

/-- The starts of a row are different. -/
theorem Spaced.nodup (hpos : 0 < interval) (h : Spaced interval t bs) :
    (bs.map Bucket.start).Nodup := by
  rw [nodup_iff_injective_get]
  intro j k hjk
  simp only [get_eq_getElem, getElem_map] at hjk
  exact Fin.ext (h.index_inj hpos (getElem?_eq_getElem _) (getElem?_eq_getElem _) hjk)

/-- No bucket starts before the first. -/
theorem Spaced.le_start (h : Spaced interval t bs) : ∀ b ∈ bs, t ≤ b.start := by
  intro b hb
  obtain ⟨k, hk⟩ := mem_iff_getElem?.1 hb
  rw [h.start_eq hk]
  have : (0 : Int) ≤ k * interval := by positivity
  omega

/-- The starts of a row ascend. -/
theorem Spaced.pairwise (hpos : 0 < interval) (h : Spaced interval t bs) :
    bs.Pairwise fun a b => a.start < b.start := by
  induction bs generalizing t with
  | nil => exact .nil
  | cons b bs ih =>
    refine pairwise_cons.2 ⟨fun b' hb' => ?_, ih h.2⟩
    have := h.2.le_start b' hb'
    rw [h.1]
    omega

/-! ## The invariant of a row -/

/-- An open bucket holds the pending values of its start, and for an expired one none are pending.
-/
def BucketOK (F : FloatOps V) (type : ComputeType) (i : Nat) (metric : Text)
    (tr : List (AggrEvent V)) (b : Bucket V) : Prop :=
  match b.state with
  | .open => Holds F type.store (pending tr i metric b.start) b
  | .expire => pending tr i metric b.start = []

/-- The row of buckets of the invocation `metric` of compute `i` after the events `tr`. -/
structure RowOK (F : FloatOps V) (type : ComputeType) (interval : Nat) (i : Nat) (metric : Text)
    (tr : List (AggrEvent V)) (bs : List (Bucket V)) : Prop where
  spaced : ∃ t, Spaced interval t bs
  expired_first : bs.Pairwise fun a b => b.state = .expire → a.state = .expire
  buckets : ∀ b ∈ bs, BucketOK F type i metric tr b
  covered : ∀ start, pending tr i metric start ≠ [] → ∃ b ∈ bs, b.state = .open ∧ b.start = start

variable {F : FloatOps V} {type : ComputeType} {i : Nat} {metric : Text} {tr : List (AggrEvent V)}

theorem BucketOK.holds (h : BucketOK F type i metric tr b) (hb : b.state = .open) :
    Holds F type.store (pending tr i metric b.start) b := by
  rwa [BucketOK, hb] at h

theorem BucketOK.pending_eq_nil (h : BucketOK F type i metric tr b) (hb : b.state = .expire) :
    pending tr i metric b.start = [] := by
  rwa [BucketOK, hb] at h

theorem bucketOK_of_open (hb : b.state = .open)
    (h : Holds F type.store (pending tr i metric b.start) b) : BucketOK F type i metric tr b := by
  rwa [BucketOK, hb]

theorem bucketOK_of_expire (hb : b.state = .expire) (h : pending tr i metric b.start = []) :
    BucketOK F type i metric tr b := by
  rwa [BucketOK, hb]

/-- A bucket is left alone by events that do not change what is pending for it. -/
theorem BucketOK.congr {tr' : List (AggrEvent V)} (h : BucketOK F type i metric tr b)
    (heq : pending tr' i metric b.start = pending tr i metric b.start) :
    BucketOK F type i metric tr' b := by
  rwa [BucketOK, heq]

/-- A row is left alone by events that do not change what is pending for it. -/
theorem RowOK.congr {tr' : List (AggrEvent V)} (h : RowOK F type interval i metric tr bs)
    (heq : ∀ start, pending tr' i metric start = pending tr i metric start) :
    RowOK F type interval i metric tr' bs where
  spaced := h.spaced
  expired_first := h.expired_first
  buckets b hb := (h.buckets b hb).congr (heq b.start)
  covered start hne := h.covered start (by rwa [heq] at hne)

/-- A row of empty open buckets, when nothing is pending. -/
theorem rowOK_empty (hspaced : ∃ t, Spaced interval t bs)
    (hbs : ∀ b ∈ bs, b.state = .open ∧ b.cnt = 0) (hnil : ∀ start, pending tr i metric start = []) :
    RowOK F type interval i metric tr bs where
  spaced := hspaced
  expired_first := pairwise_of_forall_mem_list fun a _ b hb hexp => by
    rw [(hbs b hb).1] at hexp
    cases hexp
  buckets b hb := bucketOK_of_open (hbs b hb).1 (by rw [hnil]; exact holds_nil (hbs b hb).2)
  covered start hne := absurd (hnil start) hne

/-- If all buckets of a row are empty, nothing is pending. -/
theorem RowOK.pending_eq_nil (h : RowOK F type interval i metric tr bs) (hbs : ∀ b ∈ bs, b.cnt = 0)
    (start : Int) : pending tr i metric start = [] := by
  by_contra hne
  obtain ⟨b, hb, hopen, rfl⟩ := h.covered start hne
  have hcnt := ((h.buckets b hb).holds hopen).cnt
  rw [hbs b hb] at hcnt
  exact hne (length_eq_zero_iff.1 hcnt.symm)

/-! ## Putting a value into a bucket -/

/-- A value accepted for an open bucket of the row. -/
theorem RowOK.put (hpos : 0 < interval) (h : RowOK F type interval i metric tr bs) {k : Nat}
    (hk : bs[k]? = some b) (hopen : b.state = .open) (r : Bool) (epoch : Int) (val : V) :
    RowOK F type interval i metric
      (tr ++ [.accepted i metric b.start epoch val (growth type.store r b)])
      (bs.set k (putBucket F type.store r val b)) := by
  obtain ⟨t, ht⟩ := h.spaced
  have hmem : b ∈ bs := mem_of_getElem? hk
  have hlt : k < bs.length := (List.getElem?_eq_some_iff.1 hk).1
  have hother : ∀ start, start ≠ b.start →
      pending (tr ++ [.accepted i metric b.start epoch val (growth type.store r b)]) i
        metric start = pending tr i metric start := fun start hne => by
    rw [pending_append_singleton]
    exact if_neg fun hkey => hne hkey.2.2.symm
  have hself : pending (tr ++ [.accepted i metric b.start epoch val (growth type.store r b)]) i
      metric b.start = pending tr i metric b.start ++ [(val, growth type.store r b)] := by
    rw [pending_append_singleton]
    exact if_pos ⟨rfl, rfl, rfl⟩
  constructor
  case spaced => exact ⟨t, ht.congr (map_set_of_eq hk rfl)⟩
  case expired_first =>
    have hstates : (bs.set k (putBucket F type.store r val b)).map Bucket.state =
        bs.map Bucket.state :=
      map_set_of_eq hk rfl
    have hpair : (bs.map Bucket.state).Pairwise fun x y => y = .expire → x = .expire :=
      pairwise_map.2 h.expired_first
    rw [← hstates] at hpair
    exact pairwise_map.1 hpair
  case buckets =>
    intro b' hb'
    obtain ⟨j, hj⟩ := mem_iff_getElem?.1 hb'
    rw [getElem?_set] at hj
    split at hj
    case isTrue hjk =>
      cases hj
      refine bucketOK_of_open hopen ?_
      exact (hself : pending _ i metric (putBucket F type.store r val b).start = _) ▸
        ((h.buckets b hmem).holds hopen).putBucket r val
    case isFalse hjk =>
      refine (h.buckets b' (mem_of_getElem? hj)).congr (hother _ fun heq => ?_)
      exact hjk (ht.index_inj hpos hk hj heq.symm)
  case covered =>
    intro start hne
    by_cases hstart : start = b.start
    · exact ⟨_, mem_iff_getElem?.2 ⟨k, getElem?_set_self hlt⟩, hopen, hstart.symm⟩
    · rw [hother start hstart] at hne
      obtain ⟨b', hb', hopen', hstart'⟩ := h.covered start hne
      obtain ⟨j, hj⟩ := mem_iff_getElem?.1 hb'
      have hjk : k ≠ j := by
        rintro rfl
        rw [hk] at hj
        cases hj
        exact hstart hstart'.symm
      exact ⟨b', mem_iff_getElem?.2 ⟨j, by rw [getElem?_set_ne hjk, hj]⟩, hopen', hstart'⟩

/-! ## Marking and writing expired buckets -/

/-- A bucket the scan has passed. -/
def markExpired (F : FloatOps V) (qsort : (V → V → Int) → List V → List V) (c : Compute V)
    (b : Bucket V) : Bucket V :=
  { (if b.state = .open ∧ 0 < b.cnt then (writeMetric F qsort c b).2 else b) with state := .expire }

/-- What is written for a bucket the scan passes. -/
def emission (F : FloatOps V) (qsort : (V → V → Int) → List V → List V) (s : Aggregator V) (i : Nat)
    (c : Compute V) (metric : Text) (b : Bucket V) : Option (AggrEvent V) :=
  if b.state = .open ∧ 0 < b.cnt then
    some (.emitted i metric b.start (aggrTime s b.start) (writeMetric F qsort c b).1)
  else none

variable {qsort : (V → V → Int) → List V → List V} {s : Aggregator V} {c : Compute V}
  {limit now : Int}
  {conf : List (ComputeType × Nat)} {es : List (AggrEvent V)} {front : List (Bucket V)}

/-- An expired bucket is passed without a change. -/
theorem markExpired_of_expire (h : b.state = .expire) : markExpired F qsort c b = b := by
  rw [markExpired, if_neg fun hw => by rw [h] at hw; cases hw.1]
  cases b
  cases h
  rfl

theorem start_markExpired : (markExpired F qsort c b).start = b.start := by
  rw [markExpired]
  split <;> rfl

/-- The scan passes the first buckets of the row that are past, and stops at the first that is not.
-/
theorem scanBuckets_eq_some (h : scanBuckets F qsort s i c metric limit now bs = some (bs', es)) :
    ∃ front back, bs = front ++ back ∧
      ((∀ b ∈ front, b.start + limit < now) ∧ ∃ b ∈ back.head?, now ≤ b.start + limit) ∧
      bs' = front.map (markExpired F qsort c) ++ back ∧
      es = front.filterMap (emission F qsort s i c metric) := by
  induction bs generalizing bs' es with
  | nil => cases h
  | cons b bs ih =>
    rw [scanBuckets] at h
    split at h
    case isFalse hnow =>
      cases h
      exact ⟨[], b :: bs, rfl, ⟨fun _ hb => (by cases hb), b, rfl, not_lt.1 hnow⟩, rfl, rfl⟩
    case isTrue hpast =>
      cases hscan : scanBuckets F qsort s i c metric limit now bs with
      | none => rw [hscan] at h; cases h
      | some p =>
        obtain ⟨bs₁, es₁⟩ := p
        rw [hscan] at h
        obtain ⟨front, back, rfl, ⟨hfront, hback⟩, rfl, rfl⟩ := ih hscan
        refine ⟨b :: front, back, rfl, ⟨forall_mem_cons.2 ⟨hpast, hfront⟩, hback⟩, ?_⟩
        rw [map_cons, filterMap_cons]
        cases hstate : b.state with
        | expire =>
          rw [hstate] at h
          cases h
          rw [markExpired_of_expire hstate, emission, hstate]
          exact ⟨rfl, rfl⟩
        | «open» =>
          rw [hstate] at h
          rw [markExpired, emission, hstate]
          by_cases hcnt : 0 < b.cnt
          · simp only [reduceCtorEq, if_false, if_pos hcnt] at h
            cases h
            simp [hcnt, writeMetric]
          · simp only [reduceCtorEq, if_false, if_neg hcnt] at h
            cases h
            simp [hcnt]

/-- The scan is defined if there is a bucket that is not past. -/
theorem exists_scanBuckets (F : FloatOps V) (qsort : (V → V → Int) → List V → List V)
    (s : Aggregator V) (i : Nat) (c : Compute V) (metric : Text)
    (h : ∃ b ∈ bs, now ≤ b.start + limit) :
    ∃ r, scanBuckets F qsort s i c metric limit now bs = some r := by
  induction bs with
  | nil => obtain ⟨b, hb, -⟩ := h; cases hb
  | cons b bs ih =>
    rw [scanBuckets]
    split
    case isFalse => exact ⟨_, rfl⟩
    case isTrue hpast =>
      obtain ⟨b', hb', hle⟩ := h
      rcases mem_cons.1 hb' with rfl | hb'
      · omega
      · obtain ⟨⟨bs', es⟩, hscan⟩ := ih ⟨b', hb', hle⟩
        rw [hscan]
        dsimp only
        split
        · exact ⟨_, rfl⟩
        · split <;> exact ⟨_, rfl⟩

section
variable (hq : Sorts qsort) (hp : c.type.ranked = true → c.percentile < 100)
  (hconf : conf[i]? = some (c.type, c.percentile)) (htr : TraceOK F qsort interval conf tr)
include hq hp hconf htr

/-- Passing one bucket: what is written for it is right, and nothing is pending for it then. -/
theorem TraceOK.emission (hb : BucketOK F c.type i metric tr b) :
    TraceOK F qsort interval conf (tr ++ (CarbonRelay.emission F qsort s i c metric b).toList) ∧
      pending (tr ++ (CarbonRelay.emission F qsort s i c metric b).toList) i metric b.start = [] ∧
      ∀ start, start ≠ b.start →
        pending (tr ++ (CarbonRelay.emission F qsort s i c metric b).toList) i metric start =
          pending tr i metric start := by
  rw [CarbonRelay.emission]
  split
  case isTrue hwrite =>
    have hholds := hb.holds hwrite.1
    have hne : pending tr i metric b.start ≠ [] := by
      rw [← length_pos_iff, ← hholds.cnt]
      exact hwrite.2
    refine ⟨htr.concat ⟨hne, c.type, c.percentile, hconf, hholds.computedFrom_iff hq hp hne⟩, ?_,
      fun start hstart => ?_⟩
    · rw [Option.toList_some, pending_append_singleton]
      exact if_pos ⟨rfl, rfl, rfl⟩
    · rw [Option.toList_some, pending_append_singleton]
      exact if_neg fun hkey => hstart hkey.2.2.symm
  case isFalse hkeep =>
    rw [Option.toList_none, append_nil]
    refine ⟨htr, ?_, fun _ _ => rfl⟩
    cases hstate : b.state with
    | expire => exact hb.pending_eq_nil hstate
    | «open» =>
      rw [← length_eq_zero_iff, ← (hb.holds hstate).cnt]
      exact Nat.eq_zero_of_not_pos fun hcnt => hkeep ⟨hstate, hcnt⟩

/-- Passing the first buckets of a row, by induction on them: the buckets behind keep what is
pending for them, because the starts are different. -/
theorem TraceOK.emissions (hnodup : (front.map Bucket.start).Nodup)
    (hfront : ∀ b ∈ front, BucketOK F c.type i metric tr b) :
    TraceOK F qsort interval conf
        (tr ++ front.filterMap (CarbonRelay.emission F qsort s i c metric)) ∧
      (∀ b ∈ front, pending (tr ++ front.filterMap (CarbonRelay.emission F qsort s i c metric)) i
        metric b.start = []) ∧
      ∀ start, start ∉ front.map Bucket.start →
        pending (tr ++ front.filterMap (CarbonRelay.emission F qsort s i c metric)) i metric start =
          pending tr i metric start := by
  induction front generalizing tr with
  | nil =>
    rw [filterMap_nil, append_nil]
    exact ⟨htr, nofun, fun _ _ => rfl⟩
  | cons b front ih =>
    have hcons : (b :: front).filterMap (CarbonRelay.emission F qsort s i c metric) =
        (CarbonRelay.emission F qsort s i c metric b).toList ++
          front.filterMap (CarbonRelay.emission F qsort s i c metric) := by
      rw [filterMap_cons]
      cases CarbonRelay.emission F qsort s i c metric b <;> rfl
    rw [map_cons, nodup_cons] at hnodup
    obtain ⟨htr₁, hnil, hother⟩ := htr.emission (s := s) hq hp hconf (hfront b mem_cons_self)
    have hne : ∀ b' ∈ front, b'.start ≠ b.start := fun b' hb' heq =>
      hnodup.1 (heq ▸ mem_map_of_mem hb')
    obtain ⟨htr₂, hnil₂, hother₂⟩ := ih htr₁ hnodup.2 fun b' hb' =>
      (hfront b' (mem_cons_of_mem b hb')).congr (hother _ (hne b' hb'))
    rw [hcons, ← append_assoc]
    refine ⟨htr₂, fun b' hb' => ?_, fun start hstart => ?_⟩
    · rcases mem_cons.1 hb' with rfl | hb'
      · rw [hother₂ _ hnodup.1, hnil]
      · exact hnil₂ b' hb'
    · rw [map_cons, mem_cons, not_or] at hstart
      rw [hother₂ start hstart.2, hother start hstart.1]

/-- A scan of the row. -/
theorem RowOK.scan (hpos : 0 < interval) (h : RowOK F c.type interval i metric tr bs)
    (hscan : scanBuckets F qsort s i c metric limit now bs = some (bs', es)) :
    TraceOK F qsort interval conf (tr ++ es) ∧ RowOK F c.type interval i metric (tr ++ es) bs' ∧
      bs'.length = bs.length ∧ ∀ e ∈ es, e.key = (i, metric) := by
  obtain ⟨front, back, rfl, -, rfl, rfl⟩ := scanBuckets_eq_some hscan
  obtain ⟨t, ht⟩ := h.spaced
  have hnodup := ht.nodup hpos
  rw [map_append, nodup_append] at hnodup
  obtain ⟨htr', hnil, hother⟩ := htr.emissions (s := s) hq hp hconf hnodup.1
    fun b hb => h.buckets b (mem_append_left back hb)
  have hbuckets : ∀ b ∈ front.map (markExpired F qsort c) ++ back, BucketOK F c.type i metric
      (tr ++ front.filterMap (CarbonRelay.emission F qsort s i c metric)) b := fun b hb => by
    rcases mem_append.1 hb with hb | hb
    · obtain ⟨b₀, hb₀, rfl⟩ := mem_map.1 hb
      exact bucketOK_of_expire rfl (by rw [start_markExpired]; exact hnil b₀ hb₀)
    · refine (h.buckets b (mem_append_right front hb)).congr (hother _ fun hmem => ?_)
      exact hnodup.2.2 _ hmem _ (mem_map_of_mem hb) rfl
  have hstarts : (front.map (markExpired F qsort c) ++ back).map Bucket.start =
      (front ++ back).map Bucket.start := by
    rw [map_append, map_append, map_map]
    exact congrArg (· ++ _) (map_congr_left fun b _ => start_markExpired)
  refine ⟨htr', ⟨⟨t, ht.congr hstarts⟩, ?_, hbuckets, fun start hne => ?_⟩, ?_, fun e he => ?_⟩
  · rw [pairwise_append]
    refine ⟨?_, (pairwise_append.1 h.expired_first).2.1, fun a ha b _ _ => ?_⟩
    · refine pairwise_map.2 (pairwise_of_forall_mem_list fun a _ b _ _ => rfl)
    · obtain ⟨a, -, rfl⟩ := mem_map.1 ha
      rfl
  · have hpend : pending tr i metric start ≠ [] := by
      by_cases hmem : start ∈ front.map Bucket.start
      · obtain ⟨b, hb, rfl⟩ := mem_map.1 hmem
        exact absurd (hnil b hb) hne
      · rwa [hother start hmem] at hne
    obtain ⟨b, hb, hopen, rfl⟩ := h.covered start hpend
    rcases mem_append.1 hb with hb | hb
    · exact absurd (hnil b hb) hne
    · exact ⟨b, mem_append_right _ hb, hopen, rfl⟩
  · rw [length_append, length_map, length_append]
  · obtain ⟨b, -, hb⟩ := mem_filterMap.1 he
    rw [CarbonRelay.emission] at hb
    split at hb
    · cases hb; rfl
    · cases hb

end

/-! ## Moving expired buckets behind the others -/

/-- The bucket that is moved behind the others starts one interval after the last. -/
theorem Spaced.start_recycle {t : Int} (h : Spaced interval t (b :: bs)) :
    (recycle interval b (bs.getLast?.getD b)).start = t + interval + bs.length * interval := by
  have hlast : (b :: bs)[bs.length]? = some (bs.getLast?.getD b) := by
    rw [← getLast?_cons, getLast?_eq_getElem?]
    rfl
  rw [recycle, h.start_eq hlast]
  ring

theorem Spaced.lt_recycle (hpos : 0 < interval) {t : Int} (h : Spaced interval t (b :: bs))
    {b' : Bucket V} (hb' : b' ∈ b :: bs) :
    b'.start < (recycle interval b (bs.getLast?.getD b)).start := by
  obtain ⟨j, hj⟩ := mem_iff_getElem?.1 hb'
  have hjlen : j ≤ bs.length := Nat.le_of_lt_succ (List.getElem?_eq_some_iff.1 hj).1
  rw [h.start_recycle, h.start_eq hj]
  have hle : (j : Int) * interval ≤ bs.length * interval :=
    mul_le_mul_of_nonneg_right (by exact_mod_cast hjlen) (by positivity)
  have hpos' : (0 : Int) < interval := by exact_mod_cast hpos
  linarith

/-- The first bucket of the row, when it is expired, moved behind the others. -/
theorem RowOK.recycle (hpos : 0 < interval) (h : RowOK F type interval i metric tr (b :: bs))
    (hb : b.state = .expire) :
    RowOK F type interval i metric tr
      (bs ++ [CarbonRelay.recycle interval b (bs.getLast?.getD b)]) := by
  obtain ⟨t, ht⟩ := h.spaced
  have hnil : pending tr i metric (CarbonRelay.recycle interval b (bs.getLast?.getD b)).start =
      [] := by
    by_contra hne
    obtain ⟨b', hb', -, heq⟩ := h.covered _ hne
    exact (ht.lt_recycle hpos hb').ne heq
  constructor
  case spaced => exact ⟨_, ht.2.concat ht.start_recycle⟩
  case expired_first =>
    rw [pairwise_append]
    refine ⟨(pairwise_cons.1 h.expired_first).2, pairwise_singleton _ _, ?_⟩
    rintro a - b' hb' hexp
    cases mem_singleton.1 hb'
    cases hexp
  case buckets =>
    intro b' hb'
    rcases mem_append.1 hb' with hb' | hb'
    · exact h.buckets b' (mem_cons_of_mem b hb')
    · cases mem_singleton.1 hb'
      exact bucketOK_of_open rfl (by rw [hnil]; exact holds_nil rfl)
  case covered =>
    intro start hne
    obtain ⟨b', hb', hopen, hstart'⟩ := h.covered start hne
    rcases mem_cons.1 hb' with rfl | hb'
    · rw [hb] at hopen; cases hopen
    · exact ⟨b', mem_append_left _ hb', hopen, hstart'⟩

/-- All expired buckets moved behind the others. -/
theorem RowOK.rotate (hpos : 0 < interval) {n : Nat} (h : RowOK F type interval i metric tr bs) :
    RowOK F type interval i metric tr (rotateBuckets interval n bs) ∧
      (rotateBuckets interval n bs).length = bs.length := by
  induction n generalizing bs with
  | zero => exact ⟨h, rfl⟩
  | succ n ih =>
    cases bs with
    | nil => exact ⟨h, rfl⟩
    | cons b bs =>
      rw [rotateBuckets]
      split
      case isTrue hb =>
        obtain ⟨hrow, hlen⟩ := ih (h.recycle hpos hb)
        exact ⟨hrow, by rw [hlen, length_append]; rfl⟩
      case isFalse => exact ⟨h, rfl⟩

end

end CarbonRelay
