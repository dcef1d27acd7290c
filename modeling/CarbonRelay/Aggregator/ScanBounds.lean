import CarbonRelay.Aggregator.Lateness

/-!
# The pass stays in the array of buckets

The loop of `aggregator_expire` that marks past buckets has no bound: it ends at the first bucket
that is not past, and behind the last bucket there is no such bucket to end at. So it stays in the
array exactly if the newest bucket is not past yet (`staysInside_iff`). How far the clock may go on
without that happening depends on the number of buckets, and nothing in the source ensures it: a
relay that is suspended for longer, or whose clean-up waits for longer, reads behind the array.
-/

namespace CarbonRelay

open List

universe u

variable {V : Type u}

/-- `aggregator.c:515`, the loop over the buckets reads bucket `k`, as all buckets before it are
past. -/
def Inspects (limit now : Int) (bs : List (Bucket V)) (k : Nat) : Prop :=
  ∀ j < k, ∀ b ∈ bs[j]?, b.start + limit < now

/-- The pass at time `now` reads buckets in the arrays of the invocations only. -/
def StaysInside (s : Aggregator V) (running : Bool) (now : Int) : Prop :=
  ∀ i inv, s.HasInvocation i inv → ∀ k,
    Inspects (inv.limit s running) (expireTime s running now) inv.buckets k → k < s.bucketcnt

/-- Each invocation has an array of `bucketcnt` buckets. -/
def FullRows (s : Aggregator V) : Prop :=
  ∀ i inv, s.HasInvocation i inv → inv.buckets.length = s.bucketcnt

/-- Each invocation has a bucket that is not past yet at time `now`. -/
def NewestOpen (s : Aggregator V) (running : Bool) (now : Int) : Prop :=
  ∀ i inv, s.HasInvocation i inv →
    ∃ b ∈ inv.buckets, expireTime s running now ≤ b.start + inv.limit s running

/-! ## One pass -/

section
variable {limit now : Int} {bs : List (Bucket V)} {s : Aggregator V} {running : Bool}

theorem inspects_lt_length_iff :
    (∀ k, Inspects limit now bs k → k < bs.length) ↔ ∃ b ∈ bs, now ≤ b.start + limit := by
  constructor
  · intro h
    by_contra hpast
    push Not at hpast
    have hall : Inspects limit now bs bs.length := fun _ _ b hb => hpast b (mem_of_getElem? hb)
    exact lt_irrefl _ (h _ hall)
  · rintro ⟨b, hb, hle⟩ k hk
    by_contra hlen
    obtain ⟨j, hj⟩ := mem_iff_getElem?.1 hb
    have hjlt : j < bs.length := (List.getElem?_eq_some_iff.1 hj).1
    have := hk j (by omega) b hj
    omega

theorem FullRows.staysInside_iff_newestOpen (h : FullRows s) :
    StaysInside s running now ↔ NewestOpen s running now := by
  refine forall_congr' fun i => forall_congr' fun inv => forall_congr' fun hinv => ?_
  rw [← h i inv hinv]
  exact inspects_lt_length_iff

/-- The model of the pass is undefined where the loop leaves the array. -/
theorem FullRows.exists_aggregatorExpire_iff_staysInside (h : FullRows s) (F : FloatOps V)
    (qsort : (V → V → Int) → List V → List V) (sent : Nat → Bool) :
    (∃ r, aggregatorExpire F qsort running now sent s = some r) ↔ StaysInside s running now :=
  exists_aggregatorExpire_iff.trans h.staysInside_iff_newestOpen.symm

theorem AggrOK.fullRows {P : AggrParams V} {tr : List (AggrEvent V)} (h : AggrOK P tr s) :
    FullRows s := by
  intro i inv hinv
  obtain ⟨_, _, -, hok⟩ := h.invocation hinv
  exact hok.count.trans h.fits.bucketcnt.symm

end

/-! ## The passes of a run -/

/-- In every run of a relay in which the clock does not go back, a pass stays inside the arrays if
it is at most `gap` seconds after the last one that was cleaned up after. -/
def PassesInside (F : FloatOps V) (atof : Text → V) (qsort : (V → V → Int) → List V → List V)
    (C : AggrConfig) (gap : Nat) : Prop :=
  ∀ t steps s os, Machine.Admissible PassTimes.after PassTimes.Allows (.start t) steps →
    Machine.run (aggrStep F atof qsort) C.new steps = some (s, os) →
    ∀ now, (steps.foldl PassTimes.after (.start t)).clock ≤ now →
      now ≤ (steps.foldl PassTimes.after (.start t)).recycled + gap → StaysInside s true now

section
variable {C : AggrConfig} {F : FloatOps V} {atof : Text → V}
  {qsort : (V → V → Int) → List V → List V} {gap : Nat}

/-- The last bucket is `bucketcnt - 1` intervals after the first, and the first is less than an
interval behind the last clean-up. -/
theorem passesInside_of_le (hq : Sorts qsort) (hfits : C.expire + C.interval ≤ 2 ^ 16)
    (hgap : gap ≤ C.expire ⌈/⌉ C.interval * C.interval + 1) : PassesInside F atof qsort C gap := by
  intro t steps s os hsteps hrun now hclock hnow
  have h := timesOK_run C hfits F atof hq hsteps hrun
  refine h.splay.ok.fullRows.staysInside_iff_newestOpen.2 fun i inv hinv => ?_
  obtain ⟨_, _, -, hok⟩ := h.splay.ok.invocation hinv
  obtain ⟨splay, -, hexpire⟩ := h.splay.splay i inv hinv
  obtain ⟨first, hrow⟩ := hok.row.spaced
  have hcount : inv.buckets.length = C.expire ⌈/⌉ C.interval + 2 := hok.count.trans C.bucketcnt_eq
  have hfirst : inv.buckets.head? = some inv.buckets[0] := by
    rw [head?_eq_getElem?, getElem?_eq_getElem]
  have hlast : C.expire ⌈/⌉ C.interval + 1 < inv.buckets.length := by omega
  have hgt := (h.window i inv hinv).first_gt _ hfirst
  rw [hrow.start_eq (getElem?_eq_getElem (Nat.lt_of_le_of_lt (Nat.zero_le _) hlast)),
    Nat.cast_zero, zero_mul, add_zero] at hgt
  have hmul : (gap : Int) ≤ (C.expire ⌈/⌉ C.interval : Nat) * C.interval + 1 := by
    exact_mod_cast hgap
  have hinterval : ((C.params F hq).interval : Int) = C.interval := rfl
  refine ⟨_, getElem_mem hlast, ?_⟩
  rw [hrow.start_eq (getElem?_eq_getElem hlast), expireTime, if_pos rfl, Invocation.limit,
    if_pos rfl, hexpire, Nat.cast_add_one, add_mul, one_mul]
  rw [hinterval] at hgt ⊢
  omega

/-- A metric that comes in the last second of an interval. -/
theorem le_of_passesInside (hq : Sorts qsort) (hne : C.computes ≠ [])
    (h : PassesInside F atof qsort C gap) : gap ≤ C.expire ⌈/⌉ C.interval * C.interval + 1 := by
  by_contra hgap
  have hpos := C.interval_pos
  let created := C.expire + (C.interval - 1)
  obtain ⟨s, es, hput, hok, ⟨inv, hinv⟩, hfrom⟩ := exists_put_fromZero C F atof hq hne
    (show C.expire ≤ created by omega) (show created < C.expire + C.interval by omega)
  have hsteps : Machine.Admissible PassTimes.after PassTimes.Allows (.start created)
      [.putmetric true created ['0', ' ', '0'] some noSplay] := ⟨le_refl _, trivial⟩
  have hrun : Machine.run (aggrStep F atof qsort) C.new
      [.putmetric true created ['0', ' ', '0'] some noSplay] = some (s, [es]) :=
    Machine.run_cons_eq_some.2 ⟨s, es, [], hput, rfl, rfl⟩
  have hinside := h created _ s _ hsteps hrun (created + gap)
    (by show (created : Int) ≤ created + gap; omega) (le_refl _)
  obtain ⟨b, hb, hle⟩ := hok.fullRows.staysInside_iff_newestOpen.1 hinside 0 inv hinv
  obtain ⟨k, hk, hstart⟩ := (hfrom 0 inv hinv).starts b hb
  rw [expireTime, if_pos rfl, Invocation.limit, if_pos rfl, (hfrom 0 inv hinv).expire,
    hstart] at hle
  have hmul : (k : Int) * C.interval ≤ ((C.expire ⌈/⌉ C.interval + 1 : Nat) : Int) *
      C.interval := by
    exact_mod_cast Nat.mul_le_mul_right _ hk
  rw [Nat.cast_add_one, add_mul, one_mul] at hmul
  have hgap : (C.expire ⌈/⌉ C.interval : Nat) * (C.interval : Int) + 1 < gap := by
    exact_mod_cast not_le.1 hgap
  have hcreated : (created : Int) = C.expire + (C.interval - 1 : Nat) := by push_cast [created]; rfl
  omega

end

/-- A pass stays inside the arrays exactly if the newest bucket of each invocation is not past,
which every run ensures exactly if the clock goes on by at most so many seconds from one clean-up to
the next pass. -/
theorem staysInside_iff (F : FloatOps V) (atof : Text → V)
    {qsort : (V → V → Int) → List V → List V} (hq : Sorts qsort) (C : AggrConfig)
    (hne : C.computes ≠ []) (hfits : C.expire + C.interval ≤ 2 ^ 16) :
    (∀ s : Aggregator V, FullRows s → ∀ running now,
      StaysInside s running now ↔ NewestOpen s running now) ∧
    ∀ gap, PassesInside F atof qsort C gap ↔ gap ≤ C.expire ⌈/⌉ C.interval * C.interval + 1 :=
  ⟨fun _ hrows _ _ => hrows.staysInside_iff_newestOpen,
    fun _ => ⟨le_of_passesInside hq hne, passesInside_of_le hq hfits⟩⟩

/-- With buckets of ten seconds that expire after twenty, a pass may come 21 seconds after the last
clean-up. -/
theorem staysInside_twentyone :
    PassesInside intOps (fun t => (Text.strtol t).1) insertSort (percentileConfig false) 21 :=
  ((staysInside_iff intOps _ Sorts.insertSort (percentileConfig false) (cons_ne_nil _ _)
    (by decide)).2 21).2 (by decide)

/-- The relay takes in a metric at time 1000 and is suspended until 1031. The pass then reads bucket
4 of the four buckets there are, so that nothing is known of what it does. -/
theorem suspended_overruns :
    ∃ s os inv, Machine.run (aggrStep intOps (fun t => (Text.strtol t).1) insertSort)
        (percentileConfig false).new
        [.putmetric true 1000 ['7', ' ', '1', '0', '0', '0'] some noSplay] = some (s, os) ∧
      s.HasInvocation 0 inv ∧ s.bucketcnt = 4 ∧
      Inspects (inv.limit s true) (expireTime s true 1031) inv.buckets 4 ∧
      ∀ sent, aggregatorExpire intOps insertSort true 1031 sent s = none := by
  have hinv : (oneValueTaken false).HasInvocation 0 (oneValueInvocation .open) :=
    ⟨_, _, _, rfl, percentileCompute_chain _, mem_cons_self⟩
  have hpast : ∀ b ∈ (oneValueInvocation .open).buckets, b.start + 20 < 1031 := by decide +kernel
  refine ⟨oneValueTaken false, _, oneValueInvocation .open,
    Machine.run_cons_eq_some.2 ⟨_, _, [], putmetric_oneValue false, rfl, rfl⟩, hinv, rfl, ?_, ?_⟩
  · intro j _ b hb
    exact hpast b (mem_of_getElem? hb)
  · intro sent
    refine Option.eq_none_iff_forall_ne_some.2 fun r hr => ?_
    obtain ⟨b, hb, hle⟩ := exists_aggregatorExpire_iff.1 ⟨r, hr⟩ 0 _ hinv
    exact absurd (hpast b hb) (not_lt.2 hle)

end CarbonRelay
