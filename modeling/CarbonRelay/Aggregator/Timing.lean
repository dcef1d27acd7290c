import CarbonRelay.Aggregator.Narrowing

/-!
# When buckets expire

The buckets of an invocation move with the clock: a pass marks those that are past (`marked` is the
time of the last one), and the clean-up after it moves them behind the others (`recycled` is the
time of the last pass that was cleaned up after). `WindowOK` says where the buckets of an invocation
are then, and `TimesOK` that this holds in every run in which the clock does not go back.
-/

namespace CarbonRelay

open List

universe u

variable {V : Type u}

/-- The clock, the time of the last pass, and that of the last pass that was cleaned up after. -/
structure PassTimes where
  clock : Int
  marked : Int
  recycled : Int

/-- The times after a step. -/
def PassTimes.after (t : PassTimes) : AggrStep → PassTimes
  | .putmetric _ now _ _ _ => { t with clock := now }
  | .expire _ now _ => { t with clock := now, marked := now }
  | .cleanup => { t with recycled := t.marked }

/-- The steps of a relay that runs, in which the clock does not go back. -/
def PassTimes.Allows (t : PassTimes) : AggrStep → Prop
  | .putmetric _ now _ _ _ => t.clock ≤ now
  | .expire running now _ => running = true ∧ t.clock ≤ now
  | .cleanup => True

/-- The times of a run that starts at `t`. -/
def PassTimes.start (t : Int) : PassTimes := ⟨t, t, t⟩

/-! ## Rows -/

/-- The expired buckets of a row are past and the open ones are not long past, the row reaches up to
the last pass, and its first bucket is where the last clean-up left it. -/
structure WindowOK (expire interval : Nat) (t : PassTimes) (bs : List (Bucket V)) : Prop where
  expired : ∀ b ∈ bs, b.state = .expire → b.start + expire < t.clock
  opened : ∀ b ∈ bs, b.state = .open → t.marked < b.start + expire + interval
  reach : ∃ b ∈ bs, t.marked < b.start + expire + interval
  first_lt : ∀ b ∈ bs.head?, b.start + expire < t.clock + interval
  first_gt : ∀ b ∈ bs.head?, t.recycled < b.start + expire + interval

section
variable {expire interval : Nat} {t : PassTimes} {bs bs' : List (Bucket V)} {b : Bucket V}

theorem SameRow.windowOK {inv inv' : Invocation V} (h : SameRow inv inv')
    (hw : WindowOK expire interval t inv.buckets) : WindowOK expire interval t inv'.buckets := by
  have hhead : ∀ b' ∈ inv'.buckets.head?, ∃ b ∈ inv.buckets.head?, b.start = b'.start := by
    intro b' hb'
    have hrow := congrArg head? h.row
    rw [Invocation.row, Invocation.row, head?_map, head?_map, Option.mem_def.1 hb'] at hrow
    obtain ⟨b, hb, heq⟩ := Option.map_eq_some_iff.1 hrow.symm
    exact ⟨b, hb, (Prod.mk.inj heq).2⟩
  constructor
  case expired =>
    intro b' hb' hstate
    obtain ⟨b, hb, hs, hstart⟩ := h.exists_mem hb'
    rw [← hstart]
    exact hw.expired b hb (hs.trans hstate)
  case opened =>
    intro b' hb' hstate
    obtain ⟨b, hb, hs, hstart⟩ := h.exists_mem hb'
    rw [← hstart]
    exact hw.opened b hb (hs.trans hstate)
  case reach =>
    obtain ⟨b, hb, hlt⟩ := hw.reach
    obtain ⟨b', hb', -, hstart⟩ := h.symm.exists_mem hb
    exact ⟨b', hb', hstart ▸ hlt⟩
  case first_lt =>
    intro b' hb'
    obtain ⟨b, hb, hstart⟩ := hhead b' hb'
    rw [← hstart]
    exact hw.first_lt b hb
  case first_gt =>
    intro b' hb'
    obtain ⟨b, hb, hstart⟩ := hhead b' hb'
    rw [← hstart]
    exact hw.first_gt b hb

variable {now : Int}

/-- The clock goes on. -/
theorem WindowOK.tick (h : WindowOK expire interval t bs) (hnow : t.clock ≤ now) :
    WindowOK expire interval { t with clock := now } bs where
  expired b hb hstate := (h.expired b hb hstate).trans_le hnow
  opened := h.opened
  reach := h.reach
  first_lt b hb := (h.first_lt b hb).trans_le (by simpa using hnow)
  first_gt := h.first_gt

/-- A pass at time `now`, for buckets that are past up to an interval after the expiry time. -/
theorem WindowOK.scan (h : WindowOK expire interval t bs) {limit : Int} (hnow : t.clock ≤ now)
    (hlimit : expire ≤ limit ∧ limit < expire + interval) {front back : List (Bucket V)}
    (hsplit : bs = front ++ back) (hasc : bs.Pairwise fun a b => a.start < b.start)
    (hfront : ∀ b ∈ front, b.start + limit < now) (hback : ∃ b ∈ back.head?, now ≤ b.start + limit)
    {g : Bucket V → Bucket V} (hg : ∀ b, (g b).state = .expire)
    (hstart : ∀ b, (g b).start = b.start) :
    WindowOK expire interval { t with clock := now, marked := now } (front.map g ++ back) := by
  subst hsplit
  obtain ⟨b₀, hb₀, hle⟩ := hback
  have hlast : ∀ b ∈ back, now < b.start + expire + interval := by
    intro b hb
    cases back with
    | nil => cases hb
    | cons b₁ back =>
      cases hb₀
      have hasc := (pairwise_append.1 hasc).2.1
      rcases mem_cons.1 hb with rfl | hb
      · omega
      · have := (pairwise_cons.1 hasc).1 b hb
        omega
  have hhead : ∀ b' ∈ (front.map g ++ back).head?,
      ∃ b ∈ (front ++ back).head?, b.start = b'.start := by
    intro b' hb'
    cases front with
    | nil => exact ⟨b', hb', rfl⟩
    | cons b front =>
      cases hb'
      exact ⟨b, rfl, (hstart b).symm⟩
  constructor
  case expired =>
    intro b hb hstate
    rcases mem_append.1 hb with hb | hb
    · obtain ⟨b', hb', rfl⟩ := mem_map.1 hb
      have := hfront b' hb'
      rw [hstart]
      show b'.start + expire < now
      omega
    · exact (h.expired b (mem_append_right _ hb) hstate).trans_le hnow
  case opened =>
    intro b hb hstate
    rcases mem_append.1 hb with hb | hb
    · obtain ⟨b, -, rfl⟩ := mem_map.1 hb
      rw [hg] at hstate
      cases hstate
    · exact hlast b hb
  case reach =>
    have hmem : b₀ ∈ back := mem_of_mem_head? hb₀
    exact ⟨b₀, mem_append_right _ hmem, hlast b₀ hmem⟩
  case first_lt =>
    intro b' hb'
    obtain ⟨b, hb, heq⟩ := hhead b' hb'
    rw [← heq]
    exact (h.first_lt b hb).trans_le (by simpa using hnow)
  case first_gt =>
    intro b' hb'
    obtain ⟨b, hb, heq⟩ := hhead b' hb'
    rw [← heq]
    exact h.first_gt b hb

variable {F : FloatOps V} {type : ComputeType} {i : Nat} {metric : Text} {tr : List (AggrEvent V)}

section
variable (hpos : 0 < interval)
include hpos

/-- The first bucket, when it is expired, moved behind the others. -/
theorem WindowOK.recycle (h : WindowOK expire interval t (b :: bs))
    (hrow : RowOK F type interval i metric tr (b :: bs)) (hb : b.state = .expire) :
    WindowOK expire interval t (bs ++ [CarbonRelay.recycle interval b (bs.getLast?.getD b)]) := by
  obtain ⟨t₀, ht₀⟩ := hrow.spaced
  have hpast := h.expired b mem_cons_self hb
  have hnew : t.marked <
      (CarbonRelay.recycle interval b (bs.getLast?.getD b)).start + expire + interval := by
    obtain ⟨b', hb', hlt⟩ := h.reach
    have := ht₀.lt_recycle hpos hb'
    omega
  have hhead : ∀ b' ∈ (bs ++ [CarbonRelay.recycle interval b (bs.getLast?.getD b)]).head?,
      b'.start = b.start + interval := by
    intro b' hb'
    cases bs with
    | nil =>
      cases hb'
      rfl
    | cons b₁ bs =>
      cases hb'
      rw [ht₀.1]
      exact ht₀.2.1
  constructor
  case expired =>
    intro b' hb' hstate
    rcases mem_append.1 hb' with hb' | hb'
    · exact h.expired b' (mem_cons_of_mem b hb') hstate
    · cases mem_singleton.1 hb'
      cases hstate
  case opened =>
    intro b' hb' hstate
    rcases mem_append.1 hb' with hb' | hb'
    · exact h.opened b' (mem_cons_of_mem b hb') hstate
    · cases mem_singleton.1 hb'
      exact hnew
  case reach => exact ⟨_, mem_append_right _ mem_cons_self, hnew⟩
  case first_lt =>
    intro b' hb'
    rw [hhead b' hb']
    omega
  case first_gt =>
    intro b' hb'
    rw [hhead b' hb']
    have := h.first_gt b rfl
    omega

theorem WindowOK.rotate (h : WindowOK expire interval t bs)
    (hrow : RowOK F type interval i metric tr bs) (n : Nat) :
    WindowOK expire interval t (rotateBuckets interval n bs) := by
  induction n generalizing bs with
  | zero => exact h
  | succ n ih =>
    cases bs with
    | nil => exact h
    | cons b bs =>
      rw [rotateBuckets]
      split
      case isTrue hb => exact ih (h.recycle hpos hrow hb) (hrow.recycle hpos hb)
      case isFalse => exact h

/-- The clean-up leaves no expired bucket, if it moves as many as there are. -/
theorem open_of_mem_rotateBuckets (hrow : RowOK F type interval i metric tr bs)
    {n : Nat} (hn : bs.countP (fun b => decide (b.state = .expire)) ≤ n) :
    ∀ b ∈ rotateBuckets interval n bs, b.state = .open := by
  induction n generalizing bs with
  | zero =>
    intro b hb
    have := countP_eq_zero.1 (Nat.le_zero.1 hn) b hb
    cases hstate : b.state with
    | «open» => rfl
    | expire => rw [hstate] at this; exact absurd (decide_eq_true rfl) this
  | succ n ih =>
    cases bs with
    | nil => intro b hb; cases hb
    | cons b bs =>
      rw [rotateBuckets]
      split
      case isTrue hb =>
        refine ih (hrow.recycle hpos hb) ?_
        rw [countP_cons_of_pos (by simpa using hb)] at hn
        rw [countP_append, countP_singleton]
        simpa [CarbonRelay.recycle] using Nat.le_of_succ_le_succ hn
      case isFalse hb =>
        intro b' hb'
        cases hstate : b'.state with
        | «open» => rfl
        | expire =>
          rcases mem_cons.1 hb' with rfl | hb'
          · exact absurd hstate hb
          · exact absurd ((pairwise_cons.1 hrow.expired_first).1 b' hb' hstate) hb

/-- The clean-up of a row. -/
theorem WindowOK.clean (h : WindowOK expire interval t bs)
    (hrow : RowOK F type interval i metric tr bs) :
    WindowOK expire interval { t with recycled := t.marked }
      (rotateBuckets interval bs.length bs) := by
  have hrot := h.rotate hpos hrow bs.length
  have hopen := open_of_mem_rotateBuckets hpos hrow countP_le_length
  exact {
    expired := hrot.expired
    opened := hrot.opened
    reach := hrot.reach
    first_lt := hrot.first_lt
    first_gt := fun b hb =>
      have hmem := mem_of_mem_head? hb
      hrot.opened b hmem (hopen b hmem) }

end

/-! ## Runs -/

/-- The buckets of all invocations are where the passes have left them. -/
structure TimesOK (P : AggrParams V) (expire : Nat) (t : PassTimes) (tr : List (AggrEvent V))
    (s : Aggregator V) : Prop where
  splay : SplayOK P expire tr s
  marked_le : t.marked ≤ t.clock
  recycled_le : t.recycled ≤ t.clock
  window : ∀ i inv, s.HasInvocation i inv → WindowOK expire P.interval t inv.buckets

variable {P : AggrParams V} {es : List (AggrEvent V)} {s s' : Aggregator V} {atof : Text → V}

/-- The first bucket of a new invocation is less than an interval from the expiry time. -/
theorem tdiv_mul_near (now : Int) {interval : Nat} (hpos : 0 < interval) :
    now - interval < now.tdiv interval * interval ∧ now.tdiv interval * interval <
      now + interval := by
  have hpos' : (0 : Int) < interval := by exact_mod_cast hpos
  have hdiv := Int.tmod_add_mul_tdiv now interval
  have hmod := Int.tmod_lt_of_pos now hpos'
  have hmod' := Int.lt_tmod_of_pos now hpos'
  rw [mul_comm] at hdiv
  constructor <;> omega

/-- The buckets of a new invocation. -/
theorem windowOK_new (F : FloatOps V) (hpos : 0 < s.interval) (hcnt : 0 < s.bucketcnt)
    (hmarked : t.marked ≤ now) (hrecycled : t.recycled ≤ now) (metric : Text) (rand : Nat) :
    WindowOK s.expire s.interval { t with clock := now }
      (newInvocation F s now metric rand).buckets := by
  obtain ⟨hgt, hlt⟩ := tdiv_mul_near (now - s.expire) hpos
  have hspaced : Spaced s.interval ((now - s.expire).tdiv s.interval * s.interval)
      (newInvocation F s now metric rand).buckets := spaced_range (fun _ => rfl) _
  have hopen : ∀ b ∈ (newInvocation F s now metric rand).buckets, b.state = .open := by
    intro b hb
    obtain ⟨_, -, rfl⟩ := mem_map.1 hb
    rfl
  have hhead : ∀ b ∈ (newInvocation F s now metric rand).buckets.head?,
      b.start = (now - s.expire).tdiv s.interval * s.interval := by
    intro b hb
    rw [head?_eq_getElem?] at hb
    rw [hspaced.start_eq hb, Nat.cast_zero, zero_mul, add_zero]
  have hlate : ∀ b ∈ (newInvocation F s now metric rand).buckets,
      now < b.start + s.expire + s.interval := by
    intro b hb
    have := hspaced.le_start b hb
    omega
  constructor
  case expired =>
    intro b hb hstate
    rw [hopen b hb] at hstate
    cases hstate
  case opened => exact fun b hb _ => hmarked.trans_lt (hlate b hb)
  case reach =>
    obtain ⟨b, hb⟩ : ∃ b, b ∈ (newInvocation F s now metric rand).buckets := by
      refine exists_mem_of_length_pos ?_
      rwa [newInvocation, length_map, length_range]
    exact ⟨b, hb, hmarked.trans_lt (hlate b hb)⟩
  case first_lt =>
    intro b hb
    rw [hhead b hb]
    show _ < now + _
    omega
  case first_gt => exact fun b hb => hrecycled.trans_lt (hlate b (mem_of_mem_head? hb))

section
variable (h : TimesOK P expire t tr s)
include h

section
variable (hfits : expire + P.interval ≤ 2 ^ 16)
include hfits

theorem TimesOK.putmetric (hcnt : 0 < P.bucketcnt) {running : Bool} {data : Text}
    {rewrite : Text → Option Text} {oracle : Nat → PutOracle} (hnow : t.clock ≤ now)
    (hput : aggrStep P.F atof P.qsort s (.putmetric running now data rewrite oracle) =
      some (s', es)) : TimesOK P expire { t with clock := now } (tr ++ es) s' := by
  refine ⟨h.splay.step hfits hput, h.marked_le.trans hnow, h.recycled_le.trans hnow,
    fun i inv' hinv' => ?_⟩
  rcases (h.splay.ok.putmetric_hasInvocation hput).2 i inv' hinv' with ⟨_, inv, -, hinv, hrow⟩ |
    ⟨_, metric, -, -, -, -, hrow⟩
  · exact hrow.windowOK ((h.window i inv hinv).tick hnow)
  · have hnew := windowOK_new (t := t) P.F (h.splay.ok.fits.interval ▸ P.interval_pos)
      (h.splay.ok.fits.bucketcnt ▸ hcnt) (h.marked_le.trans hnow) (h.recycled_le.trans hnow) metric
      (oracle i).rand
    rw [h.splay.expire_eq, h.splay.ok.fits.interval] at hnew
    exact hrow.windowOK hnew

theorem TimesOK.pass
    {sent : Nat → Bool} (hnow : t.clock ≤ now)
    (hexp : aggrStep P.F atof P.qsort s (.expire true now sent) = some (s', es)) :
    TimesOK P expire { t with clock := now, marked := now } (tr ++ es) s' := by
  refine ⟨h.splay.step hfits hexp, le_refl now, h.recycled_le.trans hnow, fun i inv' hinv' => ?_⟩
  obtain ⟨c, inv, es', hinv, hscan⟩ := aggregatorExpire_hasInvocation hexp hinv'
  obtain ⟨front, back, hsplit, ⟨hfront, hback⟩, rfl, -⟩ := scanInvocation_eq_some hscan
  obtain ⟨splay, hsplay, heq⟩ := h.splay.splay i inv hinv
  have hlimit : inv.limit s true = expire + splay := by
    rw [Invocation.limit, if_pos rfl, heq, Nat.cast_add]
  have htime : expireTime s true now = now := by simp [expireTime]
  rw [htime, hlimit] at hfront hback
  obtain ⟨_, _, -, hok⟩ := h.splay.ok.invocation hinv
  obtain ⟨t₀, ht₀⟩ := hok.row.spaced
  exact (h.window i inv hinv).scan hnow ⟨by omega, by omega⟩ hsplit (ht₀.pairwise P.interval_pos)
    hfront hback (fun _ => rfl) fun _ => start_markExpired

theorem TimesOK.cleanup
    (atof : Text → V) : TimesOK P expire { t with recycled := t.marked } tr
      (aggregatorCleanup s) := by
  have hstep : aggrStep P.F atof P.qsort s .cleanup = some (aggregatorCleanup s, []) := rfl
  have hsplay := h.splay.step hfits hstep
  rw [append_nil] at hsplay
  refine ⟨hsplay, h.marked_le, h.marked_le, fun i inv' hinv' => ?_⟩
  obtain ⟨inv, hinv, hclean⟩ := aggregatorCleanup_hasInvocation hinv'
  obtain ⟨_, _, -, hok⟩ := h.splay.ok.invocation hinv
  rw [cleanInvocation_eq_some hclean, h.splay.ok.fits.interval]
  exact (h.window i inv hinv).clean P.interval_pos hok.row

theorem TimesOK.step (hcnt : 0 < P.bucketcnt) {a : AggrStep} (ha : t.Allows a)
    (hstep : aggrStep P.F atof P.qsort s a = some (s', es)) :
    TimesOK P expire (t.after a) (tr ++ es) s' := by
  cases a with
  | putmetric => exact h.putmetric hfits hcnt ha hstep
  | expire =>
    obtain ⟨rfl, hnow⟩ := ha
    exact h.pass hfits hnow hstep
  | cleanup =>
    cases hstep
    rw [append_nil]
    exact h.cleanup hfits atof

end

end

end

/-- A new aggregator has no invocations. -/
theorem not_hasInvocation_config (C : AggrConfig) (i : Nat) (inv : Invocation V) :
    ¬(C.new : Aggregator V).HasInvocation i inv := by
  rintro ⟨c, k, chain, hc, hk, hmem⟩
  rw [AggrConfig.new, foldl_aggregatorAddCompute, aggregatorNew, nil_append, getElem?_map,
    Option.map_eq_some_iff] at hc
  obtain ⟨_, -, rfl⟩ := hc
  cases (mem_replicate.1 (mem_of_getElem? hk)).2
  cases hmem

theorem timesOK_new (C : AggrConfig) (F : FloatOps V) {qsort : (V → V → Int) → List V → List V}
    (hq : Sorts qsort) (t : Int) : TimesOK (C.params F hq) C.expire (.start t) [] C.new where
  splay :=
    { ok := aggrOK_new C F hq
      expire_eq := by
        rw [AggrConfig.new, foldl_aggregatorAddCompute]
        exact Nat.mod_eq_of_lt C.expire_lt
      splay := fun i inv hinv => absurd hinv (not_hasInvocation_config C i inv) }
  marked_le := le_refl t
  recycled_le := le_refl t
  window i inv hinv := absurd hinv (not_hasInvocation_config C i inv)

/-- In every run of a relay in which the clock does not go back, the buckets are where the passes
have left them. -/
theorem timesOK_run (C : AggrConfig) (hfits : C.expire + C.interval ≤ 2 ^ 16) (F : FloatOps V)
    (atof : Text → V) {qsort : (V → V → Int) → List V → List V} (hq : Sorts qsort) {t : Int}
    {steps : List AggrStep} (hsteps : Machine.Admissible PassTimes.after PassTimes.Allows
      (.start t) steps)
    {s : Aggregator V} {os : List (List (AggrEvent V))}
    (hrun : Machine.run (aggrStep F atof qsort) C.new steps = some (s, os)) :
    TimesOK (C.params F hq) C.expire (steps.foldl PassTimes.after (.start t)) os.flatten s := by
  have hstep (t : PassTimes) (tr : List (AggrEvent V)) (s : Aggregator V) (a : AggrStep)
      (s' : Aggregator V) (es : List (AggrEvent V)) (ha : t.Allows a)
      (h : TimesOK (C.params F hq) C.expire t tr s)
        (hs : aggrStep F atof qsort s a = some (s', es)) :
      TimesOK (C.params F hq) C.expire (t.after a) (tr ++ es) s' :=
    h.step hfits (Nat.succ_pos _) ha hs
  exact Machine.run_history_invariant hstep hsteps (timesOK_new C F hq t) hrun

end CarbonRelay
