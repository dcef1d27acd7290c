import Mathlib
import CarbonRelay.Aggregator.Conservation

/-!
# Medians and percentiles

The aggregate of a median or a percentile is to be the value with the nearest rank, the smallest
that so many percent of the values do not exceed. The code differs from that in two ways. It rounds
the rank up by adding `0.9` and cutting off, which is one too low when the hundredths are below ten.
And it sorts by the difference of two values cut off to an `int`, so values that are less than one
apart are equal to `qsort`, which need not be an order, and differences too large for an `int` have
no meaning (`cmpEntry`). `RankSafe` is when the value that is written is the right one nevertheless.
The arithmetic is that of the rational numbers.
-/

namespace CarbonRelay

open List

/-! ## Comparing values -/

/-- The conversion of a `double` to an integer, which cuts off. -/
def truncate (q : ℚ) : Int := if 0 ≤ q then ⌊q⌋ else ⌈q⌉

/-- `aggregator.c:370 cmp_entry`. The conversion to an `int` has no meaning out of its range, where
it gives any value `wild`. -/
def cmpEntry (wild : ℚ → Int) (l r : ℚ) : Int :=
  if -2 ^ 31 ≤ truncate (l - r) ∧ truncate (l - r) < 2 ^ 31 then truncate (l - r) else wild (l - r)

variable {q : ℚ}

theorem truncate_le_zero : truncate q ≤ 0 ↔ q < 1 := by
  unfold truncate
  split_ifs with h
  · rw [← Int.lt_add_one_iff, zero_add, Int.floor_lt, Int.cast_one]
  · have hq : q < 0 := lt_of_not_ge h
    refine ⟨fun _ => hq.trans one_pos, fun _ => ?_⟩
    rw [Int.ceil_le, Int.cast_zero]
    exact hq.le

theorem truncate_neg (q : ℚ) : truncate (-q) = -truncate q := by
  unfold truncate
  rcases lt_trichotomy q 0 with h | rfl | h
  · rw [if_pos (by linarith), if_neg (by linarith), Int.floor_neg]
  · simp
  · rw [if_neg (by linarith), if_pos h.le, Int.ceil_neg]

theorem truncate_nonneg : 0 ≤ truncate q ↔ -1 < q := by
  have h := truncate_le_zero (q := -q)
  rw [truncate_neg] at h
  constructor
  · intro hq
    linarith [h.1 (by omega)]
  · intro hq
    have := h.2 (by linarith)
    omega

theorem truncate_lt {n : Nat} (hn : 0 < n) : truncate q < n ↔ q < n := by
  unfold truncate
  split_ifs with h
  · rw [Int.floor_lt, Int.cast_natCast]
  · have hq : q < 0 := lt_of_not_ge h
    have hpos : (0 : ℚ) < n := by exact_mod_cast hn
    refine ⟨fun _ => hq.trans hpos, fun _ => ?_⟩
    have : ⌈q⌉ ≤ 0 := by
      rw [Int.ceil_le, Int.cast_zero]
      exact hq.le
    omega

section
variable {wild : ℚ → Int} {a b : ℚ}

/-- A difference within the range of an `int` is cut off. -/
theorem cmpEntry_eq (hab : a - b < 2 ^ 31) (hba : b - a < 2 ^ 31) :
    cmpEntry wild a b = truncate (a - b) := by
  have hlt := (truncate_lt (q := a - b) (n := 2 ^ 31) (by decide)).2 (by exact_mod_cast hab)
  have hgt := (truncate_lt (q := b - a) (n := 2 ^ 31) (by decide)).2 (by exact_mod_cast hba)
  rw [← neg_sub a b, truncate_neg] at hgt
  push_cast at hlt hgt
  exact if_pos ⟨by omega, hlt⟩

theorem cmpEntry_le_zero (hab : a - b < 2 ^ 31) (hba : b - a < 2 ^ 31) :
    cmpEntry wild a b ≤ 0 ↔ a < b + 1 := by
  rw [cmpEntry_eq hab hba, truncate_le_zero, sub_lt_iff_lt_add']

theorem cmpEntry_nonneg (hab : a - b < 2 ^ 31) (hba : b - a < 2 ^ 31) :
    0 ≤ cmpEntry wild a b ↔ b < a + 1 := by
  rw [cmpEntry_eq hab hba, truncate_nonneg]
  constructor <;> intro h <;> linarith

/-- Out of the range a conversion to a negative number puts each of two values before the other. -/
theorem cmpEntry_neg_of_le (hab : 2 ^ 31 ≤ a - b) :
    cmpEntry (fun _ => -1) a b < 0 ∧ cmpEntry (fun _ => -1) b a < 0 := by
  have hge : ¬truncate (a - b) < 2 ^ 31 := by
    have := (truncate_lt (q := a - b) (n := 2 ^ 31)
      (by decide)).not.2 (by push_cast; exact not_lt.2 hab)
    exact_mod_cast this
  refine ⟨?_, ?_⟩
  · rw [cmpEntry, if_neg fun h => hge h.2]
    decide
  · unfold cmpEntry
    split_ifs with h
    · rw [← neg_sub a b, truncate_neg]
      omega
    · exact neg_one_lt_zero

end

/-- Two values are equal to the comparator when they are less than one apart. -/
theorem abs_sub_lt_one {a b : ℚ} : |a - b| < 1 ↔ a < b + 1 ∧ b < a + 1 := by
  rw [abs_sub_lt_iff, sub_lt_iff_lt_add', sub_lt_iff_lt_add']

/-! ## The values of a bucket -/

universe u

/-- The values put into a bucket one after another, with a place for each. -/
def putAll {V : Type u} (F : FloatOps V) (vs : List V) (b : Bucket V) : Bucket V :=
  vs.foldl (fun b v => putBucket F true true v b) b

theorem holds_putAll {V : Type u} {F : FloatOps V} {us : List (V × Option Bool)} {b : Bucket V}
    (h : Holds F true us b) (vs : List V) :
    ∃ ps, ps.map Prod.fst = vs ∧ (∀ p ∈ ps, p.2 ≠ some false) ∧
      Holds F true (us ++ ps) (putAll F vs b) := by
  induction vs generalizing us b with
  | nil => exact ⟨[], rfl, forall_mem_nil _, by rwa [append_nil]⟩
  | cons v vs ih =>
    obtain ⟨ps, rfl, hps, hput⟩ := ih (h.putBucket true v)
    rw [append_assoc] at hput
    exact ⟨_, rfl, forall_mem_cons.2 ⟨growth_true_ne true b, hps⟩, hput⟩

/-- The operations with the comparator and the ranks of exact arithmetic. -/
def FloatOps.exact (F : FloatOps ℚ) (wild : ℚ → Int) : FloatOps ℚ :=
  { F with
    cmpEntry := CarbonRelay.cmpEntry wild
    rank := exactRank
    rank_pos_iff := fun _ => exactRank_pos_iff
    rank_le := exactRank_le }

/-- What is written for the values of a bucket. -/
theorem writeMetric_putAll (F : FloatOps ℚ) (wild : ℚ → Int)
    (qsort : (ℚ → ℚ → Int) → List ℚ → List ℚ) {c : Compute ℚ} (hranked : c.type.ranked = true)
    {b : Bucket ℚ} (hb : b.cnt = 0) {vs : List ℚ} (hne : vs ≠ []) :
    (writeMetric (F.exact wild) qsort c (putAll (F.exact wild) vs b)).1 =
      valueAtRank (qsort (cmpEntry wild) vs) (exactRank c.percentile vs.length) := by
  have hstore : c.type.store = true := by
    cases htype : c.type <;> rw [htype] at hranked <;> first | rfl | cases hranked
  obtain ⟨ps, rfl, hps, hholds⟩ := holds_putAll (F := F.exact wild) (holds_nil hb) vs
  rw [← hstore] at hholds
  rw [hholds.writeMetric_eq (fun hnil => hne (map_eq_nil_iff.2 hnil)) hps]
  cases htype : c.type <;> rw [htype] at hranked <;> first | rfl | cases hranked

/-! ## The nearest rank -/

/-- The `m`-th smallest of the values. -/
def nthSmallest (vs : List ℚ) (m : Nat) : Option ℚ := valueAtRank (vs.insertionSort (· ≤ ·)) m

/-- The rank is the nearest one unless the hundredths are below ten, when it is one less. -/
theorem ceilDiv_eq (percentile cnt : Nat) :
    percentile * cnt ⌈/⌉ 100 =
      if 0 < percentile * cnt % 100 ∧ percentile * cnt % 100 < 10 then exactRank percentile cnt + 1
      else exactRank percentile cnt := by
  rw [Nat.ceilDiv_eq_add_pred_div, exactRank]
  split_ifs <;> omega

/-- The values for which the percentile is the one of the nearest rank: the differences fit an
`int`, being less than one apart is an equivalence, the rank is not zero, no other value is less
than one apart from the one at the rank, and where the rank is too low, that is the next value as
well. -/
structure RankSafe (percentile : Nat) (vs : List ℚ) : Prop where
  fits : ∀ a ∈ vs, ∀ b ∈ vs, a - b < 2 ^ 31
  near : ∀ a ∈ vs, ∀ b ∈ vs, ∀ c ∈ vs, |a - b| < 1 → |b - c| < 1 → |a - c| < 1
  rank : 10 ≤ percentile * vs.length
  alone : ∀ x ∈ nthSmallest vs (exactRank percentile vs.length), ∀ v ∈ vs, |v - x| < 1 → v = x
  hundredths : 0 < percentile * vs.length % 100 → percentile * vs.length % 100 < 10 →
    nthSmallest vs (exactRank percentile vs.length + 1) =
      nthSmallest vs (exactRank percentile vs.length)

/-- What is written for the values of a bucket is the value of the nearest rank, whichever sorting
routine is used, and it is read from within the array. -/
def NearestRank (F : FloatOps ℚ) (c : Compute ℚ) (b : Bucket ℚ) (vs : List ℚ) : Prop :=
  ∀ wild qsort, SortsMembers qsort →
    (0 < (F.exact wild).rank c.percentile vs.length ∧
      (F.exact wild).rank c.percentile vs.length ≤ vs.length) ∧
    ∃ x, nthSmallest vs (c.percentile * vs.length ⌈/⌉ 100) = some x ∧
      (writeMetric (F.exact wild) qsort c (putAll (F.exact wild) vs b)).1 = some x

section
variable {vs : List ℚ} {wild : ℚ → Int}

theorem sorted_insertionSort_rat (vs : List ℚ) : (vs.insertionSort (· ≤ ·)).Pairwise (· ≤ ·) :=
  pairwise_insertionSort _ vs

/-- The comparator is consistent on values whose nearness is an equivalence. -/
theorem isComparatorOn_cmpEntry (wild : ℚ → Int) (hfits : ∀ a ∈ vs, ∀ b ∈ vs, a - b < 2 ^ 31)
    (hnear : ∀ a ∈ vs, ∀ b ∈ vs, ∀ c ∈ vs, |a - b| < 1 → |b - c| < 1 → |a - c| < 1) :
    IsComparatorOn (· ∈ vs) (cmpEntry wild) where
  flip a b ha hb := by
    rw [cmpEntry_nonneg (hfits a ha b hb) (hfits b hb a ha),
      cmpEntry_le_zero (hfits b hb a ha) (hfits a ha b hb)]
  trans a b c ha hb hc := by
    rw [cmpEntry_le_zero (hfits a ha b hb) (hfits b hb a ha),
      cmpEntry_le_zero (hfits b hb c hc) (hfits c hc b hb),
      cmpEntry_le_zero (hfits a ha c hc) (hfits c hc a ha)]
    intro hab hbc
    by_contra hac
    have hba : b < a + 1 := by linarith
    have hcb : c < b + 1 := by linarith
    have := hnear a ha b hb c hc (abs_sub_lt_one.2 ⟨hab, hba⟩) (abs_sub_lt_one.2 ⟨hbc, hcb⟩)
    exact hac (abs_sub_lt_one.1 this).1

/-- The order of the values is one of the comparator. -/
theorem pairwise_rankIn (hfits : ∀ a ∈ vs, ∀ b ∈ vs, a - b < 2 ^ 31)
    (hcmp : IsComparatorOn (· ∈ vs) (cmpEntry wild)) :
    (vs.insertionSort (· ≤ ·)).Pairwise fun a b =>
      rankIn (cmpEntry wild) vs a ≤ rankIn (cmpEntry wild) vs b := by
  refine (sorted_insertionSort_rat vs).imp_of_mem fun {a b} ha hb hle => ?_
  have ha := (perm_insertionSort _ vs).mem_iff.1 ha
  have hb := (perm_insertionSort _ vs).mem_iff.1 hb
  rw [rankIn_le hcmp ha hb, cmpEntry_le_zero (hfits a ha b hb) (hfits b hb a ha)]
  linarith

variable {percentile j : Nat}

/-- The value at a rank of safe values does not depend on the sorting routine. -/
theorem RankSafe.getElem?_qsort (h : RankSafe percentile vs)
    {qsort : (ℚ → ℚ → Int) → List ℚ → List ℚ} (hq : SortsMembers qsort)
    (hj : exactRank percentile vs.length = j + 1) {x : ℚ}
    (hx : (vs.insertionSort (· ≤ ·))[j]? = some x) : (qsort (cmpEntry wild) vs)[j]? = some x := by
  have hcmp := isComparatorOn_cmpEntry wild h.fits h.near
  have hperm := hq.perm (cmpEntry wild) vs
  have hsorts := perm_insertionSort (· ≤ ·) vs
  have hlt : j < (qsort (cmpEntry wild) vs).length := by
    have := (List.getElem?_eq_some_iff.1 hx).1
    rwa [hsorts.length_eq, ← hperm.length_eq] at this
  rw [getElem?_eq_getElem hlt]
  have hw : (qsort (cmpEntry wild) vs)[j] ∈ vs := hperm.mem_iff.1 (getElem_mem hlt)
  have hxmem : x ∈ vs := hsorts.mem_iff.1 (mem_of_getElem? hx)
  have hkeys : (qsort (cmpEntry wild) vs).Pairwise fun a b =>
      rankIn (cmpEntry wild) vs a ≤ rankIn (cmpEntry wild) vs b := by
    refine (hq.sorted _ _ hcmp).imp_of_mem fun {a b} ha hb hle => ?_
    exact (rankIn_le hcmp (hperm.mem_iff.1 ha) (hperm.mem_iff.1 hb)).2 hle
  have hkey := key_eq_of_perm hkeys (pairwise_rankIn h.fits hcmp) (hperm.trans hsorts.symm)
    (getElem?_eq_getElem hlt) hx
  have hwx := (rankIn_le hcmp hw hxmem).1 hkey.le
  have hxw := (rankIn_le hcmp hxmem hw).1 hkey.ge
  rw [cmpEntry_le_zero (h.fits _ hw x hxmem) (h.fits x hxmem _ hw)] at hwx
  rw [cmpEntry_le_zero (h.fits x hxmem _ hw) (h.fits _ hw x hxmem)] at hxw
  have halone := h.alone x (by rw [hj]; exact hx) _ hw (abs_sub_lt_one.2 ⟨hwx, hxw⟩)
  rw [halone]

/-- Values that a sorting routine may arrange in any way, with always the same one at a place, are
compared consistently. -/
theorem isComparatorOn_of_getElem? (hj : j < vs.length) {y : ℚ} (h : ∀ l' : List ℚ, l'.Perm vs →
      (IsComparatorOn (· ∈ vs) (cmpEntry wild) → l'.Pairwise fun a b => cmpEntry wild a b ≤ 0) →
      l'[j]? = some y) : IsComparatorOn (· ∈ vs) (cmpEntry wild) := by
  by_contra hnot
  have hall : ∀ v ∈ vs, v = y := by
    intro v hv
    obtain ⟨l', hperm, -, hl'⟩ := exists_perm_getElem? (fun _ => 0)
      (pairwise_of_forall fun _ _ => Nat.le_refl 0) (getElem?_eq_getElem hj) hv rfl
    exact Option.some.inj (hl'.symm.trans (h l' hperm fun hcmp => absurd hcmp hnot))
  have hzero : ∀ a ∈ vs, ∀ b ∈ vs, cmpEntry wild a b = 0 := by
    intro a ha b hb
    rw [hall a ha, hall b hb, cmpEntry_eq (by simp) (by simp), sub_self]
    decide
  refine hnot ⟨fun a b ha hb => ?_, fun a b c ha hb hc _ _ => (hzero a ha c hc).le⟩
  rw [hzero a ha b hb, hzero b hb a ha]

/-- A comparator that is consistent although it answers out of the range of an `int` with a negative
number is never asked there. -/
theorem fits_of_isComparatorOn (h : IsComparatorOn (· ∈ vs) (cmpEntry fun _ => -1)) :
    ∀ a ∈ vs, ∀ b ∈ vs, a - b < 2 ^ 31 := by
  intro a ha b hb
  by_contra hge
  obtain ⟨hab, hba⟩ := cmpEntry_neg_of_le (not_lt.1 hge)
  have := h.flip a b ha hb
  omega

theorem abs_sub_lt_one_iff_cmpEntry (wild : ℚ → Int) (hfits : ∀ a ∈ vs, ∀ b ∈ vs, a - b < 2 ^ 31) :
    ∀ a ∈ vs, ∀ b ∈ vs, |a - b| < 1 ↔ ¬cmpEntry wild a b < 0 ∧ ¬cmpEntry wild b a < 0 := by
  intro a ha b hb
  rw [not_lt, not_lt, cmpEntry_nonneg (hfits a ha b hb) (hfits b hb a ha),
    cmpEntry_nonneg (hfits b hb a ha) (hfits a ha b hb), abs_sub_lt_one, and_comm]

/-- Values are safe if whatever a sorting routine may return has the value of the nearest rank at
the rank. -/
theorem rankSafe_of_getElem? (hj : exactRank percentile vs.length = j + 1)
    (hlt : j < vs.length) {y : ℚ} (hy : nthSmallest vs (percentile * vs.length ⌈/⌉ 100) = some y)
    (hreturn : ∀ l' : List ℚ, l'.Perm vs → (IsComparatorOn (· ∈ vs) (cmpEntry fun _ => -1) →
      l'.Pairwise fun a b => cmpEntry (fun _ => -1) a b ≤ 0) → l'[j]? = some y) :
    RankSafe percentile vs := by
  have hcmp := isComparatorOn_of_getElem? hlt hreturn
  have hfits := fits_of_isComparatorOn hcmp
  have htie := abs_sub_lt_one_iff_cmpEntry (fun _ => -1) hfits
  have hperm : (vs.insertionSort (· ≤ ·)).Perm vs := perm_insertionSort _ vs
  have hkeys := pairwise_rankIn hfits hcmp
  have hsorted : ∀ l' : List ℚ, l'.Perm vs → (l'.Pairwise fun a b =>
      rankIn (cmpEntry fun _ => -1) vs a ≤ rankIn (cmpEntry fun _ => -1) vs b) →
      l'.Pairwise fun a b => cmpEntry (fun _ => -1) a b ≤ 0 := by
    intro l' hl' hle
    refine hle.imp_of_mem fun {a b} ha hb hab => ?_
    exact (rankIn_le hcmp (hl'.mem_iff.1 ha) (hl'.mem_iff.1 hb)).1 hab
  have hx := hreturn _ hperm fun _ => hsorted _ hperm hkeys
  constructor
  case fits => exact hfits
  case near =>
    intro a ha b hb c hc hab hbc
    rw [htie a ha b hb] at hab
    rw [htie b hb c hc] at hbc
    rw [htie a ha c hc]
    exact hcmp.isStrictWeakOn.equiv_trans a b c ha hb hc hab.1 hab.2 hbc.1 hbc.2
  case rank => exact exactRank_pos_iff.1 (by omega)
  case alone =>
    intro x hx' v hv hvx
    rw [hj] at hx'
    obtain rfl : x = y := Option.some.inj (hx'.symm.trans hx)
    have hxmem : x ∈ vs := hperm.mem_iff.1 (mem_of_getElem? hx)
    obtain ⟨hvx, hxv⟩ := (htie v hv x hxmem).1 hvx
    have hkey := rankIn_eq hcmp.isStrictWeakOn hv hxmem hvx hxv
    obtain ⟨l', hl', hle, hl'j⟩ := exists_perm_getElem? _ hkeys hx (hperm.mem_iff.2 hv) hkey
    have hl' := hl'.trans hperm
    exact Option.some.inj (hl'j.symm.trans (hreturn l' hl' fun _ => hsorted l' hl' hle))
  case hundredths =>
    intro hlow hhigh
    rw [ceilDiv_eq, if_pos ⟨hlow, hhigh⟩] at hy
    rw [hy, hj]
    exact hx.symm

/-- The nearest rank of safe values. -/
theorem RankSafe.nthSmallest_ceilDiv (h : RankSafe percentile vs) :
    nthSmallest vs (percentile * vs.length ⌈/⌉ 100) =
      nthSmallest vs (exactRank percentile vs.length) := by
  rw [ceilDiv_eq]
  split_ifs with hlow
  · exact h.hundredths hlow.1 hlow.2
  · rfl

/-- A median or percentile of the values of a bucket is that of the nearest rank exactly for safe
values. -/
theorem nearestRank_iff (F : FloatOps ℚ) {c : Compute ℚ} (hranked : c.type.ranked = true)
    (hpercentile : 1 ≤ c.percentile ∧ c.percentile ≤ 99) {b : Bucket ℚ} (hb : b.cnt = 0)
    (hne : vs ≠ []) : NearestRank F c b vs ↔ RankSafe c.percentile vs := by
  have hle : exactRank c.percentile vs.length ≤ vs.length := exactRank_le (by omega)
  constructor
  · intro h
    obtain ⟨⟨hpos, -⟩, y, hy, -⟩ := h (fun _ => -1) rankSort .rankSort
    obtain ⟨j, hj⟩ : ∃ j, exactRank c.percentile vs.length = j + 1 :=
      ⟨_, (Nat.succ_pred_eq_of_pos hpos).symm⟩
    refine rankSafe_of_getElem? hj (by omega) hy fun l' hl' hsorted => ?_
    obtain ⟨qsort, hq, hqsort⟩ := exists_sortsMembers hl' hsorted
    obtain ⟨-, y', hy', hwrite⟩ := h (fun _ => -1) qsort hq
    rw [writeMetric_putAll F _ qsort hranked hb hne, hqsort, hj] at hwrite
    rw [← hy, hy']
    exact hwrite
  · intro h wild qsort hq
    have hpos : 0 < exactRank c.percentile vs.length := exactRank_pos_iff.2 h.rank
    obtain ⟨j, hj⟩ : ∃ j, exactRank c.percentile vs.length = j + 1 :=
      ⟨_, (Nat.succ_pred_eq_of_pos hpos).symm⟩
    obtain ⟨x, hx⟩ : ∃ x, (vs.insertionSort (· ≤ ·))[j]? = some x := by
      have hlt : j < (vs.insertionSort (· ≤ ·)).length := by
        rw [length_insertionSort]
        omega
      exact ⟨_, getElem?_eq_getElem hlt⟩
    refine ⟨⟨hpos, hle⟩, x, ?_, ?_⟩
    · rw [h.nthSmallest_ceilDiv, hj]
      exact hx
    · rw [writeMetric_putAll F wild qsort hranked hb hne, hj]
      exact h.getElem?_qsort hq hj hx

end

/-- Rational numbers as values. The square root is exact on squares. -/
def ratOps : FloatOps ℚ where
  add := (· + ·)
  sub := (· - ·)
  div := (· / ·)
  ofNat n := n
  sq x := x * x
  sqrt x := Nat.sqrt x.num.toNat / Nat.sqrt x.den
  lt x y := x < y
  cmpEntry := cmpEntry fun _ => -2 ^ 31
  junk := 0
  rank := exactRank
  rank_pos_iff _ := exactRank_pos_iff
  rank_le := exactRank_le

/-- An empty bucket. -/
def ratBucket : Bucket ℚ := ⟨.open, 0, 0, 0, 0, 0, []⟩

/-- The median of three whole numbers. -/
theorem nearestRank_whole : NearestRank ratOps (newCompute ['m'] .medn 0) ratBucket [3, 1, 2] :=
  (nearestRank_iff ratOps rfl (by decide) rfl (by decide)).2
    ⟨by decide +kernel, by decide +kernel, by decide +kernel, by decide +kernel, by decide +kernel⟩

/-- Three values less than one apart are left as they are by a stable sort, and the second is taken
for their median. -/
theorem median_not_nearest :
    (writeMetric (ratOps.exact fun _ => 0) rankSort (newCompute ['m'] .medn 0)
      (putAll (ratOps.exact fun _ => 0) [9 / 10, 1 / 10, 1 / 2] ratBucket)).1 = some (1 / 10) ∧
    nthSmallest [9 / 10, 1 / 10, 1 / 2] (50 * 3 ⌈/⌉ 100) = some (1 / 2) := by
  decide +kernel

end CarbonRelay
