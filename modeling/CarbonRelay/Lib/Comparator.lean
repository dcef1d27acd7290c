import Mathlib.Data.List.Sort
import Mathlib.Order.Basic

/-!
# Comparators and sorting

A comparator in the sense of the C library returns a negative number, zero or a positive number.
`IsComparator` is what a sorting routine may rely on: the two orders of the arguments answer
oppositely, and "at most" is transitive. Comparators are built by comparing an image
(`IsComparator.on`), by breaking ties with a second comparator (`IsComparator.andThen`), and on
optional values with the absent value last (`IsComparator.optionLast`). Two sorted permutations of
one list whose ties are equal elements are the same list (`eq_of_sorted_perm`).

A comparator may be consistent on some values only (`IsComparatorOn`). The values it calls smaller
then form a strict weak order (`IsStrictWeakOn`), and the rank of a value in a list (`rankIn`) turns
that order into one of numbers.
-/

open List

universe u v

variable {α : Type u} {β : Type v}

/-- `cmp` orders its arguments consistently. -/
structure IsComparator (cmp : α → α → Int) : Prop where
  flip : ∀ a b, 0 ≤ cmp a b ↔ cmp b a ≤ 0
  trans : ∀ a b c, cmp a b ≤ 0 → cmp b c ≤ 0 → cmp a c ≤ 0

namespace IsComparator

variable {cmp cmp' : α → α → Int}

section
variable (h : IsComparator cmp)
include h

theorem total (a b : α) : cmp a b ≤ 0 ∨ cmp b a ≤ 0 := by
  have := h.flip a b
  omega

/-- Ties are symmetric. -/
theorem eq_zero_comm {a b : α} : cmp a b = 0 ↔ cmp b a = 0 := by
  have := h.flip a b
  have := h.flip b a
  omega

/-- A strict comparison stays strict after a weak one. -/
theorem lt_of_lt_of_le {a b c : α} (hab : cmp a b < 0) (hbc : cmp b c ≤ 0) : cmp a c < 0 := by
  have hac := h.trans a b c (by omega) hbc
  rcases Int.lt_or_eq_of_le hac with hlt | heq
  · exact hlt
  · have hca := h.eq_zero_comm.1 heq
    have hba := h.trans b c a hbc (by omega)
    have := h.flip a b
    omega

theorem lt_of_le_of_lt {a b c : α} (hab : cmp a b ≤ 0) (hbc : cmp b c < 0) : cmp a c < 0 := by
  have hac := h.trans a b c hab (by omega)
  rcases Int.lt_or_eq_of_le hac with hlt | heq
  · exact hlt
  · have hca := h.eq_zero_comm.1 heq
    have hcb := h.trans c a b (by omega) hab
    have := h.flip b c
    omega

theorem congr (heq : ∀ a b, cmp' a b = cmp a b) : IsComparator cmp' :=
  (funext₂ heq : cmp' = cmp) ▸ h

/-- Comparing images compares. -/
theorem on (f : β → α) : IsComparator fun a b => cmp (f a) (f b) :=
  ⟨fun a b => h.flip (f a) (f b), fun a b c => h.trans (f a) (f b) (f c)⟩

/-- A second comparator breaks the ties of a first. -/
theorem andThen (h' : IsComparator cmp') :
    IsComparator fun a b => if cmp a b ≠ 0 then cmp a b else cmp' a b := by
  refine ⟨fun a b => ?_, fun a b c hab hbc => ?_⟩
  · have h1 := h.flip a b
    have h2 := h.eq_zero_comm (a := a) (b := b)
    have h3 := h'.flip a b
    by_cases h0 : cmp a b = 0
    · simp only [h0, h2.1 h0, ne_eq, not_true_eq_false, if_false]; exact h3
    · have h0' : cmp b a ≠ 0 := fun he => h0 (h2.2 he)
      simp only [ne_eq, h0, h0', not_false_eq_true, if_true]; exact h1
  · by_cases h1 : cmp a b = 0 <;> by_cases h2 : cmp b c = 0
    · have h3 := h.trans a b c (by omega) (by omega)
      have h4 := h.trans c b a (by have := h.eq_zero_comm.1 h2; omega)
        (by have := h.eq_zero_comm.1 h1; omega)
      have h5 : cmp a c = 0 := by have := h.flip a c; omega
      simp only [h1, h2, h5, ne_eq, not_true_eq_false, if_false] at hab hbc ⊢
      exact h'.trans a b c hab hbc
    · simp only [ne_eq, h2, not_false_eq_true, if_true] at hbc
      have := h.lt_of_le_of_lt (a := a) (b := b) (c := c) (by omega) (by omega)
      rw [if_pos (by omega)]; omega
    · simp only [ne_eq, h1, not_false_eq_true, if_true] at hab
      have := h.lt_of_lt_of_le (a := a) (b := b) (c := c) (by omega) (by omega)
      rw [if_pos (by omega)]; omega
    · simp only [ne_eq, h1, h2, not_false_eq_true, if_true] at hab hbc
      have := h.lt_of_lt_of_le (a := a) (b := b) (c := c) (by omega) (by omega)
      rw [if_pos (by omega)]; omega

end

/-- The comparison of two numbers by subtraction. -/
theorem sub : IsComparator fun a b : Nat => (a : Int) - b :=
  ⟨fun a b => by omega, fun a b c => by omega⟩

end IsComparator

variable {p : α → Prop} {cmp : α → α → Int}

/-- The comparison of optional values that puts the absent value last. -/
def compareOptionLast (cmp : α → α → Int) : Option α → Option α → Int
  | none, none => 0
  | none, some _ => 1
  | some _, none => -1
  | some a, some b => cmp a b

theorem IsComparator.optionLast (h : IsComparator cmp) :
    IsComparator (compareOptionLast cmp) := by
  refine ⟨fun a b => ?_, fun a b c => ?_⟩
  · cases a <;> cases b <;> simp [compareOptionLast, h.flip]
  · cases a <;> cases b <;> cases c <;> simp [compareOptionLast]
    exact h.trans _ _ _

/-- `sort` rearranges every list, and puts it in order for every comparator: what the C library says
of its sorting routine, whichever algorithm it uses. -/
structure Sorts (sort : (α → α → Int) → List α → List α) : Prop where
  perm : ∀ cmp l, (sort cmp l).Perm l
  sorted : ∀ cmp l, IsComparator cmp → (sort cmp l).Pairwise fun a b => cmp a b ≤ 0

/-- Insertion sort by a comparator. -/
def insertSort (cmp : α → α → Int) (l : List α) : List α := l.insertionSort fun a b => cmp a b ≤ 0

/-- Insertion sort is a sorting routine. -/
theorem Sorts.insertSort : Sorts (insertSort (α := α)) where
  perm cmp l := perm_insertionSort _ l
  sorted cmp l h := by
    have : Std.Total fun a b => cmp a b ≤ 0 := ⟨h.total⟩
    have : IsTrans α fun a b => cmp a b ≤ 0 := ⟨h.trans⟩
    exact pairwise_insertionSort _ l

/-- Two sorted permutations of one another, whose ties are equal elements, are the same list. -/
theorem eq_of_sorted_perm {l l' : List α} (hcmp : IsComparator cmp)
    (hl : l.Pairwise fun a b => cmp a b ≤ 0) (hl' : l'.Pairwise fun a b => cmp a b ≤ 0)
    (hperm : l.Perm l') (htie : ∀ a ∈ l, ∀ b ∈ l, cmp a b = 0 → a = b) : l = l' := by
  refine List.Perm.eq_of_pairwise (fun a b ha hb hab hba => ?_) hl hl' hperm
  have := hcmp.flip a b
  exact htie a ha b (hperm.mem_iff.2 hb) (by omega)

/-! ## Comparators of some values -/

/-- `cmp` orders the values with `p` consistently. -/
structure IsComparatorOn (p : α → Prop) (cmp : α → α → Int) : Prop where
  flip : ∀ a b, p a → p b → (0 ≤ cmp a b ↔ cmp b a ≤ 0)
  trans : ∀ a b c, p a → p b → p c → cmp a b ≤ 0 → cmp b c ≤ 0 → cmp a c ≤ 0

/-- `r` is irreflexive, asymmetric and transitive on the values with `p`, and so is being
equivalent, which is that `r` relates two values in neither order. -/
structure IsStrictWeakOn (p : α → Prop) (r : α → α → Prop) : Prop where
  irrefl : ∀ a, p a → ¬r a a
  asymm : ∀ a b, p a → p b → r a b → ¬r b a
  trans : ∀ a b c, p a → p b → p c → r a b → r b c → r a c
  equiv_trans : ∀ a b c, p a → p b → p c → ¬r a b → ¬r b a → ¬r b c → ¬r c b → ¬r a c ∧ ¬r c a

theorem IsComparatorOn.mono {q : α → Prop} (h : IsComparatorOn p cmp)
    (hqp : ∀ a, q a → p a) : IsComparatorOn q cmp where
  flip a b ha hb := h.flip a b (hqp a ha) (hqp b hb)
  trans a b c ha hb hc := h.trans a b c (hqp a ha) (hqp b hb) (hqp c hc)

theorem IsComparatorOn.congr {cmp' : α → α → Int} (h : IsComparatorOn p cmp)
    (heq : ∀ a b, p a → p b → cmp' a b = cmp a b) : IsComparatorOn p cmp' where
  flip a b ha hb := by
    rw [heq a b ha hb, heq b a hb ha]
    exact h.flip a b ha hb
  trans a b c ha hb hc := by
    rw [heq a b ha hb, heq b c hb hc, heq a c ha hc]
    exact h.trans a b c ha hb hc

theorem IsComparatorOn.on (h : IsComparatorOn p cmp) (f : β → α) :
    IsComparatorOn (fun b => p (f b)) fun a b => cmp (f a) (f b) where
  flip a b := h.flip (f a) (f b)
  trans a b c := h.trans (f a) (f b) (f c)

theorem IsComparatorOn.optionLast (h : IsComparatorOn p cmp) :
    IsComparatorOn (fun o => ∀ a ∈ o, p a) (compareOptionLast cmp) where
  flip o o' ho ho' := by
    cases o <;> cases o' <;> simp [compareOptionLast]
    exact h.flip _ _ (ho _ rfl) (ho' _ rfl)
  trans o o' o'' ho ho' ho'' := by
    cases o <;> cases o' <;> cases o'' <;> simp [compareOptionLast]
    exact h.trans _ _ _ (ho _ rfl) (ho' _ rfl) (ho'' _ rfl)

/-- The strict part of a comparator is a strict weak order. -/
theorem IsComparatorOn.isStrictWeakOn (h : IsComparatorOn p cmp) :
    IsStrictWeakOn p fun a b => cmp a b < 0 where
  irrefl a ha := by
    have := h.flip a a ha ha
    omega
  asymm a b ha hb hab := by
    have := h.flip a b ha hb
    omega
  trans a b c ha hb hc hab hbc := by
    have hflip := h.flip c a hc ha
    have hcb := h.flip b c hb hc
    have := fun hca => h.trans c a b hc ha hb hca (Int.le_of_lt hab)
    have := h.flip a c ha hc
    omega
  equiv_trans a b c ha hb hc hab hba hbc hcb := by
    have h1 := h.trans a b c ha hb hc
    have h2 := h.trans c b a hc hb ha
    have := h.flip a b ha hb
    have := h.flip b a hb ha
    have := h.flip b c hb hc
    have := h.flip c b hc hb
    have := h.flip a c ha hc
    have := h.flip c a hc ha
    omega

/-- A strict weak order of values is one of what the values stand for. -/
theorem IsStrictWeakOn.transfer {r : α → α → Prop} (h : IsStrictWeakOn p r)
    {q : β → Prop} {r' : β → β → Prop} (rep : α → β → Prop) (hrep : ∀ b, q b → ∃ a, p a ∧ rep a b)
    (hr : ∀ a a' b b', p a → p a' → rep a b → rep a' b' → (r a a' ↔ r' b b')) :
    IsStrictWeakOn q r' where
  irrefl b hb := by
    obtain ⟨a, ha, hab⟩ := hrep b hb
    rw [← hr a a b b ha ha hab hab]
    exact h.irrefl a ha
  asymm b b' hb hb' := by
    obtain ⟨a, ha, hab⟩ := hrep b hb
    obtain ⟨a', ha', hab'⟩ := hrep b' hb'
    rw [← hr a a' b b' ha ha' hab hab', ← hr a' a b' b ha' ha hab' hab]
    exact h.asymm a a' ha ha'
  trans b b' b'' hb hb' hb'' := by
    obtain ⟨a, ha, hab⟩ := hrep b hb
    obtain ⟨a', ha', hab'⟩ := hrep b' hb'
    obtain ⟨a'', ha'', hab''⟩ := hrep b'' hb''
    rw [← hr a a' b b' ha ha' hab hab', ← hr a' a'' b' b'' ha' ha'' hab' hab'',
      ← hr a a'' b b'' ha ha'' hab hab'']
    exact h.trans a a' a'' ha ha' ha''
  equiv_trans b b' b'' hb hb' hb'' := by
    obtain ⟨a, ha, hab⟩ := hrep b hb
    obtain ⟨a', ha', hab'⟩ := hrep b' hb'
    obtain ⟨a'', ha'', hab''⟩ := hrep b'' hb''
    rw [← hr a a' b b' ha ha' hab hab', ← hr a' a b' b ha' ha hab' hab,
      ← hr a' a'' b' b'' ha' ha'' hab' hab'', ← hr a'' a' b'' b' ha'' ha' hab'' hab',
      ← hr a a'' b b'' ha ha'' hab hab'', ← hr a'' a b'' b ha'' ha hab'' hab]
    exact h.equiv_trans a a' a'' ha ha' ha''

/-- `sort` rearranges every list, and puts it in order for every comparator that is consistent on
the members of the list. -/
structure SortsMembers (sort : (α → α → Int) → List α → List α) : Prop where
  perm : ∀ cmp l, (sort cmp l).Perm l
  sorted : ∀ cmp l, IsComparatorOn (· ∈ l) cmp → (sort cmp l).Pairwise fun a b => cmp a b ≤ 0

/-- The number of members of `l` that `cmp` calls smaller than `a`. -/
def rankIn (cmp : α → α → Int) (l : List α) (a : α) : Nat := l.countP fun x => decide (cmp x a < 0)

/-- A condition that holds of more members is counted more often. -/
theorem countP_lt_countP {p q : α → Bool} {l : List α} (hpq : ∀ x ∈ l, p x → q x) {a : α}
    (ha : a ∈ l) (hp : ¬p a) (hq : q a) : l.countP p < l.countP q := by
  obtain ⟨s, t, rfl⟩ := append_of_mem ha
  have hs : s.countP p ≤ s.countP q := countP_mono_left fun x hx => hpq x (mem_append_left _ hx)
  have ht : t.countP p ≤ t.countP q :=
    countP_mono_left fun x hx => hpq x (mem_append_right _ (mem_cons_of_mem a hx))
  rw [countP_append, countP_append, countP_cons_of_neg hp, countP_cons_of_pos hq]
  omega

section rank

variable {l : List α}

theorem rankIn_perm {l' : List α} (h : l.Perm l') (a : α) : rankIn cmp l a = rankIn cmp l' a :=
  h.countP_eq _

/-- A smaller member has a smaller rank. -/
theorem rankIn_lt (h : IsStrictWeakOn (· ∈ l) fun a b => cmp a b < 0) {a b : α} (ha : a ∈ l)
    (hb : b ∈ l) (hab : cmp a b < 0) : rankIn cmp l a < rankIn cmp l b := by
  refine countP_lt_countP (fun x hx hxa => ?_) ha ?_ (decide_eq_true hab)
  · exact decide_eq_true (h.trans x a b hx ha hb (of_decide_eq_true hxa) hab)
  · exact fun haa => h.irrefl a ha (of_decide_eq_true haa)

/-- Equivalent members have the same rank. -/
theorem rankIn_eq (h : IsStrictWeakOn (· ∈ l) fun a b => cmp a b < 0) {a b : α} (ha : a ∈ l)
    (hb : b ∈ l) (hab : ¬cmp a b < 0) (hba : ¬cmp b a < 0) : rankIn cmp l a = rankIn cmp l b := by
  refine countP_congr fun x hx => ?_
  simp only [decide_eq_true_eq]
  constructor
  · intro hxa
    by_contra hxb
    have hbx : ¬cmp b x < 0 := fun hbx => hba (h.trans b x a hb hx ha hbx hxa)
    exact (h.equiv_trans a b x ha hb hx hab hba hbx hxb).2 hxa
  · intro hxb
    by_contra hxa
    have hax : ¬cmp a x < 0 := fun hax => hab (h.trans a x b ha hx hb hax hxb)
    exact (h.equiv_trans b a x hb ha hx hba hab hax hxa).2 hxb

/-- Insertion sort by the ranks. -/
def rankSort (cmp : α → α → Int) (l : List α) : List α :=
  l.insertionSort fun a b => rankIn cmp l a ≤ rankIn cmp l b

theorem pairwise_rankSort (cmp : α → α → Int) (l : List α) :
    (rankSort cmp l).Pairwise fun a b => rankIn cmp l a ≤ rankIn cmp l b := by
  have : Std.Total fun a b => rankIn cmp l a ≤ rankIn cmp l b := ⟨fun a b => Nat.le_total _ _⟩
  have : IsTrans α fun a b => rankIn cmp l a ≤ rankIn cmp l b := ⟨fun a b c => Nat.le_trans⟩
  exact pairwise_insertionSort _ l

/-- The list that is in the order of the ranks already stays. -/
theorem rankSort_eq_self (h : l.Pairwise fun a b => rankIn cmp l a ≤ rankIn cmp l b) :
    rankSort cmp l = l :=
  h.insertionSort_eq

end rank

/-- Members in the order of a comparator are in the order of the ranks. -/
theorem rankIn_le {l : List α} (h : IsComparatorOn (· ∈ l) cmp) {a b : α}
    (ha : a ∈ l) (hb : b ∈ l) : rankIn cmp l a ≤ rankIn cmp l b ↔ cmp a b ≤ 0 := by
  have hweak := h.isStrictWeakOn
  constructor
  · intro hle
    have hlt := fun hba => rankIn_lt hweak hb ha hba
    have := h.flip b a hb ha
    omega
  · intro hle
    rcases Int.lt_or_eq_of_le hle with hlt | heq
    · exact Nat.le_of_lt (rankIn_lt hweak ha hb hlt)
    · have := h.flip a b ha hb
      have := h.flip b a hb ha
      exact (rankIn_eq hweak ha hb (by omega) (by omega)).le

/-- Insertion sort by the ranks is a sorting routine. -/
theorem SortsMembers.rankSort : SortsMembers (rankSort (α := α)) where
  perm cmp l := perm_insertionSort _ l
  sorted cmp l h := by
    refine (pairwise_rankSort cmp l).imp_of_mem fun {a b} ha hb hle => ?_
    have ha := (perm_insertionSort _ l).mem_iff.1 ha
    have hb := (perm_insertionSort _ l).mem_iff.1 hb
    exact (rankIn_le h ha hb).1 hle

/-- Every arrangement that a sorting routine may return is returned by one. -/
theorem exists_sortsMembers {l l' : List α} (hperm : l'.Perm l)
    (h : IsComparatorOn (· ∈ l) cmp → l'.Pairwise fun a b => cmp a b ≤ 0) :
    ∃ sort, SortsMembers sort ∧ sort cmp l = l' := by
  classical
  refine ⟨fun cmp₀ l₀ => if cmp₀ = cmp ∧ l₀ = l then l' else rankSort cmp₀ l₀,
    ⟨fun cmp₀ l₀ => ?_, fun cmp₀ l₀ hcmp => ?_⟩, if_pos ⟨rfl, rfl⟩⟩
  · split_ifs with heq
    · rw [heq.2]
      exact hperm
    · exact SortsMembers.rankSort.perm cmp₀ l₀
  · split_ifs with heq
    · obtain ⟨rfl, rfl⟩ := heq
      exact h hcmp
    · exact SortsMembers.rankSort.sorted cmp₀ l₀ hcmp

/-! ## Arrangements -/

theorem map_set_of_eq {f : α → β} {l : List α} {k : Nat} {a a' : α}
    (hk : l[k]? = some a) (h : f a' = f a) : (l.set k a').map f = l.map f := by
  refine ext_getElem? fun j => ?_
  rw [getElem?_map, getElem?_map, getElem?_set]
  split
  case isTrue hj =>
    subst hj
    rw [hk, if_pos (List.getElem?_eq_some_iff.1 hk).1]
    exact congrArg some h
  case isFalse => rfl

/-- A member can be brought to the place of another one with the same key, in the order of the keys.
-/
theorem exists_perm_getElem? (key : α → Nat) {l : List α} (hl : l.Pairwise fun a b => key a ≤ key b)
    {j : Nat} {x v : α} (hj : l[j]? = some x) (hv : v ∈ l) (hkey : key v = key x) :
    ∃ l' : List α, l'.Perm l ∧ (l'.Pairwise fun a b => key a ≤ key b) ∧ l'[j]? = some v := by
  obtain ⟨hlt, rfl⟩ := List.getElem?_eq_some_iff.1 hj
  obtain ⟨i, hi, rfl⟩ := List.mem_iff_getElem.1 hv
  have hset : (l.set i l[j]).map key = l.map key := map_set_of_eq (getElem?_eq_getElem hi) hkey.symm
  have hkeys : ((l.set i l[j]).set j l[i]).map key = l.map key := by
    have hplace : ∃ y, (l.set i l[j])[j]? = some y ∧ key l[i] = key y := by
      rw [getElem?_set]
      split_ifs with hij
      · exact ⟨l[j], rfl, hkey⟩
      · exact ⟨l[j], getElem?_eq_getElem hlt, hkey⟩
    obtain ⟨y, hy, hyi⟩ := hplace
    rw [map_set_of_eq hy hyi, hset]
  refine ⟨(l.set i l[j]).set j l[i], set_set_perm hi hlt, ?_, ?_⟩
  · rw [← pairwise_map (f := key) (R := (· ≤ ·)), hkeys, pairwise_map]
    exact hl
  · rw [getElem?_set_self (by rwa [length_set])]

/-- At one place of two arrangements in the order of the keys there is the same key. -/
theorem key_eq_of_perm {key : α → Nat} {l l' : List α} (hl : l.Pairwise fun a b => key a ≤ key b)
    (hl' : l'.Pairwise fun a b => key a ≤ key b) (hperm : l.Perm l') {j : Nat} {x y : α}
    (hx : l[j]? = some x) (hy : l'[j]? = some y) : key x = key y := by
  have heq : l.map key = l'.map key :=
    List.Perm.eq_of_pairwise (fun a b _ _ => Nat.le_antisymm) (List.pairwise_map.2 hl)
      (List.pairwise_map.2 hl') (hperm.map key)
  have hj := congrArg (·[j]?) heq
  simpa only [getElem?_map, hx, hy, Option.map_some, Option.some.injEq] using hj
