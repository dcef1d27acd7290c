import Mathlib.Data.List.Nodup
import Mathlib.Data.Finset.Card
import Mathlib.Data.List.Dedup

/-!
# Collecting distinct elements along a list

`takeDistinct r acc l` walks the list `l` and collects its elements in the order they are first met,
leaving out those already in `acc`, until `r` elements are collected. A walk that meets enough
distinct elements ends with exactly `r` (`length_takeDistinct_eq`), and one that does not ends with
all there are.
-/

open List

universe u

variable {α : Type u} [DecidableEq α]

/-- The elements of `l` in the order of their first occurrence, behind `acc`, up to `r` in all. -/
def takeDistinct (r : Nat) : List α → List α → List α
  | acc, [] => acc
  | acc, a :: l =>
    if acc.length < r then
      if a ∈ acc then takeDistinct r acc l else takeDistinct r (acc ++ [a]) l
    else acc

variable {r : Nat} {acc l l' : List α} {a : α}

@[simp] theorem takeDistinct_nil : takeDistinct r acc [] = acc := rfl

theorem takeDistinct_full (h : ¬ acc.length < r) : takeDistinct r acc l = acc := by
  cases l with
  | nil => rfl
  | cons a l => rw [takeDistinct, if_neg h]

theorem takeDistinct_cons_mem (h : a ∈ acc) :
    takeDistinct r acc (a :: l) = takeDistinct r acc l := by
  by_cases hr : acc.length < r
  · rw [takeDistinct, if_pos hr, if_pos h]
  · rw [takeDistinct_full hr, takeDistinct_full hr]

theorem takeDistinct_cons_not_mem (hr : acc.length < r) (h : a ∉ acc) :
    takeDistinct r acc (a :: l) = takeDistinct r (acc ++ [a]) l := by
  rw [takeDistinct, if_pos hr, if_neg h]

/-- A walk over two lists is a walk over the second that starts with what the first gave. -/
theorem takeDistinct_append : ∀ {acc l : List α},
    takeDistinct r acc (l ++ l') = takeDistinct r (takeDistinct r acc l) l'
  | _, [] => rfl
  | acc, a :: l => by
    by_cases hr : acc.length < r
    · by_cases ha : a ∈ acc
      · rw [cons_append, takeDistinct_cons_mem ha, takeDistinct_cons_mem ha, takeDistinct_append]
      · rw [cons_append, takeDistinct_cons_not_mem hr ha, takeDistinct_cons_not_mem hr ha,
          takeDistinct_append]
    · rw [takeDistinct_full hr, takeDistinct_full hr, takeDistinct_full hr]

/-- Elements that are collected already add nothing. -/
theorem takeDistinct_of_subset : ∀ {l : List α}, (∀ a ∈ l, a ∈ acc) → takeDistinct r acc l = acc
  | [], _ => rfl
  | a :: l, h => by
    rw [takeDistinct_cons_mem (h a mem_cons_self)]
    exact takeDistinct_of_subset fun b hb => h b (mem_cons_of_mem a hb)

/-- What is collected stays in front. -/
theorem prefix_takeDistinct : ∀ {acc l : List α}, acc <+: takeDistinct r acc l
  | acc, [] => prefix_refl acc
  | acc, a :: l => by
    rw [takeDistinct]
    split
    · split
      · exact prefix_takeDistinct
      · exact (prefix_append acc [a]).trans prefix_takeDistinct
    · exact prefix_refl acc

theorem nodup_takeDistinct : ∀ {acc l : List α}, acc.Nodup → (takeDistinct r acc l).Nodup
  | _, [], h => h
  | acc, a :: l, h => by
    rw [takeDistinct]
    split
    · split
      · exact nodup_takeDistinct h
      · next ha =>
        refine nodup_takeDistinct (List.nodup_append.2 ⟨h, nodup_singleton a, ?_⟩)
        intro x hx y hy hxy
        rw [List.mem_singleton.1 hy] at hxy
        exact ha (hxy ▸ hx)
    · exact h

theorem mem_of_mem_takeDistinct : ∀ {acc l : List α} {x : α}, x ∈ takeDistinct r acc l →
    x ∈ acc ∨ x ∈ l
  | _, [], _, h => .inl h
  | acc, a :: l, x, h => by
    rw [takeDistinct] at h
    split at h
    · split at h
      · exact (mem_of_mem_takeDistinct h).imp_right (mem_cons_of_mem a)
      · rcases mem_of_mem_takeDistinct h with h | h
        · rcases List.mem_append.1 h with h | h
          · exact .inl h
          · exact .inr (List.mem_singleton.1 h ▸ mem_cons_self)
        · exact .inr (mem_cons_of_mem a h)
    · exact .inl h

theorem length_takeDistinct_le : ∀ {acc l : List α}, acc.length ≤ r →
    (takeDistinct r acc l).length ≤ r
  | _, [], h => h
  | acc, a :: l, h => by
    rw [takeDistinct]
    split
    · next hlt =>
      split
      · exact length_takeDistinct_le h
      · exact length_takeDistinct_le (by rw [length_append, length_singleton]; exact hlt)
    · exact h

/-- A walk that ends early has collected every element it was given. -/
theorem mem_takeDistinct_of_length_lt : ∀ {acc l : List α},
    (takeDistinct r acc l).length < r → ∀ a ∈ l, a ∈ takeDistinct r acc l
  | _, [], _, a, ha => absurd ha not_mem_nil
  | acc, b :: l, h, a, ha => by
    have hr : acc.length < r := Nat.lt_of_not_le fun hle => by
      rw [takeDistinct_full (Nat.not_lt.2 hle)] at h
      omega
    by_cases hb : b ∈ acc
    · rw [takeDistinct_cons_mem hb] at h ⊢
      rcases List.mem_cons.1 ha with rfl | ha
      · exact prefix_takeDistinct.subset hb
      · exact mem_takeDistinct_of_length_lt h a ha
    · rw [takeDistinct_cons_not_mem hr hb] at h ⊢
      rcases List.mem_cons.1 ha with rfl | ha
      · exact prefix_takeDistinct.subset (mem_append_right acc mem_cons_self)
      · exact mem_takeDistinct_of_length_lt h a ha

/-- Elements that were walked over already add nothing. -/
theorem takeDistinct_of_walked (h : ∀ a ∈ l', a ∈ l) :
    takeDistinct r (takeDistinct r acc l) l' = takeDistinct r acc l := by
  rcases Nat.lt_or_ge (takeDistinct r acc l).length r with hlt | hge
  · exact takeDistinct_of_subset fun a ha => mem_takeDistinct_of_length_lt hlt a (h a ha)
  · exact takeDistinct_full (Nat.not_lt.2 hge)

/-- A walk over a list with at least `r` distinct elements collects exactly `r`. -/
theorem length_takeDistinct_eq (h : r ≤ l.dedup.length) : (takeDistinct r [] l).length = r := by
  refine Nat.le_antisymm (length_takeDistinct_le (Nat.zero_le r)) (Nat.le_of_not_lt fun hlt => ?_)
  have hsub : l.dedup ⊆ takeDistinct r [] l := fun a ha =>
    mem_takeDistinct_of_length_lt hlt a (List.mem_dedup.1 ha)
  have := (subperm_of_subset (nodup_dedup l) hsub).length_le
  omega

/-- A walk never collects more than the distinct elements there are. -/
theorem length_takeDistinct_le_dedup : (takeDistinct r [] l).length ≤ l.dedup.length := by
  have hsub : takeDistinct r [] l ⊆ l.dedup := fun a ha =>
    List.mem_dedup.2 ((mem_of_mem_takeDistinct ha).resolve_left not_mem_nil)
  exact (subperm_of_subset (nodup_takeDistinct nodup_nil) hsub).length_le

/-- Copies of the first element of a walk may as well stand in front of it. -/
theorem takeDistinct_copies_append {c : List α} (hr : 0 < r) (hc : ∀ b ∈ c, b = a) :
    takeDistinct r [] (c ++ a :: l) = takeDistinct r [] (a :: l) := by
  have hnil : ([] : List α).length < r := hr
  cases c with
  | nil => rfl
  | cons b c =>
    obtain rfl : b = a := hc b mem_cons_self
    have hcopies : takeDistinct r [b] c = [b] :=
      takeDistinct_of_subset fun x hx => by simp [hc x (mem_cons_of_mem b hx)]
    rw [cons_append, takeDistinct_cons_not_mem hnil not_mem_nil, nil_append,
      takeDistinct_append, hcopies, takeDistinct_cons_mem mem_cons_self,
      takeDistinct_cons_not_mem hnil not_mem_nil, nil_append]

/-- Copies of the first element of a walk may be moved from its front to its end. -/
theorem takeDistinct_rotate_copies {c : List α} (hr : 0 < r) (hc : ∀ b ∈ c, b = a) :
    takeDistinct r [] (c ++ a :: l) = takeDistinct r [] (a :: l ++ c) := by
  have hnil : ([] : List α).length < r := hr
  have hmem : a ∈ takeDistinct r [] (a :: l) := by
    rw [takeDistinct_cons_not_mem hnil not_mem_nil]
    exact prefix_takeDistinct.subset mem_cons_self
  have hend : takeDistinct r (takeDistinct r [] (a :: l)) c = takeDistinct r [] (a :: l) :=
    takeDistinct_of_subset fun x hx => (hc x hx).symm ▸ hmem
  rw [takeDistinct_copies_append hr hc, takeDistinct_append, hend]

/-- Leaving elements out of a walk, and reading the others by another map, does not change what is
collected, when the two maps agree on what stays, and what is left out repeats an element in front
of it. Only elements whose image is collected need to be looked at. -/
theorem takeDistinct_map_filter {β : Type*} {f f' : β → α} {p : β → Bool} (L : List β)
    (hstay : ∀ x ∈ L, p x = true → f x ∈ takeDistinct r [] (L.map f) → f' x = f x)
    (hdrop : ∀ P x Q, L = P ++ x :: Q → p x = false → f x ∈ takeDistinct r [] (L.map f) →
      ∃ o ∈ P, f o = f x) : takeDistinct r [] ((L.filter p).map f') =
        takeDistinct r [] (L.map f) := by
  suffices h : ∀ Q P, L = P ++ Q →
      takeDistinct r [] ((P.filter p).map f') = takeDistinct r [] (P.map f) →
      takeDistinct r [] ((L.filter p).map f') = takeDistinct r [] (L.map f) from
    h L [] rfl rfl
  intro Q
  induction Q with
  | nil =>
    intro P hL hP
    rw [hL, append_nil]
    exact hP
  | cons x Q ih =>
    intro P hL hP
    refine ih (P ++ [x]) (by rw [hL, append_assoc, singleton_append]) ?_
    rw [filter_append, map_append, map_append, takeDistinct_append, takeDistinct_append, hP]
    rcases Nat.lt_or_ge (takeDistinct r [] (P.map f)).length r with hlt | hge
    · have hx : f x ∈ takeDistinct r [] (L.map f) := by
        rw [hL, map_append, map_cons, takeDistinct_append]
        by_cases hmem : f x ∈ takeDistinct r [] (P.map f)
        · exact prefix_takeDistinct.subset hmem
        · rw [takeDistinct_cons_not_mem hlt hmem]
          exact prefix_takeDistinct.subset (mem_append_right _ mem_cons_self)
      cases hp : p x with
      | true =>
        have := hstay x (hL ▸ mem_append_right P mem_cons_self) hp hx
        rw [filter_cons_of_pos hp, filter_nil, map_cons, map_cons, this]
        rfl
      | false =>
        obtain ⟨o, ho, hox⟩ := hdrop P x Q hL hp hx
        have hmem : f x ∈ takeDistinct r [] (P.map f) :=
          mem_takeDistinct_of_length_lt hlt _ (hox ▸ mem_map_of_mem ho)
        rw [filter_cons_of_neg (by simp [hp]), filter_nil, map_nil, map_cons,
          takeDistinct_cons_mem hmem, map_nil]
    · rw [takeDistinct_full (Nat.not_lt.2 hge), takeDistinct_full (Nat.not_lt.2 hge)]
