import Mathlib.Data.List.Basic
import Mathlib.Logic.Function.Basic

/-!
# Linked lists

Nodes with links forwards and backwards, as two functions. `Linked.Fwd next a l` says that following
`next` from `a` visits the nodes `l`, and `Linked.Back prev a l` that the links backwards agree with
that. The lemmas are for the two ways in which a list is changed here: a new node at the end, and a
node that is taken out and put at the end, without a repair of the links backwards. `Linked.Whole
next p l` is for lists that are only linked forwards, from their first node to the end.
-/

namespace Linked

open Function List

variable {next next' prev : Nat → Option Nat} {a i n : Nat} {l m : List Nat}

/-- Following `next` from `a` visits `l`. -/
def Fwd (next : Nat → Option Nat) : Nat → List Nat → Prop
  | _, [] => True
  | a, b :: l => next a = some b ∧ Fwd next b l

/-- Every node of `l` has its predecessor as `prev`, the first one `a`. -/
def Back (prev : Nat → Option Nat) : Nat → List Nat → Prop
  | _, [] => True
  | a, b :: l => prev b = some a ∧ Back prev b l

theorem getLastD_append (a : Nat) (l m : List Nat) :
    (l ++ m).getLastD a = m.getLastD (l.getLastD a) := by
  induction l generalizing a with
  | nil => rfl
  | cons b l ih => rw [cons_append, getLastD_cons, getLastD_cons, ih]

theorem fwd_append : Fwd next a (l ++ m) ↔ Fwd next a l ∧ Fwd next (l.getLastD a) m := by
  induction l generalizing a with
  | nil => simp [Fwd]
  | cons b l ih => simp only [cons_append, Fwd, ih, getLastD_cons, and_assoc]

theorem back_append : Back prev a (l ++ m) ↔ Back prev a l ∧ Back prev (l.getLastD a) m := by
  induction l generalizing a with
  | nil => simp [Back]
  | cons b l ih => simp only [cons_append, Back, ih, getLastD_cons, and_assoc]

theorem getLastD_mem_cons (a : Nat) (l : List Nat) : l.getLastD a ∈ a :: l := by
  induction l generalizing a with
  | nil => exact mem_cons_self
  | cons b l ih =>
    rw [getLastD_cons]
    exact mem_cons_of_mem a (ih b)

/-- The links of all nodes but the last one matter. -/
theorem Fwd.congr (h : Fwd next a l) (hnodup : (a :: l).Nodup)
    (hnext : ∀ j ∈ a :: l, j ≠ l.getLastD a → next' j = next j) : Fwd next' a l := by
  induction l generalizing a with
  | nil => trivial
  | cons b l ih =>
    obtain ⟨hab, h⟩ := h
    obtain ⟨ha, hnodup⟩ := nodup_cons.1 hnodup
    rw [getLastD_cons] at hnext
    refine ⟨?_, ih h hnodup fun j hj => hnext j (mem_cons_of_mem a hj)⟩
    rw [hnext a mem_cons_self, hab]
    intro heq
    exact ha (heq ▸ getLastD_mem_cons b l)

theorem Back.congr {prev' : Nat → Option Nat} (h : Back prev a l)
    (hprev : ∀ j ∈ l, prev' j = prev j) : Back prev' a l := by
  induction l generalizing a with
  | nil => trivial
  | cons b l ih =>
    refine ⟨?_, ih h.2 fun j hj => hprev j (mem_cons_of_mem b hj)⟩
    rw [hprev b mem_cons_self]
    exact h.1

/-- A new node at the end. -/
theorem Fwd.push (h : Fwd next a l) (hnodup : (a :: l).Nodup) :
    Fwd (update next (l.getLastD a) (some n)) a (l ++ [n]) := by
  refine fwd_append.2 ⟨h.congr hnodup fun j _ hj => update_of_ne hj _ _, ?_, trivial⟩
  exact update_self _ _ _

theorem Back.push (h : Back prev a l) (hn : n ∉ l) :
    Back (update prev n (some (l.getLastD a))) a (l ++ [n]) := by
  refine back_append.2 ⟨h.congr fun j hj => ?_, update_self _ _ _, trivial⟩
  have hne : j ≠ n := fun heq => hn (heq ▸ hj)
  exact update_of_ne hne _ _

/-- The links after a node `i`, with `p` in front of it, was put behind the last node. -/
def moveToEnd (next : Nat → Option Nat) (p i last : Nat) : Nat → Option Nat :=
  update (update (update next p (next i)) last (some i)) i none

/-- A node that is put at the end. -/
theorem Fwd.moveToEnd (h : Fwd next a (l ++ i :: m)) (hnodup : (a :: (l ++ i :: m)).Nodup)
    (hm : m ≠ []) : Fwd (moveToEnd next (l.getLastD a) i (m.getLastD i)) a (l ++ m ++ [i]) := by
  obtain ⟨b, m, rfl⟩ := exists_cons_of_ne_nil hm
  obtain ⟨hl, -, hib, hbm⟩ := fwd_append.1 h
  have hperm : (a :: (l ++ i :: b :: m)).Perm (i :: a :: (l ++ b :: m)) :=
    (perm_middle.cons a).trans (.swap i a _)
  obtain ⟨hi, hrest⟩ := nodup_cons.1 (hperm.nodup_iff.1 hnodup)
  have hl' := nodup_append.1 (cons_append ▸ hrest : (a :: l ++ b :: m).Nodup)
  have hlast : (b :: m).getLastD i = m.getLastD b := getLastD_cons ..
  have hmem := getLastD_mem_cons b m
  have hfirst := getLastD_mem_cons a l
  have hne : ∀ j ∈ a :: l, j ≠ m.getLastD b := fun j hj heq => hl'.2.2 j hj _ hmem heq
  have hni : ∀ j ∈ a :: (l ++ b :: m), j ≠ i := fun j hj heq => hi (heq ▸ hj)
  rw [hlast, append_assoc]
  refine fwd_append.2 ⟨?_, ?_, fwd_append.2 ⟨?_, ?_, trivial⟩⟩
  · refine hl.congr hl'.1 fun j hj hjl => ?_
    rw [Linked.moveToEnd, update_of_ne (hni j (mem_append_left (b :: m) hj)),
      update_of_ne (hne j hj), update_of_ne hjl]
  · rw [Linked.moveToEnd, update_of_ne (hni _ (mem_append_left (b :: m) hfirst)),
      update_of_ne (hne _ hfirst), update_self, hib]
  · refine hbm.congr hl'.2.1 fun j hj hjm => ?_
    have hja : j ≠ l.getLastD a := fun heq => hl'.2.2 _ hfirst j hj heq.symm
    rw [Linked.moveToEnd, update_of_ne (hni j (mem_append_right (a :: l) hj)),
      update_of_ne hjm, update_of_ne hja]
  · rw [Linked.moveToEnd, update_of_ne (hni _ (mem_append_right (a :: l) hmem)), update_self]

/-! ## Whole lists -/

/-- Following `next` from `p` visits `l` and comes to an end. -/
def Whole (next : Nat → Option Nat) : Option Nat → List Nat → Prop
  | p, [] => p = none
  | p, a :: l => p = some a ∧ Whole next (next a) l

instance decidableWhole (next : Nat → Option Nat) : (p : Option Nat) → (l : List Nat) →
    Decidable (Whole next p l)
  | p, [] => inferInstanceAs (Decidable (p = none))
  | p, a :: l =>
    have := decidableWhole next (next a) l
    inferInstanceAs (Decidable (p = some a ∧ Whole next (next a) l))

variable {p : Option Nat}

/-- There is one list to visit. -/
theorem Whole.unique (hl : Whole next p l) (hm : Whole next p m) : l = m := by
  induction l generalizing p m with
  | nil =>
    cases m with
    | nil => rfl
    | cons b m => cases hl.symm.trans hm.1
  | cons a l ih =>
    cases m with
    | nil => cases hm.symm.trans hl.1
    | cons b m =>
      cases hl.1.symm.trans hm.1
      rw [ih hl.2 hm.2]

theorem Whole.congr (h : Whole next p l) (hnext : ∀ a ∈ l, next' a = next a) : Whole next' p l := by
  induction l generalizing p with
  | nil => exact h
  | cons a l ih =>
    refine ⟨h.1, ?_⟩
    rw [hnext a mem_cons_self]
    exact ih h.2 fun b hb => hnext b (mem_cons_of_mem a hb)

/-- A node that is not in the list is put at its end. -/
theorem Whole.push (h : Whole next p l) (hlast : l.getLast? = some a) (hnodup : l.Nodup)
    (hn : n ∉ l) : Whole (update (update next a (some n)) n none) p (l ++ [n]) := by
  induction l generalizing p with
  | nil => cases hlast
  | cons b l ih =>
    obtain ⟨hp, h⟩ := h
    obtain ⟨hb, hnodup⟩ := nodup_cons.1 hnodup
    have hbn : b ≠ n := fun heq => hn (heq ▸ mem_cons_self)
    refine ⟨hp, ?_⟩
    rw [update_of_ne hbn]
    cases l with
    | nil =>
      obtain rfl : b = a := Option.some.inj hlast
      rw [update_self]
      exact ⟨rfl, update_self _ _ _⟩
    | cons c l =>
      rw [getLast?_cons_cons] at hlast
      have hba : b ≠ a := fun heq => hb (heq ▸ mem_of_getLast? hlast)
      rw [update_of_ne hba]
      exact ih h hlast hnodup fun hmem => hn (mem_cons_of_mem b hmem)

end Linked
