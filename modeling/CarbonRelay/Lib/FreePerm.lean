import Mathlib.Data.List.Perm.Basic
import Mathlib.Data.List.Sublists

/-!
# Rearrangements around fixed elements

`FreePerm fixed l m` says that `m` comes from `l` by exchanging neighbours neither of which is
fixed. It is a permutation, and a fixed element keeps its place in the order relative to every other
element (`FreePerm.pair_sublist`).
-/

variable {α : Type*} {fixed : α → Prop} {l m n : List α} {a b : α}

/-- The lists differ in the order of free neighbours. -/
inductive FreePerm (fixed : α → Prop) : List α → List α → Prop
  | refl (l : List α) : FreePerm fixed l l
  | cons (a : α) {l m : List α} : FreePerm fixed l m → FreePerm fixed (a :: l) (a :: m)
  | swap {a b : α} (l : List α) : ¬ fixed a → ¬ fixed b → FreePerm fixed (a :: b :: l) (b :: a :: l)
  | trans {l m n : List α} : FreePerm fixed l m → FreePerm fixed m n → FreePerm fixed l n

namespace FreePerm

open List

theorem perm (h : FreePerm fixed l m) : l.Perm m := by
  induction h with
  | refl l => exact .refl l
  | cons a _ ih => exact ih.cons a
  | swap l _ _ => exact .swap _ _ l
  | trans _ _ ih ih' => exact ih.trans ih'

theorem append_right (h : FreePerm fixed l m) (n : List α) : FreePerm fixed (l ++ n) (m ++ n) := by
  induction h with
  | refl l => exact .refl _
  | cons a _ ih => exact ih.cons a
  | swap l ha hb => exact .swap _ ha hb
  | trans _ _ ih ih' => exact ih.trans ih'

theorem append_left (n : List α) (h : FreePerm fixed l m) : FreePerm fixed (n ++ l) (n ++ m) := by
  induction n with
  | nil => exact h
  | cons a n ih => exact ih.cons a

/-- A free element moves past free elements. -/
theorem cons_append (ha : ¬ fixed a) (hl : ∀ b ∈ l, ¬ fixed b) :
    FreePerm fixed (a :: l) (l ++ [a]) := by
  induction l with
  | nil => exact .refl [a]
  | cons b l ih =>
    refine (swap l ha (hl b mem_cons_self)).trans (.cons b ?_)
    exact ih fun c hc => hl c (mem_cons_of_mem b hc)

/-- Free elements move past free elements. -/
theorem append_comm (hl : ∀ b ∈ l, ¬ fixed b) (hm : ∀ b ∈ m, ¬ fixed b) :
    FreePerm fixed (l ++ m) (m ++ l) := by
  induction l with
  | nil => rw [append_nil]; exact .refl m
  | cons a l ih =>
    have ha := hl a mem_cons_self
    have hstep : FreePerm fixed (a :: (m ++ l)) (m ++ a :: l) := by
      have hmove := (cons_append ha hm).append_right l
      rwa [append_assoc, singleton_append] at hmove
    exact (cons a (ih fun b hb => hl b (mem_cons_of_mem a hb))).trans hstep

/-- A fixed element keeps its place relative to every other element. -/
theorem pair_sublist (h : FreePerm fixed l m) (hfixed : fixed a ∨ fixed b) (hl : [a, b].Sublist l) :
    [a, b].Sublist m := by
  induction h with
  | refl l => exact hl
  | cons c h ih =>
    rw [cons_sublist_cons'] at hl ⊢
    rcases hl with hl | ⟨hac, hb⟩
    · exact .inl (ih hl)
    · exact .inr ⟨hac, singleton_sublist.2 (h.perm.subset (singleton_sublist.1 hb))⟩
  | swap l hc hd =>
    simp only [cons_sublist_cons', singleton_sublist] at hl ⊢
    rcases hl with (hl | ⟨rfl, hb⟩) | ⟨rfl, hb | ⟨rfl, -⟩⟩
    · exact .inl (.inl hl)
    · exact .inr ⟨rfl, .inl hb⟩
    · exact .inl (.inr ⟨rfl, hb⟩)
    · exact absurd hfixed (not_or.2 ⟨hc, hd⟩)
  | trans _ _ ih ih' => exact ih' (ih hl)

/-- A fixed element keeps the elements in front of it, and those behind it. -/
theorem split (h : FreePerm fixed l m) (ha : fixed a) {pre post : List α}
    (hl : l = pre ++ a :: post) :
    ∃ pre' post', m = pre' ++ a :: post' ∧ pre.Perm pre' ∧ post.Perm post' := by
  induction h generalizing pre post with
  | refl l => exact ⟨pre, post, hl, .refl pre, .refl post⟩
  | cons b h ih =>
    cases pre with
    | nil =>
      obtain ⟨rfl, rfl⟩ := cons.inj hl
      exact ⟨[], _, rfl, .refl [], h.perm⟩
    | cons c pre =>
      obtain ⟨rfl, htail⟩ := cons.inj hl
      obtain ⟨pre', post', rfl, hpre, hpost⟩ := ih htail
      exact ⟨b :: pre', post', rfl, hpre.cons b, hpost⟩
  | @swap b c l hb hc =>
    match pre, hl with
    | [], hl =>
      obtain ⟨rfl, -⟩ := cons.inj hl
      exact absurd ha hb
    | [_], hl =>
      obtain ⟨-, htail⟩ := cons.inj hl
      obtain ⟨rfl, -⟩ := cons.inj htail
      exact absurd ha hc
    | b' :: c' :: pre, hl =>
      obtain ⟨rfl, htail⟩ := cons.inj hl
      obtain ⟨rfl, rfl⟩ := cons.inj htail
      exact ⟨c :: b :: pre, post, rfl, .swap c b pre, .refl post⟩
  | trans _ _ ih ih' =>
    obtain ⟨pre', post', rfl, hpre, hpost⟩ := ih hl
    obtain ⟨pre'', post'', rfl, hpre', hpost'⟩ := ih' rfl
    exact ⟨pre'', post'', rfl, hpre.trans hpre', hpost.trans hpost'⟩

theorem erase [DecidableEq α] (h : FreePerm fixed l m) (a : α) :
    FreePerm fixed (l.erase a) (m.erase a) := by
  induction h with
  | refl l => exact .refl _
  | cons b h ih =>
    by_cases hb : b = a
    · rw [hb, erase_cons_head, erase_cons_head]
      exact h
    · rw [erase_cons_tail (by simpa using hb), erase_cons_tail (by simpa using hb)]
      exact ih.cons b
  | @swap b c l hb hc =>
    simp only [erase_cons, beq_iff_eq]
    split <;> split
    case isTrue.isTrue hba hca =>
      rw [hba, hca]
      exact .refl _
    case isFalse.isFalse => exact .swap _ hb hc
    all_goals exact .refl _
  | trans _ _ ih ih' => exact ih.trans ih'

/-- What comes first afterwards and had others in front of it is free, and so are these. -/
theorem free_before (h : FreePerm fixed l (a :: m)) (hnodup : l.Nodup) {pre post : List α}
    (hl : l = pre ++ a :: post) (hb : b ∈ pre) : ¬ fixed b ∧ ¬ fixed a := by
  rw [← not_or]
  intro hfixed
  have hpair : [b, a].Sublist l := by
    rw [hl]
    exact (singleton_sublist.2 hb).append (cons_sublist_cons.2 (nil_sublist post))
  have hmem : a ∈ m := by
    rcases cons_sublist_cons'.1 (h.pair_sublist hfixed hpair) with hm | ⟨-, hm⟩
    · exact hm.subset (by simp)
    · exact singleton_sublist.1 hm
  exact (nodup_cons.1 (h.perm.nodup_iff.1 hnodup)).1 hmem

end FreePerm
