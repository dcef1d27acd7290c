import Mathlib.Data.List.FinRange
import Mathlib.Data.List.Perm.Basic

/-!
# Drawing without replacement

Some elements are drawn from a list, one after the other. The place of the one that is drawn is
taken by the last of those that are left, so the first ones of the list are always those that were
not drawn yet.
-/

namespace Draw

open List Option

variable {β γ σ : Type} {l : List β} {i j n : Nat}

/-- Taking element `j` out of the first `i + 1` leaves the first `i`, with the last one moved to
`j`. -/
theorem cons_take_set_perm (hj : j ≤ i) (hi : i < l.length) :
    (l[j] :: (l.set j l[i]).take i).Perm (l.take (i + 1)) := by
  rw [take_succ_eq_append_getElem hi, take_set]
  rcases Nat.lt_or_eq_of_le hj with hlt | rfl
  · have hjl : j < (l.take i).length := by rw [length_take]; omega
    calc (l[j] :: (l.take i).set j l[i]).Perm (l[j] :: l[i] :: (l.take i).eraseIdx j) :=
          (set_perm_cons_eraseIdx hjl _).cons _
      _ |>.Perm (l[i] :: l[j] :: (l.take i).eraseIdx j) := .swap _ _ _
      _ |>.Perm (l[i] :: l.take i) := by
          have := getElem_cons_eraseIdx_perm hjl
          rw [getElem_take] at this
          exact this.cons _
      _ |>.Perm (l.take i ++ [l[i]]) := (perm_append_singleton _ _).symm
  · rw [set_eq_of_length_le (by rw [length_take]; omega)]
    exact (perm_append_singleton _ _).symm

/-- `n` draws from the first `i` elements. Which one is drawn depends on a seed and on how many
there are. -/
def draw (pick : σ → Nat → Nat) (next : σ → σ) : Nat → Nat → σ → List β → Option (List β)
  | 0, _, _, _ => some []
  | i + 1, n, seed, l => do
    let x ← l[pick seed (i + 1)]?
    if n = 1 then some [x]
    else
      let last ← l[i]?
      let rest ← draw pick next i (n - 1) (next seed) (l.set (pick seed (i + 1)) last)
      some (x :: rest)

variable {pick : σ → Nat → Nat}

/-- It does not matter what is drawn. -/
theorem draw_map (pick : σ → Nat → Nat) (next : σ → σ) (g : β → γ) (i n : Nat) (seed : σ)
    (l : List β) :
    draw pick next i n seed (l.map g) = (draw pick next i n seed l).map (List.map g) := by
  induction i generalizing n seed l with
  | zero => rfl
  | succ i ih =>
    simp only [draw, getElem?_map]
    cases l[pick seed (i + 1)]? with
    | none => rfl
    | some x =>
      simp only [map_some, bind_eq_bind, bind_some]
      split
      · rfl
      · cases l[i]? with
        | none => rfl
        | some last =>
          simp only [map_some, bind_some, ← map_set, ih]
          cases draw pick next i (n - 1) (next seed) (l.set (pick seed (i + 1)) last) with
          | none => rfl
          | some rest => rfl

/-- The draws are different elements of those that were there. -/
theorem exists_draw (hpick : ∀ seed i, 0 < i → pick seed i < i) (next : σ → σ) (seed : σ)
    (hn : 0 < n) (hi : i ≤ l.length) : ∃ drawn rest, draw pick next i n seed l = some drawn ∧
      drawn.length = min n i ∧
      (drawn ++ rest).Perm (l.take i) := by
  induction i generalizing n seed l with
  | zero => exact ⟨[], [], rfl, by simp, by simp⟩
  | succ i ih =>
    have hj := hpick seed (i + 1) (Nat.succ_pos i)
    have hx : l[pick seed (i + 1)]? = some l[pick seed (i + 1)] := getElem?_eq_getElem (by omega)
    have hlast : l[i]? = some l[i] := getElem?_eq_getElem (by omega)
    have hperm := cons_take_set_perm (Nat.le_of_lt_succ hj) hi
    simp only [draw, hx, hlast, bind_eq_bind, bind_some]
    rcases Nat.eq_or_lt_of_le hn with rfl | hlt
    · exact ⟨[l[pick seed (i + 1)]], _, by simp, by simp, hperm⟩
    · obtain ⟨drawn, rest, hdrawn, hlength, hrest⟩ := ih (n := n - 1) (next seed)
        (l := l.set (pick seed (i + 1)) l[i]) (by omega) (by rw [length_set]; omega)
      refine ⟨l[pick seed (i + 1)] :: drawn, rest, ?_, ?_, (hrest.cons _).trans hperm⟩
      · rw [if_neg (by omega), hdrawn, bind_some]
      · rw [length_cons, hlength]
        omega

/-- Draws from the whole of a list come from different positions. -/
theorem exists_positions (hpick : ∀ seed i, 0 < i → pick seed i < i) (next : σ → σ) (seed : σ)
    (hn : 0 < n) (hle : n ≤ l.length) : ∃ positions : List (Fin l.length), positions.Nodup ∧
      positions.length = n ∧
      draw pick next l.length n seed l = some (positions.map l.get) := by
  have hrange : (finRange l.length).length = l.length := length_finRange
  obtain ⟨positions, rest, hdraw, hlength, hperm⟩ :=
    exists_draw (l := finRange l.length) (i := l.length) hpick next seed hn
      (Nat.le_of_eq hrange.symm)
  rw [take_of_length_le (Nat.le_of_eq hrange)] at hperm
  refine ⟨positions, ?_, by omega, ?_⟩
  · exact (nodup_append.1 (hperm.nodup_iff.2 (nodup_finRange _))).1
  · have hmap := draw_map pick next l.get l.length n seed (finRange l.length)
    rwa [map_get_finRange, hdraw] at hmap

end Draw
