import CarbonRelay.Lib.EreLiteral
import Mathlib.Data.List.TakeWhile

/-!
# Scanners

A scanner has a list of rules, each with an expression. Of the rules that match at the start of the
input the one with the longest match is picked, and of those the first (`Scanner.pick`). Matches of
nothing do not count.
-/

namespace Scanner

open List
open Ere (Matches)

variable {ρ : Type} {pattern : ρ → Ere} {s : Text} {r : Ere} {n : Nat}

/-! ## Lengths of matches -/

/-- The length of the longest match at the start, zero if there is none. -/
def matchLength (r : Ere) (s : Text) : Nat := (Ere.ends s r 0).max?.getD 0

theorem le_matchLength (h : Matches s r 0 n) : n ≤ matchLength r s := by
  have hmem : n ∈ Ere.ends s r 0 := (Ere.mem_ends (Nat.zero_le _)).2 h
  obtain ⟨m, hm⟩ := Option.isSome_iff_exists.1 (isSome_max?_of_mem hmem)
  rw [matchLength, hm]
  exact (Ere.mem_ends_max (Nat.zero_le _) hm).2 n h

theorem matches_matchLength (h : 0 < matchLength r s) : Matches s r 0 (matchLength r s) := by
  rw [matchLength] at h ⊢
  cases hm : (Ere.ends s r 0).max? with
  | none =>
    rw [hm] at h
    exact absurd h (Nat.lt_irrefl 0)
  | some m => exact (Ere.mem_ends_max (Nat.zero_le _) hm).1

theorem matchLength_le_length (r : Ere) (s : Text) : matchLength r s ≤ s.length := by
  rcases Nat.eq_zero_or_pos (matchLength r s) with h | h
  · rw [h]
    exact Nat.zero_le _
  · exact (matches_matchLength h).le.2 (Nat.zero_le _)

/-- The longest match has all that is true of every match. -/
theorem matchLength_le (h : ∀ m, Matches s r 0 m → m ≤ n) : matchLength r s ≤ n := by
  rcases Nat.eq_zero_or_pos (matchLength r s) with hzero | hpos
  · rw [hzero]
    exact Nat.zero_le n
  · exact h _ (matches_matchLength hpos)

/-- Less than the whole text is matched. -/
theorem matchLength_lt_length (hs : s ≠ []) (h : ¬Matches s r 0 s.length) :
    matchLength r s < s.length := by
  refine lt_of_le_of_ne (matchLength_le_length r s) fun heq => h ?_
  have hpos : 0 < matchLength r s := heq ▸ length_pos_of_ne_nil hs
  have hmatches := matches_matchLength hpos
  rw [heq] at hmatches
  exact hmatches

/-! ## Picking a rule -/

/-- The first rule with the longest match, and the length of it. -/
def pick (pattern : ρ → Ere) (s : Text) : List ρ → Option (ρ × Nat)
  | [] => none
  | r :: rs =>
    let n := matchLength (pattern r) s
    match pick pattern s rs with
    | none => if n = 0 then none else some (r, n)
    | some (r', m) => if m ≤ n then some (r, n) else some (r', m)

/-- A rule is picked: the ones in front of it match less, and the ones behind it not more. -/
structure Picked (pattern : ρ → Ere) (s : Text) (front : List ρ) (rule : ρ) (back : List ρ)
    (n : Nat) : Prop where
  length : matchLength (pattern rule) s = n
  pos : 0 < n
  front : ∀ r ∈ front, matchLength (pattern r) s < n
  back : ∀ r ∈ back, matchLength (pattern r) s ≤ n

variable {rule : ρ} {rules front back : List ρ}

theorem pick_eq_none (h : pick pattern s rules = none) :
    ∀ r ∈ rules, matchLength (pattern r) s = 0 := by
  induction rules with
  | nil => exact fun _ => nofun
  | cons r rs ih =>
    rw [pick] at h
    split at h
    · next hnone =>
      split at h
      · next hzero => exact forall_mem_cons.2 ⟨hzero, ih hnone⟩
      · cases h
    · split at h <;> cases h

theorem exists_picked (h : pick pattern s rules = some (rule, n)) :
    ∃ front back, rules = front ++ rule :: back ∧ Picked pattern s front rule back n := by
  induction rules generalizing rule n with
  | nil => cases h
  | cons r rs ih =>
    rw [pick] at h
    split at h
    · next hnone =>
      split at h
      · cases h
      · next hne =>
        cases h
        refine ⟨[], rs, rfl, rfl, Nat.pos_of_ne_zero hne, fun _ => nofun, fun r' hr' => ?_⟩
        rw [pick_eq_none hnone r' hr']
        exact Nat.zero_le _
    · next r' m hsome =>
      obtain ⟨front, back, rfl, hpicked⟩ := ih hsome
      split at h
      · next hle =>
        cases h
        refine ⟨[], _, rfl, rfl, hpicked.pos.trans_le hle, fun _ => nofun, fun r'' hr'' => ?_⟩
        rcases mem_append.1 hr'' with hr'' | hr''
        · exact (hpicked.front r'' hr'').le.trans hle
        · rcases mem_cons.1 hr'' with rfl | hr''
          · exact hpicked.length.le.trans hle
          · exact (hpicked.back r'' hr'').trans hle
      · next hlt =>
        cases h
        refine ⟨r :: front, back, rfl, hpicked.length, hpicked.pos, ?_, hpicked.back⟩
        exact forall_mem_cons.2 ⟨Nat.lt_of_not_le hlt, hpicked.front⟩

theorem Picked.pick_eq (h : Picked pattern s front rule back n) :
    pick pattern s (front ++ rule :: back) = some (rule, n) := by
  induction front with
  | nil =>
    rw [nil_append, pick, h.length]
    split
    · rw [if_neg (Nat.ne_of_gt h.pos)]
    · next r' m hsome =>
      obtain ⟨_, _, hback, hpicked⟩ := exists_picked hsome
      have hle := h.back r' (hback ▸ mem_append_right _ mem_cons_self)
      rw [hpicked.length] at hle
      rw [if_pos hle]
  | cons r front ih =>
    obtain ⟨hr, hfront⟩ := forall_mem_cons.1 h.front
    rw [cons_append, pick, ih ⟨h.length, h.pos, hfront, h.back⟩]
    simp only
    rw [if_neg (Nat.not_le.2 hr)]

/-- For a rule that does not stand in front, being picked is this. -/
theorem pick_append_cons_iff (hfront : rule ∉ front) :
    pick pattern s (front ++ rule :: back) = some (rule, n) ↔
      Picked pattern s front rule back n := by
  refine ⟨fun h => ?_, Picked.pick_eq⟩
  obtain ⟨front', back', hsplit, hpicked⟩ := exists_picked h
  rcases append_eq_append_iff.1 hsplit with ⟨as, hfront', hrest⟩ | ⟨bs, hfront', hrest⟩
  · cases as with
    | nil =>
      obtain ⟨-, rfl⟩ := cons.inj hrest
      rw [append_nil] at hfront'
      exact hfront' ▸ hpicked
    | cons r as =>
      obtain ⟨rfl, hback⟩ := cons.inj hrest
      have hless := hpicked.front rule (hfront' ▸ mem_append_right _ mem_cons_self)
      exact absurd hpicked.length (Nat.ne_of_lt hless)
  · cases bs with
    | nil =>
      obtain ⟨-, rfl⟩ := cons.inj hrest
      rw [append_nil] at hfront'
      exact hfront' ▸ hpicked
    | cons r bs =>
      obtain ⟨rfl, -⟩ := cons.inj hrest
      exact absurd (hfront' ▸ mem_append_right _ mem_cons_self) hfront

/-! ## First characters -/

/-- A match may be of nothing. -/
def nullable : Ere → Bool
  | .eps | .bol | .eol | .star _ => true
  | .one _ => false
  | .cat r t => nullable r && nullable t
  | .alt r t => nullable r || nullable t
  | .group r => nullable r

/-- A match of something may start with the character. -/
def starts (c : Char) : Ere → Bool
  | .eps | .bol | .eol => false
  | .one p => p.mem c
  | .cat r t => starts c r || nullable r && starts c t
  | .alt r t => starts c r || starts c t
  | .star r | .group r => starts c r

theorem nullable_of_matches {i : Nat} (h : Matches s r i i) : nullable r = true := by
  induction r generalizing i with
  | one p => exact absurd h.1 (Nat.ne_of_lt (Nat.lt_succ_self i))
  | cat r t ihr iht =>
    obtain ⟨k, hr, ht⟩ := h
    obtain rfl := le_antisymm hr.le.1 ht.le.1
    simp [nullable, ihr hr, iht ht]
  | alt r t ihr iht =>
    rcases h with h | h
    · simp [nullable, ihr h]
    · simp [nullable, iht h]
  | group r ih => exact ih h
  | _ => rfl

theorem starts_of_matches {c : Char} (h : Matches (c :: s) r 0 n) (hn : 0 < n) :
    starts c r = true := by
  induction r generalizing n with
  | eps => exact absurd h hn.ne'
  | one p =>
    obtain ⟨-, d, hd, hmem⟩ := h
    cases hd
    exact hmem
  | bol => exact absurd h.2 hn.ne'
  | eol => cases h.1
  | cat r t ihr iht =>
    obtain ⟨k, hr, ht⟩ := h
    rcases Nat.eq_zero_or_pos k with rfl | hk
    · simp [starts, nullable_of_matches hr, iht ht hn]
    · simp [starts, ihr hr hk]
  | alt r t ihr iht =>
    rcases h with h | h
    · simp [starts, ihr h hn]
    · simp [starts, iht h hn]
  | star r ih =>
    induction h with
    | refl => cases hn
    | @tail k n _ hstep ihs =>
      rcases Nat.eq_zero_or_pos k with rfl | hk
      · exact ih hstep hn
      · exact ihs hk
  | group r ih => exact ih h hn

theorem matchLength_eq_zero {c : Char} (h : starts c r = false) : matchLength r (c :: s) = 0 := by
  by_contra hne
  have hpos := Nat.pos_of_ne_zero hne
  rw [starts_of_matches (matches_matchLength hpos) hpos] at h
  cases h

/-! ## Sets of single characters -/

variable {l : List Char} {c : Char} {p : CharSet}

theorem any_singles :
    ((l.map fun d => (d, d)).any fun (lo, hi) => decide (lo ≤ c) && decide (c ≤ hi)) = true ↔
      c ∈ l := by
  rw [any_map, any_eq_true]
  constructor
  · rintro ⟨d, hd, h⟩
    obtain ⟨hle, hge⟩ := (Bool.and_eq_true _ _).mp h
    rwa [Char.le_antisymm (of_decide_eq_true hge) (of_decide_eq_true hle)]
  · intro hc
    exact ⟨c, hc, by simp⟩

theorem mem_singles : CharSet.mem ⟨false, l.map fun d => (d, d)⟩ c = true ↔ c ∈ l := by
  rw [CharSet.mem, Bool.bne_false, any_singles]

theorem mem_neg_singles : CharSet.mem ⟨true, l.map fun d => (d, d)⟩ c = true ↔ c ∉ l := by
  rw [CharSet.mem, Bool.bne_true, Bool.not_eq_true', Bool.eq_false_iff, ne_eq, any_singles]

/-! ## Expressions of one or more characters -/

/-- One or more times. -/
def plus (r : Ere) : Ere := .cat r (.star r)

/-- Some characters of a set, one after the other. -/
theorem matches_star_one {i j : Nat} : Matches s (.star (.one p)) i j ↔
    i ≤ j ∧ ∀ k, i ≤ k → k < j → ∃ c, s[k]? = some c ∧ p.mem c = true := by
  constructor
  · intro h
    induction h with
    | refl => exact ⟨le_rfl, fun k hik hki => absurd hik (Nat.not_le.2 hki)⟩
    | tail _ hstep ih =>
      obtain ⟨rfl, c, hc, hmem⟩ := hstep
      refine ⟨Nat.le_succ_of_le ih.1, fun k hik hk => ?_⟩
      rcases Nat.lt_succ_iff_lt_or_eq.1 hk with hlt | rfl
      · exact ih.2 k hik hlt
      · exact ⟨c, hc, hmem⟩
  · rintro ⟨hij, h⟩
    induction j, hij using Nat.le_induction with
    | base => exact .refl
    | succ j hij ih =>
      refine (ih fun k hik hk => h k hik (Nat.lt_succ_of_lt hk)).tail
        ⟨rfl, h j hij (Nat.lt_succ_self j)⟩

theorem le_length_takeWhile_iff {p : Char → Bool} :
    n ≤ (s.takeWhile p).length ↔ ∀ k < n, ∃ c, s[k]? = some c ∧ p c = true := by
  induction s generalizing n with
  | nil =>
    rw [takeWhile_nil, length_nil, Nat.le_zero]
    constructor
    · rintro rfl
      exact fun k hk => absurd hk (Nat.not_lt_zero k)
    · intro h
      by_contra hne
      obtain ⟨c, hc, -⟩ := h 0 (Nat.pos_of_ne_zero hne)
      cases hc
  | cons c s ih =>
    cases n with
    | zero => simp
    | succ n =>
      cases hc : p c with
      | false =>
        rw [takeWhile_cons_of_neg (by simp [hc])]
        refine iff_of_false (Nat.not_succ_le_zero n) fun h => ?_
        obtain ⟨d, hd, hpd⟩ := h 0 (Nat.succ_pos n)
        cases hd
        rw [hc] at hpd
        cases hpd
      | true =>
        rw [takeWhile_cons_of_pos hc, length_cons, Nat.add_le_add_iff_right, ih]
        constructor
        · intro h k hk
          cases k with
          | zero => exact ⟨c, rfl, hc⟩
          | succ k => exact h k (Nat.lt_of_succ_lt_succ hk)
        · exact fun h k hk => h (k + 1) (Nat.succ_lt_succ hk)

theorem matches_plus_one {i j : Nat} : Matches s (plus (.one p)) i j ↔
    i < j ∧ ∀ k, i ≤ k → k < j → ∃ c, s[k]? = some c ∧ p.mem c = true := by
  constructor
  · rintro ⟨_, ⟨rfl, hfirst⟩, hrest⟩
    obtain ⟨hle, hrest⟩ := matches_star_one.1 hrest
    refine ⟨hle, fun k hik hkj => ?_⟩
    rcases Nat.eq_or_lt_of_le hik with rfl | hlt
    · exact hfirst
    · exact hrest k hlt hkj
  · rintro ⟨hlt, h⟩
    exact ⟨i + 1, ⟨rfl, h i le_rfl hlt⟩,
      matches_star_one.2 ⟨hlt, fun k hik hk => h k (by omega) hk⟩⟩

theorem matches_plus_one_zero : Matches s (plus (.one p)) 0 n ↔
    0 < n ∧ n ≤ (s.takeWhile p.mem).length := by
  rw [matches_plus_one, le_length_takeWhile_iff]
  simp only [Nat.zero_le, true_implies]

/-- The longest match of some characters of a set. -/
theorem matchLength_plus_one (p : CharSet) (s : Text) :
    matchLength (plus (.one p)) s = (s.takeWhile p.mem).length := by
  refine le_antisymm (matchLength_le fun m hm => (matches_plus_one_zero.1 hm).2) ?_
  rcases Nat.eq_zero_or_pos (s.takeWhile p.mem).length with hzero | hpos
  · rw [hzero]
    exact Nat.zero_le _
  · exact le_matchLength (matches_plus_one_zero.2 ⟨hpos, le_rfl⟩)

/-- Less than the whole text is matched if there is some other character. -/
theorem matchLength_plus_one_lt_iff :
    matchLength (plus (.one p)) s < s.length ↔ ∃ c ∈ s, p.mem c = false := by
  have hle := (List.takeWhile_prefix p.mem (l := s)).length_le
  have heq : (s.takeWhile p.mem).length = s.length ↔ ∀ c ∈ s, p.mem c = true := by
    rw [← takeWhile_eq_self_iff]
    exact ⟨(List.takeWhile_prefix _).eq_of_length, congrArg List.length⟩
  rw [matchLength_plus_one, hle.lt_iff_ne, ne_eq, heq]
  simp

/-! ## Words and single characters -/

theorem matchLength_one_le (p : CharSet) (s : Text) : matchLength (.one p) s ≤ 1 :=
  matchLength_le fun _ hm => hm.1.le

/-- A word. -/
def word (w : Text) : Ere := Ere.lits w .eps

theorem matches_word {w : Text} : Matches s (word w) 0 n ↔ w <+: s ∧ n = w.length := by
  rw [word, Ere.matches_lits, Ere.matches_eps, drop_zero, Nat.zero_add]

theorem matchLength_word_le (w s : Text) : matchLength (word w) s ≤ w.length :=
  matchLength_le fun _ hm => (matches_word.1 hm).2.le

/-- A word matches the whole of a text only if the text is the word. -/
theorem matchLength_word_lt_iff {w : Text} (hs : s ≠ []) : matchLength (word w) s < s.length ↔
    w ≠ s := by
  constructor
  · rintro h rfl
    exact Nat.not_le.2 h (le_matchLength (matches_word.2 ⟨prefix_rfl, rfl⟩))
  · intro hne
    refine matchLength_lt_length hs fun h => hne ?_
    obtain ⟨hstart, hlength⟩ := matches_word.1 h
    exact hstart.eq_of_length hlength.symm

end Scanner
