import CarbonRelay.Router.Optimise

/-!
# The scans for the tail of an expression

`router_optimise` looks for the last word of an expression with two loops that go backwards, one to
strip off what is behind the word and one to copy it, in reverse, into `pblock`. Here they are
modelled by the positions they read and write. What is read is always in the expression. But a word
that fills `pblock` leaves no room for its terminator.
-/

namespace CarbonRelay

open List

/-- The character at a position. Behind the last one there is the terminator. -/
def charAt (pattern : Text) (p : Nat) : Char := pattern[p]?.getD '\x00'

/-- `router.c:1601`, the loop over backslashes from `p` on: where it ends, whether their number is
odd, and the positions it reads. -/
def escapeLoop (pattern : Text) : Nat → Bool → Nat × Bool × List Nat
  | 0, esc => (0, esc, [])
  | p + 1, esc =>
    if charAt pattern (p + 1) = '\\' then
      let r := escapeLoop pattern p (!esc)
      (r.1, r.2.1, (p + 1) :: r.2.2)
    else (p + 1, esc, [p + 1])

/-- The number of open parentheses. It is unsigned. -/
def openSum (bsum : BitVec 64) (oe : Char) (esc : Bool) : BitVec 64 :=
  if esc then bsum else if oe = ')' then bsum + 1 else bsum - 1

/-- `router.c:1584`, the loop that strips off what cannot belong to a tail: where it ends and what
it reads. -/
def stripLoop (pattern : Text) : Nat → BitVec 64 → Nat → Option (Nat × List Nat)
  | 0, _, _ => none
  | n + 1, bsum, p =>
    if p = 0 then some (0, [])
    else if 0 < bsum ∨ ¬isTailChar (charAt pattern p) then
      if charAt pattern p = ')' ∨ charAt pattern p = '(' then
        (stripLoop pattern n (openSum bsum (charAt pattern p)
          (escapeLoop pattern (p - 1) false).2.1)
          (escapeLoop pattern (p - 1) false).1).map fun (q, reads) =>
            (q, p :: (escapeLoop pattern (p - 1) false).2.2 ++ reads)
      else (stripLoop pattern n bsum (p - 1)).map fun (q, reads) => (q, p :: reads)
    else some (p, [p])

/-- `router.c:1633`, the loop that copies the tail, with the position behind the one it looks at:
what it reads, where it writes in `pblock`, the terminator included, and the characters. -/
def blockLoop (pattern : Text) : Nat → Nat → List Nat × List Nat × Text
  | 0, b => ([], [b], [])
  | p + 1, b =>
    if b < pblockSize then
      if isTailChar (charAt pattern p) then
        let r := blockLoop pattern p (b + 1)
        (p :: r.1, b :: r.2.1, charAt pattern p :: r.2.2)
      else ([p], [b], [])
    else ([], [b], [])

/-- The positions that are read in the expression and written in `pblock`, and what is in it. -/
structure TailRun where
  reads : List Nat
  writes : List Nat
  block : Option Text
  deriving DecidableEq, Repr

/-- Where the first loop ends, and what it reads. Every turn moves back by a character at least. -/
def stripEnd (pattern : Text) : Option (Nat × List Nat) :=
  stripLoop pattern (pattern.length + 1) 0 pattern.length

/-- `router.c:1581`, both loops. -/
def tailScan (pattern : Text) : Option TailRun :=
  (stripEnd pattern).map fun (p, reads) =>
    if p = 0 then ⟨reads, [], none⟩
    else
      let r := blockLoop pattern (p + 1) 0
      ⟨reads ++ r.1, r.2.1, some r.2.2⟩

/-- The scans end, and stay in the expression with its terminator and in `pblock`. -/
def ScansInBounds (pattern : Text) : Prop :=
  ∃ run, tailScan pattern = some run ∧ (∀ i ∈ run.reads, i ≤ pattern.length) ∧ ∀ i ∈ run.writes,
    i < pblockSize

/-! ## Reads -/

section
variable {pattern : Text} {n p : Nat}

theorem escapeLoop_le (pattern : Text) (p : Nat) (esc : Bool) :
    (escapeLoop pattern p esc).1 ≤ p ∧ ∀ i ∈ (escapeLoop pattern p esc).2.2, i ≤ p := by
  induction p generalizing esc with
  | zero => exact ⟨le_rfl, fun _ => nofun⟩
  | succ p ih =>
    rw [escapeLoop]
    split
    · obtain ⟨hle, hreads⟩ := ih (!esc)
      refine ⟨Nat.le_succ_of_le hle, forall_mem_cons.2 ⟨le_rfl, fun i hi => ?_⟩⟩
      exact Nat.le_succ_of_le (hreads i hi)
    · exact ⟨le_rfl, forall_mem_singleton.2 le_rfl⟩

/-- The first loop ends, and reads nothing behind its start. -/
theorem exists_stripLoop (bsum : BitVec 64) (hn : p < n) :
    ∃ q reads, stripLoop pattern n bsum p = some (q, reads) ∧ q ≤ p ∧ ∀ i ∈ reads, i ≤ p := by
  induction n generalizing bsum p with
  | zero => cases hn
  | succ n ih =>
    rw [stripLoop]
    split
    · exact ⟨0, [], rfl, Nat.zero_le p, fun _ => nofun⟩
    · next hp =>
      split
      · split
        · obtain ⟨hle, hescapes⟩ := escapeLoop_le pattern (p - 1) false
          obtain ⟨q, reads, hloop, hq, hreads⟩ := ih
            (openSum bsum (charAt pattern p) (escapeLoop pattern (p - 1) false).2.1)
            (show (escapeLoop pattern (p - 1) false).1 < n by omega)
          refine ⟨q, _, by rw [hloop]; rfl, by omega, forall_mem_append.2 ⟨?_, fun i hi => ?_⟩⟩
          · exact forall_mem_cons.2 ⟨le_rfl, fun i hi => (hescapes i hi).trans (Nat.sub_le p 1)⟩
          · have := hreads i hi
            omega
        · obtain ⟨q, reads, hloop, hq, hreads⟩ := ih bsum (show p - 1 < n by omega)
          refine ⟨q, _, by rw [hloop]; rfl, by omega, forall_mem_cons.2 ⟨le_rfl, fun i hi => ?_⟩⟩
          exact (hreads i hi).trans (Nat.sub_le p 1)
      · exact ⟨p, [p], rfl, le_rfl, forall_mem_singleton.2 le_rfl⟩

theorem exists_stripEnd (pattern : Text) : ∃ p reads, stripEnd pattern = some (p, reads) ∧
    p ≤ pattern.length ∧ ∀ i ∈ reads, i ≤ pattern.length :=
  exists_stripLoop 0 (Nat.lt_succ_self _)

theorem blockLoop_reads_lt (pattern : Text) (p b : Nat) : ∀ i ∈ (blockLoop pattern p b).1,
    i < p := by
  induction p generalizing b with
  | zero => exact fun _ => nofun
  | succ p ih =>
    rw [blockLoop]
    split
    · split
      · exact forall_mem_cons.2
          ⟨Nat.lt_succ_self p, fun i hi => Nat.lt_succ_of_lt (ih (b + 1) i hi)⟩
      · exact forall_mem_singleton.2 (Nat.lt_succ_self p)
    · exact fun _ => nofun

/-! ## Writes -/

/-- The number of letters in front of a position. -/
def lettersBack (pattern : Text) : Nat → Nat
  | 0 => 0
  | p + 1 => if isTailChar (charAt pattern p) then lettersBack pattern p + 1 else 0

/-- The length of the word that the first loop ends at. -/
def tailLetters (pattern : Text) : Nat :=
  match stripEnd pattern with
  | none | some (0, _) => 0
  | some (p + 1, _) => lettersBack pattern (p + 2)

/-- A word that fits with its terminator is written where it should be, and one that does not is
not. -/
theorem blockLoop_writes_lt_iff (pattern : Text) (p : Nat) {b : Nat} (hb : b ≤ pblockSize) :
    (∀ i ∈ (blockLoop pattern p b).2.1, i < pblockSize) ↔
      b + lettersBack pattern p < pblockSize := by
  induction p generalizing b with
  | zero => exact forall_mem_singleton
  | succ p ih =>
    rw [blockLoop, lettersBack]
    split
    · next hlt =>
      split
      · rw [forall_mem_cons, and_iff_right hlt, ih hlt]
        omega
      · exact forall_mem_singleton
    · next hge =>
      refine iff_of_false (fun h => hge (h b mem_cons_self)) ?_
      omega

/-! ## The scans on the text -/

variable {q : Nat}

/-- The expression with its terminator, from a position back to the start. -/
def back (pattern : Text) (p : Nat) : Text := ((pattern ++ ['\x00']).take (p + 1)).reverse

theorem reverse_take_succ (hp : p ≤ pattern.length) : ((pattern ++ ['\x00']).take (p + 1)).reverse =
    charAt pattern p :: ((pattern ++ ['\x00']).take p).reverse := by
  have hchar : (pattern ++ ['\x00'])[p]? = some (charAt pattern p) := by
    rw [charAt]
    rcases Nat.lt_or_eq_of_le hp with hlt | rfl
    · rw [getElem?_append_left hlt, getElem?_eq_getElem hlt]
      rfl
    · rw [getElem?_append_right le_rfl, getElem?_eq_none le_rfl, Nat.sub_self]
      rfl
  rw [take_add_one, hchar, Option.toList_some, reverse_append]
  rfl

theorem back_succ (hp : p < pattern.length) :
    back pattern (p + 1) = charAt pattern (p + 1) :: back pattern p :=
  reverse_take_succ hp

theorem back_zero (pattern : Text) : back pattern 0 = [charAt pattern 0] :=
  reverse_take_succ (Nat.zero_le _)

theorem exists_back (hp : p ≤ pattern.length) : ∃ d s, back pattern p = d :: s := by
  cases p with
  | zero => exact ⟨_, _, back_zero pattern⟩
  | succ p => exact ⟨_, _, back_succ hp⟩

theorem back_length (pattern : Text) : back pattern pattern.length = '\x00' :: pattern.reverse := by
  rw [back, take_of_length_le (by simp), reverse_append]
  rfl

theorem skipEscapes_back (hp : p ≤ pattern.length) (esc : Bool) : skipEscapes (back pattern p) esc =
    (back pattern (escapeLoop pattern p esc).1, (escapeLoop pattern p esc).2.1) := by
  induction p generalizing esc with
  | zero => simp only [escapeLoop, back_zero, skipEscapes]
  | succ p ih =>
    obtain ⟨d, s, hback⟩ := exists_back (Nat.le_of_succ_le hp)
    rw [back_succ hp, escapeLoop, hback, skipEscapes]
    split
    · rw [← hback, ih (Nat.le_of_succ_le hp)]
    · rw [← hback, back_succ hp]

theorem zero_lt_ofInt_iff {bsum : Int} (h : bsum.natAbs < 2 ^ 64) :
    0 < BitVec.ofInt 64 bsum ↔ bsum ≠ 0 := by
  rw [BitVec.lt_def, BitVec.toNat_ofInt, show BitVec.toNat (0 : BitVec 64) = 0 from rfl]
  omega

theorem openSum_ofInt (bsum : Int) (c : Char) (esc : Bool) : openSum (BitVec.ofInt 64 bsum) c esc =
    BitVec.ofInt 64 (if esc then bsum else if c = ')' then bsum + 1 else bsum - 1) := by
  unfold openSum
  split
  · rfl
  · split
    · rw [BitVec.ofInt_add]
      rfl
    · rw [Int.sub_eq_add_neg, BitVec.ofInt_add, BitVec.sub_eq_add_neg]
      rfl

/-- The positions of the first loop are those of `stripTail`, as there are not enough parentheses
for the counter to come around to zero. -/
theorem stripTail_back {bsum : Int} {reads : List Nat} (hlength : pattern.length < 2 ^ 64)
    (hbsum : bsum.natAbs + p ≤ pattern.length)
    (h : stripLoop pattern n (BitVec.ofInt 64 bsum) p = some (q, reads)) :
    stripTail n bsum (back pattern p) = back pattern q := by
  induction n generalizing bsum p q reads with
  | zero => cases h
  | succ n ih =>
    rw [stripLoop] at h
    cases p with
    | zero =>
      cases h
      rw [back_zero, stripTail]
      exact fun _ _ _ => nofun
    | succ p =>
      have hsum : 0 < BitVec.ofInt 64 bsum ↔ bsum ≠ 0 := zero_lt_ofInt_iff (by omega)
      simp only [if_neg (Nat.succ_ne_zero p), hsum, Nat.add_sub_cancel] at h
      obtain ⟨d, s, hback⟩ := exists_back (show p ≤ pattern.length by omega)
      rw [back_succ (by omega), hback, stripTail, ← hback]
      split at h
      · next hgo =>
        rw [if_pos hgo]
        split at h
        · next hparen =>
          obtain ⟨⟨_, _⟩, hloop, heq⟩ := Option.map_eq_some_iff.1 h
          cases heq
          have hle := (escapeLoop_le pattern p false).1
          rw [openSum_ofInt] at hloop
          rw [if_pos hparen, skipEscapes_back (by omega)]
          refine ih ?_ hloop
          split
          · omega
          · split <;> omega
        · next hparen =>
          obtain ⟨⟨_, _⟩, hloop, heq⟩ := Option.map_eq_some_iff.1 h
          cases heq
          rw [if_neg hparen]
          exact ih (by omega) hloop
      · next hgo =>
        cases h
        rw [if_neg hgo, back_succ (by omega)]

theorem blockLoop_chars (hp : p ≤ pattern.length + 1) {b : Nat} (hb : b ≤ pblockSize) :
    (blockLoop pattern p b).2.2 =
      (((pattern ++ ['\x00']).take p).reverse.takeWhile isTailChar).take (pblockSize - b) := by
  induction p generalizing b with
  | zero => simp [blockLoop]
  | succ p ih =>
    rw [reverse_take_succ (Nat.le_of_succ_le_succ hp), blockLoop]
    split
    · next hlt =>
      split
      · next hletter =>
        rw [takeWhile_cons_of_pos hletter, show pblockSize - b = pblockSize - (b + 1) + 1 by omega,
          take_succ_cons, ← ih (Nat.le_of_succ_le hp) (Nat.succ_le_of_lt hlt)]
      · next hletter => rw [takeWhile_cons_of_neg hletter, take_nil]
    · next hge =>
      rw [show pblockSize - b = 0 by omega]
      rfl

/-- The tail of a rule is what the scans find, unless it is too short. -/
theorem routeTail_eq {run : TailRun} (hlength : pattern.length < 2 ^ 64)
    (h : tailScan pattern = some run) :
    routeTail pattern = run.block.bind fun b => if b.length < 3 then none else some b := by
  obtain ⟨p, reads, hend, hp, -⟩ := exists_stripEnd pattern
  have hstrip : stripTail (pattern.length + 1) 0 ('\x00' :: pattern.reverse) = back pattern p := by
    rw [← back_length]
    exact stripTail_back hlength (by simp) hend
  have hback : (back pattern p).length = p + 1 := by
    rw [back, length_reverse, length_take, length_append]
    simp only [length_cons, length_nil]
    omega
  simp only [tailScan, hend, Option.map_some, Option.some.injEq] at h
  simp only [routeTail, hstrip, hback]
  rcases Nat.eq_zero_or_pos p with rfl | hpos
  · subst h
    rfl
  · rw [if_neg (show ¬p = 0 by omega)] at h
    subst h
    rw [if_neg (show ¬p + 1 ≤ 1 by omega), Option.bind_some,
      blockLoop_chars (Nat.succ_le_succ hp) (Nat.zero_le pblockSize)]
    rfl

end

/-- The scans stay in bounds if the word they find is shorter than `pblock`. -/
theorem scansInBounds_iff (pattern : Text) :
    ScansInBounds pattern ↔ tailLetters pattern < pblockSize := by
  obtain ⟨p, reads, hend, hp, hreads⟩ := exists_stripEnd pattern
  rw [ScansInBounds, tailScan, tailLetters, hend]
  cases p with
  | zero => exact iff_of_true ⟨_, rfl, hreads, fun _ => nofun⟩ (show 0 < pblockSize by decide)
  | succ p =>
    have hwrites := blockLoop_writes_lt_iff pattern (p + 2) (Nat.zero_le pblockSize)
    rw [Nat.zero_add] at hwrites
    rw [← hwrites]
    constructor
    · rintro ⟨_, ⟨⟩, -, h⟩
      exact h
    · intro h
      refine ⟨_, rfl, forall_mem_append.2 ⟨hreads, fun i hi => ?_⟩, h⟩
      have := blockLoop_reads_lt pattern (p + 2) 0 i hi
      omega

/-- A word of 64 letters. -/
theorem long_word_overflows : ¬ScansInBounds (List.replicate 64 'a') := by
  have hrun : tailScan (List.replicate 64 'a') =
      some ⟨[64, 63] ++ (List.range 64).reverse, List.range 65, some (List.replicate 64 'a')⟩ := by
    decide +kernel
  rintro ⟨run, hrun', -, hwrites⟩
  cases hrun.symm.trans hrun'
  exact absurd (hwrites 64 (by decide)) (by decide)

end CarbonRelay
