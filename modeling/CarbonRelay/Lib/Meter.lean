import Mathlib.Data.BitVec

/-!
# Meters

A meter is a total that is added to, with the total at the last reading. A reading gives the
difference. All of it is arithmetic in a group, so totals may wrap around. `Meter.Tracks` says by
how much a reading is short of what was added since the last one. With words of `w` bits a reading
is exact if and only if it is not short of anything and less than `2 ^ w` was added
(`Meter.Tracks.read_exact_iff`).
-/

/-- A total, and the total at the last reading. -/
structure Meter (R : Type) where
  total : R
  seen : R
  deriving DecidableEq, Repr

namespace Meter

/-- The total grows. -/
def add {R : Type} [Add R] [NatCast R] (m : Meter R) (n : Nat) : Meter R :=
  { m with total := m.total + n }

/-- A reading, and the meter after it. -/
def read {R : Type} [Add R] [Sub R] (m : Meter R) : R × Meter R :=
  (m.total - m.seen, { m with seen := m.seen + (m.total - m.seen) })

section
variable {R : Type} [AddCommGroupWithOne R] {m : Meter R} {since : Nat} {short : R}

/-- The next reading is what was added since the last one, but for `short`. -/
def Tracks (m : Meter R) (since : Nat) (short : R) : Prop := m.total - m.seen = since - short

theorem tracks_new (seen : R) : (⟨0, seen⟩ : Meter R).Tracks 0 seen := by
  simp [Tracks]

theorem Tracks.add (h : m.Tracks since short) (n : Nat) : (m.add n).Tracks (since + n) short := by
  rw [Tracks] at h
  rw [Tracks, Meter.add, add_sub_right_comm, h, Nat.cast_add, add_sub_right_comm]

theorem Tracks.read : m.read.2.Tracks 0 0 := by
  simp [Tracks, Meter.read]

/-- A meter whose total starts again. -/
theorem Tracks.restart (h : m.Tracks since short) :
    (⟨0, m.seen⟩ : Meter R).Tracks since (short + m.total) := by
  rw [Tracks] at h ⊢
  rw [← sub_sub, ← h, sub_right_comm, sub_self]

end

/-- A reading is exact if it is not short of anything, and what was added fits into a word. -/
theorem Tracks.read_exact_iff {w : Nat} {m : Meter (BitVec w)} {since : Nat} {short : BitVec w}
    (h : m.Tracks since short) : m.read.1.toNat = since ↔ since < 2 ^ w ∧ short = 0 := by
  have hread : m.read.1 = since - short := h
  constructor
  · intro hexact
    have hlt : since < 2 ^ w := hexact ▸ m.read.1.isLt
    refine ⟨hlt, ?_⟩
    have hword : m.read.1 = (since : BitVec w) := by
      apply BitVec.eq_of_toNat_eq
      rw [hexact]
      exact (Nat.mod_eq_of_lt hlt).symm
    rw [hread, sub_eq_self] at hword
    exact hword
  · rintro ⟨hlt, rfl⟩
    rw [hread, sub_zero]
    exact Nat.mod_eq_of_lt hlt

end Meter
