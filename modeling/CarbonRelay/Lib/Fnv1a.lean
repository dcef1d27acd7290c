import CarbonRelay.Lib.Text

/-!
# The FNV-1a hash

The 32-bit and 64-bit variants over a text. A character above 127 is a negative `char`, so it enters
the hash with its sign extended to the width of the hash.
-/

namespace Fnv1a

/-- The value of a `char` converted to an unsigned number of `w` bits. -/
def charBits (w : Nat) (c : Char) : Nat :=
  if c.toNat < 128 then c.toNat else 2 ^ w - 256 + c.toNat

/-- One step of the hash: exclusive or, then the product with the prime. -/
def step (w prime hash : Nat) (c : Char) : Nat :=
  (hash ^^^ charBits w c) * prime % 2 ^ w

/-- `fnv1a_32` over a text. -/
def hash32 (s : Text) : Nat := s.foldl (step 32 16777619) 2166136261

/-- `fnv1a_64` over a text. -/
def hash64 (s : Text) : Nat := s.foldl (step 64 1099511628211) 14695981039346656037

end Fnv1a
