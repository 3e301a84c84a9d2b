import Mathlib

/-!
# Numbers of 32 bits

Unsigned numbers are natural numbers that are reduced after each operation, and
the signed number of a word is an integer.
-/

namespace Word32

/-- Not to be unfolded by unification, which would count to `2 ^ 32`. -/
@[irreducible] def u32 (n : Nat) : Nat := n % 2 ^ 32

def toInt (n : Nat) : Int := if n < 2 ^ 31 then n else n - 2 ^ 32

theorem u32_eq (n : Nat) : u32 n = n % 2 ^ 32 := by
  unfold u32
  rfl

theorem u32_lt (n : Nat) : u32 n < 2 ^ 32 := by
  rw [u32_eq]
  exact Nat.mod_lt _ (by decide)

theorem u32_of_lt (h : n < 2 ^ 32) : u32 n = n := by
  rw [u32_eq, Nat.mod_eq_of_lt h]

end Word32
