import Mathlib.Data.Int.ModEq
import Mathlib.Tactic.Linarith

/-! Integers of 63 bits, whose sums wrap. -/
namespace Syli.Foundation

/-- The number of native integers, which have 63 bits. -/
def intSize : Nat := 2 ^ 63

def addInt (a b : Int) : Int := (a + b).bmod intSize

/-- A native integer holds the number up to a multiple of its size. -/
@[irreducible] def native (n : Nat) : Int := (n : Int).bmod intSize

theorem addInt_native (a b : Nat) : addInt (native a) (native b) = native (a + b) := by
  unfold addInt native
  rw [Nat.cast_add, ← Int.add_bmod]

theorem native_zero : native 0 = 0 := by
  unfold native
  exact Int.zero_bmod

theorem native_of_lt {n : Nat} (h : n < 2 ^ 62) : native n = n := by
  unfold native
  apply Int.bmod_eq_of_le <;> simp only [intSize] <;> omega

theorem native_overflow : native (2 ^ 62) < 0 := by
  unfold native Int.bmod intSize
  dsimp only
  split <;> omega

end Syli.Foundation
