import Mathlib

/-! Memory as bytes at addresses, with little-endian words in it. -/
namespace Syli.Foundation

abbrev ByteMemory := Nat → BitVec 8

namespace ByteMemory

variable {w : Nat}

/-- The bytes that a word of `w` bits takes. -/
def bytesOf (w : Nat) : Nat := (w + 7) / 8

/-- The bits above the word in its last byte are zero. -/
def store (mem : ByteMemory) (a : Nat) (v : BitVec w) : ByteMemory := fun x =>
  if a ≤ x ∧ x < a + bytesOf w then v.extractLsb' (8 * (x - a)) 8 else mem x

def load (mem : ByteMemory) (w a : Nat) : BitVec w :=
  BitVec.ofFnLE fun i : Fin w => (mem (a + i / 8)).getLsbD (i % 8)

theorem load_store (mem : ByteMemory) (a : Nat) (v : BitVec w) : load (store mem a v) w a = v := by
  apply BitVec.eq_of_getLsbD_eq
  intro i hi
  have hbyte : i / 8 < bytesOf w := by
    unfold bytesOf
    omega
  have hlt : i % 8 < 8 := Nat.mod_lt i (by omega)
  have hload : (load (store mem a v) w a).getLsbD i =
      (v.extractLsb' (8 * (i / 8)) 8).getLsbD (i % 8) := by
    simp [load, store, hi, hbyte]
  rw [hload, BitVec.getLsbD_extractLsb', Nat.div_add_mod i 8]
  simp [hlt]

end ByteMemory

end Syli.Foundation
