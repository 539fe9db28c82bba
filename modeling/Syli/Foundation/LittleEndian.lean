import Mathlib.Data.List.Infix
import Mathlib.Tactic.Ring

/-! Little-endian numbers in a list of bytes, read at an offset. -/
namespace Syli.Foundation

abbrev Bytes := List (BitVec 8)

variable {bytes xs ys : Bytes} {a k x : Nat}

/-- The lowest `k` bytes of the number. -/
def littleEndian : Nat → Nat → Bytes
  | 0, _ => []
  | k + 1, x => BitVec.ofNat 8 x :: littleEndian k (x / 256)

def ofLittleEndian : Bytes → Nat
  | [] => 0
  | b :: bs => b.toNat + 256 * ofLittleEndian bs

/-- A number of `k` bytes, none where they do not lie in the list. -/
def readNat (bytes : Bytes) (a k : Nat) : Option Nat :=
  if a + k ≤ bytes.length then some (ofLittleEndian ((bytes.drop a).take k)) else none

/-- The chunk stands at the offset `a`. -/
def StandsAt (bytes : Bytes) (a : Nat) (chunk : Bytes) : Prop := chunk <+: bytes.drop a

@[simp] theorem length_littleEndian (k x : Nat) : (littleEndian k x).length = k := by
  induction k generalizing x with
  | zero => rfl
  | succ k ih => simp [littleEndian, ih]

theorem ofLittleEndian_littleEndian (hx : x < 256 ^ k) :
    ofLittleEndian (littleEndian k x) = x := by
  induction k generalizing x with
  | zero =>
    rw [pow_zero] at hx
    simp only [littleEndian, ofLittleEndian]
    omega
  | succ k ih =>
    have hdiv : x / 256 < 256 ^ k := by
      rw [pow_succ] at hx
      exact Nat.div_lt_of_lt_mul (by rwa [mul_comm] at hx)
    rw [littleEndian, ofLittleEndian, ih hdiv, BitVec.toNat_ofNat]
    omega

theorem standsAt_self (bytes : Bytes) : StandsAt bytes 0 bytes := List.prefix_refl bytes

theorem standsAt_append :
    StandsAt bytes a (xs ++ ys) ↔ StandsAt bytes a xs ∧ StandsAt bytes (a + xs.length) ys := by
  have hdrop : bytes.drop (a + xs.length) = (bytes.drop a).drop xs.length :=
    (List.drop_drop).symm
  unfold StandsAt
  rw [hdrop]
  constructor
  · rintro ⟨rest, hrest⟩
    rw [← hrest, List.append_assoc]
    refine ⟨List.prefix_append _ _, ?_⟩
    rw [List.drop_left]
    exact List.prefix_append _ _
  · rintro ⟨⟨rest, hrest⟩, hys⟩
    rw [← hrest, List.drop_left] at hys
    rw [← hrest]
    exact (List.prefix_append_right_inj xs).mpr hys

/-- A number that stands at an offset is read there. -/
theorem StandsAt.readNat (h : StandsAt bytes a (littleEndian k x)) (hk : 0 < k)
    (hx : x < 256 ^ k) : readNat bytes a k = some x := by
  have hlength := h.length_le
  rw [length_littleEndian, List.length_drop] at hlength
  have htake : (bytes.drop a).take k = littleEndian k x := by
    have := (List.prefix_iff_eq_take.mp h).symm
    rwa [length_littleEndian] at this
  rw [Foundation.readNat, if_pos (by omega), htake, ofLittleEndian_littleEndian hx]

end Syli.Foundation
