import Mathlib

/-! The two low bits of a word as a tag. -/
namespace Syli.Foundation

variable {w t : BitVec 64}

theorem getLsbD_one_word (i : Nat) : (1#64).getLsbD i = decide (i = 0) := by
  simp

theorem getLsbD_two_word (i : Nat) : (2#64).getLsbD i = decide (i = 1) := by
  rw [BitVec.getLsbD_ofNat, show 2 = 2 ^ 1 from rfl, Nat.testBit_two_pow]
  by_cases h : i = 1
  · simp [h]
  · simp [h]
    omega

theorem getLsbD_three_word (i : Nat) : (3#64).getLsbD i = decide (i < 2) := by
  rw [BitVec.getLsbD_ofNat, show 3 = 2 ^ 2 - 1 from rfl, Nat.testBit_two_pow_sub_one]
  by_cases h : i < 2
  · simp [h]
    omega
  · simp [h]

/-- A tag is read off the two low bits. -/
theorem and_three_eq_iff {b₀ b₁ : Bool}
    (ht : ∀ i, t.getLsbD i = (decide (i = 0) && b₀ || decide (i = 1) && b₁)) :
    w &&& 3#64 = t ↔ w.getLsbD 0 = b₀ ∧ w.getLsbD 1 = b₁ := by
  constructor
  · rintro rfl
    have h₀ := ht 0
    have h₁ := ht 1
    rw [BitVec.getLsbD_and, getLsbD_three_word] at h₀ h₁
    constructor
    · simpa using h₀
    · simpa using h₁
  · rintro ⟨h₀, h₁⟩
    apply BitVec.eq_of_getLsbD_eq
    intro i hi
    rw [ht, BitVec.getLsbD_and, getLsbD_three_word]
    grind

theorem and_three_eq_zero : w &&& 3#64 = 0#64 ↔ w.getLsbD 0 = false ∧ w.getLsbD 1 = false :=
  and_three_eq_iff (by simp)

theorem and_three_eq_one : w &&& 3#64 = 1#64 ↔ w.getLsbD 0 = true ∧ w.getLsbD 1 = false :=
  and_three_eq_iff (by simp)

theorem and_three_eq_two : w &&& 3#64 = 2#64 ↔ w.getLsbD 0 = false ∧ w.getLsbD 1 = true :=
  and_three_eq_iff (by intro i; rw [getLsbD_two_word]; simp)

theorem and_three_eq_three : w &&& 3#64 = 3#64 ↔ w.getLsbD 0 = true ∧ w.getLsbD 1 = true :=
  and_three_eq_iff (by intro i; rw [getLsbD_three_word]; simp; grind)

theorem and_three_cases (w : BitVec 64) :
    w &&& 3#64 = 0#64 ∨ w &&& 3#64 = 1#64 ∨ w &&& 3#64 = 2#64 ∨ w &&& 3#64 = 3#64 := by
  rw [and_three_eq_zero, and_three_eq_one, and_three_eq_two, and_three_eq_three]
  cases w.getLsbD 0 <;> cases w.getLsbD 1 <;> simp

/-- Setting the lowest bit does not change the rest. -/
theorem or_one_clear : (w ||| 1#64) &&& ~~~3#64 = w &&& ~~~3#64 := by
  apply BitVec.eq_of_getLsbD_eq
  intro i hi
  simp only [BitVec.getLsbD_and, BitVec.getLsbD_or, BitVec.getLsbD_not, getLsbD_three_word,
    getLsbD_one_word]
  grind

theorem clear_of_aligned (h : w &&& 3#64 = 0#64) : w &&& ~~~3#64 = w := by
  rw [and_three_eq_zero] at h
  apply BitVec.eq_of_getLsbD_eq
  intro i hi
  simp only [BitVec.getLsbD_and, BitVec.getLsbD_not, getLsbD_three_word]
  grind

theorem clear_and_three : (w &&& ~~~3#64) &&& 3#64 = 0#64 := by
  rw [and_three_eq_zero]
  constructor <;> simp only [BitVec.getLsbD_and, BitVec.getLsbD_not, getLsbD_three_word] <;> simp

theorem or_one_and_three (h : w.getLsbD 1 = false) : (w ||| 1#64) &&& 3#64 = 1#64 := by
  rw [and_three_eq_one, BitVec.getLsbD_or, BitVec.getLsbD_or, h]
  simp

theorem or_one_of_odd (h : w.getLsbD 0 = true) : w ||| 1#64 = w := by
  apply BitVec.eq_of_getLsbD_eq
  intro i hi
  simp only [BitVec.getLsbD_or, getLsbD_one_word]
  grind

/-- Clearing the lowest bit clears the tag where the second bit is clear. -/
theorem and_mask_of_low (h : w.getLsbD 1 = false) :
    w &&& (w >>> 1 &&& 1#64 ||| ~~~1#64) = w &&& ~~~3#64 := by
  apply BitVec.eq_of_getLsbD_eq
  intro i hi
  simp only [BitVec.getLsbD_and, BitVec.getLsbD_or, BitVec.getLsbD_not,
    BitVec.getLsbD_ushiftRight, getLsbD_three_word, getLsbD_one_word]
  grind

theorem and_mask_of_high (h : w.getLsbD 1 = true) :
    w &&& (w >>> 1 &&& 1#64 ||| ~~~1#64) = w := by
  apply BitVec.eq_of_getLsbD_eq
  intro i hi
  simp only [BitVec.getLsbD_and, BitVec.getLsbD_or, BitVec.getLsbD_not,
    BitVec.getLsbD_ushiftRight, getLsbD_one_word]
  grind

/-- The rest of a word without its tag. -/
theorem shiftLeft_ushiftRight_two : w >>> 2 <<< 2 = w &&& ~~~3#64 := by
  apply BitVec.eq_of_getLsbD_eq
  intro i hi
  simp only [BitVec.getLsbD_shiftLeft, BitVec.getLsbD_ushiftRight, BitVec.getLsbD_and,
    BitVec.getLsbD_not, getLsbD_three_word]
  grind

theorem and_two_eq_zero : w &&& 2#64 = 0#64 ↔ w.getLsbD 1 = false := by
  constructor
  · intro h
    have h₁ := congrArg (BitVec.getLsbD · 1) h
    simp only [BitVec.getLsbD_and, getLsbD_two_word] at h₁
    simpa using h₁
  · intro h
    apply BitVec.eq_of_getLsbD_eq
    intro i hi
    simp only [BitVec.getLsbD_and, getLsbD_two_word]
    grind

end Syli.Foundation
