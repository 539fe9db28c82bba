import Mathlib

/-! Termination by a rank that falls with every step, and lexicographic ranks. -/
namespace Syli.Foundation

variable {α β : Type*} {R : α → α → Prop} {P : α → Prop} {x : α}

/-- Where an invariant makes the rank fall, no infinite chain of steps starts. -/
theorem acc_of_rank [Preorder β] [WellFoundedLT β] (rank : α → β)
    (hstep : ∀ x y, P x → R x y → P y ∧ rank y < rank x) (hx : P x) : Acc (flip R) x := by
  have hall : ∀ b x, P x → rank x = b → Acc (flip R) x := by
    intro b
    induction b using WellFoundedLT.induction with
    | ind b ih =>
      intro x hx hb
      constructor
      intro y hy
      obtain ⟨hP, hlt⟩ := hstep x y hx hy
      exact ih (rank y) (hb ▸ hlt) y hP rfl
  exact hall (rank x) x hx rfl

section Lex

variable [Preorder β] {m n : ℕ} {b c : β}

theorem toLex_lt_of_lt (h : m < n) : toLex (m, b) < toLex (n, c) :=
  Prod.Lex.toLex_lt_toLex.mpr (Or.inl h)

theorem toLex_lt_of_le (h : m ≤ n) (hbc : b < c) : toLex (m, b) < toLex (n, c) := by
  rcases Nat.lt_or_eq_of_le h with hlt | rfl
  · exact toLex_lt_of_lt hlt
  · exact Prod.Lex.toLex_lt_toLex.mpr (Or.inr ⟨rfl, hbc⟩)

end Lex

end Syli.Foundation
