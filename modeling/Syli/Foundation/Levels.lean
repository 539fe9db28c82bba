import Mathlib.Data.List.Count
import Mathlib.Data.Option.Basic

/-! Words in which some letters go one level up and others one level down. -/
namespace Syli.Foundation

variable {α : Type*} {up down : α → Bool} {k m n : Nat} {l l' p : List α}

/-- The level after the word, none where the word goes below 0. -/
def level (up down : α → Bool) (k : Nat) : List α → Option Nat
  | [] => some k
  | a :: l =>
    if up a then level up down (k + 1) l
    else if down a then
      match k with
      | 0 => none
      | k + 1 => level up down k l
    else level up down k l

theorem level_append : level up down k (l ++ l') =
    (level up down k l).bind fun m => level up down m l' := by
  induction l generalizing k with
  | nil => rfl
  | cons a l ih =>
    simp only [List.cons_append, level, ih]
    split
    · rfl
    · split
      · cases k <;> rfl
      · rfl

theorem level_trans (h : level up down k l = some m) (h' : level up down m l' = some n) :
    level up down k (l ++ l') = some n := by
  rw [level_append, h]
  exact h'

theorem level_of_flat (h : ∀ a ∈ l, up a = false ∧ down a = false) :
    level up down k l = some k := by
  induction l with
  | nil => rfl
  | cons a l ih =>
    obtain ⟨⟨hup, hdown⟩, hl⟩ := List.forall_mem_cons.mp h
    simpa [level, hup, hdown] using ih hl

theorem level_down {a : α} (hup : up a = false) (hdown : down a = true) :
    level up down (k + 1) (a :: l) = level up down k l := by
  simp [level, hup, hdown]

theorem level_replicate {a : α} (hup : up a = false) (hdown : down a = true) :
    level up down k (List.replicate k a) = some 0 := by
  induction k with
  | zero => rfl
  | succ k ih => exact (level_down hup hdown).trans ih

variable (hdisjoint : ∀ a, up a = true → down a = false)

include hdisjoint

/-- The level counts the letters that go up against those that go down. -/
theorem level_count (h : level up down k l = some m) :
    m + l.countP down = k + l.countP up := by
  induction l generalizing k with
  | nil =>
    cases h
    rfl
  | cons a l ih =>
    unfold level at h
    split at h
    · rename_i hup
      have := ih h
      simp [hup, hdisjoint a hup]
      omega
    · split at h
      · rename_i hup hdown
        cases k with
        | zero => cases h
        | succ k =>
          have := ih h
          simp [hup, hdown]
          omega
      · rename_i hup hdown
        have := ih h
        simp [hup, hdown]
        omega

/-- No part at the start of the word goes down more often than it can. -/
theorem level_prefix (h : level up down k l = some m) (hp : p <+: l) :
    p.countP down ≤ k + p.countP up := by
  obtain ⟨rest, rfl⟩ := hp
  rw [level_append] at h
  obtain ⟨n, hn, -⟩ := Option.bind_eq_some_iff.mp h
  have := level_count hdisjoint hn
  omega

end Syli.Foundation
