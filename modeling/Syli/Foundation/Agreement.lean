import Mathlib.Data.List.Basic

/-! Two computations that agree: both fail, or both end in related results. -/
namespace Syli.Foundation

universe u v w

variable {ε : Type u} {δ : Type v} {α β γ κ : Type w}
variable {R : α → β → Prop} {S : γ → κ → Prop}

inductive Agree (R : α → β → Prop) : Except ε α → Except δ β → Prop where
  | error (e : ε) (d : δ) : Agree R (.error e) (.error d)
  | ok {a : α} {b : β} (h : R a b) : Agree R (.ok a) (.ok b)

namespace Agree

theorem bind {x : Except ε α} {y : Except δ β} {f : α → Except ε γ} {g : β → Except δ κ}
    (h : Agree R x y) (hfg : ∀ a b, R a b → Agree S (f a) (g b)) : Agree S (x >>= f) (y >>= g) := by
  cases h with
  | error e d => exact .error e d
  | ok h => exact hfg _ _ h

theorem map {x : Except ε α} {y : Except δ β} {f : α → γ} {g : β → κ} (h : Agree R x y)
    (hfg : ∀ a b, R a b → S (f a) (g b)) : Agree S (x.map f) (y.map g) := by
  cases h with
  | error e d => exact .error e d
  | ok h => exact .ok (hfg _ _ h)

theorem refl (x : Except ε α) : Agree Eq x x := by
  cases x with
  | error e => exact .error e e
  | ok a => exact .ok rfl

theorem ok_right {x : Except ε α} {b : β} (h : Agree R x (.ok b : Except δ β)) :
    ∃ a, x = .ok a ∧ R a b := by
  cases h with
  | ok h => exact ⟨_, rfl, h⟩

end Agree

end Syli.Foundation
