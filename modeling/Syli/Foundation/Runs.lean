import Mathlib.Data.List.Basic

/-! Runs of a partial step function, the invariant rule for them, and inversion of `Except`. -/
namespace Syli.Foundation

universe u v w

theorem bind_eq_ok {ε : Type u} {α β : Type v} {x : Except ε α} {f : α → Except ε β} {b : β} :
    (x >>= f) = .ok b ↔ ∃ a, x = .ok a ∧ f a = .ok b := by
  cases x <;> simp [bind, Except.bind]

theorem pure_eq_ok {ε : Type u} {α : Type v} {a b : α} :
    (pure a : Except ε α) = .ok b ↔ a = b := by
  simp [pure, Except.pure]

theorem mem_toOption {ε : Type u} {α : Type v} {x : Except ε α} {a : α} :
    a ∈ x.toOption ↔ x = .ok a := by
  cases x <;> simp [Except.toOption]

variable {σ : Type u} {α : Type v} {ε : Type w}
variable {step : σ → α → Except ε σ} {ok : σ → α → Prop} {s₀ s t : σ} {a : α}

/-- The rule for a loop over a list: `P` speaks of what is still to do and of the state. -/
theorem foldlM_invariant {σ : Type u} {α : Type v} {ε : Type w} {f : σ → α → Except ε σ}
    {P : List α → σ → Prop} {l : List α} {s t : σ} (h : l.foldlM f s = .ok t) (h₀ : P l s)
    (hs : ∀ a as s t, P (a :: as) s → f s a = .ok t → P as t) : P [] t := by
  induction l generalizing s with
  | nil =>
    cases h
    exact h₀
  | cons a as ih =>
    rw [List.foldlM_cons] at h
    obtain ⟨u, hu, ht⟩ := bind_eq_ok.mp h
    exact ih ht (hs _ _ _ _ h₀ hu)

/-- Finite runs from `s₀` in which every step taken satisfies `ok`. -/
inductive Runs (step : σ → α → Except ε σ) (ok : σ → α → Prop) (s₀ : σ) : σ → Prop where
  | refl : Runs step ok s₀ s₀
  | tail {s t : σ} {a : α} : Runs step ok s₀ s → ok s a → step s a = .ok t → Runs step ok s₀ t

/-- What holds initially and is preserved by every admissible step holds along every run. -/
theorem Runs.invariant {P : σ → Prop} (h : Runs step ok s₀ s) (h₀ : P s₀)
    (hs : ∀ s a t, P s → ok s a → step s a = .ok t → P t) : P s := by
  induction h with
  | refl => exact h₀
  | tail _ ha ht ih => exact hs _ _ _ ih ha ht

theorem Runs.mono {ok' : σ → α → Prop} (h : Runs step ok s₀ s)
    (himp : ∀ s a, ok s a → ok' s a) : Runs step ok' s₀ s := by
  induction h with
  | refl => exact .refl
  | tail _ ha ht ih => exact ih.tail (himp _ _ ha) ht

/-- Steps that agree wherever they are taken have the same runs. -/
theorem Runs.congr {step' : σ → α → Except ε σ} {ok' : σ → α → Prop} (h : Runs step ok s₀ s)
    (himp : ∀ s a, ok s a → ok' s a ∧ step s a = step' s a) : Runs step' ok' s₀ s := by
  induction h with
  | refl => exact .refl
  | tail _ ha ht ih =>
    obtain ⟨ha', heq⟩ := himp _ _ ha
    exact ih.tail ha' (heq ▸ ht)

theorem Runs.trans (h : Runs step ok s₀ s) (h' : Runs step ok s t) : Runs step ok s₀ t := by
  induction h' with
  | refl => exact h
  | tail _ ha ht ih => exact ih.tail ha ht

/-- Executes a list of actions, as long as each satisfies `ok` and succeeds. -/
def execute (step : σ → α → Except ε σ) (ok : σ → α → Prop) [∀ s a, Decidable (ok s a)] :
    σ → List α → Option σ
  | s, [] => some s
  | s, a :: as =>
    if ok s a then
      match step s a with
      | .ok t => execute step ok t as
      | .error _ => none
    else none

theorem Runs.of_execute [∀ s a, Decidable (ok s a)] {as : List α}
    (h : execute step ok s as = some t) : Runs step ok s t := by
  induction as generalizing s with
  | nil =>
    cases h
    exact .refl
  | cons a as ih =>
    unfold execute at h
    split at h
    · split at h
      · exact (Runs.refl.tail ‹_› ‹_›).trans (ih h)
      · cases h
    · cases h

end Syli.Foundation
