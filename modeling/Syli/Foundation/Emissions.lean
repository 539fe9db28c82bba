import Mathlib.Init

/-! Runs that emit a list on their way from a state to the next one, and that may fail. -/
namespace Syli.Foundation

variable {ε σ τ υ α : Type*} {r : Except ε (σ × List α)} {s : σ} {t : τ} {out : List α}
variable {f g : σ → Except ε (τ × List α)}

/-- A run, and then another one from the state that it leaves. -/
def andThen (r : Except ε (σ × List α)) (f : σ → Except ε (τ × List α)) :
    Except ε (τ × List α) :=
  match r with
  | .error e => .error e
  | .ok (s, out) => (f s).map fun x => (x.1, out ++ x.2)

@[simp] theorem andThen_silent : andThen (.ok (s, [])) f = f s := by
  cases h : f s <;> simp [andThen, h, Except.map]

theorem andThen_ok {out' : List α} (h : f s = .ok (t, out')) :
    andThen (.ok (s, out)) f = .ok (t, out ++ out') := by
  simp [andThen, h, Except.map]

theorem andThen_failed {e : ε} (h : f s = .error e) : andThen (.ok (s, out)) f = .error e := by
  simp [andThen, h, Except.map]

theorem andThen_returns : (∃ x, andThen (.ok (s, out)) f = .ok x) ↔ ∃ x, f s = .ok x := by
  cases h : f s <;> simp [andThen, h, Except.map]

/-- A run that returns has returned at both of its parts. -/
theorem of_andThen_ok (h : andThen r f = .ok (t, out)) :
    ∃ s out₁ out₂, r = .ok (s, out₁) ∧ f s = .ok (t, out₂) ∧ out = out₁ ++ out₂ := by
  cases r with
  | error e => cases h
  | ok x =>
    cases hf : f x.1 with
    | error e => simp [andThen, hf, Except.map] at h
    | ok y =>
      have h : (y.1, x.2 ++ y.2) = (t, out) := by simpa [andThen, hf, Except.map] using h
      obtain ⟨rfl, rfl⟩ := Prod.mk.inj h
      exact ⟨x.1, x.2, y.2, rfl, hf, rfl⟩

theorem andThen_congr (h : ∀ s out, r = .ok (s, out) → f s = g s) : andThen r f = andThen r g := by
  cases r with
  | error e => rfl
  | ok x => simp only [andThen, h x.1 x.2 rfl]

theorem andThen_assoc {k : τ → Except ε (υ × List α)} :
    andThen (andThen r f) k = andThen r fun s => andThen (f s) k := by
  cases r with
  | error e => rfl
  | ok x =>
    cases hf : f x.1 with
    | error e => simp [andThen, hf, Except.map]
    | ok y =>
      cases hk : k y.1 <;> simp [andThen, hf, hk, Except.map]

end Syli.Foundation
