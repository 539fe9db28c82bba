import Syli.Foundation.Runs
import Mathlib.Data.List.Forall2

/-! Lists that are mapped while a state is passed along, where a step can fail. -/
namespace Syli.Foundation

variable {σ α β ε : Type} {f : σ → α → Except ε (σ × β)} {P : σ → Prop} {le : σ → σ → Prop}
variable {R : σ → α → β → Prop} {s t u : σ} {l : List α} {l' : List β}

/-- `fold_left_map` -/
def foldLeftMapM (f : σ → α → Except ε (σ × β)) : σ → List α → Except ε (σ × List β)
  | s, [] => .ok (s, [])
  | s, a :: l => do
    let (s, b) ← f s a
    let (s, l) ← foldLeftMapM f s l
    return (s, b :: l)

theorem foldLeftMapM_cons {a : α} :
    foldLeftMapM f s (a :: l) = .ok (u, l') ↔
      ∃ t b bs, f s a = .ok (t, b) ∧ foldLeftMapM f t l = .ok (u, bs) ∧ l' = b :: bs := by
  rw [foldLeftMapM, bind_eq_ok]
  constructor
  · rintro ⟨⟨t, b⟩, hf, h⟩
    obtain ⟨⟨u', bs⟩, hbs, h⟩ := bind_eq_ok.mp h
    obtain ⟨rfl, rfl⟩ := Prod.mk.inj (pure_eq_ok.mp h)
    exact ⟨t, b, bs, hf, hbs, rfl⟩
  · rintro ⟨t, b, bs, hf, hbs, rfl⟩
    exact ⟨(t, b), hf, bind_eq_ok.mpr ⟨(u, bs), hbs, rfl⟩⟩

/-- The rule for a traversal: a step keeps the invariant, only extends the state, and relates its
result to what it is made from in a way that survives later extensions. -/
theorem foldLeftMapM_spec (hrefl : ∀ s, le s s) (htrans : ∀ {s t u}, le s t → le t u → le s u)
    (hmono : ∀ {s t a b}, le s t → R s a b → R t a b)
    (hstep : ∀ s a t b, a ∈ l → P s → f s a = .ok (t, b) → P t ∧ le s t ∧ R t a b)
    (hs : P s) (h : foldLeftMapM f s l = .ok (t, l')) :
    P t ∧ le s t ∧ List.Forall₂ (R t) l l' := by
  induction l generalizing s l' with
  | nil =>
    obtain ⟨rfl, rfl⟩ := Prod.mk.inj (Except.ok.inj h)
    exact ⟨hs, hrefl s, .nil⟩
  | cons a l ih =>
    obtain ⟨u, b, bs, hf, hbs, rfl⟩ := foldLeftMapM_cons.mp h
    obtain ⟨hu, hsu, hb⟩ := hstep s a u b List.mem_cons_self hs hf
    obtain ⟨ht, hut, hrest⟩ := ih (fun s c => fun t b hc => hstep s c t b (List.mem_cons_of_mem a hc))
      hu hbs
    exact ⟨ht, htrans hsu hut, .cons (hmono hut hb) hrest⟩

theorem exists_left_of_forall₂ {R : α → β → Prop} {b : β} (h : List.Forall₂ R l l')
    (hb : b ∈ l') : ∃ a ∈ l, R a b := by
  induction h with
  | nil => cases hb
  | @cons a c l l' hac _ ih =>
    rcases List.mem_cons.mp hb with rfl | hb
    · exact ⟨a, List.mem_cons_self, hac⟩
    · obtain ⟨a', ha', hR⟩ := ih hb
      exact ⟨a', List.mem_cons_of_mem a ha', hR⟩

theorem exists_right_of_forall₂ {R : α → β → Prop} {a : α} (h : List.Forall₂ R l l')
    (ha : a ∈ l) : ∃ b ∈ l', R a b :=
  exists_left_of_forall₂ h.flip ha

end Syli.Foundation
