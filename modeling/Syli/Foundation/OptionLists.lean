import Mathlib.Data.List.Basic

/-! Lists that are mapped by a function that can fail. -/
namespace Syli.Foundation

variable {α β : Type} {f g : α → Option β} {l : List α} {l' : List β}

theorem mapM_cons_eq_some {a : α} : (a :: l).mapM f = some l' ↔
    ∃ b bs, f a = some b ∧ l.mapM f = some bs ∧ l' = b :: bs := by
  rw [List.mapM_cons]
  cases f a <;> cases l.mapM f <;> simp [eq_comm]

theorem exists_of_mapM (h : l.mapM f = some l') : ∀ a ∈ l, ∃ b ∈ l', f a = some b := by
  induction l generalizing l' with
  | nil => simp
  | cons a l ih =>
    obtain ⟨b, bs, hb, hbs, rfl⟩ := mapM_cons_eq_some.mp h
    intro a' ha'
    rcases List.mem_cons.mp ha' with rfl | ha'
    · exact ⟨b, List.mem_cons_self, hb⟩
    · obtain ⟨b', hb', hf⟩ := ih hbs a' ha'
      exact ⟨b', List.mem_cons_of_mem b hb', hf⟩

theorem isSome_mapM : (l.mapM f).isSome ↔ ∀ a ∈ l, (f a).isSome := by
  induction l with
  | nil => simp
  | cons a l ih =>
    rw [List.mapM_cons, List.forall_mem_cons, ← ih]
    cases f a <;> cases l.mapM f <;> simp

theorem isSome_bind_some {o : Option α} {f : α → β} :
    (o.bind fun a => some (f a)).isSome = o.isSome := by
  cases o <;> rfl

theorem mapM_eq_map {g : α → β} (h : ∀ a ∈ l, f a = some (g a)) : l.mapM f = some (l.map g) := by
  induction l with
  | nil => rfl
  | cons a l ih =>
    refine mapM_cons_eq_some.mpr ⟨g a, l.map g, h a List.mem_cons_self, ?_, rfl⟩
    exact ih fun a hm => h a (List.mem_cons_of_mem _ hm)

theorem mapM_mono (hfg : ∀ a b, f a = some b → g a = some b) (h : l.mapM f = some l') :
    l.mapM g = some l' := by
  induction l generalizing l' with
  | nil => exact h
  | cons a l ih =>
    obtain ⟨b, bs, hb, hbs, rfl⟩ := mapM_cons_eq_some.mp h
    exact mapM_cons_eq_some.mpr ⟨b, bs, hfg a b hb, ih hbs, rfl⟩

/-- The results stand beside what they are made from. -/
theorem zip_of_mapM (h : l.mapM f = some l') :
    l'.length = l.length ∧ ∀ p ∈ l.zip l', f p.1 = some p.2 := by
  induction l generalizing l' with
  | nil =>
    cases h
    simp
  | cons a l ih =>
    obtain ⟨b, bs, hb, hbs, rfl⟩ := mapM_cons_eq_some.mp h
    obtain ⟨hlength, hzip⟩ := ih hbs
    refine ⟨by simp [hlength], fun p hp => ?_⟩
    rcases List.mem_cons.mp hp with rfl | hp
    · exact hb
    · exact hzip p hp

theorem getElem?_of_mapM {i : Nat} {a : α} (h : l.mapM f = some l') (ha : l[i]? = some a) :
    ∃ b, l'[i]? = some b ∧ f a = some b := by
  induction l generalizing l' i with
  | nil => simp at ha
  | cons a' l ih =>
    obtain ⟨b, bs, hb, hbs, rfl⟩ := mapM_cons_eq_some.mp h
    cases i with
    | zero =>
      cases ha
      exact ⟨b, rfl, hb⟩
    | succ i =>
      rw [List.getElem?_cons_succ] at ha ⊢
      exact ih hbs ha

/-- What is found by a test that the function keeps is found among the results. -/
theorem find_of_mapM {p : α → Bool} {q : β → Bool} {a : α}
    (hpq : ∀ a b, f a = some b → q b = p a) (h : l.mapM f = some l') (ha : l.find? p = some a) :
    ∃ b, f a = some b ∧ l'.find? q = some b := by
  induction l generalizing l' with
  | nil => cases ha
  | cons a' l ih =>
    obtain ⟨b, bs, hb, hbs, rfl⟩ := mapM_cons_eq_some.mp h
    rw [List.find?_cons] at ha ⊢
    rw [hpq a' b hb]
    cases hp : p a' with
    | true =>
      simp only [hp] at ha ⊢
      cases ha
      exact ⟨b, hb, rfl⟩
    | false =>
      simp only [hp] at ha ⊢
      exact ih hbs ha

end Syli.Foundation
