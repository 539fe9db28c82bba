import Mathlib.Data.List.Nodup

/-! Finite maps as association lists. -/
namespace Syli.Foundation

/-- The binding added last is the one that is found. -/
abbrev AssocMap (κ α : Type*) := List (κ × α)

namespace AssocMap

variable {κ α : Type*} [DecidableEq κ] {m : AssocMap κ α} {k k' : κ} {v : α}

def add (m : AssocMap κ α) (k : κ) (v : α) : AssocMap κ α := (k, v) :: m

def findOpt (m : AssocMap κ α) (k : κ) : Option α := m.lookup k

@[simp] theorem findOpt_nil : findOpt ([] : AssocMap κ α) k = none := rfl

@[simp] theorem findOpt_add_self : (m.add k v).findOpt k = some v := by
  simp [add, findOpt]

theorem findOpt_add_of_ne (h : k' ≠ k) : (m.add k v).findOpt k' = m.findOpt k' := by
  have hbeq : (k' == k) = false := by simpa using h
  simp [add, findOpt, List.lookup_cons, hbeq]

theorem findOpt_map {β : Type*} {f : κ → α → β} :
    findOpt (m.map fun e => (e.1, f e.1 e.2)) k = (m.findOpt k).map (f k) := by
  induction m with
  | nil => rfl
  | cons e m ih =>
    obtain ⟨k', v'⟩ := e
    by_cases hk : k = k'
    · subst hk
      simp [findOpt]
    · have hbeq : (k == k') = false := by simpa using hk
      simpa [findOpt, List.lookup_cons, hbeq] using ih

theorem findOpt_of_mem (hn : (m.map Prod.fst).Nodup) (h : (k, v) ∈ m) : m.findOpt k = some v := by
  induction m with
  | nil => simp at h
  | cons e m ih =>
    obtain ⟨k', v'⟩ := e
    rw [List.map_cons, List.nodup_cons] at hn
    rcases List.mem_cons.mp h with heq | hmem
    · cases heq
      exact findOpt_add_self
    · have hne : k ≠ k' := by
        rintro rfl
        exact hn.1 (List.mem_map.mpr ⟨_, hmem, rfl⟩)
      exact (findOpt_add_of_ne hne).trans (ih hn.2 hmem)

theorem mem_of_findOpt (h : m.findOpt k = some v) : (k, v) ∈ m := by
  induction m with
  | nil => simp at h
  | cons e m ih =>
    obtain ⟨k', v'⟩ := e
    by_cases hk : k = k'
    · subst hk
      obtain rfl := Option.some.inj (findOpt_add_self.symm.trans h)
      exact List.mem_cons_self
    · exact List.mem_cons_of_mem _ (ih ((findOpt_add_of_ne hk).symm.trans h))

theorem findOpt_append {m' : AssocMap κ α} :
    findOpt (m ++ m') k = (m.findOpt k).or (m'.findOpt k) :=
  List.lookup_append

theorem findOpt_eq_none_iff : m.findOpt k = none ↔ k ∉ m.map Prod.fst := by
  rw [findOpt, List.lookup_eq_none_iff, List.mem_map]
  constructor
  · rintro h ⟨e, he, rfl⟩
    simpa using h e he
  · intro h e he
    rw [bne_iff_ne]
    rintro rfl
    exact h ⟨e, he, rfl⟩

end AssocMap

end Syli.Foundation
