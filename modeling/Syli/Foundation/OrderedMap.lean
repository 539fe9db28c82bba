import Syli.Foundation.AssocMap
import Mathlib.Data.List.Sort
import Mathlib.Data.List.Dedup

/-! Finite maps read in the order of their keys. -/
namespace Syli.Foundation.AssocMap

variable {κ α β : Type*} [LinearOrder κ] {m : AssocMap κ α} {k k' : κ} {v : α}

def keys (m : AssocMap κ α) : List κ := (m.map Prod.fst).dedup.insertionSort (· ≤ ·)

/-- The map that has a binding for each of these keys that `f` gives a value. -/
def ofKeys (ks : List κ) (f : κ → Option α) : AssocMap κ α :=
  ks.filterMap fun k => (f k).map fun v => (k, v)

def bindings (m : AssocMap κ α) : List (κ × α) := ofKeys m.keys m.findOpt

def filterValues (f : κ → α → Option β) (m : AssocMap κ α) : AssocMap κ β :=
  ofKeys m.keys fun k => (m.findOpt k).bind (f k)

/-- The value of a key is replaced by what `f` makes of it, or goes. -/
def update (m : AssocMap κ α) (k : κ) (f : Option α → Option α) : AssocMap κ α :=
  match f (m.findOpt k) with
  | some v => m.add k v
  | none => m.filter fun e => e.1 ≠ k

theorem findOpt_eq_none (h : k ∉ m.map Prod.fst) : m.findOpt k = none := by
  cases hv : m.findOpt k with
  | none => rfl
  | some v => exact absurd (List.mem_map_of_mem (mem_of_findOpt hv)) h

theorem findOpt_filter_self : findOpt (m.filter fun e => e.1 ≠ k) k = none := by
  apply findOpt_eq_none
  simp

theorem findOpt_filter_of_ne (h : k' ≠ k) :
    findOpt (m.filter fun e => e.1 ≠ k) k' = m.findOpt k' := by
  induction m with
  | nil => rfl
  | cons e m ih =>
    obtain ⟨l, v⟩ := e
    by_cases hl : l = k
    · subst hl
      rw [List.filter_cons_of_neg (by simp)]
      exact ih.trans (findOpt_add_of_ne h).symm
    · rw [List.filter_cons_of_pos (by simpa using hl)]
      by_cases hk : k' = l
      · subst hk
        exact findOpt_add_self.trans findOpt_add_self.symm
      · exact (findOpt_add_of_ne hk).trans (ih.trans (findOpt_add_of_ne hk).symm)

theorem findOpt_update_self {f : Option α → Option α} :
    (m.update k f).findOpt k = f (m.findOpt k) := by
  unfold update
  cases h : f (m.findOpt k) with
  | none => exact findOpt_filter_self
  | some v => exact findOpt_add_self

theorem findOpt_update_of_ne {f : Option α → Option α} (h : k' ≠ k) :
    (m.update k f).findOpt k' = m.findOpt k' := by
  unfold update
  cases hv : f (m.findOpt k) with
  | none => exact findOpt_filter_of_ne h
  | some v => exact findOpt_add_of_ne h

theorem mem_keys : k ∈ m.keys ↔ k ∈ m.map Prod.fst := by
  simp only [keys, List.mem_insertionSort, List.mem_dedup]

theorem mem_keys_of_findOpt (h : m.findOpt k = some v) : k ∈ m.keys :=
  mem_keys.mpr (List.mem_map_of_mem (mem_of_findOpt h))

theorem findOpt_ofKeys {ks : List κ} {f : κ → Option α} :
    (ofKeys ks f).findOpt k = if k ∈ ks then f k else none := by
  induction ks with
  | nil => simp [ofKeys]
  | cons l ks ih =>
    by_cases hk : k = l
    · subst hk
      cases hl : f k with
      | none =>
        rw [show ofKeys (k :: ks) f = ofKeys ks f by simp [ofKeys, hl], ih]
        simp [hl]
      | some v =>
        rw [show ofKeys (k :: ks) f = (ofKeys ks f).add k v by simp [ofKeys, hl, add]]
        simp
    · have hrest : (ofKeys (l :: ks) f).findOpt k = (ofKeys ks f).findOpt k := by
        cases hl : f l with
        | none => simp [ofKeys, hl]
        | some v =>
          rw [show ofKeys (l :: ks) f = (ofKeys ks f).add l v by simp [ofKeys, hl, add]]
          exact findOpt_add_of_ne hk
      rw [hrest, ih]
      simp [hk]

theorem findOpt_filterValues {f : κ → α → Option β} :
    (m.filterValues f).findOpt k = (m.findOpt k).bind (f k) := by
  unfold filterValues
  rw [findOpt_ofKeys]
  cases h : m.findOpt k with
  | none => simp
  | some v => simp [mem_keys_of_findOpt h]

theorem mem_bindings {e : κ × α} : e ∈ m.bindings ↔ m.findOpt e.1 = some e.2 := by
  obtain ⟨k, v⟩ := e
  constructor
  · intro h
    obtain ⟨l, -, hl⟩ := List.mem_filterMap.mp h
    obtain ⟨w, hw, heq⟩ := Option.map_eq_some_iff.mp hl
    obtain ⟨rfl, rfl⟩ := Prod.mk.inj heq
    exact hw
  · intro h
    exact List.mem_filterMap.mpr ⟨k, mem_keys_of_findOpt h, Option.map_eq_some_iff.mpr ⟨v, h, rfl⟩⟩

end Syli.Foundation.AssocMap
