import Mathlib

/-! The paths of a finite acyclic graph to its leaves, numbered by edge weights. -/
namespace Syli.Foundation

variable {α : Type*} {children : α → List α} {n m : Nat} {v c : α} {p : List α}

/-- An induction over an acyclic graph needs at most one step more than it has sources of edges. -/
theorem acyclic_induction {sources : List α} (hsources : ∀ v, children v ≠ [] → v ∈ sources)
    (hacyclic : ∀ v, ¬ Relation.TransGen (fun u c => c ∈ children u) v v) {P : Nat → α → Prop}
    (hstep : ∀ n v, (∀ c ∈ children v, P n c) → P (n + 1) v) (v : α) :
    P (sources.length + 1) v := by
  have hall : ∀ n v (above : List α), above.Nodup →
      (∀ a ∈ above, a ∈ sources ∧ Relation.TransGen (fun u c => c ∈ children u) a v) →
      sources.length < n + above.length → P n v := by
    intro n
    induction n with
    | zero =>
      intro v above hnodup habove hlt
      have hsub : above ⊆ sources := fun a ha => (habove a ha).1
      have hle := (hnodup.subperm hsub).length_le
      omega
    | succ n ih =>
      intro v above hnodup habove hlt
      apply hstep
      intro c hc
      have hv : v ∉ above := fun hmem => hacyclic v (habove v hmem).2
      apply ih c (v :: above) (List.nodup_cons.mpr ⟨hv, hnodup⟩)
      · intro a ha
        obtain rfl | ha := List.mem_cons.mp ha
        · exact ⟨hsources a (List.ne_nil_of_mem hc), .single hc⟩
        · exact ⟨(habove a ha).1, .tail (habove a ha).2 hc⟩
      · simp only [List.length_cons]
        omega
  exact hall _ v [] List.nodup_nil (by simp) (by simp)

/-- A path from a node to a node without successors. -/
inductive LeafPath (children : α → List α) : α → List α → Prop where
  | leaf {v : α} : children v = [] → LeafPath children v [v]
  | step {v c : α} {p : List α} : c ∈ children v → LeafPath children c p →
      LeafPath children v (v :: p)

theorem LeafPath.exists_cons (h : LeafPath children v p) : ∃ q, p = v :: q := by
  cases h with
  | leaf => exact ⟨[], rfl⟩
  | step => exact ⟨_, rfl⟩

/-- The paths from a node, in the order of the children, to a depth of `n`. -/
def leafPaths (children : α → List α) : Nat → α → List (List α)
  | 0, _ => []
  | n + 1, v =>
    match children v with
    | [] => [[v]]
    | c :: cs => (c :: cs).flatMap fun c => (leafPaths children n c).map (v :: ·)

theorem leafPaths_leaf (h : children v = []) : leafPaths children (n + 1) v = [[v]] := by
  rw [leafPaths, h]

theorem leafPaths_node (h : children v ≠ []) : leafPaths children (n + 1) v =
    (children v).flatMap fun c => (leafPaths children n c).map (v :: ·) := by
  rw [leafPaths]
  split
  · contradiction
  · rename_i hc
    rw [hc]

/-- No path from the node is longer than `n`. -/
def DepthAtMost (children : α → List α) : Nat → α → Prop
  | 0, _ => False
  | n + 1, v => ∀ c ∈ children v, DepthAtMost children n c

theorem DepthAtMost.leafPaths_eq (h : DepthAtMost children n v) (hle : n ≤ m) :
    leafPaths children m v = leafPaths children n v := by
  induction n generalizing m v with
  | zero => exact h.elim
  | succ n ih =>
    obtain ⟨m, rfl⟩ : ∃ k, m = k + 1 := ⟨m - 1, by omega⟩
    by_cases hv : children v = []
    · rw [leafPaths_leaf hv, leafPaths_leaf hv]
    · rw [leafPaths_node hv, leafPaths_node hv]
      apply List.flatMap_congr
      intro c hc
      rw [ih (h c hc) (by omega)]

theorem DepthAtMost.mem_leafPaths (h : DepthAtMost children n v) :
    p ∈ leafPaths children n v ↔ LeafPath children v p := by
  induction n generalizing v p with
  | zero => exact h.elim
  | succ n ih =>
    by_cases hv : children v = []
    · rw [leafPaths_leaf hv, List.mem_singleton]
      constructor
      · rintro rfl
        exact .leaf hv
      · intro hp
        cases hp with
        | leaf => rfl
        | step hc => simp [hv] at hc
    · rw [leafPaths_node hv]
      simp only [List.mem_flatMap, List.mem_map]
      constructor
      · rintro ⟨c, hc, q, hq, rfl⟩
        exact .step hc ((ih (h c hc)).mp hq)
      · intro hp
        cases hp with
        | leaf hleaf => exact (hv hleaf).elim
        | step hc hq => exact ⟨_, hc, _, (ih (h _ hc)).mpr hq, rfl⟩

section Numbers

variable [DecidableEq α]

/-- The paths through the children before `c`. -/
def offset (count : α → Nat) (cs : List α) (c : α) : Nat :=
  ((cs.takeWhile fun d => d ≠ c).map count).sum

/-- The sum of the offsets along a path. -/
def pathNumber (children : α → List α) (count : α → Nat) : List α → Nat
  | u :: c :: p => offset count (children u) c + pathNumber children count (c :: p)
  | _ => 0

theorem offset_head (count : α → Nat) (cs : List α) : offset count (c :: cs) c = 0 := by
  simp [offset]

theorem offset_tail (count : α → Nat) {d : α} {cs : List α} (hne : d ≠ c) :
    offset count (d :: cs) c = count d + offset count cs c := by
  simp [offset, hne]

/-- The ranges of the children, each after those before it, make up one range. -/
theorem flatMap_offset (count : α → Nat) {cs : List α} (hnodup : cs.Nodup) :
    (cs.flatMap fun c => (List.range (count c)).map (offset count cs c + ·)) =
      List.range (cs.map count).sum := by
  induction cs with
  | nil => rfl
  | cons d cs ih =>
    rw [List.nodup_cons] at hnodup
    have hrest : (cs.flatMap fun c => (List.range (count c)).map (offset count (d :: cs) c + ·)) =
        (List.range (cs.map count).sum).map (count d + ·) := by
      rw [← ih hnodup.2, List.map_flatMap]
      apply List.flatMap_congr
      intro c hc
      have hne : d ≠ c := by
        rintro rfl
        exact hnodup.1 hc
      rw [offset_tail count hne, List.map_map]
      apply List.map_congr_left
      intro i _
      exact Nat.add_assoc _ _ _
    rw [List.flatMap_cons, hrest, offset_head, List.map_cons, List.sum_cons, List.range_add]
    simp

theorem pathNumber_cons (count : α → Nat) (h : LeafPath children c p) :
    pathNumber children count (v :: p) =
      offset count (children v) c + pathNumber children count p := by
  obtain ⟨q, rfl⟩ := h.exists_cons
  rfl

/-- In the order of the children the paths from a node have the numbers from zero. -/
theorem map_pathNumber (hsimple : ∀ v, (children v).Nodup) {count : α → Nat}
    (hcount : ∀ n v, DepthAtMost children n v → count v = (leafPaths children n v).length)
    (h : DepthAtMost children n v) :
    (leafPaths children n v).map (pathNumber children count) = List.range (count v) := by
  induction n generalizing v with
  | zero => exact h.elim
  | succ n ih =>
    rw [hcount _ v h]
    by_cases hv : children v = []
    · rw [leafPaths_leaf hv]
      rfl
    · rw [leafPaths_node hv, List.map_flatMap, List.length_flatMap]
      have hlength : ((children v).map fun c => ((leafPaths children n c).map (v :: ·)).length) =
          (children v).map count := by
        apply List.map_congr_left
        intro c hc
        rw [List.length_map, hcount n c (h c hc)]
      rw [hlength, ← flatMap_offset count (hsimple v)]
      apply List.flatMap_congr
      intro c hc
      rw [← ih (h c hc), List.map_map, List.map_map]
      apply List.map_congr_left
      intro p hp
      exact pathNumber_cons count ((h c hc).mem_leafPaths.mp hp)

end Numbers

end Syli.Foundation
