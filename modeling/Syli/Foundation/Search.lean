import Mathlib.Data.Finset.Card
import Mathlib.Data.List.Basic

/-! Depth-first search with a fuel for its depth, and increasing chains of finite sets. -/
namespace Syli.Foundation

variable {α : Type*} {next : α → List α} {U : Set α} {K : Finset α} {a b : α}

/-- The visited nodes and the nodes in the order of their completion, latest first. -/
abbrev SearchState (α : Type*) := List α × List α

def depthFirst [DecidableEq α] (next : α → List α) : Nat → α → SearchState α → SearchState α
  | 0, _, st => st
  | n + 1, a, st =>
    if a ∈ st.1 then st
    else
      let st := (next a).foldl (fun st b => depthFirst next n b st) (a :: st.1, st.2)
      (st.1, a :: st.2)

/-- What a search adds to the visited nodes: their successors are visited, and they are listed. -/
structure Explored (next : α → List α) (U : Set α) (st st' : SearchState α) : Prop where
  grows : ∀ x ∈ st.1, x ∈ st'.1
  closed : ∀ x ∈ st'.1, x ∈ st.1 ∨ ∀ y ∈ next x, y ∈ st'.1
  listed : ∀ x, x ∈ st'.2 ↔ x ∈ st.2 ∨ x ∈ st'.1 ∧ x ∉ st.1
  inside : ∀ x ∈ st'.1, x ∈ st.1 ∨ x ∈ U

namespace Explored

variable {st st₁ st' : SearchState α}

theorem refl (st : SearchState α) : Explored next U st st :=
  ⟨fun _ => id, fun _ => Or.inl, by simp, fun _ => Or.inl⟩

theorem trans (h : Explored next U st st₁) (h' : Explored next U st₁ st') :
    Explored next U st st' where
  grows x hx := h'.grows x (h.grows x hx)
  closed x hx := by
    rcases h'.closed x hx with hx | hx
    · rcases h.closed x hx with hx | hx
      · exact Or.inl hx
      · exact Or.inr fun y hy => h'.grows y (hx y hy)
    · exact Or.inr hx
  listed x := by
    have hgrow := h.grows x
    have hgrow' := h'.grows x
    rw [h'.listed x, h.listed x]
    tauto
  inside x hx := by
    rcases h'.inside x hx with hx | hx
    · exact h.inside x hx
    · exact Or.inr hx

theorem card_le [DecidableEq α] (h : Explored next U st st') :
    (K \ st'.1.toFinset).card ≤ (K \ st.1.toFinset).card := by
  apply Finset.card_le_card
  intro x hx
  simp only [Finset.mem_sdiff, List.mem_toFinset] at hx ⊢
  exact ⟨hx.1, fun hmem => hx.2 (h.grows x hmem)⟩

end Explored

variable [DecidableEq α]

theorem explored_foldl {n : Nat} {st : SearchState α} {l : List α}
    (hstep : ∀ b st, b ∈ U → (K \ st.1.toFinset).card < n →
      Explored next U st (depthFirst next n b st) ∧ b ∈ (depthFirst next n b st).1)
    (hl : ∀ b ∈ l, b ∈ U) (hn : (K \ st.1.toFinset).card < n) :
    Explored next U st (l.foldl (fun st b => depthFirst next n b st) st) ∧
      ∀ b ∈ l, b ∈ (l.foldl (fun st b => depthFirst next n b st) st).1 := by
  induction l generalizing st with
  | nil => exact ⟨.refl st, by simp⟩
  | cons b l ih =>
    obtain ⟨hb, hmem⟩ := hstep b st (hl b List.mem_cons_self) hn
    obtain ⟨hrest, hall⟩ := @ih (depthFirst next n b st)
      (fun c hc => hl c (List.mem_cons_of_mem b hc)) (Nat.lt_of_le_of_lt hb.card_le hn)
    refine ⟨hb.trans hrest, fun c hc => ?_⟩
    rcases List.mem_cons.mp hc with rfl | hc
    · exact hrest.grows c hmem
    · exact hall c hc

theorem card_cons_lt {n : Nat} {vis : List α} (ha : a ∈ K) (hnot : a ∉ vis)
    (hn : (K \ vis.toFinset).card < n + 1) : (K \ (a :: vis).toFinset).card < n := by
  have hsub : K \ (a :: vis).toFinset ⊂ K \ vis.toFinset := by
    rw [Finset.ssubset_iff_of_subset]
    · exact ⟨a, by simp [ha, hnot], by simp⟩
    · intro x hx
      simp only [Finset.mem_sdiff, List.mem_toFinset, List.mem_cons] at hx ⊢
      exact ⟨hx.1, fun hmem => hx.2 (Or.inr hmem)⟩
  have := Finset.card_lt_card hsub
  omega

/-- With fuel for the unvisited nodes that have successors, the search visits the node and all it
leads to. -/
theorem explored_depthFirst (hU : ∀ a ∈ U, ∀ b ∈ next a, b ∈ U)
    (hK : ∀ a ∈ U, a ∉ K → next a = []) {n : Nat} {st : SearchState α}
    (ha : a ∈ U) (hn : (K \ st.1.toFinset).card < n) :
    Explored next U st (depthFirst next n a st) ∧ a ∈ (depthFirst next n a st).1 := by
  induction n generalizing a st with
  | zero => omega
  | succ n ih =>
    unfold depthFirst
    split
    · rename_i hmem
      exact ⟨.refl st, hmem⟩
    · rename_i hnot
      obtain ⟨hrest, hall⟩ : Explored next U (a :: st.1, st.2)
          ((next a).foldl (fun st b => depthFirst next n b st) (a :: st.1, st.2)) ∧
          ∀ b ∈ next a, b ∈ ((next a).foldl (fun st b => depthFirst next n b st)
            (a :: st.1, st.2)).1 := by
        by_cases haK : a ∈ K
        · have hlt : (K \ ((a :: st.1, st.2) : SearchState α).1.toFinset).card < n :=
            card_cons_lt haK hnot hn
          exact explored_foldl (fun b st hb hst => ih hb hst) (hU a ha) hlt
        · rw [hK a ha haK]
          exact ⟨.refl _, by simp⟩
      refine ⟨⟨?_, ?_, ?_, ?_⟩, hrest.grows a List.mem_cons_self⟩
      · exact fun x hx => hrest.grows x (List.mem_cons_of_mem a hx)
      · intro x hx
        rcases hrest.closed x hx with hx | hx
        · rcases List.mem_cons.mp hx with rfl | hx
          · exact Or.inr hall
          · exact Or.inl hx
        · exact Or.inr hx
      · intro x
        have hself := hrest.grows a List.mem_cons_self
        have hlisted := hrest.listed x
        simp only [List.mem_cons, not_or] at hlisted ⊢
        by_cases hxa : x = a
        · subst hxa
          simp [hself, hnot]
        · simp [hlisted, hxa]
      · intro x hx
        rcases hrest.inside x hx with hx | hx
        · rcases List.mem_cons.mp hx with rfl | hx
          · exact Or.inr ha
          · exact Or.inl hx
        · exact Or.inr hx

/-- The nodes that a search from scratch lists hold the start and are closed under `next`. -/
theorem depthFirst_closed (hK : ∀ a ∈ K, ∀ b ∈ next a, b ∈ K) {n : Nat} (ha : a ∈ K)
    (hn : K.card < n) :
    a ∈ (depthFirst next n a ([], [])).2 ∧
      (∀ x ∈ (depthFirst next n a ([], [])).2, x ∈ K ∧
        ∀ y ∈ next x, y ∈ (depthFirst next n a ([], [])).2) := by
  have hstart : (K \ (([], []) : SearchState α).1.toFinset).card < n := by simpa using hn
  obtain ⟨hall, hmem⟩ := explored_depthFirst (U := (K : Set α)) hK
    (fun a ha hno => (hno ha).elim) ha hstart
  have hiff : ∀ x, x ∈ (depthFirst next n a ([], [])).2 ↔ x ∈ (depthFirst next n a ([], [])).1 := by
    intro x
    simpa using hall.listed x
  refine ⟨(hiff a).mpr hmem, fun x hx => ?_⟩
  have hvisited := (hiff x).mp hx
  refine ⟨by simpa using hall.inside x hvisited, fun y hy => ?_⟩
  have hclosed := hall.closed x hvisited
  exact (hiff y).mpr (by simpa using (hclosed.resolve_left (by simp)) y hy)

/-- What an iteration of an increasing step reaches within the size of its bound. -/
theorem iterate_stable {σ : Type*} {f : σ → σ} {size : σ → Nat} {bound : Nat} {changed : σ → Prop}
    [DecidablePred changed] {s : σ} (hsize : ∀ k, size (f^[k] s) ≤ bound)
    (hgrow : ∀ k, changed (f^[k] s) → size (f^[k] s) < size (f^[k + 1] s)) :
    ∃ k ≤ bound, ¬ changed (f^[k] s) := by
  by_contra hno
  have hlow : ∀ k ≤ bound + 1, k ≤ size (f^[k] s) := by
    intro k hk
    induction k with
    | zero => exact Nat.zero_le _
    | succ k ih =>
      have hlt := hgrow k (by_contra fun hc => hno ⟨k, by omega, hc⟩)
      have := ih (by omega)
      omega
  have := hlow (bound + 1) (Nat.le_refl _)
  have := hsize (bound + 1)
  omega

end Syli.Foundation
