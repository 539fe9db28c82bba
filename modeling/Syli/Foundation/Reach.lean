import Mathlib.Logic.Relation
import Mathlib.Data.Finite.Prod
import Mathlib.Data.Set.Finite.Basic
import Mathlib.Order.WellFounded

/-! Reachability from a set of roots along a relation. -/
namespace Syli.Foundation

variable {α : Type*} {edge edge' : α → α → Prop} {root root' : α → Prop} {a b : α}

inductive Reach (edge : α → α → Prop) (root : α → Prop) : α → Prop where
  | root {a : α} : root a → Reach edge root a
  | step {a b : α} : Reach edge root a → edge a b → Reach edge root b

/-- A predicate that holds of the roots and is closed under the edges holds of what is reached. -/
theorem Reach.closed {P : α → Prop} (h : Reach edge root a) (hr : ∀ a, root a → P a)
    (he : ∀ a b, Reach edge root a → P a → edge a b → P b) : P a := by
  induction h with
  | root h => exact hr _ h
  | step h hab ih => exact he _ _ h ih hab

/-- Roots and edges that stay inside the reachable part reach nothing new. -/
theorem Reach.transfer (h : Reach edge' root' a) (hr : ∀ a, root' a → Reach edge root a)
    (he : ∀ a b, Reach edge root a → edge' a b → Reach edge root b) : Reach edge root a :=
  h.closed hr fun _ _ _ ih hab => he _ _ ih hab

theorem Reach.mono (h : Reach edge root a) (hr : ∀ a, root a → root' a)
    (he : ∀ a b, edge a b → edge' a b) : Reach edge' root' a :=
  h.transfer (fun _ h => .root (hr _ h)) fun _ _ h hab => .step h (he _ _ hab)

/-- A node that is reached is a root or has an edge from a node that is reached. -/
theorem Reach.cases_last (h : Reach edge root a) :
    root a ∨ ∃ b, Reach edge root b ∧ edge b a := by
  cases h with
  | root h => exact Or.inl h
  | step h hab => exact Or.inr ⟨_, h, hab⟩

/-- Where every node of a finite set has a predecessor in the set, the set holds a cycle. -/
theorem exists_cycle_of_predecessors (edge : α → α → Prop) {S : Set α} (hfin : S.Finite)
    (hne : S.Nonempty)
    (hp : ∀ a ∈ S, ∃ b ∈ S, edge b a) :
    ∃ a ∈ S, Relation.TransGen (fun x y => x ∈ S ∧ y ∈ S ∧ edge x y) a a := by
  by_contra hno
  have hirr : ∀ a : S, ¬ Relation.TransGen (fun x y : S => edge x y) a a := by
    intro a ha
    refine hno ⟨a, a.2, ?_⟩
    exact ha.lift Subtype.val fun x y h => ⟨x.2, y.2, h⟩
  have : Finite S := hfin
  have : Std.Irrefl (Relation.TransGen fun x y : S => edge x y) := ⟨hirr⟩
  have hwf := Finite.wellFounded_of_trans_of_irrefl (Relation.TransGen fun x y : S => edge x y)
  obtain ⟨a, ha⟩ := hne
  obtain ⟨m, -, hm⟩ := hwf.has_min Set.univ ⟨⟨a, ha⟩, trivial⟩
  obtain ⟨b, hb, hbm⟩ := hp m m.2
  exact hm ⟨b, hb⟩ trivial (.single hbm)

/-- A node from which no chain of edges is endless lies on no cycle. -/
theorem not_cycle_of_acc (h : Acc (fun x y => edge y x) a) : ¬ Relation.TransGen edge a a := by
  intro hloop
  have hacc : Acc (Relation.TransGen fun x y => edge y x) a := h.transGen
  replace hloop := Relation.transGen_swap.mpr hloop
  induction hacc with
  | intro a _ ih => exact ih a hloop h hloop

/-- Where finitely many nodes are reached and none of them lies on a cycle, every chain of edges
ends. -/
theorem acc_of_not_cycle (hfin : {b | Relation.ReflTransGen edge a b}.Finite)
    (hno : ∀ b, Relation.ReflTransGen edge a b → ¬ Relation.TransGen edge b b) :
    Acc (fun x y => edge y x) a := by
  by_contra hacc
  let S : Set α := {b | Relation.ReflTransGen edge a b ∧ ¬ Acc (fun x y => edge y x) b}
  have hfinS : S.Finite := hfin.subset fun b hb => hb.1
  have hnext : ∀ b ∈ S, ∃ c ∈ S, edge b c := by
    rintro b ⟨hb, hbacc⟩
    by_contra hnone
    refine hbacc ⟨b, fun c hc => ?_⟩
    by_contra hcacc
    exact hnone ⟨c, ⟨hb.tail hc, hcacc⟩, hc⟩
  obtain ⟨b, hb, hcycle⟩ :=
    exists_cycle_of_predecessors (fun x y => edge y x) hfinS ⟨a, .refl, hacc⟩ hnext
  have hback : Relation.TransGen (fun x y => edge y x) b b := hcycle.lift id fun _ _ h => h.2.2
  exact hno b hb.1 (Relation.transGen_swap.mp hback)

end Syli.Foundation
