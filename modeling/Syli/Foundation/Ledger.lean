import Mathlib.Algebra.BigOperators.Group.Finset.Basic
import Mathlib.Algebra.Order.BigOperators.Group.Finset

/-! Reference counts as a ledger: each count of a node is owed to a claim from outside or to an
edge of a finite multigraph, and counts move between the two. -/
namespace Syli.Foundation

variable {ν : Type*} [DecidableEq ν] {nodes : Finset ν} {count : ν → ℕ} {claims claims' : List ν}
variable {out : ν → List ν} {x y a : ν} {l : List ν}

/-- How many edges lead from `nodes` to `a`, counted with multiplicity. -/
def inDegree (nodes : Finset ν) (out : ν → List ν) (a : ν) : ℕ :=
  ∑ x ∈ nodes, (out x).count a

theorem inDegree_update {f : ν → List ν} (hx : x ∈ nodes) (l : List ν) (a : ν) :
    inDegree nodes (Function.update f x l) a + (f x).count a =
      inDegree nodes f a + l.count a := by
  have hrest : ∑ y ∈ nodes.erase x, (Function.update f x l y).count a =
      ∑ y ∈ nodes.erase x, (f y).count a := by
    refine Finset.sum_congr rfl fun y hy => ?_
    rw [Function.update_of_ne (Finset.ne_of_mem_erase hy)]
  have h₁ := Finset.add_sum_erase nodes (fun y => (Function.update f x l y).count a) hx
  have h₂ := Finset.add_sum_erase nodes (fun y => (f y).count a) hx
  simp only [Function.update_self] at h₁
  simp only [inDegree]
  omega

theorem count_le_inDegree (hx : x ∈ nodes) (a : ν) : (out x).count a ≤ inDegree nodes out a :=
  Finset.single_le_sum (f := fun y => (out y).count a) (fun _ _ => Nat.zero_le _) hx

theorem inDegree_pos (hx : x ∈ nodes) (ha : a ∈ out x) : 0 < inDegree nodes out a :=
  Nat.lt_of_lt_of_le (List.count_pos_iff.mpr ha) (count_le_inDegree hx a)

theorem exists_edge_of_inDegree_pos (h : 0 < inDegree nodes out a) :
    ∃ x ∈ nodes, a ∈ out x := by
  by_contra hno
  have : inDegree nodes out a = 0 := by
    refine Finset.sum_eq_zero fun x hx => List.count_eq_zero.mpr fun ha => hno ⟨x, hx, ha⟩
  omega

/-- The counts are exactly the claims and the edges. -/
def Balanced (nodes : Finset ν) (count : ν → ℕ) (claims : List ν) (out : ν → List ν) : Prop :=
  ∀ a, count a = claims.count a + inDegree nodes out a

namespace Balanced

variable (h : Balanced nodes count claims out)
include h

theorem perm (hp : claims.Perm claims') : Balanced nodes count claims' out :=
  fun a => by rw [h a, hp.count_eq a]

theorem count_pos_of_claim (ha : a ∈ claims) : 0 < count a := by
  have := List.count_pos_iff.mpr ha
  rw [h a]
  omega

theorem count_pos_of_edge (hx : x ∈ nodes) (ha : a ∈ out x) : 0 < count a := by
  have := inDegree_pos hx ha
  rw [h a]
  omega

theorem owner_of_count_pos (ha : 0 < count a) : a ∈ claims ∨ ∃ x ∈ nodes, a ∈ out x := by
  rw [h a] at ha
  rcases Nat.eq_zero_or_pos (claims.count a) with hz | hpos
  · exact Or.inr (exists_edge_of_inDegree_pos (by omega))
  · exact Or.inl (List.count_pos_iff.mp hpos)

theorem gain (a : ν) :
    Balanced nodes (Function.update count a (count a + 1)) (a :: claims) out := by
  intro b
  by_cases hb : b = a
  · subst hb
    rw [Function.update_self, List.count_cons_self, h b]
    omega
  · rw [Function.update_of_ne hb, List.count_cons_of_ne (Ne.symm hb), h b]

/-- The edges of a node become claims. -/
theorem detach (hx : x ∈ nodes) :
    Balanced nodes count (out x ++ claims) (Function.update out x []) := by
  intro b
  have hu := inDegree_update (f := out) hx [] b
  simp only [List.count_nil] at hu
  rw [h b, List.count_append]
  omega

theorem update_of_zero (hz : count a = 0) : Balanced nodes (Function.update count a 0) claims out := by
  rwa [← hz, Function.update_eq_self]

theorem insert (hx : x ∉ nodes) (hz : count x = 0) (hout : out x = []) :
    Balanced (insert x nodes) (Function.update count x 1) (x :: claims) out := by
  have hg := h.gain x
  rw [hz] at hg
  intro b
  rw [hg b, inDegree, inDegree, Finset.sum_insert hx, hout, List.count_nil, Nat.zero_add]

end Balanced

theorem Balanced.giveUp (h : Balanced nodes count (a :: claims) out) :
    Balanced nodes (Function.update count a (count a - 1)) claims out := by
  intro b
  have hb := h b
  by_cases hba : b = a
  · subst hba
    rw [Function.update_self, hb, List.count_cons_self]
    omega
  · rw [List.count_cons_of_ne (Ne.symm hba)] at hb
    rw [Function.update_of_ne hba, hb]

/-- Claims become the edges of a node that has none. -/
theorem Balanced.attach (h : Balanced nodes count (l ++ claims) (Function.update out x []))
    (hx : x ∈ nodes) : Balanced nodes count claims (Function.update out x l) := by
  intro b
  have hb := h b
  have hu := inDegree_update (f := Function.update out x []) hx l b
  rw [Function.update_idem, Function.update_self, List.count_nil] at hu
  rw [List.count_append] at hb
  omega

end Syli.Foundation
