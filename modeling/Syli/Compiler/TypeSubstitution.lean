import Syli.Compiler.TypedTypes
import Syli.Foundation.Reach
import Syli.Foundation.OptionLists

/-! What a substitution without cycles denotes. -/
namespace Syli.Compiler.Typing

open Foundation Relation

variable {s r u : Subst} {t t' a b : Ty} {ts : List Ty} {v w n m : Nat} {σ τ : Nat → Ty}

/-- Induction on a type, with what holds of all its parts. -/
@[elab_as_elim] theorem Ty.ind {P : Ty → Prop} (var : ∀ v, P (.var v)) (any : P .any)
    (constant : ∀ c, P (.constant c)) (arrow : ∀ arg ret, P arg → P ret → P (.arrow arg ret))
    (tuple : ∀ elems, (∀ t ∈ elems, P t) → P (.tuple elems))
    (array : ∀ elem, P elem → P (.array elem))
    (defined : ∀ name args, (∀ t ∈ args, P t) → P (.defined name args)) : ∀ t, P t
  | .var v => var v
  | .any => any
  | .constant c => constant c
  | .arrow arg ret => arrow arg ret (Ty.ind var any constant arrow tuple array defined arg)
      (Ty.ind var any constant arrow tuple array defined ret)
  | .tuple elems => tuple elems fun t _ => Ty.ind var any constant arrow tuple array defined t
  | .array elem => array elem (Ty.ind var any constant arrow tuple array defined elem)
  | .defined name args =>
    defined name args fun t _ => Ty.ind var any constant arrow tuple array defined t

mutual

/-- The type with every variable replaced once. -/
def Ty.subst (σ : Nat → Ty) : Ty → Ty
  | .var v => σ v
  | .any => .any
  | .constant c => .constant c
  | .arrow arg ret => .arrow (arg.subst σ) (ret.subst σ)
  | .tuple elems => .tuple (Ty.substs σ elems)
  | .array elem => .array (elem.subst σ)
  | .defined name args => .defined name (Ty.substs σ args)

def Ty.substs (σ : Nat → Ty) : List Ty → List Ty
  | [] => []
  | t :: ts => t.subst σ :: Ty.substs σ ts

end

mutual

def Ty.size : Ty → Nat
  | .var _ | .any | .constant _ => 1
  | .arrow arg ret => arg.size + ret.size + 1
  | .tuple elems => Ty.sizes elems + 1
  | .array elem => elem.size + 1
  | .defined _ args => Ty.sizes args + 1

def Ty.sizes : List Ty → Nat
  | [] => 0
  | t :: ts => t.size + Ty.sizes ts

end

mutual

def Ty.anyFree : Ty → Bool
  | .any => false
  | .var _ | .constant _ => true
  | .arrow arg ret => arg.anyFree && ret.anyFree
  | .tuple elems => Ty.anyFrees elems
  | .array elem => elem.anyFree
  | .defined _ args => Ty.anyFrees args

def Ty.anyFrees : List Ty → Bool
  | [] => true
  | t :: ts => t.anyFree && Ty.anyFrees ts

end

@[simp] theorem substs_eq_map : Ty.substs σ ts = ts.map (Ty.subst σ) := by
  induction ts with
  | nil => rfl
  | cons t ts ih => rw [Ty.substs, ih, List.map_cons]

theorem size_le_sizes (h : t ∈ ts) : t.size ≤ Ty.sizes ts := by
  induction ts with
  | nil => cases h
  | cons t' ts ih =>
    simp only [Ty.sizes]
    rcases List.mem_cons.mp h with rfl | h
    · omega
    · have := ih h
      omega

@[simp] theorem anyFrees_iff : Ty.anyFrees ts = true ↔ ∀ t ∈ ts, t.anyFree = true := by
  induction ts with
  | nil => simp [Ty.anyFrees]
  | cons t ts ih => simp [Ty.anyFrees, ih]

@[simp] theorem occursAny_iff : occursAny v ts = true ↔ ∃ t ∈ ts, occurs v t = true := by
  induction ts with
  | nil => simp [occursAny]
  | cons t ts ih => simp [occursAny, ih]

theorem subst_subst : (t.subst σ).subst τ = t.subst fun v => (σ v).subst τ := by
  induction t using Ty.ind with
  | var | any | constant => simp [Ty.subst]
  | arrow arg ret iha ihr => simp [Ty.subst, iha, ihr]
  | tuple elems ih => simpa [Ty.subst] using ih
  | array elem ih => simp [Ty.subst, ih]
  | defined name args ih => simpa [Ty.subst] using ih

theorem subst_congr (h : ∀ v, occurs v t = true → σ v = τ v) : t.subst σ = t.subst τ := by
  induction t using Ty.ind with
  | var v => exact h v (by simp [occurs])
  | any | constant => rfl
  | arrow arg ret iha ihr =>
    simp only [occurs, Bool.or_eq_true] at h
    simp [Ty.subst, iha fun v hv => h v (Or.inl hv), ihr fun v hv => h v (Or.inr hv)]
  | tuple elems ih =>
    simp only [occurs, occursAny_iff] at h
    simpa [Ty.subst] using fun t ht => ih t ht fun v hv => h v ⟨t, ht, hv⟩
  | array elem ih =>
    simp only [occurs] at h
    simp [Ty.subst, ih h]
  | defined name args ih =>
    simp only [occurs, occursAny_iff] at h
    simpa [Ty.subst] using fun t ht => ih t ht fun v hv => h v ⟨t, ht, hv⟩

theorem subst_var : t.subst .var = t := by
  induction t using Ty.ind with
  | var | any | constant => rfl
  | arrow arg ret iha ihr => simp [Ty.subst, iha, ihr]
  | tuple elems ih => simpa [Ty.subst] using (List.map_congr_left ih).trans (List.map_id' elems)
  | array elem ih => simp [Ty.subst, ih]
  | defined name args ih =>
    simpa [Ty.subst] using (List.map_congr_left ih).trans (List.map_id' args)

theorem occursAny_map (ih : ∀ t ∈ ts, (occurs w (t.subst σ) = true ↔
    ∃ v, occurs v t = true ∧ occurs w (σ v) = true)) :
    (∃ t ∈ ts.map (Ty.subst σ), occurs w t = true) ↔
      ∃ v, (∃ t ∈ ts, occurs v t = true) ∧ occurs w (σ v) = true := by
  constructor
  · rintro ⟨_, hmem, hw⟩
    obtain ⟨t, ht, rfl⟩ := List.mem_map.mp hmem
    obtain ⟨v, hv, hw⟩ := (ih t ht).mp hw
    exact ⟨v, ⟨t, ht, hv⟩, hw⟩
  · rintro ⟨v, ⟨t, ht, hv⟩, hw⟩
    exact ⟨_, List.mem_map_of_mem ht, (ih t ht).mpr ⟨v, hv, hw⟩⟩

theorem occurs_subst : occurs w (t.subst σ) = true ↔
    ∃ v, occurs v t = true ∧ occurs w (σ v) = true := by
  induction t using Ty.ind with
  | var v => simp [Ty.subst, occurs]
  | any | constant => simp [Ty.subst, occurs]
  | arrow arg ret iha ihr =>
    simp only [Ty.subst, occurs, Bool.or_eq_true, iha, ihr, or_and_right, exists_or]
  | tuple elems ih =>
    simpa only [Ty.subst, occurs, occursAny_iff, substs_eq_map] using occursAny_map ih
  | array elem ih => simpa only [Ty.subst, occurs] using ih
  | defined name args ih =>
    simpa only [Ty.subst, occurs, occursAny_iff, substs_eq_map] using occursAny_map ih

theorem anyFree_subst (ht : t.anyFree = true) (hσ : ∀ v, occurs v t = true → (σ v).anyFree = true) :
    (t.subst σ).anyFree = true := by
  induction t using Ty.ind with
  | var v => exact hσ v (by simp [occurs])
  | any | constant => exact ht
  | arrow arg ret iha ihr =>
    simp only [occurs, Bool.or_eq_true, Ty.anyFree, Bool.and_eq_true] at hσ ht
    simp [Ty.subst, Ty.anyFree, iha ht.1 fun v hv => hσ v (Or.inl hv),
      ihr ht.2 fun v hv => hσ v (Or.inr hv)]
  | tuple elems ih =>
    simp only [occurs, occursAny_iff, Ty.anyFree, anyFrees_iff] at hσ ht
    simpa [Ty.subst, Ty.anyFree] using fun t hm => ih t hm (ht t hm) fun v hv => hσ v ⟨t, hm, hv⟩
  | array elem ih =>
    simp only [occurs, Ty.anyFree] at hσ ht
    simpa [Ty.subst, Ty.anyFree] using ih ht hσ
  | defined name args ih =>
    simp only [occurs, occursAny_iff, Ty.anyFree, anyFrees_iff] at hσ ht
    simpa [Ty.subst, Ty.anyFree] using fun t hm => ih t hm (ht t hm) fun v hv => hσ v ⟨t, hm, hv⟩

/-- A variable is replaced by no more than the whole type. -/
theorem size_le_subst (h : occurs v t = true) : (σ v).size ≤ (t.subst σ).size := by
  induction t using Ty.ind with
  | var w =>
    obtain rfl : v = w := by simpa [occurs] using h
    exact Nat.le_refl _
  | any | constant => simp [occurs] at h
  | arrow arg ret iha ihr =>
    simp only [occurs, Bool.or_eq_true] at h
    simp only [Ty.subst, Ty.size]
    rcases h with h | h
    · have := iha h
      omega
    · have := ihr h
      omega
  | tuple elems ih =>
    obtain ⟨t, ht, hv⟩ := occursAny_iff.mp h
    have := (ih t ht hv).trans (size_le_sizes (List.mem_map_of_mem ht))
    simp only [Ty.subst, Ty.size, substs_eq_map]
    omega
  | array elem ih =>
    have := ih h
    simp only [Ty.subst, Ty.size]
    omega
  | defined name args ih =>
    obtain ⟨t, ht, hv⟩ := occursAny_iff.mp h
    have := (ih t ht hv).trans (size_le_sizes (List.mem_map_of_mem ht))
    simp only [Ty.subst, Ty.size, substs_eq_map]
    omega

/-- A variable is replaced by less than a whole type around it. -/
theorem subst_ne_of_occurs (h : occurs v t = true) (hne : t ≠ .var v) : σ v ≠ t.subst σ := by
  intro heq
  have hsize := congrArg Ty.size heq
  cases t with
  | var w =>
    obtain rfl : v = w := by simpa [occurs] using h
    exact hne rfl
  | any | constant => simp [occurs] at h
  | arrow arg ret =>
    simp only [occurs, Bool.or_eq_true] at h
    simp only [Ty.subst, Ty.size] at hsize
    rcases h with h | h
    · have := @size_le_subst arg v σ h
      omega
    · have := @size_le_subst ret v σ h
      omega
  | tuple elems =>
    obtain ⟨t, ht, hv⟩ := occursAny_iff.mp h
    have := (@size_le_subst t v σ hv).trans (size_le_sizes (List.mem_map_of_mem ht))
    simp only [Ty.subst, Ty.size, substs_eq_map] at hsize
    omega
  | array elem =>
    have := @size_le_subst elem v σ h
    simp only [Ty.subst, Ty.size] at hsize
    omega
  | defined name args =>
    obtain ⟨t, ht, hv⟩ := occursAny_iff.mp h
    have := (@size_le_subst t v σ hv).trans (size_le_sizes (List.mem_map_of_mem ht))
    simp only [Ty.subst, Ty.size, substs_eq_map] at hsize
    omega

theorem eq_of_equalTys {as bs : List Ty} (ih : ∀ a ∈ as, ∀ b, equalTy a b = true →
    a.anyFree = true → b.anyFree = true → a = b) (h : equalTys as bs = true)
    (ha : Ty.anyFrees as = true) (hb : Ty.anyFrees bs = true) : as = bs := by
  induction as generalizing bs with
  | nil =>
    cases bs with
    | nil => rfl
    | cons b bs => simp [equalTys] at h
  | cons a as ihas =>
    cases bs with
    | nil => simp [equalTys] at h
    | cons b bs =>
      simp only [equalTys, Ty.anyFrees, Bool.and_eq_true] at h ha hb
      rw [ih a List.mem_cons_self b h.1 ha.1 hb.1,
        ihas (fun a hm => ih a (List.mem_cons_of_mem _ hm)) h.2 ha.2 hb.2]

/-- Without the wildcard, types that the checker takes for equal are the same. -/
theorem eq_of_equalTy (h : equalTy a b = true) (ha : a.anyFree = true) (hb : b.anyFree = true) :
    a = b := by
  induction a using Ty.ind generalizing b with
  | var | constant =>
    cases b <;> simp_all [equalTy, Ty.anyFree]
  | any => simp [Ty.anyFree] at ha
  | arrow arg ret iha ihr =>
    cases b with
    | arrow arg' ret' =>
      simp only [equalTy, Ty.anyFree, Bool.and_eq_true] at h ha hb
      rw [iha h.1 ha.1 hb.1, ihr h.2 ha.2 hb.2]
    | any => simp [Ty.anyFree] at hb
    | _ => simp [equalTy] at h
  | tuple elems ih =>
    cases b with
    | tuple elems' => rw [eq_of_equalTys (fun a hm b => ih a hm) (by simpa [equalTy] using h) ha hb]
    | any => simp [Ty.anyFree] at hb
    | _ => simp [equalTy] at h
  | array elem ih =>
    cases b with
    | array elem' =>
      simp only [equalTy, Ty.anyFree] at h ha hb
      rw [ih h ha hb]
    | any => simp [Ty.anyFree] at hb
    | _ => simp [equalTy] at h
  | defined name args ih =>
    cases b with
    | defined name' args' =>
      simp only [equalTy, Bool.and_eq_true, decide_eq_true_eq] at h
      rw [h.1, eq_of_equalTys (fun a hm b => ih a hm) h.2 ha hb]
    | any => simp [Ty.anyFree] at hb
    | _ => simp [equalTy] at h

theorem equalTys_self (ih : ∀ t ∈ ts, equalTy t t = true) : equalTys ts ts = true := by
  induction ts with
  | nil => rfl
  | cons t ts ihts =>
    simp only [equalTys, Bool.and_eq_true]
    exact ⟨ih t List.mem_cons_self, ihts fun t hm => ih t (List.mem_cons_of_mem _ hm)⟩

theorem equalTy_self : equalTy t t = true := by
  induction t using Ty.ind with
  | var | any | constant => simp [equalTy]
  | arrow arg ret iha ihr => simp [equalTy, iha, ihr]
  | tuple elems ih => simpa [equalTy] using equalTys_self ih
  | array elem ih => simpa [equalTy] using ih
  | defined name args ih => simpa [equalTy] using equalTys_self ih

section Apply

/-- The recursion of `apply` ends with that type. -/
def Applies (s : Subst) (t t' : Ty) : Prop := ∃ n, ∀ m ≥ n, s.apply m t = some t'

theorem Applies.unique {t₁ t₂ : Ty} (h₁ : Applies s t t₁) (h₂ : Applies s t t₂) : t₁ = t₂ := by
  obtain ⟨n₁, h₁⟩ := h₁
  obtain ⟨n₂, h₂⟩ := h₂
  exact Option.some.inj
    ((h₁ (max n₁ n₂) (by omega)).symm.trans (h₂ (max n₁ n₂) (by omega)))

theorem exists_bound {P : Ty → Nat → Prop} (h : ∀ t ∈ ts, ∃ n, ∀ m ≥ n, P t m) :
    ∃ n, ∀ m ≥ n, ∀ t ∈ ts, P t m := by
  induction ts with
  | nil => exact ⟨0, by simp⟩
  | cons t ts ih =>
    obtain ⟨n₁, h₁⟩ := h t List.mem_cons_self
    obtain ⟨n₂, h₂⟩ := ih fun t hm => h t (List.mem_cons_of_mem _ hm)
    refine ⟨max n₁ n₂, fun m hm => List.forall_mem_cons.mpr ⟨h₁ m (by omega), h₂ m (by omega)⟩⟩

theorem applies_succ (h : ∃ n, ∀ m ≥ n, s.apply (m + 1) t = some t') : Applies s t t' := by
  obtain ⟨n, hn⟩ := h
  refine ⟨n + 1, fun m hm => ?_⟩
  obtain ⟨m, rfl⟩ := Nat.exists_eq_add_one_of_ne_zero (by omega : m ≠ 0)
  exact hn m (by omega)

/-- It is enough that `apply` ends on the variables of a type. -/
theorem applies_of_vars (h : ∀ v, occurs v t = true → Applies s (.var v) (σ v)) :
    Applies s t (t.subst σ) := by
  induction t using Ty.ind with
  | var v => exact h v (by simp [occurs])
  | any | constant => exact applies_succ ⟨0, fun m _ => rfl⟩
  | arrow arg ret iha ihr =>
    simp only [occurs, Bool.or_eq_true] at h
    obtain ⟨n₁, h₁⟩ := iha fun v hv => h v (Or.inl hv)
    obtain ⟨n₂, h₂⟩ := ihr fun v hv => h v (Or.inr hv)
    refine applies_succ ⟨max n₁ n₂, fun m hm => ?_⟩
    simp [Subst.apply, Ty.subst, h₁ m (by omega), h₂ m (by omega)]
  | tuple elems ih =>
    simp only [occurs, occursAny_iff] at h
    obtain ⟨n, hn⟩ := exists_bound fun t ht => ih t ht fun v hv => h v ⟨t, ht, hv⟩
    refine applies_succ ⟨n, fun m hm => ?_⟩
    simp [Subst.apply, Ty.subst, mapM_eq_map (hn m hm)]
  | array elem ih =>
    simp only [occurs] at h
    obtain ⟨n, hn⟩ := ih h
    refine applies_succ ⟨n, fun m hm => ?_⟩
    simp [Subst.apply, Ty.subst, hn m hm]
  | defined name args ih =>
    simp only [occurs, occursAny_iff] at h
    obtain ⟨n, hn⟩ := exists_bound fun t ht => ih t ht fun v hv => h v ⟨t, ht, hv⟩
    refine applies_succ ⟨n, fun m hm => ?_⟩
    simp [Subst.apply, Ty.subst, mapM_eq_map (hn m hm)]

theorem applies_bound (hfind : s.findOpt v = some t) (h : Applies s t t') :
    Applies s (.var v) t' := by
  obtain ⟨n, hn⟩ := h
  refine applies_succ ⟨n, fun m hm => ?_⟩
  simp [Subst.apply, hfind, hn m hm]

theorem applies_unbound (hfind : s.findOpt v = none) : Applies s (.var v) (.var v) :=
  applies_succ ⟨0, fun m _ => by simp [Subst.apply, hfind]⟩

end Apply

section Acyclic

/-- The type that is bound to `v` mentions `w`. -/
def Leads (s : Subst) (v w : Nat) : Prop := ∃ t, s.findOpt v = some t ∧ occurs w t = true

/-- No variable reaches itself. -/
def Acyclic (s : Subst) : Prop := ∀ v, ¬ TransGen (Leads s) v v

theorem finite_occurs (t : Ty) : {v | occurs v t = true}.Finite := by
  induction t using Ty.ind with
  | var v => simp [occurs]
  | any | constant => simp [occurs]
  | arrow arg ret iha ihr =>
    refine (iha.union ihr).subset fun v hv => ?_
    simpa [occurs] using hv
  | tuple elems ih =>
    refine ((List.finite_toSet elems).biUnion ih).subset fun v hv => ?_
    simpa [occurs] using hv
  | array elem ih => exact ih
  | defined name args ih =>
    refine ((List.finite_toSet args).biUnion ih).subset fun v hv => ?_
    simpa [occurs] using hv

theorem Acyclic.acc (h : Acyclic s) (v : Nat) : Acc (fun w v => Leads s v w) v := by
  refine acc_of_not_cycle ?_ fun w _ => h w
  have hfin : (⋃ e ∈ {e | e ∈ s}, {w | occurs w e.2 = true}).Finite :=
    (List.finite_toSet s).biUnion fun e _ => finite_occurs e.2
  refine (hfin.insert v).subset fun w hw => ?_
  rcases hw.cases_tail with heq | ⟨w', -, t, hfind, hocc⟩
  · exact Or.inl heq
  · exact Or.inr (Set.mem_biUnion (AssocMap.mem_of_findOpt hfind) hocc)

theorem acyclic_iff : Acyclic s ↔ ∀ v, Acc (fun w v => Leads s v w) v :=
  ⟨Acyclic.acc, fun h v => not_cycle_of_acc (h v)⟩

/-- `σ` is what `apply` does to the variables. -/
structure Denotes (s : Subst) (σ : Nat → Ty) : Prop where
  applies : ∀ v, Applies s (.var v) (σ v)
  resolved : ∀ v w, occurs w (σ v) = true → s.findOpt w = none

theorem Acyclic.exists_denotes (h : Acyclic s) : ∃ σ, Denotes s σ := by
  have hvar : ∀ v, ∃ t', Applies s (.var v) t' ∧
      ∀ w, occurs w t' = true → s.findOpt w = none := by
    intro v
    have hacc := h.acc v
    induction hacc with
    | intro v _ ih =>
      cases hfind : s.findOpt v with
      | none =>
        refine ⟨.var v, applies_unbound hfind, fun w hw => ?_⟩
        obtain rfl : w = v := by simpa [occurs] using hw
        exact hfind
      | some t =>
        have hpart : ∀ w, ∃ t', occurs w t = true → Applies s (.var w) t' ∧
            ∀ x, occurs x t' = true → s.findOpt x = none := by
          intro w
          by_cases hw : occurs w t = true
          · obtain ⟨t', ht'⟩ := ih w ⟨t, hfind, hw⟩
            exact ⟨t', fun _ => ht'⟩
          · exact ⟨.any, fun hw' => (hw hw').elim⟩
        choose σ hσ using hpart
        refine ⟨t.subst σ, applies_bound hfind (applies_of_vars fun w hw => (hσ w hw).1), ?_⟩
        intro x hx
        obtain ⟨w, hw, hxw⟩ := occurs_subst.mp hx
        exact (hσ w hw).2 x hxw
  choose σ hσ using hvar
  exact ⟨σ, fun v => (hσ v).1, fun v => (hσ v).2⟩

namespace Denotes

variable (hσ : Denotes s σ)

include hσ

theorem applies_subst : Applies s t (t.subst σ) := applies_of_vars fun v _ => hσ.applies v

theorem bound (hfind : s.findOpt v = some t) : σ v = t.subst σ :=
  (hσ.applies v).unique (applies_bound hfind hσ.applies_subst)

theorem unbound (hfind : s.findOpt v = none) : σ v = .var v :=
  (hσ.applies v).unique (applies_unbound hfind)

/-- What `apply` returns is not changed by it again. -/
theorem subst_resolved (h : ∀ v, occurs v t = true → s.findOpt v = none) : t.subst σ = t := by
  rw [subst_congr fun v hv => hσ.unbound (h v hv), subst_var]

theorem resolved_subst (h : occurs w (t.subst σ) = true) : s.findOpt w = none := by
  obtain ⟨v, -, hw⟩ := occurs_subst.mp h
  exact hσ.resolved v w hw

end Denotes

/-- `τ` makes every variable equal to the type that is bound to it. -/
def Solves (τ : Nat → Ty) (s : Subst) : Prop := ∀ v t, s.findOpt v = some t → τ v = t.subst τ

theorem Denotes.solves (hσ : Denotes s σ) : Solves σ s := fun _ _ hfind => hσ.bound hfind

/-- A solution factors through what the substitution denotes. -/
theorem Solves.factors (hτ : Solves τ s) (hs : Acyclic s) (hσ : Denotes s σ) :
    (σ v).subst τ = τ v := by
  have hacc := hs.acc v
  induction hacc with
  | intro v _ ih =>
    cases hfind : s.findOpt v with
    | none => rw [hσ.unbound hfind, Ty.subst]
    | some t =>
      have hparts : t.subst (fun w => (σ w).subst τ) = t.subst τ :=
        subst_congr fun w hw => ih w ⟨t, hfind, hw⟩
      rw [hσ.bound hfind, subst_subst, hparts, hτ v t hfind]

theorem Solves.subst_factors (hτ : Solves τ s) (hs : Acyclic s) (hσ : Denotes s σ) :
    (t.subst σ).subst τ = t.subst τ := by
  rw [subst_subst]
  exact subst_congr fun v _ => hτ.factors hs hσ

end Acyclic

end Syli.Compiler.Typing
