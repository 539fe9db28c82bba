import Syli.Compiler.Unification

/-! The result of unification is the most general one that extends the substitution. -/
namespace Syli.Compiler.Typing

open Foundation

variable {s r u : Subst} {t t' a b : Ty} {v n m : Nat} {σ τ : Nat → Ty}

/-- `u` takes every variable of `s` to what it takes the type that `s` binds to it. -/
def Extends (u s : Subst) : Prop :=
  ∀ v t, s.findOpt v = some t → ∃ t', Applies u (.var v) t' ∧ Applies u t t'

structure Unifier (u s : Subst) (a b : Ty) : Prop where
  acyclic : Acyclic u
  extending : Extends u s
  equal : ∃ t, Applies u a t ∧ Applies u b t

/-- A unifier that keeps the bindings of `s`, and through which all others factor. -/
structure MostGeneral (r s : Subst) (a b : Ty) : Prop where
  acyclic : Acyclic r
  keeps : ∀ v t, s.findOpt v = some t → r.findOpt v = some t
  equal : ∃ t, Applies r a t ∧ Applies r b t
  factors : ∀ u, Unifier u s a b → ∀ t t₁, Applies r t t₁ →
    ∀ t₂, Applies u t₁ t₂ ↔ Applies u t t₂

/-- The substitutions have the same effect on every type. -/
def SameEffect (s r : Subst) : Prop := ∀ t t', Applies s t t' ↔ Applies r t t'

theorem Denotes.applies_iff (hσ : Denotes s σ) : Applies s t t' ↔ t' = t.subst σ := by
  constructor
  · intro h
    exact h.unique hσ.applies_subst
  · rintro rfl
    exact hσ.applies_subst

theorem solves_of_extends (hσ : Denotes u σ) (h : Extends u s) : Solves σ s := by
  intro v t hfind
  obtain ⟨t', hv, ht⟩ := h v t hfind
  rw [hσ.applies_iff] at hv ht
  exact hv.symm.trans ht

theorem extends_of_keeps (hr : Acyclic r)
    (h : ∀ v t, s.findOpt v = some t → r.findOpt v = some t) : Extends r s := by
  intro v t hfind
  obtain ⟨σ, hσ⟩ := hr.exists_denotes
  exact ⟨t.subst σ, applies_bound (h v t hfind) hσ.applies_subst, hσ.applies_subst⟩

theorem MostGeneral.unifier (h : MostGeneral r s a b) : Unifier r s a b :=
  ⟨h.acyclic, extends_of_keeps h.acyclic h.keeps, h.equal⟩

/-- All variables of a type, of two types and of the types that a substitution binds. -/
theorem exists_good (hs : Acyclic s) (hfree : ∀ v t, s.findOpt v = some t → t.anyFree = true)
    (ha : a.anyFree = true) (hb : b.anyFree = true) :
    ∃ U, Good U s ∧ Over U a ∧ Over U b := by
  have hfin : (⋃ e ∈ {e | e ∈ s}, {w | occurs w e.2 = true}).Finite :=
    (List.finite_toSet s).biUnion fun e _ => finite_occurs e.2
  let U := (finite_occurs a).toFinset ∪ ((finite_occurs b).toFinset ∪ hfin.toFinset)
  refine ⟨U, ⟨hs, fun v t hfind => ⟨hfree v t hfind, fun w hw => ?_⟩⟩, ⟨ha, fun v hv => ?_⟩,
    ⟨hb, fun v hv => ?_⟩⟩
  · have hmem : w ∈ ⋃ e ∈ {e | e ∈ s}, {w | occurs w e.2 = true} :=
      Set.mem_biUnion (AssocMap.mem_of_findOpt hfind) hw
    simp only [U, Finset.mem_union, Set.Finite.mem_toFinset]
    exact Or.inr (Or.inr hmem)
  · simp [U, hv]
  · simp [U, hv]

theorem mostGeneral_of_settles {U : Finset Nat}
    (h : Settles U s (fun τ => a.subst τ = b.subst τ) (.ok r)) : MostGeneral r s a b := by
  cases h with
  | ok hgood hgrows hsolves =>
    obtain ⟨σ, hσ⟩ := hgood.acyclic.exists_denotes
    have hself : Solves σ s := hgrows.solves hσ.solves
    refine ⟨hgood.acyclic, hgrows.keeps, ⟨a.subst σ, hσ.applies_subst, ?_⟩, ?_⟩
    · rw [hσ.applies_iff]
      exact (hsolves σ hself).mpr hσ.solves
    · intro u hu t t₁ ht₁ t₂
      obtain ⟨τ, hτ⟩ := hu.acyclic.exists_denotes
      obtain ⟨t₀, ha, hb⟩ := hu.equal
      rw [hτ.applies_iff] at ha hb
      have hsolve := (hsolves τ (solves_of_extends hτ hu.extending)).mp (ha.symm.trans hb)
      rw [hσ.applies_iff] at ht₁
      rw [hτ.applies_iff, hτ.applies_iff, ht₁, hsolve.subst_factors hgood.acyclic hσ]

theorem no_unifier_of_settles {U : Finset Nat} {e : TypeError}
    (h : Settles U s (fun τ => a.subst τ = b.subst τ) (.error e)) : ¬ ∃ u, Unifier u s a b := by
  rintro ⟨u, hu⟩
  cases h with
  | error hno =>
    obtain ⟨τ, hτ⟩ := hu.acyclic.exists_denotes
    obtain ⟨t, ha, hb⟩ := hu.equal
    rw [hτ.applies_iff] at ha hb
    exact hno τ (solves_of_extends hτ hu.extending) (ha.symm.trans hb)

section Compose

theorem apply_congr (h : ∀ v, s.findOpt v = r.findOpt v) : s.apply n t = r.apply n t := by
  induction n generalizing t with
  | zero => rfl
  | succ n ih =>
    have heq : s.apply n = r.apply n := funext fun t => ih
    cases t <;> simp [Subst.apply, h, heq]

theorem exists_compose (hr : Acyclic r)
    (hkeeps : ∀ v t, s.findOpt v = some t → r.findOpt v = some t) :
    ∃ n, ∀ m ≥ n, ∃ r', Subst.compose m r s = some r' ∧ SameEffect r' r := by
  obtain ⟨σ, hσ⟩ := hr.exists_denotes
  obtain ⟨n, hn⟩ := @exists_bound (s.map Prod.snd) (fun t m => r.apply m t = some (t.subst σ))
    fun t _ => hσ.applies_subst
  refine ⟨n, fun m hm => ⟨r ++ s.map fun e => (e.1, e.2.subst σ), ?_, fun t t' => ?_⟩⟩
  · have hentry : ∀ e ∈ s, (do return (e.1, ← r.apply m e.2) : Option (Nat × Ty)) =
        some (e.1, e.2.subst σ) := by
      intro e he
      simp [hn m hm e.2 (List.mem_map_of_mem he)]
    simp only [Subst.compose, mapM_eq_map hentry]
    rfl
  · have hfind : ∀ v, AssocMap.findOpt (r ++ s.map fun e => (e.1, e.2.subst σ)) v =
        r.findOpt v := by
      intro v
      have happend : AssocMap.findOpt (r ++ s.map fun e => (e.1, e.2.subst σ)) v =
          (r.findOpt v).or (AssocMap.findOpt (s.map fun e => (e.1, e.2.subst σ)) v) :=
        List.lookup_append
      have hmap : AssocMap.findOpt (s.map fun e => (e.1, e.2.subst σ)) v =
          (s.findOpt v).map (Ty.subst σ) := AssocMap.findOpt_map (f := fun _ => Ty.subst σ)
      rw [happend, hmap]
      cases hr' : r.findOpt v with
      | some t => rfl
      | none =>
        have hs' : s.findOpt v = none := by
          cases hs' : s.findOpt v with
          | none => rfl
          | some t => simp [hkeeps v t hs'] at hr'
        simp [hs']
    simp only [Applies, apply_congr hfind]

end Compose

/-- Unification ends. Where the types have a unifier that extends the substitution, it returns the
most general one; elsewhere it raises a type error. -/
theorem unify_correct (s : Subst) (a b : Ty) (hs : Acyclic s)
    (hfree : ∀ v t, s.findOpt v = some t → t.anyFree = true)
    (ha : a.anyFree = true) (hb : b.anyFree = true) :
    (∃ r, Returns (fun n => unify n s a b) (.ok r) ∧ MostGeneral r s a b ∧
      (∃ u, Unifier u s a b) ∧
      ∃ n, ∀ m ≥ n, ∃ r', unifyInto m s a b = some (.ok r') ∧ SameEffect r' r) ∨
    ∃ e, Returns (fun n => unify n s a b) (.error e) ∧ ¬ ∃ u, Unifier u s a b := by
  obtain ⟨U, hgood, hoverA, hoverB⟩ := exists_good hs hfree ha hb
  obtain ⟨σ, hσ⟩ := hs.exists_denotes
  obtain ⟨out, ⟨n, hn⟩, hout⟩ := unify_returns hgood hσ hoverA hoverB
  cases out with
  | error e => exact Or.inr ⟨e, ⟨n, hn⟩, no_unifier_of_settles hout⟩
  | ok r =>
    have hgeneral := mostGeneral_of_settles hout
    obtain ⟨n', hn'⟩ := exists_compose hgeneral.acyclic hgeneral.keeps
    refine Or.inl ⟨r, ⟨n, hn⟩, hgeneral, ⟨r, hgeneral.unifier⟩, max n n', fun m hm => ?_⟩
    obtain ⟨r', hr', hsame⟩ := hn' m (by omega)
    refine ⟨r', ?_, hsame⟩
    simp [unifyInto, hn m (by omega), hr']

theorem acyclic_of_lt (h : ∀ e ∈ s, ∀ w, occurs w e.2 = true → e.1 < w) : Acyclic s := by
  intro v hv
  have hlt : ∀ w, Relation.TransGen (Leads s) v w → v < w := by
    intro w hw
    induction hw with
    | single hlead =>
      obtain ⟨t, hfind, hw⟩ := hlead
      exact h _ (AssocMap.mem_of_findOpt hfind) _ hw
    | tail _ hlead ih =>
      obtain ⟨t, hfind, hw⟩ := hlead
      exact Nat.lt_trans ih (h _ (AssocMap.mem_of_findOpt hfind) _ hw)
  exact Nat.lt_irrefl v (hlt v hv)

/-- A function type whose argument is bound in turn. -/
def boundArrow : Subst := [(0, .arrow (.var 1) (.var 2)), (1, .array (.var 2))]

theorem boundArrow_acyclic : Acyclic boundArrow := by
  apply acyclic_of_lt
  simp [boundArrow, occurs]

theorem boundArrow_anyFree : ∀ v t, boundArrow.findOpt v = some t → t.anyFree = true := by
  have hall : ∀ e ∈ boundArrow, e.2.anyFree = true := by
    simp [boundArrow, Ty.anyFree]
  exact fun v t hfind => hall _ (AssocMap.mem_of_findOpt hfind)

theorem unify_correct_boundArrow :
    (∃ r, Returns (fun n => unify n boundArrow (.var 0) (.arrow (.var 3) (.constant .int64)))
        (.ok r) ∧
      MostGeneral r boundArrow (.var 0) (.arrow (.var 3) (.constant .int64)) ∧
      (∃ u, Unifier u boundArrow (.var 0) (.arrow (.var 3) (.constant .int64))) ∧
      ∃ n, ∀ m ≥ n, ∃ r', unifyInto m boundArrow (.var 0) (.arrow (.var 3) (.constant .int64)) =
        some (.ok r') ∧ SameEffect r' r) ∨
    ∃ e, Returns (fun n => unify n boundArrow (.var 0) (.arrow (.var 3) (.constant .int64)))
        (.error e) ∧
      ¬ ∃ u, Unifier u boundArrow (.var 0) (.arrow (.var 3) (.constant .int64)) :=
  unify_correct boundArrow (.var 0) (.arrow (.var 3) (.constant .int64)) boundArrow_acyclic
    boundArrow_anyFree rfl rfl

/-- A variable that is bound to an array of the wildcard, as by its unification with that type. -/
def boundWildcard : Subst := [(0, .array .any)]

/-- The variable is equal to no array of integers, and yet no error is raised. -/
theorem unify_wildcard_range :
    Returns (fun n => unify n .empty (.var 0) (.array .any)) (.ok boundWildcard) ∧
      Acyclic boundWildcard ∧
      Returns (fun n => unify n boundWildcard (.var 0) (.array (.constant .int64)))
        (.ok boundWildcard) ∧
      ¬ (∃ t, Applies boundWildcard (.var 0) t ∧
        Applies boundWildcard (.array (.constant .int64)) t) ∧
      ¬ ∃ u, Unifier u boundWildcard (.var 0) (.array (.constant .int64)) := by
  have hany : ∀ u, Applies u (.array .any) (.array .any) := fun u =>
    applies_succ ⟨1, fun m hm => by
      obtain ⟨m, rfl⟩ := Nat.exists_eq_add_of_le' hm
      rfl⟩
  have hint : ∀ u, Applies u (.array (.constant .int64)) (.array (.constant .int64)) := fun u =>
    applies_succ ⟨1, fun m hm => by
      obtain ⟨m, rfl⟩ := Nat.exists_eq_add_of_le' hm
      rfl⟩
  have hvar : Applies boundWildcard (.var 0) (.array .any) := applies_bound rfl (hany _)
  refine ⟨⟨4, fun m hm => ?_⟩, ?_, ⟨4, fun m hm => ?_⟩, ?_, ?_⟩
  · obtain ⟨m, rfl⟩ := Nat.exists_eq_add_of_le' hm
    rfl
  · apply acyclic_of_lt
    simp [boundWildcard, occurs]
  · obtain ⟨m, rfl⟩ := Nat.exists_eq_add_of_le' hm
    rfl
  · rintro ⟨t, h, h'⟩
    cases (h.unique hvar).symm.trans (h'.unique (hint _))
  · rintro ⟨u, hu⟩
    obtain ⟨t, hv, hi⟩ := hu.equal
    obtain ⟨t', hv', ha⟩ := hu.extending 0 (.array .any) rfl
    have ht : t = .array (.constant .int64) := hi.unique (hint u)
    have ht' : t' = .array .any := ha.unique (hany u)
    cases ht.symm.trans ((hv.unique hv').trans ht')

end Syli.Compiler.Typing
