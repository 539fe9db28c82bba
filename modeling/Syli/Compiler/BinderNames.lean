import Syli.Compiler.Clashes

/-! The qualified names of two binders are equal exactly when their spellings clash. -/
namespace Syli.Compiler.Desugar

variable {root : String} {n m : Nat} {x y : Name} {b old : Binder} {scope : List Binder}

theorem rename_ne_text (k : Nat) (x : Name) : rename k x ≠ x.text := by
  intro h
  have hlength := congrArg (fun s => s.toList.length) h
  simp only [toList_rename, List.length_cons, List.length_append] at hlength
  omega

theorem append_dot_inj {s s' : String} : root ++ "." ++ s = root ++ "." ++ s' ↔ s = s' := by
  constructor
  · intro h
    have hlist := congrArg String.toList h
    simp only [String.toList_append] at hlist
    exact String.toList_injective (List.append_cancel_left hlist)
  · exact fun h => by rw [h]

theorem dot_mem (s : String) : '.' ∈ (root ++ "." ++ s).toList := by
  simp

theorem toplevel_ne (root s : String) {t : String} (ht : '.' ∉ t.toList) :
    root ++ "." ++ s ≠ t := by
  rintro rfl
  exact ht (dot_mem s)

theorem dotted_eq_iff {p p' : List Name} {s s' : String} (hs : '.' ∉ s.toList)
    (hs' : '.' ∉ s'.toList) :
    root ++ "." ++ dotted p s = root ++ "." ++ dotted p' s' ↔ p = p' ∧ s = s' := by
  rw [append_dot_inj]
  constructor
  · exact dotted_inj hs hs'
  · rintro ⟨rfl, rfl⟩
    rfl

/-- Two binders with numbers of their own. -/
def NumbersDiffer (b old : Binder) : Prop := ∀ k, b.number? = some k → old.number? ≠ some k

theorem core_ne_iff (root : String) (hn : NumbersDiffer b old)
    (hparam : b.kind = .param → old.kind ≠ .param) :
    b.qualified root ≠ old.qualified root ↔ b.Apart old := by
  obtain ⟨x, named, kind, hnamed⟩ := b
  obtain ⟨y, named', kind', hnamed'⟩ := old
  cases kind with
  | param =>
    cases kind' with
    | param => exact (hparam rfl rfl).elim
    | numbered k => exact Iff.rfl
    | toplevel p number =>
      have hne := fun s => (toplevel_ne root s x.undotted).symm
      cases number <;> simp [Binder.qualified, Binder.Apart, hne]
  | numbered k =>
    cases kind' with
    | param => exact Iff.rfl
    | numbered k' =>
      have hne : rename k x ≠ rename k' y := fun h => hn k rfl (by rw [(rename_inj h).1]; rfl)
      simp [Binder.qualified, Binder.Apart, hne]
    | toplevel p number =>
      have hne := fun s => (toplevel_ne root s (rename_undotted k x)).symm
      cases number <;> simp [Binder.qualified, Binder.Apart, hne]
  | toplevel p number =>
    cases kind' with
    | param =>
      have hne := fun s => toplevel_ne root s y.undotted
      cases number <;> simp [Binder.qualified, Binder.Apart, hne]
    | numbered k =>
      have hne := fun s => toplevel_ne root s (rename_undotted k y)
      cases number <;> simp [Binder.qualified, Binder.Apart, hne]
    | toplevel p' number' =>
      cases number with
      | none =>
        cases number' with
        | none =>
          simp only [Binder.qualified, Binder.Apart, ne_eq, dotted_eq_iff x.undotted y.undotted,
            not_and]
          exact forall_congr' fun _ => not_congr ⟨Name.ext, fun h => by rw [h]⟩
        | some k' =>
          simp only [Binder.qualified, Binder.Apart, ne_eq,
            dotted_eq_iff x.undotted (rename_undotted k' y), not_and]
      | some k =>
        cases number' with
        | none =>
          simp only [Binder.qualified, Binder.Apart, ne_eq,
            dotted_eq_iff (rename_undotted k x) y.undotted, not_and]
        | some k' =>
          have hne : rename k x ≠ rename k' y := fun h => hn k rfl (by rw [(rename_inj h).1]; rfl)
          simp [Binder.qualified, Binder.Apart,
            dotted_eq_iff (rename_undotted k x) (rename_undotted k' y), hne]

/-- A parameter never has the name of a binder of another kind that it shadows. -/
theorem param_shadows_ne (hb : b.kind = .param) (hold : old.kind ≠ .param)
    (hsource : (b.binding root).source = (old.binding root).source) :
    b.qualified root ≠ old.qualified root := by
  have hkey : b.key = old.key := by
    simp only [Binder.binding, b.named_of_param hb, if_true] at hsource
    split at hsource
    · exact Option.some.inj hsource
    · cases hsource
  simp only [Binder.qualified, hb, hkey]
  split
  · contradiction
  · exact (rename_ne_text _ _).symm
  · exact (toplevel_ne _ _ old.key.undotted).symm
  · exact (toplevel_ne _ _ old.key.undotted).symm

/-- The names of two binders in one scope are distinct exactly when their spellings do not clash. -/
theorem distinct_iff (hn : NumbersDiffer b old) :
    (b.binding root).Distinct (old.binding root) ↔ b.Apart old := by
  by_cases hb : b.kind = .param
  · by_cases hold : old.kind = .param
    · have hapart : b.Apart old := by simp [Binder.Apart, hb, hold]
      refine iff_of_true ?_ hapart
      by_cases hkey : b.key = old.key
      · right
        simp [Binder.binding, hb, b.named_of_param hb, old.named_of_param hold, hkey]
      · left
        simp only [Binder.binding, Binder.qualified, hb, hold]
        exact fun h => hkey (Name.ext h)
    · rw [← core_ne_iff root hn fun _ => hold]
      constructor
      · rintro (h | ⟨-, hsource⟩)
        · exact h
        · exact param_shadows_ne hb hold hsource
      · exact Or.inl
  · rw [← core_ne_iff root hn fun h => (hb h).elim]
    constructor
    · rintro (h | ⟨hparam, -⟩)
      · exact h
      · exact (hb (of_decide_eq_true hparam)).elim
    · exact Or.inl

/-- The binders of a scope have numbers of their own, none of which is still to be drawn. -/
structure Settled (n : Nat) (scope : List Binder) : Prop where
  drawn : ∀ b ∈ scope, ∀ k, b.number? = some k → k ≤ n
  differ : scope.Pairwise NumbersDiffer

namespace Settled

theorem nil : Settled n [] := ⟨by simp, .nil⟩

theorem mono (h : Settled n scope) (hle : n ≤ m) : Settled m scope :=
  ⟨fun b hb k hk => Nat.le_trans (h.drawn b hb k hk) hle, h.differ⟩

/-- A binder without a number, or with a number larger than those drawn so far. -/
theorem cons (h : Settled n scope) (hle : n ≤ m) (hb : ∀ k, b.number? = some k → n < k ∧ k ≤ m) :
    Settled m (b :: scope) := by
  refine ⟨?_, List.pairwise_cons.mpr ⟨?_, h.differ⟩⟩
  · intro b' hb' k hk
    obtain rfl | hmem := List.mem_cons.mp hb'
    · exact (hb k hk).2
    · exact Nat.le_trans (h.drawn b' hmem k hk) hle
  · intro old hold k hk hk'
    have hlt := (hb k hk).1
    have hle' := h.drawn old hold k hk'
    omega

theorem pairwise_iff (h : Settled n scope) :
    (scope.map (Binder.binding root)).Pairwise Binding.Distinct ↔ scope.Pairwise Binder.Apart := by
  rw [List.pairwise_map]
  constructor
  · exact fun hp => (hp.and h.differ).imp fun hpair => (distinct_iff hpair.2).mp hpair.1
  · exact fun hp => (hp.and h.differ).imp fun hpair => (distinct_iff hpair.2).mpr hpair.1

theorem numberedBinders {xs : List Name} (h : Settled n scope) :
    Settled (n + xs.length) ((numberedBinders n xs).reverse ++ scope) := by
  induction xs generalizing n scope with
  | nil => exact h
  | cons x xs ih =>
    have hx : Settled (n + 1) ({ key := x, named := true, kind := .numbered (n + 1) } :: scope) :=
      h.cons (by omega) fun k hk => by cases hk; omega
    have hxs := ih hx
    simp only [Desugar.numberedBinders, List.reverse_cons, List.append_assoc, List.singleton_append]
    exact hxs.mono (by simp only [List.length_cons]; omega)

theorem params {ps : List Pattern} (h : Settled n scope) :
    Settled n ((ps.filterMap paramBinder).reverse ++ scope) := by
  induction ps generalizing scope with
  | nil => exact h
  | cons p ps ih =>
    cases p with
    | ident x =>
      have hx : Settled n ({ key := x.name, named := true, kind := .param } :: scope) :=
        h.cons (Nat.le_refl n) fun k hk => by cases hk
      simpa [List.filterMap_cons, paramBinder] using ih hx
    | unit | any | literal | compound => simpa [List.filterMap_cons, paramBinder] using ih h

theorem letBinder (h : Settled n scope) (p : Pattern) (hle : n + 1 ≤ m) :
    Settled m (letBinder n p :: scope) :=
  h.cons (by omega) fun k hk => by cases hk; omega

mutual

theorem binders : (e : Expr) → ∀ {n : Nat} {scope : List Binder}, Settled n scope →
    Settled (n + e.draws) ((e.binders n).reverse ++ scope)
  | .letIn isRec p value, _, _, h => by
    rw [Expr.binders, Expr.draws]
    exact h.letBinder p (by omega)
  | .tuple es, _, _, h => by
    rw [Expr.binders, Expr.draws]
    exact exprsBinders es h
  | .seq es, _, _, h => by
    rw [Expr.binders, Expr.draws]
    exact exprsBinders es h
  | .constant, n, _, h | .ident _ _, n, _, h | .operation _ _, n, _, h | .whileLoop _ _, n, _, h
  | .lambda _ _, n, _, h | .matchWith _ _, n, _, h => by
    simpa [Expr.binders] using h.mono (Nat.le_add_right n _)

theorem exprsBinders : (es : List Expr) → ∀ {n : Nat} {scope : List Binder}, Settled n scope →
    Settled (n + exprsDraws es) ((exprsBinders n es).reverse ++ scope)
  | [], _, _, h => h
  | e :: es, _, _, h => by
    have he := exprsBinders es (binders e h)
    rw [Desugar.exprsBinders, exprsDraws, List.reverse_append, List.append_assoc, ← Nat.add_assoc]
    exact he

end

end Settled

end Syli.Compiler.Desugar
