import Syli.Compiler.PassMonomorphize

/-! The names of the clones: which function of the module a specialised name belongs to. -/
namespace Syli.Compiler.Mono

open Foundation

variable {T : Type} {prog : Module} {ctx ctx' : Ctx} {a b c n m : String} {f g h : Function Ty}

/-- The name `b` is `a` with the keys of some types. -/
def Extends (a b : String) : Prop :=
  ∃ c k, c ≠ '_' ∧ b.toList = a.toList ++ '_' :: '_' :: c :: k

/-- A name that a specialisation of the function `a` can have. -/
def Specialises (a b : String) : Prop := b = a ∨ Extends a b

theorem Specialises.trans (hab : Specialises a b) (hbc : Specialises b c) : Specialises a c := by
  rcases hab with rfl | ⟨x, k, hx, hb⟩
  · exact hbc
  · rcases hbc with rfl | ⟨y, k', hy, hc⟩
    · exact Or.inr ⟨x, k, hx, hb⟩
    · exact Or.inr ⟨x, k ++ '_' :: '_' :: y :: k', hx, by simp [hc, hb]⟩

/-- Two names with a common extension are equal, or one is marked off within the other. -/
theorem eq_or_prefix {a b : List Char} {x y : Char} {k l : List Char} (hx : x ≠ '_') (hy : y ≠ '_')
    (h : a ++ '_' :: '_' :: x :: k = b ++ '_' :: '_' :: y :: l) :
    a = b ∨ a ++ ['_', '_'] <+: b ∨ b ++ ['_', '_'] <+: a := by
  have hshort : ∀ {a b : List Char} {x y : Char} {k l : List Char}, x ≠ '_' →
      b.length ≥ a.length → a ++ '_' :: '_' :: x :: k = b ++ '_' :: '_' :: y :: l →
      a = b ∨ a ++ ['_', '_'] <+: b := by
    intro a b x y k l hx hlen h
    obtain ⟨d, rfl⟩ : a <+: b :=
      List.prefix_of_prefix_length_le ⟨_, h⟩ ⟨_, rfl⟩ hlen
    rw [List.append_assoc, List.append_cancel_left_eq] at h
    match d with
    | [] => exact Or.inl (List.append_nil a).symm
    | [_] =>
      simp only [List.cons_append, List.nil_append, List.cons.injEq] at h
      exact (hx h.2.2.1).elim
    | _ :: _ :: d =>
      simp only [List.cons_append, List.cons.injEq] at h
      obtain ⟨rfl, rfl, -⟩ := h
      exact Or.inr ⟨d, by simp⟩
  rcases Nat.le_total a.length b.length with hlen | hlen
  · exact (hshort hx hlen h).imp_right Or.inl
  · rcases hshort hy hlen h.symm with rfl | hp
    · exact Or.inl rfl
    · exact Or.inr (Or.inr hp)

/-- The key of a type does not start with an underscore. -/
theorem typeKeyOfTy_head (ty : Cir.Ty) :
    ∃ c k, c ≠ '_' ∧ (Cir.typeKeyOfTy ty).toList = c :: k := by
  cases ty with
  | record named fields =>
    simp only [Cir.typeKeyOfTy]
    split <;> simp
  | genericTyp | array | variant | arrow => simp [Cir.typeKeyOfTy]
  | _ => simp [Cir.typeKeyOfTy]

theorem specialises_of_name {argTys : List Ty} {retTy : Ty}
    (h : specializationName a argTys retTy = .ok n) : Specialises a n := by
  unfold specializationName at h
  split at h
  · cases h
  · dsimp only at h
    split at h
    · exact Or.inl (Except.ok.inj h).symm
    · rename_i hne
      obtain rfl := Except.ok.inj h
      cases argTys with
      | nil => simp at hne
      | cons ty tys =>
        obtain ⟨c, k, hc, hkey⟩ := typeKeyOfTy_head (keyTy ty)
        refine Or.inr ⟨c, ?_⟩
        cases tys with
        | nil => exact ⟨_, hc, by simp [typeKeyOfTy, hkey]; rfl⟩
        | cons ty' tys =>
          exact ⟨_, hc, by simp [typeKeyOfTy, hkey, String.intercalate_cons_cons]; rfl⟩

def directCallee (s : Statement T) : Option String :=
  match s.node with
  | .call _ (.direct name) _ => some name
  | _ => none

/-- The names that the statements of a function call. -/
def directCallees (fn : Function T) : List String :=
  fn.blocks.flatMap fun b => b.statements.filterMap directCallee

/-- The names that a call may have. -/
def Known (prog : Module) (n : String) : Prop :=
  n ∈ prog.functions.map Function.name ∨ n ∈ prog.ffiExternalFunctions.map (·.syliName)

/-- What a module guarantees of its names: its functions have names of their own, none is marked
off within another one or within an external's, and every call names a function or an external. -/
structure WellNamed (prog : Module) : Prop where
  nodup : (prog.functions.map Function.name).Nodup
  apart : ∀ f ∈ prog.functions, ∀ g ∈ prog.functions, f.name ≠ g.name →
    ¬ f.name.toList ++ ['_', '_'] <+: g.name.toList
  externs : ∀ e ∈ prog.ffiExternalFunctions, ∀ f ∈ prog.functions,
    e.syliName ≠ f.name ∧ ¬ f.name.toList ++ ['_', '_'] <+: e.syliName.toList
  closed : ∀ f ∈ prog.functions, ∀ n ∈ directCallees f, Known prog n

namespace WellNamed

theorem eq_of_name (hw : WellNamed prog) (hf : f ∈ prog.functions) (hg : g ∈ prog.functions)
    (h : f.name = g.name) : f = g :=
  List.inj_on_of_nodup_map hw.nodup hf hg h

/-- A name is a specialisation of one function only. -/
theorem origin_unique (hw : WellNamed prog) (hf : f ∈ prog.functions) (hg : g ∈ prog.functions)
    (hfn : Specialises f.name n) (hgn : Specialises g.name n) : f = g := by
  by_contra hne
  have hname : f.name ≠ g.name := fun h => hne (hw.eq_of_name hf hg h)
  have hfg := hw.apart f hf g hg hname
  have hgf := hw.apart g hg f hf hname.symm
  rcases hfn with rfl | ⟨x, k, hx, hf'⟩ <;> rcases hgn with heq | ⟨y, l, hy, hg'⟩
  · exact hname heq
  · exact hgf ⟨y :: l, by simp [hg']⟩
  · subst heq
    exact hfg ⟨x :: k, by simp [hf']⟩
  · rcases eq_or_prefix hx hy (hf'.symm.trans hg') with heq | hp | hp
    · exact hname (String.toList_inj.mp heq)
    · exact hfg hp
    · exact hgf hp

/-- The name of an external is no specialisation. -/
theorem not_specialises (hw : WellNamed prog) (hf : f ∈ prog.functions)
    (hn : n ∈ prog.ffiExternalFunctions.map (·.syliName)) : ¬ Specialises f.name n := by
  obtain ⟨e, he, rfl⟩ := List.mem_map.mp hn
  rintro (heq | ⟨x, k, -, h⟩)
  · exact (hw.externs e he f hf).1 heq
  · exact (hw.externs e he f hf).2 ⟨x :: k, by simp [h]⟩

end WellNamed

end Syli.Compiler.Mono
