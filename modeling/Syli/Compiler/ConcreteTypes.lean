import Syli.Compiler.PassMonomorphize

/-! Substitutions by types without variables: they leave a concrete type as it is, and two of them in
a row are one. -/
namespace Syli.Compiler.Mono

open Foundation

variable {σ τ : Subst}

/-- No type that the substitution puts in has a variable. -/
def ConcreteSubst (σ : Subst) : Prop := ∀ v t, σ.findOpt v = some t → hasGenericTy t = false

mutual

@[simp] theorem applySubstTy_nil (x : Ty) : applySubstTy [] x = x := by
  match x with
  | .genericTyp _ => rfl
  | .arrow args ret => rw [applySubstTy, applySubstTys_nil args, applySubstTy_nil ret]
  | .obj named kind prop => rw [applySubstTy, substObjKind_nil kind]
  | .objPtr | .bool | .i64 | .i32 | .i16 | .i8 | .u64 | .u32 | .u16 | .u8 | .f32 | .f64 | .fnPtr
  | .char | .string | .void => rfl

@[simp] theorem applySubstTys_nil (xs : List Ty) : applySubstTys [] xs = xs := by
  match xs with
  | [] => rfl
  | x :: xs => rw [applySubstTys, applySubstTy_nil x, applySubstTys_nil xs]

theorem substObjKind_nil (x : ObjKind) : substObjKind [] x = x := by
  match x with
  | .record fields => rw [substObjKind, substFields_nil fields]
  | .array ty => rw [substObjKind, applySubstTy_nil ty]
  | .variant constructors => rw [substObjKind, substConstructors_nil constructors]

theorem substFields_nil (xs : List RecordFieldTy) : substFields [] xs = xs := by
  match xs with
  | [] => rfl
  | .mk idx ty fieldMut :: xs => rw [substFields, applySubstTy_nil ty, substFields_nil xs]

theorem substConstructors_nil (xs : List VariantCtorLayout) : substConstructors [] xs = xs := by
  match xs with
  | [] => rfl
  | .mk tag fields :: xs => rw [substConstructors, substFields_nil fields, substConstructors_nil xs]

end

theorem applySubstTys_eq_map (σ : Subst) (xs : List Ty) :
    applySubstTys σ xs = xs.map (applySubstTy σ) := by
  induction xs with
  | nil => rfl
  | cons x xs ih => rw [applySubstTys, ih, List.map_cons]

theorem hasGenericTys_eq_any (tys : List Ty) : hasGenericTys tys = tys.any hasGenericTy := by
  induction tys with
  | nil => rfl
  | cons ty tys ih => rw [hasGenericTys, ih, List.any_cons]

theorem concreteSubst_nil : ConcreteSubst [] := by
  intro v t ht
  cases ht

theorem concreteSubst_createSubst {xs ys : List Ty} (h : createSubst xs ys = .ok σ) :
    ConcreteSubst σ := by
  obtain ⟨σ₀, -, h⟩ := bind_eq_ok.mp h
  obtain rfl := pure_eq_ok.mp h
  intro v t ht
  rw [AssocMap.findOpt_filterValues] at ht
  obtain ⟨u, -, hu⟩ := Option.bind_eq_some_iff.mp ht
  by_cases hg : hasGenericTy u
  · simp [hg] at hu
  · simp only [hg, Bool.not_false, if_true] at hu
    obtain rfl := Option.some.inj hu
    exact eq_false_of_ne_true hg

mutual

theorem applySubstTy_of_concrete (x : Ty) (hx : hasGenericTy x = false) : applySubstTy τ x = x := by
  match x with
  | .genericTyp _ => cases hx
  | .arrow args ret =>
    simp only [hasGenericTy, Bool.or_eq_false_iff] at hx
    rw [applySubstTy, applySubstTys_of_concrete args hx.1, applySubstTy_of_concrete ret hx.2]
  | .obj named kind prop => rw [applySubstTy, substObjKind_of_concrete kind hx]
  | .objPtr | .bool | .i64 | .i32 | .i16 | .i8 | .u64 | .u32 | .u16 | .u8 | .f32 | .f64 | .fnPtr
  | .char | .string | .void => rfl

theorem applySubstTys_of_concrete (xs : List Ty) (hx : hasGenericTys xs = false) :
    applySubstTys τ xs = xs := by
  match xs with
  | [] => rfl
  | x :: xs =>
    simp only [hasGenericTys, Bool.or_eq_false_iff] at hx
    rw [applySubstTys, applySubstTy_of_concrete x hx.1, applySubstTys_of_concrete xs hx.2]

theorem substObjKind_of_concrete (x : ObjKind) (hx : hasGenericObjKind x = false) :
    substObjKind τ x = x := by
  match x with
  | .record fields => rw [substObjKind, substFields_of_concrete fields hx]
  | .array ty => rw [substObjKind, applySubstTy_of_concrete ty hx]
  | .variant constructors => rw [substObjKind, substConstructors_of_concrete constructors hx]

theorem substFields_of_concrete (xs : List RecordFieldTy) (hx : hasGenericFields xs = false) :
    substFields τ xs = xs := by
  match xs with
  | [] => rfl
  | .mk idx ty fieldMut :: xs =>
    simp only [hasGenericFields, Bool.or_eq_false_iff] at hx
    rw [substFields, applySubstTy_of_concrete ty hx.1, substFields_of_concrete xs hx.2]

theorem substConstructors_of_concrete (xs : List VariantCtorLayout)
    (hx : hasGenericConstructors xs = false) : substConstructors τ xs = xs := by
  match xs with
  | [] => rfl
  | .mk tag fields :: xs =>
    simp only [hasGenericConstructors, Bool.or_eq_false_iff] at hx
    rw [substConstructors, substFields_of_concrete fields hx.1, substConstructors_of_concrete xs hx.2]

end

theorem findOpt_append (σ τ : Subst) (v : Nat) :
    AssocMap.findOpt (σ ++ τ) v = (σ.findOpt v).or (τ.findOpt v) :=
  List.lookup_append

theorem ConcreteSubst.append (hσ : ConcreteSubst σ) (hτ : ConcreteSubst τ) :
    ConcreteSubst (σ ++ τ) := by
  intro v t ht
  rw [findOpt_append, Option.or_eq_some_iff] at ht
  rcases ht with ht | ⟨-, ht⟩
  · exact hσ v t ht
  · exact hτ v t ht

mutual

theorem applySubstTy_append (hσ : ConcreteSubst σ) (x : Ty) :
    applySubstTy (σ ++ τ) x = applySubstTy τ (applySubstTy σ x) := by
  match x with
  | .genericTyp v =>
    rw [applySubstTy, applySubstTy, findOpt_append]
    cases hv : σ.findOpt v with
    | none => rw [Option.none_or, Option.getD_none, applySubstTy]
    | some t =>
      rw [Option.some_or, Option.getD_some, applySubstTy_of_concrete t (hσ v t hv)]
  | .arrow args ret =>
    simp only [applySubstTy, applySubstTys_append hσ args, applySubstTy_append hσ ret]
  | .obj named kind prop => simp only [applySubstTy, substObjKind_append hσ kind]
  | .objPtr | .bool | .i64 | .i32 | .i16 | .i8 | .u64 | .u32 | .u16 | .u8 | .f32 | .f64 | .fnPtr
  | .char | .string | .void => rfl

theorem applySubstTys_append (hσ : ConcreteSubst σ) (xs : List Ty) :
    applySubstTys (σ ++ τ) xs = applySubstTys τ (applySubstTys σ xs) := by
  match xs with
  | [] => rfl
  | x :: xs => simp only [applySubstTys, applySubstTy_append hσ x, applySubstTys_append hσ xs]

theorem substObjKind_append (hσ : ConcreteSubst σ) (x : ObjKind) :
    substObjKind (σ ++ τ) x = substObjKind τ (substObjKind σ x) := by
  match x with
  | .record fields => simp only [substObjKind, substFields_append hσ fields]
  | .array ty => simp only [substObjKind, applySubstTy_append hσ ty]
  | .variant constructors => simp only [substObjKind, substConstructors_append hσ constructors]

theorem substFields_append (hσ : ConcreteSubst σ) (xs : List RecordFieldTy) :
    substFields (σ ++ τ) xs = substFields τ (substFields σ xs) := by
  match xs with
  | [] => rfl
  | .mk idx ty fieldMut :: xs =>
    simp only [substFields, applySubstTy_append hσ ty, substFields_append hσ xs]

theorem substConstructors_append (hσ : ConcreteSubst σ) (xs : List VariantCtorLayout) :
    substConstructors (σ ++ τ) xs = substConstructors τ (substConstructors σ xs) := by
  match xs with
  | [] => rfl
  | .mk tag fields :: xs =>
    simp only [substConstructors, substFields_append hσ fields, substConstructors_append hσ xs]

end

/-- A function at concrete types of its variables, under a name. -/
def instanceOf (subst : Subst) (fn : Function Ty) (name : String) : Function Ty :=
  { fn.map (applySubstTy subst) with name }

theorem instanceOf_nil (fn : Function Ty) : instanceOf [] fn fn.name = fn := by
  have hid : applySubstTy [] = fun ty => ty := funext applySubstTy_nil
  rw [instanceOf, hid, Function.map_id]

theorem instanceOf_instanceOf (hσ : ConcreteSubst σ) (fn : Function Ty) (n m : String) :
    instanceOf τ (instanceOf σ fn n) m = instanceOf (σ ++ τ) fn m := by
  have hcomp : applySubstTy (σ ++ τ) = applySubstTy τ ∘ applySubstTy σ :=
    funext (applySubstTy_append hσ)
  rw [instanceOf, instanceOf, instanceOf, hcomp, ← Function.map_map]
  rfl

end Syli.Compiler.Mono
