import Syli.Compiler.GenPrimitives
import Syli.Compiler.PrimitiveInstances

/-! The functions of the primitives against the types that their declarations give them. -/
namespace Syli.Compiler.Mono.GenPrimitives

variable {T : Type}

def operandTy : Operand T → T
  | .constant _ ty => ty
  | .var v => v.ty

/-- The types of an array that a statement gets at or sets at an index, each with a type that the
statement has for the element. -/
def arrayAccesses (s : Statement T) : List (T × T) :=
  match s.node with
  | .assign dst ⟨_, .objectGet obj (.array _) valueTy, _⟩ =>
    [(operandTy obj, valueTy), (operandTy obj, dst.ty)]
  | .objectSet obj (.array _) value valueTy => [(obj.ty, valueTy), (obj.ty, operandTy value)]
  | _ => []

/-- The function has the parameters and the result of the type, and uses an array at the type of its
elements only. -/
structure HasType (mkIrTy : CTy → T) (ty : CTy) (f : Function T) : Prop where
  params : f.params.map Var.ty = (getArgsTy ty).map mkIrTy
  returnTy : f.returnTy = mkIrTy (getReturnTy ty)
  accesses : ∀ b ∈ f.blocks, ∀ s ∈ b.statements, ∀ e ∈ arrayAccesses s,
    ∃ elem, e = (mkIrTy (.array elem), mkIrTy elem)

end Syli.Compiler.Mono.GenPrimitives

namespace Syli.Compiler.Ast

open Mono.GenPrimitives

variable {ty : Ty} {p : PrimitiveInstances}

/-- Whatever the lowering of the types is, the function of the primitive has the declared type. -/
def GeneratedAt (p : PrimitiveInstances) (ty : Ty) : Prop :=
  ∀ (T : Type) (mkIrTy : CTy → T) (naming : Naming) (ids : FreshIds) (fnName : String)
    (isPublic : Bool), ∃ f, build mkIrTy ids fnName p.name isPublic (coreTy naming ty) = .ok f ∧
      HasType mkIrTy (coreTy naming ty) f

theorem generatedAt_binop {op : Binop} {c r : ConstantTy}
    (hop : operationOfSymbol p.name = some (.binop op)) :
    GeneratedAt p (.arrow (.constant c) (.arrow (.constant c) (.constant r))) := by
  intro T mkIrTy naming ids fnName isPublic
  refine ⟨_, by rw [build, hop]; rfl, rfl, rfl, ?_⟩
  simp [makePrimFunction, arrayAccesses]

theorem generatedAt_length {elem : Ty}
    (hop : operationOfSymbol p.name = some .arrayLen ∨ operationOfSymbol p.name = some .arraySize) :
    GeneratedAt p (.arrow (.array elem) (.constant .int64)) := by
  intro T mkIrTy naming ids fnName isPublic
  rcases hop with hop | hop
  · refine ⟨_, by rw [build, hop]; rfl, rfl, rfl, ?_⟩
    simp [makePrimFunction, arrayAccesses]
  · refine ⟨_, by rw [build, hop]; rfl, rfl, rfl, ?_⟩
    simp [makePrimFunction, arrayAccesses]

/-- The elements are functions, whose parameters are counted with those of the primitive. -/
def FunctionElements (p : PrimitiveInstances) (ty : Ty) : Prop :=
  ∃ arg ret, p.name = "array_index_get" ∧ ty = indexGetTy (.arrow arg ret) (.arrow arg ret)

theorem args_of_not_arrow (naming : Naming) (h : ∀ arg ret, ty ≠ .arrow arg ret) :
    getArgsTy (coreTy naming ty) = [] ∧ getReturnTy (coreTy naming ty) = coreTy naming ty := by
  cases ty with
  | arrow arg ret => exact absurd rfl (h arg ret)
  | var | any | constant | tuple | array | defined => exact ⟨rfl, rfl⟩

theorem generatedAt_indexGet {elem : Ty} (hop : operationOfSymbol p.name = some .indexGet)
    (helem : ∀ arg ret, elem ≠ .arrow arg ret) : GeneratedAt p (indexGetTy elem elem) := by
  intro T mkIrTy naming ids fnName isPublic
  obtain ⟨hargs, hret⟩ := args_of_not_arrow naming helem
  have hargs' : getArgsTy (coreTy naming (indexGetTy elem elem)) =
      [.array (coreTy naming elem), .constant .int64] := by
    simp only [indexGetTy, coreTy, getArgsTy, hargs]
  have hret' : getReturnTy (coreTy naming (indexGetTy elem elem)) = coreTy naming elem := by
    simp only [indexGetTy, coreTy, getReturnTy, hret]
  refine ⟨_, by rw [build, hop]; simp only [buildOperation, hargs', hret']; rfl, ?_, ?_, ?_⟩
  · rw [hargs']
    rfl
  · rw [hret']
    rfl
  · have haccess : ∃ e, mkIrTy (.array (coreTy naming elem)) = mkIrTy (.array e) ∧
        mkIrTy (coreTy naming elem) = mkIrTy e := ⟨_, rfl, rfl⟩
    simpa [makePrimFunction, assignResult, arrayAccesses, operandTy] using haccess

theorem generatedAt_indexSet {elem : Ty} (hop : operationOfSymbol p.name = some .indexSet) :
    GeneratedAt p (indexSetTy elem elem) := by
  intro T mkIrTy naming ids fnName isPublic
  refine ⟨_, by rw [build, hop]; rfl, rfl, rfl, ?_⟩
  have haccess : ∃ e, mkIrTy (.array (coreTy naming elem)) = mkIrTy (.array e) ∧
      mkIrTy (coreTy naming elem) = mkIrTy e := ⟨_, rfl, rfl⟩
  simpa [makePrimFunction, arrayAccesses, operandTy, coreTy] using haccess

/-- At elements that are functions the arguments are too many. -/
theorem not_generatedAt_functionElements (h : FunctionElements p ty) : ¬ GeneratedAt p ty := by
  obtain ⟨arg, ret, hname, rfl⟩ := h
  intro hgen
  obtain ⟨f, hf, -⟩ := hgen Unit (fun _ => ()) ⟨fun _ => 0, 0, id⟩ ⟨0, 1, 2, 3, 4, 5, 6, 7⟩ "get"
    false
  have hop : operationOfSymbol p.name = some .indexGet := by
    rw [hname]
    rfl
  rw [build, hop] at hf
  simp only [buildOperation, indexGetTy, coreTy, getArgsTy, nth, needArguments] at hf
  cases hf

/-- The primitives by what they are generated from. -/
theorem operation_of_mem : ∀ p ∈ primitives,
    (∃ op, operationOfSymbol p.name = some (.binop op) ∧ ∀ t ∈ p.tys, ∃ c r,
      t = .arrow (.constant c) (.arrow (.constant c) (.constant r))) ∨
    ((operationOfSymbol p.name = some .arrayLen ∨ operationOfSymbol p.name = some .arraySize) ∧
      p.tys = [arrayPrimTy]) ∨
    operationOfSymbol p.name = some .indexGet ∧ p.name = "array_index_get" ∨
    operationOfSymbol p.name = some .indexSet ∧ p.name = "array_index_set" := by
  simp [primitives, operationOfSymbol, arithmeticConstTys, comparisonConstTys,
    tripleArithmeticArrowTy, tripleComparisonArrowTy]

/-- What is accepted is generated at the declared type, where the types of the elements and of the
value agree and the elements that are got are no functions. -/
theorem generatedAt_of_accepted (hp : p ∈ primitives) (hty : hasWildcard ty = false)
    (haccepted : tyMatchPrimitiveInstance ty p = true) (hm : ¬ ElementMismatch p ty)
    (hf : ¬ FunctionElements p ty) : GeneratedAt p ty := by
  obtain ⟨t, ht, hmatch⟩ := List.any_eq_true.mp haccepted
  rcases operation_of_mem p hp with ⟨op, hop, htys⟩ | ⟨hop, htys⟩ | ⟨hop, hname⟩ | ⟨hop, hname⟩
  · obtain ⟨c, r, rfl⟩ := htys t ht
    obtain ⟨a, rest, rfl, ⟨ha, hwa⟩, hrest, hwrest⟩ := arrow_of_matches hmatch hty
    obtain ⟨b, ret, rfl, ⟨hb, hwb⟩, hret, hwret⟩ := arrow_of_matches hrest hwrest
    obtain rfl := constant_of_matches ha hwa
    obtain rfl := constant_of_matches hb hwb
    obtain rfl := constant_of_matches hret hwret
    exact generatedAt_binop hop
  · rw [htys, List.mem_singleton] at ht
    subst ht
    obtain ⟨arr, ret, rfl, ⟨harr, hwarr⟩, hret, hwret⟩ := arrow_of_matches hmatch hty
    obtain ⟨elem, rfl⟩ := array_of_matches harr hwarr
    obtain rfl := constant_of_matches hret hwret
    exact generatedAt_length hop
  · rw [(tys_of_index_name p hp).1 hname, List.mem_singleton] at ht
    subst ht
    obtain ⟨elem, value, rfl⟩ := (indexGet_matches_iff hty).mp hmatch
    obtain rfl : elem = value := by
      by_contra hne
      exact hm ⟨elem, value, hne, Or.inl ⟨hname, rfl⟩⟩
    refine generatedAt_indexGet hop fun arg ret helem => ?_
    subst helem
    exact hf ⟨arg, ret, hname, rfl⟩
  · rw [(tys_of_index_name p hp).2 hname, List.mem_singleton] at ht
    subst ht
    obtain ⟨elem, value, rfl⟩ := (indexSet_matches_iff hty).mp hmatch
    obtain rfl : elem = value := by
      by_contra hne
      exact hm ⟨elem, value, hne, Or.inr ⟨hname, rfl⟩⟩
    exact generatedAt_indexSet hop

theorem accepted_of_functionElements (hp : p ∈ primitives) (h : FunctionElements p ty) :
    tyMatchPrimitiveInstance ty p = true := by
  obtain ⟨arg, ret, hname, rfl⟩ := h
  rw [tyMatchPrimitiveInstance, (tys_of_index_name p hp).1 hname]
  simp [indexGetPrimTy, indexGetTy, tyMatchesPattern]

end Syli.Compiler.Ast
