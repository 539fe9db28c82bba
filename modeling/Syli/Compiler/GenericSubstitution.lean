import Syli.Compiler.CirModule

/-! `generic_substitution.ml`: types in the place of the type variables of a function. -/
namespace Syli.Compiler.Mono

open Foundation

abbrev Subst := IntMap Ty

mutual

/-- `subst_ir_type` -/
def applySubstTy (subst : Subst) : Ty → Ty
  | .genericTyp typeVar => (subst.findOpt typeVar).getD (.genericTyp typeVar)
  | .arrow args ret => .arrow (applySubstTys subst args) (applySubstTy subst ret)
  | .objPtr => .objPtr
  | .obj named objKind cyclicProp => .obj named (substObjKind subst objKind) cyclicProp
  | other => other

def applySubstTys (subst : Subst) : List Ty → List Ty
  | [] => []
  | ty :: tys => applySubstTy subst ty :: applySubstTys subst tys

def substObjKind (subst : Subst) : ObjKind → ObjKind
  | .record fields => .record (substFields subst fields)
  | .array elementTy => .array (applySubstTy subst elementTy)
  | .variant constructors => .variant (substConstructors subst constructors)

def substFields (subst : Subst) : List RecordFieldTy → List RecordFieldTy
  | [] => []
  | .mk idx ty fieldMut :: fields =>
    .mk idx (applySubstTy subst ty) fieldMut :: substFields subst fields

def substConstructors (subst : Subst) : List VariantCtorLayout → List VariantCtorLayout
  | [] => []
  | .mk tag fields :: constructors =>
    .mk tag (substFields subst fields) :: substConstructors subst constructors

end

section

variable (subst : Subst)

def substVar (v : Var Ty) : Var Ty := v.map (applySubstTy subst)

def substBlock (block : Block Ty) : Block Ty := block.map (applySubstTy subst)

/-- The failures of the pass: `failwith` and the exceptions of the standard library. -/
inductive Failure where
  | notFound
  | invalidArgument
  | genericParamTy
  | unknownFunction (name : String)
  | missingEntryBlock
deriving DecidableEq, Repr

abbrev Result := Except Failure

def cloneFunction (fn : Function Ty) (newName : String) : Result (Function Ty) :=
  let blocks := fn.blocks.map (substBlock subst)
  if blocks.any (·.id == fn.entryBlock) then
    .ok
      { fn with
        name := newName
        params := fn.params.map (substVar subst)
        locals := fn.locals.map (substVar subst)
        blocks
        returnTy := applySubstTy subst fn.returnTy }
  else .error .missingEntryBlock

end

theorem cloneFunction_eq {subst : Subst} {fn clone : Function Ty} {newName : String}
    (h : cloneFunction subst fn newName = .ok clone) :
    clone = { fn.map (applySubstTy subst) with name := newName } := by
  unfold cloneFunction at h
  dsimp only at h
  split at h
  · exact (Except.ok.inj h).symm
  · cases h

end Syli.Compiler.Mono
