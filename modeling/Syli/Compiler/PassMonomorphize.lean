import Syli.Compiler.CirCfg
import Syli.Foundation.OrderedMap
import Syli.Foundation.Traversal

/-! `pass_monomorphize.ml`: generic functions are specialised at the types of their calls. -/
namespace Syli.Compiler.Mono

open Foundation

mutual

/-- `has_generic_ir_type` -/
def hasGenericTy : Ty → Bool
  | .genericTyp _ => true
  | .arrow args ret => hasGenericTys args || hasGenericTy ret
  | .objPtr => false
  | .obj _ objKind _ => hasGenericObjKind objKind
  | _ => false

def hasGenericTys : List Ty → Bool
  | [] => false
  | ty :: tys => hasGenericTy ty || hasGenericTys tys

def hasGenericObjKind : ObjKind → Bool
  | .record fields => hasGenericFields fields
  | .array elementTy => hasGenericTy elementTy
  | .variant constructors => hasGenericConstructors constructors

def hasGenericFields : List RecordFieldTy → Bool
  | [] => false
  | .mk _ ty _ :: fields => hasGenericTy ty || hasGenericFields fields

def hasGenericConstructors : List VariantCtorLayout → Bool
  | [] => false
  | .mk _ fields :: constructors => hasGenericFields fields || hasGenericConstructors constructors

end

mutual

/-- Types of different shapes are passed over; lists of different lengths are not. -/
def collectSubst (subst : Subst) : Ty → Ty → Result Subst
  | .genericTyp typeVar, yTy => .ok (subst.add typeVar yTy)
  | .obj _ xKind _, .obj _ yKind _ => collectSubstObjKind subst xKind yKind
  | .objPtr, .objPtr => .ok subst
  | .arrow xArgs xRet, .arrow yArgs yRet => do
    let subst ← collectSubsts subst xArgs yArgs
    collectSubst subst xRet yRet
  | _, _ => .ok subst

def collectSubsts (subst : Subst) : List Ty → List Ty → Result Subst
  | [], [] => .ok subst
  | xTy :: xTys, yTy :: yTys => do
    let subst ← collectSubst subst xTy yTy
    collectSubsts subst xTys yTys
  | _, _ => .error .invalidArgument

def collectSubstObjKind (subst : Subst) : ObjKind → ObjKind → Result Subst
  | .record xFields, .record yFields => collectSubstFields subst xFields yFields
  | .array xTy, .array yTy => collectSubst subst xTy yTy
  | .variant xc, .variant yc => collectSubstConstructors subst xc yc
  | _, _ => .ok subst

def collectSubstFields (subst : Subst) :
    List RecordFieldTy → List RecordFieldTy → Result Subst
  | [], [] => .ok subst
  | .mk _ xTy _ :: xFields, .mk _ yTy _ :: yFields => do
    let subst ← collectSubst subst xTy yTy
    collectSubstFields subst xFields yFields
  | _, _ => .error .invalidArgument

def collectSubstConstructors (subst : Subst) :
    List VariantCtorLayout → List VariantCtorLayout → Result Subst
  | [], [] => .ok subst
  | .mk _ xFields :: xc, .mk _ yFields :: yc => do
    let subst ← collectSubstFields subst xFields yFields
    collectSubstConstructors subst xc yc
  | _, _ => .error .invalidArgument

end

def createSubst (xTys yTys : List Ty) : Result Subst := do
  let subst ← collectSubsts [] xTys yTys
  return subst.filterValues fun _ v => if !hasGenericTy v then some v else none

mutual

/-- The part of a type that its key is made of. -/
def keyTy : Ty → Cir.Ty
  | .bool => .bool
  | .i64 => .i64
  | .i32 => .i32
  | .i16 => .i16
  | .i8 => .i8
  | .u64 => .u64
  | .u32 => .u32
  | .u16 => .u16
  | .u8 => .u8
  | .f32 => .f32
  | .f64 => .f64
  | .fnPtr => .fnPtr
  | .char => .char
  | .string => .string
  | .void => .void
  | .genericTyp typeVar => .genericTyp typeVar
  | .objPtr => .objPtr
  | .obj named (.record fields) _ => .record named (keyFields fields)
  | .obj named (.array elementTy) _ => .array named (keyTy elementTy)
  | .obj named (.variant _) _ => .variant named
  | .arrow args ret => .arrow (keyTys args) (keyTy ret)

def keyTys : List Ty → List Cir.Ty
  | [] => []
  | ty :: tys => keyTy ty :: keyTys tys

def keyFields : List RecordFieldTy → List Cir.Ty
  | [] => []
  | .mk _ ty _ :: fields => keyTy ty :: keyFields fields

end

def typeKeyOfTy (ty : Ty) : String := Cir.typeKeyOfTy (keyTy ty)

mutual

/-- `check_ty` -/
def checkTy : Ty → Bool
  | .arrow args ret => checkTys args && checkTy ret
  | .genericTyp _ => false
  | _ => true

def checkTys : List Ty → Bool
  | [] => true
  | ty :: tys => checkTy ty && checkTys tys

end

def specializationName (fnName : String) (argTys : List Ty) (retTy : Ty) : Result String :=
  if !(checkTy retTy && checkTys argTys) then .error .genericParamTy
  else
    let suffix := "__".intercalate (argTys.map typeKeyOfTy)
    if suffix = "" then .ok fnName
    else .ok (fnName ++ "__" ++ suffix ++ "_ret_" ++ typeKeyOfTy retTy)

/-- What the closure graph says of the functions that a closure may have to call. -/
structure FnSpecialization where
  fnName : String
  argTys : List Ty
  retTy : Ty

structure Ctx where
  functions : StringMap (Function Ty)
  ffiExterns : StringMap FfiExternalFunction
  newFunctionClones : List (Function Ty)
  makeClosureFnSpecializations : IntMap (List FnSpecialization)

def newFunctionClone (ctx : Ctx) (fn : Function Ty) : Ctx :=
  { ctx with
    newFunctionClones := fn :: ctx.newFunctionClones
    functions := ctx.functions.add fn.name fn }

def specializeFnWithTys (ctx : Ctx) (fnName : String) (allArgTys : List Ty) (dstTy : Ty) :
    Result Ctx :=
  match ctx.functions.findOpt fnName with
  | none => .ok ctx
  | some callee => do
    let paramTys := callee.params.map Var.ty
    let retTy := callee.returnTy
    let xTys := paramTys.take allArgTys.length ++ [retTy]
    let yTys := allArgTys ++ [dstTy]
    let subst ← createSubst xTys yTys
    if subst.length = 0 then return ctx
    let paramTysSubst := paramTys.map (applySubstTy subst)
    let retSubst := applySubstTy subst retTy
    if paramTysSubst.any hasGenericTy || hasGenericTy retSubst then return ctx
    let newName ← specializationName fnName paramTysSubst retSubst
    match ctx.functions.findOpt newName with
    | some _ => return ctx
    | none => do
      let newFn ← cloneFunction subst callee newName
      return newFunctionClone ctx newFn

def isGenericFunctionName (ctx : Ctx) (fnName : String) : Bool :=
  match ctx.functions.findOpt fnName with
  | none => false
  | some fn => hasGenericTy fn.returnTy || fn.params.any fun p => hasGenericTy p.ty

def argTyOfOperand : Operand Ty → Ty
  | .constant _ ty => ty
  | .var v => v.ty

/-- The context and the name that the call gets. -/
def specializeDirectCall (ctx : Ctx) (dst : Var Ty) (fn : String) (args : List (Operand Ty)) :
    Result (Ctx × String) :=
  if (ctx.ffiExterns.findOpt fn).isSome then .ok (ctx, fn)
  else
    match ctx.functions.findOpt fn with
    | none => .error (.unknownFunction fn)
    | some callee => do
      let argTys := args.map argTyOfOperand
      let dstTy := dst.ty
      if argTys.any hasGenericTy || hasGenericTy dstTy then return (ctx, fn)
      let newName ← specializationName fn argTys dstTy
      let paramTys := callee.params.map Var.ty
      let retTy := callee.returnTy
      match ctx.functions.findOpt newName with
      | some specializedFn => return (ctx, specializedFn.name)
      | none => do
        let subst ← createSubst (retTy :: paramTys) (dstTy :: argTys)
        if subst.length = 0 then return (ctx, fn)
        let newFn ← cloneFunction subst callee newName
        return (newFunctionClone ctx newFn, newFn.name)

def specializeClosure (ctx : Ctx) (spec : FnSpecialization) : Result Ctx :=
  if isGenericFunctionName ctx spec.fnName then
    specializeFnWithTys ctx spec.fnName spec.argTys spec.retTy
  else .ok ctx

def rewriteStatement (ctx : Ctx) (stmt : Statement Ty) : Result (Ctx × Statement Ty) :=
  match stmt.node with
  | .call dst (.direct fn) args =>
    if isGenericFunctionName ctx fn then do
      let (ctx, name) ← specializeDirectCall ctx dst fn args
      return (ctx, { stmt with node := .call dst (.direct name) args })
    else .ok (ctx, stmt)
  | .makeClosure dst _ _ _ => do
    let specs := (ctx.makeClosureFnSpecializations.findOpt dst.id).getD []
    let ctx ← specs.foldlM specializeClosure ctx
    return (ctx, stmt)
  | _ => .ok (ctx, stmt)

def rewriteBlock (ctx : Ctx) (block : Block Ty) : Result (Ctx × Block Ty) := do
  let (ctx, statements) ← foldLeftMapM rewriteStatement ctx block.statements
  return (ctx, { block with statements })

def rewriteBlockOf (blockMap : IntMap (Block Ty)) (ctx : Ctx) (id : Id) :
    Result (Ctx × Block Ty) :=
  match blockMap.findOpt id with
  | some block => rewriteBlock ctx block
  | none => .error .notFound

def rewriteFunction (ctx : Ctx) (fn : Function Ty) : Result (Ctx × Function Ty) := do
  let cfg ← buildCfg fn.blocks
  let order := computeRpo cfg fn.entryBlock
  let (ctx, blocks) ← foldLeftMapM (rewriteBlockOf (buildBlockMap fn.blocks)) ctx order
  match (buildBlockMap blocks).findOpt fn.entryBlock with
  | some _ => return (ctx, { fn with blocks })
  | none => .error .notFound

def monomorphize (ctx : Ctx) (functions : List (Function Ty)) :
    Result (Ctx × List (Function Ty)) :=
  foldLeftMapM rewriteFunction ctx functions

def isConcrete (fn : Function Ty) : Bool :=
  !hasGenericTy fn.returnTy && fn.params.all fun p => !hasGenericTy p.ty

def filterGenericFunctions (fns : List (Function Ty)) : List (Function Ty) :=
  fns.filter isConcrete

def filterGenericGlobalValues (values : List GlobalValue) : List GlobalValue :=
  values.filter fun gv => !hasGenericTy gv.ty

/-- The rounds of `monomorphize_program`, with a fuel for their number: a round rewrites the clones
of the one before. -/
def monomorphizeRounds : Nat → Ctx → List (Function Ty) → List (Function Ty) →
    Option (Result (List (Function Ty)))
  | 0, _, _, _ => none
  | n + 1, ctx, functions, acc =>
    match monomorphize ctx functions with
    | .error e => some (.error e)
    | .ok (ctx, functions) =>
      let acc := acc ++ functions
      if 0 < ctx.newFunctionClones.length then
        monomorphizeRounds n { ctx with newFunctionClones := [] } ctx.newFunctionClones acc
      else some (.ok acc)

/-- The context before the first round. -/
def initialCtx (specializations : IntMap (List FnSpecialization)) (prog : Module) : Ctx :=
  { functions := prog.functions.foldl (fun map fn => map.add fn.name fn) []
    ffiExterns := prog.ffiExternalFunctions.foldl (fun map fn => map.add fn.syliName fn) []
    newFunctionClones := []
    makeClosureFnSpecializations := specializations }

/-- `specializations` stands for what `Closure_graph.analyze` finds. -/
def monomorphizeProgram (fuel : Nat) (specializations : IntMap (List FnSpecialization))
    (prog : Module) : Option (Result Module) :=
  (monomorphizeRounds fuel (initialCtx specializations prog) prog.functions []).map
    fun functions => functions.map fun functions =>
      { prog with
        functions := filterGenericFunctions functions
        globalValues := filterGenericGlobalValues prog.globalValues }

section Identity

def varOf (id : Id) (ty : Ty) : Var Ty := ⟨id, "x", ty⟩

/-- The identity at a type. -/
def identityAt (name : String) (ty : Ty) : Function Ty :=
  { name, params := [varOf 1 ty], locals := [], entryBlock := 10
    blocks := [⟨10, 0, [], ⟨11, .ret (some (.var (varOf 1 ty)))⟩⟩]
    returnTy := ty, visibility := .isPrivate, unitParamIndices := [] }

/-- A function that calls an identity on an integer. -/
def callerOf (callee : String) : Function Ty :=
  { name := "main", params := [varOf 1 .i64], locals := [], entryBlock := 20
    blocks := [⟨20, 0, [⟨21, .call (varOf 2 .i64) (.direct callee) [.var (varOf 1 .i64)], .i64⟩],
      ⟨22, .ret (some (.var (varOf 2 .i64)))⟩⟩]
    returnTy := .i64, visibility := .isPublic, unitParamIndices := [] }

def genericProgram : Module :=
  { functions := [identityAt "id" (.genericTyp 0), callerOf "id"]
    globalValues := [], ffiExternalFunctions := [] }

def specialisedProgram : Module :=
  { functions := [callerOf "id__i64_ret_i64", identityAt "id__i64_ret_i64" .i64]
    globalValues := [], ffiExternalFunctions := [] }

theorem genericProgram_specialised :
    monomorphizeProgram 2 [] genericProgram = some (.ok specialisedProgram) := by
  with_unfolding_all rfl

end Identity

end Syli.Compiler.Mono
