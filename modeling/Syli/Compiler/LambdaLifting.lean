import Syli.Compiler.CoreAst

/-! `lower_core_to_cir.ml` and `lower_cir_to_oir.ml`: the captured variables of a lambda, where its
closure stores them and where the lifted function receives them. -/
namespace Syli.Compiler

open Foundation

namespace Cir

structure Var where
  id : Id
  name : String
deriving DecidableEq, Repr

end Cir

/-- The elements of the set in increasing order. -/
structure VarIdSet where
  elements : List String
  sorted : elements.Pairwise (· < ·)

structure LowerCtx where
  env : StringMap Cir.Var
  closureInfos : IntMap VarIdSet
  nextId : Id

namespace LowerCtx

variable (ctx : LowerCtx)

def freshVarWithName (name : String) : LowerCtx × Cir.Var :=
  ({ ctx with nextId := ctx.nextId + 1 }, { id := ctx.nextId, name := name })

def envAddVar (v : Cir.Var) : LowerCtx := { ctx with env := ctx.env.add v.name v }

def freeIdents (lambdaExprId : Id) : List String :=
  match ctx.closureInfos.findOpt lambdaExprId with
  | some freeVars => freeVars.elements
  | none => []

/-- The variables that the closure of a lambda stores. -/
def closureFreeVars (lambdaExprId : Id) : List Cir.Var :=
  (ctx.freeIdents lambdaExprId).filterMap ctx.env.findOpt

/-- The renamed variables that the lifted function of a lambda captures. -/
def capturedVars (lambdaExprId : Id) : List (String × Cir.Var) :=
  (((ctx.freeIdents lambdaExprId).mapIdx fun i name =>
    (ctx.env.findOpt name).map fun v =>
      (name, { v with name := "sy_" ++ v.name ++ "_cap_" ++ toString i })).filterMap id).reverse

end LowerCtx

def addFreeVar (acc : LowerCtx × List Cir.Var) (e : String × Cir.Var) : LowerCtx × List Cir.Var :=
  ({ acc.1 with env := acc.1.env.add e.1 e.2 }, e.2 :: acc.2)

structure ParamState where
  ctx : LowerCtx
  vars : List Cir.Var
  unitPos : List Nat
  idx : Nat

def addParam (st : ParamState) (p : String × CTy) : ParamState :=
  if isUnitCty p.2 then
    let (ctx, v) := st.ctx.freshVarWithName ("__unit." ++ toString st.idx)
    { ctx := ctx.envAddVar v, vars := v :: st.vars, unitPos := st.idx :: st.unitPos
      idx := st.idx + 1 }
  else
    let (ctx, v) := st.ctx.freshVarWithName p.1
    { st with ctx := ctx.envAddVar v, vars := v :: st.vars, idx := st.idx + 1 }

structure LiftedParams where
  bodyCtx : LowerCtx
  params : List Cir.Var
  unitParamIndices : List Nat

/-- The parameters of the lifted function, and the scope of its body; none where a parameter has no
type. -/
def lowerLambdaParams (ctx : LowerCtx) (params : List String) (lamTy : CTy) (lambdaExprId : Id) :
    Option LiftedParams :=
  let paramCtys := (getArgsTy lamTy).take params.length
  let (ctx', freeParams) := (ctx.capturedVars lambdaExprId).foldl addFreeVar (ctx, [])
  if params.length = paramCtys.length then
    let st := (params.zip paramCtys).foldl addParam
      { ctx := ctx', vars := freeParams, unitPos := [], idx := freeParams.length }
    some { bodyCtx := st.ctx, params := st.vars.reverse, unitParamIndices := st.unitPos.reverse }
  else none

/-- The fields that a closure stores after its function pointer, which is in field 0. -/
def lowerMakeClosure {α : Type} (freeVars capturedArgs : List α) : List (Nat × α) :=
  (freeVars ++ capturedArgs).mapIdx fun i value => (1 + i, value)

end Syli.Compiler
