import Syli.Compiler.Oir

/-! `gen_closure_helpers.ml`: the accumulators and wrappers that run when a closure is applied. -/
namespace Syli.Compiler.GenClosure

/-- An object type with what its key is made of. -/
inductive Ty where
  | base (t : IrType)
  | record (named : Option String) (fields : List Ty)
  | array (named : Option String) (elementTy : Ty)
  | variant (named : Option String)

def Ty.irType : Ty → IrType
  | .base t => t
  | .record _ _ | .array _ _ | .variant _ => .obj

def isRefTy (t : Ty) : Bool := Compiler.isRefTy t.irType

def baseKey : IrType → String
  | .bool => "bool"
  | .i64 => "i64"
  | .i32 => "i32"
  | .i16 => "i16"
  | .i8 => "i8"
  | .u64 => "u64"
  | .u32 => "u32"
  | .u16 => "u16"
  | .u8 => "u8"
  | .f32 => "f32"
  | .f64 => "f64"
  | .fnPtr => "fn_ptr"
  | .char => "char"
  | .string => "string"
  | .void => "void"
  | .objPtr => "obj_ptr"
  | .obj => "obj_"

mutual

def typeKeyOfTy : Ty → String
  | .base t => baseKey t
  | .record named fields =>
    "obj_" ++ named.getD "" ++ "_" ++ "_".intercalate (typeKeysOfTys fields)
  | .array named elementTy => "obj_" ++ named.getD "" ++ "_" ++ typeKeyOfTy elementTy
  | .variant named => "obj_" ++ named.getD ""

def typeKeysOfTys : List Ty → List String
  | [] => []
  | t :: ts => typeKeyOfTy t :: typeKeysOfTys ts

end

def storedSigOfTys (tys : List Ty) : String :=
  if tys.all fun t => !isRefTy t then ""
  else "_k" ++ String.join (tys.map fun t => if isRefTy t then "o" else "i")

/-- The variables of a generated function are numbered in order, from `n` on. -/
def freshVars (n : Id) : List IrType → List Var
  | [] => []
  | ty :: tys => ⟨n, ty⟩ :: freshVars (n + 1) tys

def load (id : Id) (dst obj : Var) (field : Nat) : Statement :=
  ⟨id, .assign dst (.objectGet (.var obj) (.field field) dst.ty .unknown)⟩

/-- Reads the variables off consecutive fields of an object. -/
def loads (id : Id) (obj : Var) (fieldBase : Nat) : List Var → List Statement
  | [] => []
  | v :: vs => load id v obj fieldBase :: loads (id + 1) obj (fieldBase + 1) vs

/-- An object slot is read as an object, so that ownership sees it; another slot as a word. -/
def slotTy (t : Ty) : IrType := if isRefTy t then .objPtr else .i64

def storedSlotLoads (n : Id) (closVar : Var) (fieldBase : Nat) (tys : List Ty) :
    List Var × List Statement :=
  let vars := freshVars n (tys.map slotTy)
  (vars, loads 0 closVar fieldBase vars)

def argOf (v : Var) : Arg := ⟨.var v, .unknown⟩

def callFn (id : Id) (dst : Var) (target : CallTarget) (args : List Var) : Statement :=
  ⟨id, .call dst target (args.map argOf)⟩

def returnBlock (id : Id) (stmts : List Statement) (retVal : Var) : Block :=
  ⟨id, stmts, .ret (some (.var retVal)) .unknown⟩

def partialClosureAccumDispatchName (storedTys : List Ty) (argsSize : Nat) (retTy : Ty) : String :=
  "__partial_closure_accum.dispatch.clos" ++ toString storedTys.length ++
    storedSigOfTys storedTys ++ "_arg" ++ toString argsSize ++ "_ret_" ++ typeKeyOfTy retTy

def partialClosureAccumName (storedTys : List Ty) (argsSize : Nat) (retTy : Ty) : String :=
  "__partial_closure_accum.clos" ++ toString storedTys.length ++ storedSigOfTys storedTys ++
    "_arg" ++ toString argsSize ++ "_ret_" ++ typeKeyOfTy retTy

/-- The words that an application passes. -/
def argParams (n : Id) (argsSize : Nat) : List Var := freshVars n (List.replicate argsSize .i64)

/-- Fields: the accumulator, the number of the edge, the parent, the stored arguments. -/
def buildPartialClosureAccumDispatch (storedTys : List Ty) (argsSize : Nat) (resultTy : Ty) :
    FunctionOir :=
  let closVar : Var := ⟨0, .objPtr⟩
  let dispatchParam : Var := ⟨1, .i64⟩
  let dispatchClosVar : Var := ⟨2, .i64⟩
  let accumDispatchIdVar : Var := ⟨3, .i64⟩
  let parentClosVar : Var := ⟨4, .objPtr⟩
  let parentAccumVar : Var := ⟨5, .fnPtr⟩
  let dstVar : Var := ⟨6, resultTy.irType⟩
  let params := argParams 7 argsSize
  let storedVars := freshVars (7 + argsSize) (List.replicate storedTys.length .i64)
  let entry : Block := returnBlock 0
    ([load 0 dispatchClosVar closVar 1,
      ⟨1, .assign accumDispatchIdVar (.binOp .add (.var dispatchParam) (.var dispatchClosVar))⟩,
      load 2 parentClosVar closVar 2, load 3 parentAccumVar parentClosVar 0] ++
      loads 4 closVar 3 storedVars ++
      [callFn 5 dstVar (.directFnPtr parentAccumVar)
        (storedVars ++ params ++ [parentClosVar, accumDispatchIdVar])]) dstVar
  { params := params ++ [closVar, dispatchParam]
    locals := [dstVar, dispatchClosVar, dispatchParam, parentClosVar, parentAccumVar] ++ storedVars
    entryBlock := 0
    blocks := [entry] }

/-- Fields: the accumulator, the parent, the stored arguments. -/
def buildPartialClosureAccum (storedTys : List Ty) (argsSize : Nat) (resultTy : Ty) :
    FunctionOir :=
  let closVar : Var := ⟨0, .objPtr⟩
  let dispatchParam : Var := ⟨1, .i64⟩
  let parentClosVar : Var := ⟨4, .objPtr⟩
  let parentAccumVar : Var := ⟨5, .fnPtr⟩
  let dstVar : Var := ⟨6, resultTy.irType⟩
  let params := argParams 7 argsSize
  let storedVars := freshVars (7 + argsSize) (List.replicate storedTys.length .i64)
  let entry : Block := returnBlock 0
    ([load 2 parentClosVar closVar 1, load 3 parentAccumVar parentClosVar 0] ++
      loads 4 closVar 2 storedVars ++
      [callFn 5 dstVar (.directFnPtr parentAccumVar)
        (storedVars ++ params ++ [parentClosVar, dispatchParam])]) dstVar
  { params := params ++ [closVar, dispatchParam]
    locals := [dstVar, dispatchParam, parentClosVar, parentAccumVar] ++ storedVars
    entryBlock := 0
    blocks := [entry] }

def applyWrapperName (fnName : String) (paramTys : List Ty) (retTy : Ty) (castFrom : Option Ty) :
    String :=
  let base := "__wrapper." ++ fnName ++ "." ++ "_".intercalate (paramTys.map typeKeyOfTy)
  match castFrom with
  | none => base ++ "_ret_" ++ typeKeyOfTy retTy
  | some c => base ++ "_cast_" ++ typeKeyOfTy c ++ "_ret_" ++ typeKeyOfTy retTy

/-- The first inputs come from the slots of the closure, the others are words. -/
def inputTys : Nat → List Ty → List IrType
  | _, [] => []
  | 0, _ :: ptys => .i64 :: inputTys 0 ptys
  | loads + 1, pty :: ptys => slotTy pty :: inputTys loads ptys

def wrapperInputParams (n : Id) (nMakeClosureLoads : Nat) (paramTys : List Ty) : List Var :=
  freshVars n (inputTys nMakeClosureLoads paramTys)

/-- Casts each input to the type of its parameter where they differ. -/
def prepareArgs (n : Id) : List Var → List Ty → List Var × List Statement
  | v :: vs, pty :: ptys =>
    let (args, casts) := prepareArgs (n + 1) vs ptys
    if v.ty = pty.irType then (v :: args, casts)
    else
      let cv : Var := ⟨n, pty.irType⟩
      (cv :: args, ⟨n, .assign cv (.cast (.var v) pty.irType .unknown)⟩ :: casts)
  | _, _ => ([], [])

def buildApplyWrapper (paramTys : List Ty) (retTy : Ty) (calleeName : String)
    (castFrom : Option Ty) (nMakeClosureLoads : Nat) : FunctionOir :=
  let dstVar : Var := ⟨0, (castFrom.getD retTy).irType⟩
  let resultVar : Var := ⟨1, retTy.irType⟩
  let params := wrapperInputParams 2 nMakeClosureLoads paramTys
  let (calleeArgs, castStmts) := prepareArgs (2 + paramTys.length) params paramTys
  let callStmt := callFn 0 dstVar (.direct calleeName) calleeArgs
  let (retVar, extraStmts, extraLocals) : Var × List Statement × List Var :=
    match castFrom with
    | none => (dstVar, [], [])
    | some _ => (resultVar, [⟨1, .assign resultVar (.cast (.var dstVar) retTy.irType .unknown)⟩],
        [resultVar])
  { params
    locals := (dstVar :: calleeArgs) ++ extraLocals
    entryBlock := 0
    blocks := [returnBlock 0 (castStmts ++ [callStmt] ++ extraStmts) retVar] }

def makeClosureAccumDispatchName (id : Id) (retTy : Ty) : String :=
  "__make_closure_accum.dispatch." ++ toString id ++ "_ret_" ++ typeKeyOfTy retTy

/-- A function that a closure may stand for, with its dispatch number. -/
structure Specialization where
  tagId : Int
  fnName : String
  paramTys : List Ty
  retTy : Ty

def wrapperOf (retTy : Ty) (s : Specialization) : String :=
  let castNeeded := typeKeyOfTy s.retTy ≠ typeKeyOfTy retTy
  applyWrapperName s.fnName s.paramTys retTy (if castNeeded then some s.retTy else none)

/-- One block for each specialisation, with a result variable of its own. -/
def caseBlocks (retTy : Ty) (allArgVars : List Var) : Id → List Var → List Specialization →
    List Block
  | id, caseDst :: dsts, s :: ss =>
    returnBlock id [callFn 0 caseDst (.direct (wrapperOf retTy s)) allArgVars] caseDst ::
      caseBlocks retTy allArgVars (id + 1) dsts ss
  | _, _, _ => []

/-- Fields: the accumulator, the stored arguments. The dispatch number says which
specialisation runs. -/
def buildMakeClosureAccumDispatch (storedTys : List Ty) (argsSize : Nat)
    (specializations : List Specialization) (retTy : Ty) : FunctionOir :=
  let closVar : Var := ⟨0, .objPtr⟩
  let dispatchParam : Var := ⟨1, .i64⟩
  let params := argParams 3 argsSize
  let (storedVars, storedLoadStmts) := storedSlotLoads (3 + argsSize) closVar 1 storedTys
  let caseDsts := freshVars (3 + argsSize + storedTys.length)
    (List.replicate specializations.length retTy.irType)
  let cases := caseBlocks retTy (storedVars ++ params) 1 caseDsts specializations
  let entry : Block := ⟨0, storedLoadStmts,
    .switch dispatchParam ((specializations.map (·.tagId)).zip (cases.map (·.id))) none⟩
  { params := params ++ [closVar, dispatchParam]
    locals := storedVars ++ caseDsts
    entryBlock := 0
    blocks := entry :: cases }

def makeClosureAccumName (fnName : String) (id : Id) (retTy : Ty) : String :=
  "__make_closure_accum." ++ fnName ++ "." ++ toString id ++ "_ret_" ++ typeKeyOfTy retTy

/-- Fields: the accumulator, the stored arguments. -/
def buildMakeClosureAccum (fnName : String) (storedTys : List Ty) (argsSize : Nat)
    (specializations : List Ty) (retTy : Ty) : FunctionOir :=
  let closVar : Var := ⟨0, .objPtr⟩
  let dispatchParam : Var := ⟨1, .i64⟩
  let dstVar : Var := ⟨2, retTy.irType⟩
  let params := argParams 3 argsSize
  let (storedVars, storedLoadStmts) := storedSlotLoads (3 + argsSize) closVar 1 storedTys
  let callStmt := callFn 1 dstVar
    (.direct (applyWrapperName fnName specializations retTy none)) (storedVars ++ params)
  { params := params ++ [closVar, dispatchParam]
    locals := dstVar :: storedVars
    entryBlock := 0
    blocks := [returnBlock 0 (storedLoadStmts ++ [callStmt]) dstVar] }

end Syli.Compiler.GenClosure
