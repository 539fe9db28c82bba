import Syli.Compiler.CirModule
import Syli.Compiler.PrimitiveTypes

/-! `gen_primitives.ml`: the functions that stand for the declared primitives, over the type `T` that
their types are lowered to. -/
namespace Syli.Compiler.Mono.GenPrimitives

inductive Operation where
  | binop (op : Binop)
  | arrayLen
  | arraySize
  | indexGet
  | indexSet

def operationOfSymbol : String → Option Operation
  | "add" => some (.binop .add)
  | "sub" => some (.binop .sub)
  | "mul" => some (.binop .mul)
  | "div" => some (.binop .div)
  | "mod" => some (.binop .mod)
  | "eq" => some (.binop .eq)
  | "ne" => some (.binop .ne)
  | "lt" => some (.binop .lt)
  | "le" => some (.binop .le)
  | "gt" => some (.binop .gt)
  | "ge" => some (.binop .ge)
  | "array_len" => some .arrayLen
  | "array_size" => some .arraySize
  | "array_index_get" => some .indexGet
  | "array_index_set" => some .indexSet
  | _ => none

inductive Failure where
  | primitiveError (message : String)
  | failure (message : String)
deriving DecidableEq

abbrev Result := Except Failure

variable {T : Type}

/-- The ids that the calls of `fresh_id` give. -/
structure FreshIds where
  x : Id
  y : Id
  z : Id
  result : Id
  rvalue : Id
  statement : Id
  block : Id
  terminator : Id

def makePrimFunction (ids : FreshIds) (name : String) (params locals : List (Var T))
    (statements : List (Statement T)) (termNode : TerminatorNode T) (retTy : T) (isPublic : Bool) :
    Function T :=
  let entryBlock : Block T := ⟨ids.block, 0, statements, ⟨ids.terminator, termNode⟩⟩
  { name, params, locals
    entryBlock := entryBlock.id
    blocks := [entryBlock]
    returnTy := retTy
    visibility := if isPublic then .isPublic else .isPrivate
    unitParamIndices := [] }

/-- The variable for the result and the statement that assigns it. -/
def assignResult (ids : FreshIds) (node : RvalueNode T) (ty : T) : Var T × Statement T :=
  let result : Var T := ⟨ids.result, "Sy_prim_result", ty⟩
  (result, ⟨ids.statement, .assign result ⟨ids.rvalue, node, ty⟩, ty⟩)

def needArguments (message : String) (wanted got : Nat) : Result Unit :=
  if got ≠ wanted then .error (.primitiveError message) else .ok ()

/-- `List.nth` -/
def nth (l : List T) (i : Nat) : Result T :=
  match l[i]? with
  | some t => .ok t
  | none => .error (.failure "nth")

def buildOperation (mkIrTy : CTy → T) (ids : FreshIds) (name : String) (op : Operation)
    (isPublic : Bool) (annotatedTy : CTy) : Result (Function T) := do
  let paramCtys := getArgsTy annotatedTy
  let paramTys := paramCtys.map mkIrTy
  let got := paramCtys.length
  let irRetTy := mkIrTy (getReturnTy annotatedTy)
  match op with
  | .binop binop =>
    needArguments (s!"primitive {name} must be a binary operator, got {got} args") 2 got
    let x : Var T := ⟨ids.x, "x", ← nth paramTys 0⟩
    let y : Var T := ⟨ids.y, "y", ← nth paramTys 1⟩
    let (result, assign) := assignResult ids (.binOp binop (.var x) (.var y)) irRetTy
    return makePrimFunction ids name [x, y] [result] [assign] (.ret (some (.var result))) irRetTy
      isPublic
  | .arrayLen | .arraySize =>
    needArguments (s!"primitive {name} must be unary, got {got} args") 1 got
    let x : Var T := ⟨ids.x, "x", ← nth paramTys 0⟩
    let node : RvalueNode T :=
      match op with
      | .arrayLen => .objectLength (.var x)
      | _ => .objectSize (.var x)
    let (result, assign) := assignResult ids node irRetTy
    return makePrimFunction ids name [x] [result] [assign] (.ret (some (.var result))) irRetTy isPublic
  | .indexGet | .indexSet =>
    let need (n : Nat) := needArguments
      (s!"primitive {name} must take {n} arguments, got {got}") n got
    let arr : Var T := ⟨ids.x, "x", ← nth paramTys 0⟩
    let idx : Var T := ⟨ids.y, "y", ← nth paramTys 1⟩
    let projection : Projection T := .array (.var idx)
    match op with
    | .indexGet =>
      need 2
      let eltTy := irRetTy
      let (result, assign) := assignResult ids (.objectGet (.var arr) projection eltTy) eltTy
      return makePrimFunction ids name [arr, idx] [result] [assign] (.ret (some (.var result)))
        irRetTy isPublic
    | _ =>
      need 3
      let valV : Var T := ⟨ids.z, "z", ← nth paramTys 2⟩
      let eltTy ← nth paramTys 2
      let setStmt : Statement T :=
        ⟨ids.statement, .objectSet arr projection (.var valV) eltTy, eltTy⟩
      return makePrimFunction ids name [arr, idx, valV] [] [setStmt] (.ret none) irRetTy isPublic

def build (mkIrTy : CTy → T) (ids : FreshIds) (fnName symbol : String) (isPublic : Bool)
    (annotatedTy : CTy) : Result (Function T) :=
  match operationOfSymbol symbol with
  | some op => buildOperation mkIrTy ids fnName op isPublic annotatedTy
  | none => .error (.primitiveError s!"Unknown primitive symbol: {symbol}")

end Syli.Compiler.Mono.GenPrimitives

namespace Syli.Compiler.Ast

/-- How the names in a declared type are read: the ids of the type variables and of the wildcard, and
the full names of the defined types. -/
structure Naming where
  tyVar : String → Nat
  any : Nat
  typeName : String → String

mutual

/-- The core type of a declared type, by `ty_of_parsing` and `desugar_ty`. -/
def coreTy (naming : Naming) : Ty → CTy
  | .var x => .var (naming.tyVar x)
  | .any => .var naming.any
  | .constant c => .constant c
  | .arrow arg ret => .arrow (coreTy naming arg) (coreTy naming ret)
  | .tuple elems => .tuple (coreTys naming elems)
  | .array elem => .array (coreTy naming elem)
  | .defined name args => .defined (naming.typeName name) (coreTys naming args)

def coreTys (naming : Naming) : List Ty → List CTy
  | [] => []
  | t :: ts => coreTy naming t :: coreTys naming ts

end

end Syli.Compiler.Ast
