import Syli.Compiler.CoreAst

/-! `primitives.ml`: the types of the primitives and the types that a declaration may give them. -/
namespace Syli.Compiler.Ast

inductive Ty where
  | var (name : String)
  | any
  | constant (c : ConstantTy)
  | arrow (arg ret : Ty)
  | tuple (elems : List Ty)
  | array (elem : Ty)
  | defined (name : String) (args : List Ty)

structure PrimitiveInstances where
  name : String
  tys : List Ty

def tripleArithmeticArrowTy (ty : Ty) : Ty := .arrow ty (.arrow ty ty)

def tripleComparisonArrowTy (ty : Ty) : Ty := .arrow ty (.arrow ty (.constant .bool))

def arithmeticConstTys : List Ty :=
  [.constant .int8, .constant .int16, .constant .int32, .constant .int64, .constant .uint8,
    .constant .uint16, .constant .uint32, .constant .uint64, .constant .f32, .constant .f64]

def comparisonConstTys : List Ty :=
  [.constant .int8, .constant .int16, .constant .int32, .constant .int64, .constant .uint8,
    .constant .uint16, .constant .uint32, .constant .uint64, .constant .f32, .constant .f64]

def arrayPrimTy : Ty := .arrow (.array (.var "a")) (.constant .int64)

def indexGetPrimTy : Ty := .arrow (.array (.var "a")) (.arrow (.constant .int64) (.var "a"))

def indexSetPrimTy : Ty :=
  .arrow (.array (.var "a"))
    (.arrow (.constant .int64) (.arrow (.var "a") (.constant .unit)))

def primitives : List PrimitiveInstances :=
  [{ name := "add", tys := arithmeticConstTys.map tripleArithmeticArrowTy },
    { name := "sub", tys := arithmeticConstTys.map tripleArithmeticArrowTy },
    { name := "mul", tys := arithmeticConstTys.map tripleArithmeticArrowTy },
    { name := "div", tys := arithmeticConstTys.map tripleArithmeticArrowTy },
    { name := "mod", tys := arithmeticConstTys.map tripleArithmeticArrowTy },
    { name := "eq", tys := comparisonConstTys.map tripleComparisonArrowTy },
    { name := "lt", tys := comparisonConstTys.map tripleComparisonArrowTy },
    { name := "gt", tys := comparisonConstTys.map tripleComparisonArrowTy },
    { name := "le", tys := comparisonConstTys.map tripleComparisonArrowTy },
    { name := "ge", tys := comparisonConstTys.map tripleComparisonArrowTy },
    { name := "array_len", tys := [arrayPrimTy] },
    { name := "array_size", tys := [arrayPrimTy] },
    { name := "array_index_get", tys := [indexGetPrimTy] },
    { name := "array_index_set", tys := [indexSetPrimTy] }]

mutual

def tyMatchesPattern : Ty → Ty → Bool
  | .var _, _ => true
  | .any, _ => true
  | _, .any => true
  | .constant a, .constant b => a = b
  | .arrow parg pret, .arrow aarg aret => tyMatchesPattern parg aarg && tyMatchesPattern pret aret
  | .tuple pats, .tuple actuals => tysMatchPatterns pats actuals
  | .array pat, .array actual => tyMatchesPattern pat actual
  | .defined pname pargs, .defined aname aargs => pname = aname && tysMatchPatterns pargs aargs
  | _, _ => false

/-- Lists of different lengths do not match. -/
def tysMatchPatterns : List Ty → List Ty → Bool
  | [], [] => true
  | pat :: pats, actual :: actuals => tyMatchesPattern pat actual && tysMatchPatterns pats actuals
  | _, _ => false

end

def tyMatchPrimitiveInstance (ty : Ty) (p : PrimitiveInstances) : Bool :=
  p.tys.any fun t => tyMatchesPattern t ty

end Syli.Compiler.Ast
