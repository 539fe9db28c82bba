import Syli.Compiler.Oir

/-! `core_ast.ml`: the types of the core language and their declarations. -/
namespace Syli.Compiler

inductive ConstantTy where
  | int64 | int32 | int16 | int8 | uint64 | uint32 | uint16 | uint8
  | unit
  | bool
  | f32 | f64
  | string
  | char
deriving DecidableEq, Repr

inductive CTy where
  | var (v : Nat)
  | constant (c : ConstantTy)
  | arrow (arg ret : CTy)
  | tuple (tys : List CTy)
  | array (elem : CTy)
  | defined (name : String) (args : List CTy)

inductive MutFlag where
  | mutable
  | immutable
deriving DecidableEq, Repr

structure RecordFieldTy where
  fieldTy : CTy
  fieldMut : MutFlag

inductive ConstructorArg where
  | ty (t : CTy)
  | record (fields : List RecordFieldTy)

structure ConstructorDecl where
  tag : Nat
  arg : Option ConstructorArg

inductive TyDeclDesc where
  | alias (t : CTy)
  | variant (ctors : List ConstructorDecl)
  | record (fields : List RecordFieldTy)
  | abstract

/-- The parameter types of a function type. -/
def getArgsTy : CTy → List CTy
  | .arrow arg ret => arg :: getArgsTy ret
  | _ => []

def isUnitCty : CTy → Bool
  | .constant .unit => true
  | _ => false

end Syli.Compiler
