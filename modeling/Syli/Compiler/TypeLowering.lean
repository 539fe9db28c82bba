import Syli.Compiler.CoreAst

/-! `type_lowering.ml`: the types of the core language as types of the intermediate representation,
with the cyclicity of their objects. -/
namespace Syli.Compiler

open Foundation

inductive CyclicProp where
  | mutableCyclicTrackable
  | immutableCyclicTrackable
  | acyclicTrackable
  | acyclic
  | unknownCyclicProp
deriving DecidableEq, Repr

structure TypeEntry where
  decl : TyDeclDesc
  prop : CyclicProp
  recordProp : CyclicProp
  ctorProps : List (Nat × CyclicProp)

/-- The result type of a function type. -/
def getReturnTy : CTy → CTy
  | .arrow _ ret => getReturnTy ret
  | t => t

def ConstantTy.key : ConstantTy → String
  | .int64 => "i64"
  | .int32 => "i32"
  | .int16 => "i16"
  | .int8 => "i8"
  | .uint64 => "u64"
  | .uint32 => "u32"
  | .uint16 => "u16"
  | .uint8 => "u8"
  | .unit => "unit"
  | .bool => "bool"
  | .f32 => "f32"
  | .f64 => "f64"
  | .string => "string"
  | .char => "char"

/-- The bare name when there are no arguments. -/
def joinKeys (name : String) : List String → String
  | [] => name
  | keys => name ++ ":" ++ ":".intercalate keys

mutual

def typeKey : CTy → String
  | .var n => "'" ++ toString n
  | .constant c => c.key
  | .arrow a b => "(" ++ typeKey a ++ "->" ++ typeKey b ++ ")"
  | .tuple ts => "(" ++ ",".intercalate (typeKeys ts) ++ ")"
  | .array t => "array:" ++ typeKey t
  | .defined name args => joinKeys name (typeKeys args)

def typeKeys : List CTy → List String
  | [] => []
  | t :: ts => typeKey t :: typeKeys ts

end

def materializedName (name : String) (args : List CTy) : String :=
  joinKeys name (typeKeys args)

/-- The types of the lowered program; a constant type stands for the word type of its name. -/
inductive Cir.IrType where
  | constant (c : ConstantTy)
  | genericTyp (v : Nat)
  | arrow (args : List IrType) (ret : IrType)
  | objPtr
  | record (named : Option String) (fields : List IrType) (cyclicProp : CyclicProp)
  | array (element : IrType) (cyclicProp : CyclicProp)
  | variant (named : String) (constructors : List (Nat × List IrType)) (cyclicProp : CyclicProp)

/-- The cyclicity of the objects of an object type. -/
def Cir.IrType.objProp : Cir.IrType → Option CyclicProp
  | .record _ _ prop | .array _ prop | .variant _ _ prop => some prop
  | _ => none

def isAcyclicIr (t : Cir.IrType) : Bool :=
  match t with
  | .constant _ => true
  | _ => t.objProp = some .acyclic

def propOfElements (elements : List Cir.IrType) : CyclicProp :=
  if elements.all isAcyclicIr then .acyclic else .unknownCyclicProp

/-- The payload of a constructor as types with their mutability. -/
def ctorFields : Option ConstructorArg → List (CTy × MutFlag)
  | none => []
  | some (.ty (.tuple tys)) => tys.map fun t => (t, .immutable)
  | some (.record fields) => fields.map fun f => (f.fieldTy, f.fieldMut)
  | some (.ty t) => [(t, .immutable)]

/-- The recursion of `mk_ir_ty` with a fuel for its depth: it does not return on a type that
contains itself other than through a variant, nor on a type that is not declared. -/
def mkIrTy (typeDefs : StringMap TypeEntry) : Nat → List String → CTy → Option Cir.IrType
  | 0, _, _ => none
  | n + 1, visited, t =>
    match t with
    | .constant c => some (.constant c)
    | .var v => some (.genericTyp v)
    | .arrow arg ret => do
      let args ← (getArgsTy (.arrow arg ret)).mapM fun a =>
        if isUnitCty a then some (.constant .int64) else mkIrTy typeDefs n visited a
      let ret ← mkIrTy typeDefs n visited (getReturnTy (.arrow arg ret))
      return .arrow args ret
    | .tuple tys => do
      let fields ← tys.mapM fun t => mkIrTy typeDefs n visited t
      return .record none fields (propOfElements fields)
    | .array elem => do
      let element ← mkIrTy typeDefs n visited elem
      return .array element (propOfElements [element])
    | .defined name args =>
      let key := materializedName name args
      match typeDefs.findOpt key with
      | none => none
      | some entry =>
        match entry.decl with
        | .record declFields => do
          let fields ← declFields.mapM fun f => mkIrTy typeDefs n visited f.fieldTy
          return .record (some key) fields entry.recordProp
        | .alias t => mkIrTy typeDefs n visited t
        | .variant ctors =>
          if ctors.all (·.arg.isNone) then some (.constant .int64)
          else if key ∈ visited then some .objPtr
          else do
            let constructors ← ctors.mapM fun c => do
              let fields ← (ctorFields c.arg).mapM fun f => mkIrTy typeDefs n (key :: visited) f.1
              return (c.tag, fields)
            return .variant key constructors entry.prop
        | .abstract => none

end Syli.Compiler
