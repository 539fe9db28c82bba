import Syli.Compiler.Oir

/-! The types of `cir.ml` and their keys, from `cir_helpers.ml`. -/
namespace Syli.Compiler.Cir

/-- An object type with the fields or the element that its key is made of. -/
inductive Ty where
  | bool
  | i64
  | i32
  | i16
  | i8
  | u64
  | u32
  | u16
  | u8
  | f32
  | f64
  | fnPtr
  | record (named : Option String) (fields : List Ty)
  | array (named : Option String) (elementTy : Ty)
  | variant (named : Option String)
  | objPtr
  | char
  | string
  | void
  | genericTyp (typeVar : Nat)
  | arrow (args : List Ty) (ret : Ty)

def objName (named : Option String) : String := named.getD "obj"

mutual

def typeKeyOfTy : Ty → String
  | .bool => "bool"
  | .i64 => "i64"
  | .i32 => "i32"
  | .i16 => "i16"
  | .i8 => "i8"
  | .u64 => "u64"
  | .u32 => "u32"
  | .u16 => "u16"
  | .u8 => "u8"
  | .f32 => "f32"
  | .f64 => "f64"
  | .fnPtr => "fn_ptr"
  | .char => "char"
  | .string => "string"
  | .void => "void"
  | .genericTyp typeVar => "gen" ++ toString typeVar
  | .objPtr => "obj_ptr"
  | .record named fields =>
    let fieldKeys := "_".intercalate (typeKeysOfTys fields)
    if named = none ∧ fieldKeys ≠ "" then "obj_" ++ objName named ++ "_" ++ fieldKeys
    else "obj_" ++ objName named
  | .array named elementTy => "obj_" ++ objName named ++ "_" ++ typeKeyOfTy elementTy
  | .variant named => "obj_" ++ objName named
  | .arrow args ret => "fn_" ++ "_".intercalate (typeKeysOfTys args) ++ "_" ++ typeKeyOfTy ret

def typeKeysOfTys : List Ty → List String
  | [] => []
  | t :: ts => typeKeyOfTy t :: typeKeysOfTys ts

end

def isArrowTy : Ty → Bool
  | .arrow _ _ => true
  | _ => false

def extractArrowTys : Ty → Option (List Ty × Ty)
  | .arrow paramTys retTy => some (paramTys, retTy)
  | _ => none

end Syli.Compiler.Cir
