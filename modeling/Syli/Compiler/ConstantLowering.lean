import Syli.Compiler.ParsedAst
import Syli.Compiler.PatternMatching
import Syli.Compiler.GenCompare

/-! The constants of the intermediate languages, from the parsed program to `gen_llvm.ml`. -/
namespace Syli.Compiler.Constants

open GenLlvm

/-- `typed_ast.ml`: `constant_desc` -/
inductive TConstant where
  | unit
  | boolLit (s : String)
  | intLit (s : String)
  | floatLit (s : String)
  | charLit (s : String)
  | stringLit (s : String)
deriving DecidableEq, Repr

/-- `core_ast.ml`: the constants that `pattern_matching.ml` compares. -/
abbrev CConstant := PatternMatching.Constant

/-- `cir.ml` -/
inductive CirConstant where
  | intLit (s : String)
  | floatLit (s : String)
  | boolLit (s : String)
  | stringLit (s : String)
  | charLit (s : String)
  | null
deriving DecidableEq, Repr

/-- `oir.ml` -/
abbrev OirConstant := Compiler.Constant

/-- `rir.ml` -/
inductive RirConstant where
  | intLit (s : String)
  | floatLit (s : String)
  | boolLit (s : String)
  | stringLit (s : String)
  | charLit (s : String)
  | null
deriving DecidableEq, Repr

def constantDescOfParsing : Alpha.Literal → TConstant × ConstantTy
  | .unit => (.unit, .unit)
  | .bool s => (.boolLit s, .bool)
  | .int s => (.intLit s, .int64)
  | .float s => (.floatLit s, .f64)
  | .char s => (.charLit s, .char)
  | .string s => (.stringLit s, .string)

/-- `desugar_expr` on a constant -/
def desugarConstant : TConstant → CConstant
  | .unit => .unit
  | .boolLit s => .boolLit s
  | .intLit s => .intLit s
  | .floatLit s => .floatLit s
  | .charLit s => .charLit s
  | .stringLit s => .stringLit s

/-- `infer_pattern`, `desugar_pattern` and `constant_of_literal` on a literal, with its type -/
def patternConstant : Alpha.Literal → CConstant × ConstantTy
  | .unit => (.unit, .unit)
  | .bool s => (.boolLit s, .bool)
  | .int s => (.intLit s, .int64)
  | .float s => (.floatLit s, .f64)
  | .char s => (.charLit s, .char)
  | .string s => (.stringLit s, .string)

def irConstOfCore : CConstant → CirConstant
  | .unit => .null
  | .intLit s => .intLit s
  | .floatLit s => .floatLit s
  | .boolLit s => .boolLit s
  | .stringLit s => .stringLit s
  | .charLit s => .charLit s

/-- `lower_constant` of `lower_cir_to_oir.ml` -/
def lowerCirConstant : CirConstant → OirConstant
  | .intLit s => .intLit s
  | .floatLit s => .floatLit s
  | .boolLit s => .boolLit s
  | .null => .null
  | .stringLit s => .stringLit s
  | .charLit s => .charLit s

/-- `lower_constant` of `lower_oir_to_rir.ml` -/
def lowerOirConstant : OirConstant → RirConstant
  | .intLit s => .intLit s
  | .floatLit s => .floatLit s
  | .boolLit s => .boolLit s
  | .null => .null
  | .stringLit s => .stringLit s
  | .charLit s => .charLit s

def lowerConstant (c : CConstant) : RirConstant :=
  lowerOirConstant (lowerCirConstant (irConstOfCore c))

/-- `llvm_lir.ml`: the constants; a float's text stands for its value. -/
inductive LlConstant where
  | integer (v : BitVec 64)
  | float (s : String)
  | double (s : String)
  | null
  | zeroInitializer
deriving DecidableEq, Repr

def boolOfString (s : String) : Option Bool :=
  let normalized := s.trimAscii.toString.toLower
  if normalized = "1" ∨ normalized = "true" then some true
  else if normalized = "0" ∨ normalized = "false" then some false
  else none

def integerOfBool (b : Bool) : LlConstant := .integer (if b then 1 else 0)

/-- The code of the first byte of the literal. -/
def integerOfChar (s : String) : LlConstant :=
  match s.toUTF8.toList with
  | [] => .integer 0
  | c :: _ => .integer (BitVec.ofNat 64 c.toNat)

/-- `none` where the source fails. -/
def llconstOfIrConstant (c : RirConstant) (ty : RirType) : Option (LlConstant × Lltype) :=
  let llty := lltypeOfIrType ty
  match c with
  | .intLit s => some (.integer (parseInt64 s), llty)
  | .floatLit s =>
    match llty with
    | .float => some (.float s, llty)
    | .double => some (.double s, llty)
    | _ => none
  | .boolLit s => (boolOfString s).map fun b => (integerOfBool b, .i1)
  | .stringLit _ => none
  | .charLit s => some (integerOfChar s, llty)
  | .null => some (.null, llty)

/-- The type and the initial value of a global; `none` where the source fails. -/
def lowerGlobal (value : RirConstant) (ty : RirType) : Option (Option LlConstant × Lltype) :=
  let gType := lltypeOfIrType ty
  match value with
  | .intLit s => some (some (.integer (parseInt64 s)), gType)
  | .floatLit s =>
    match gType with
    | .float => some (some (.float s), gType)
    | _ => some (some (.double s), gType)
  | .boolLit s => (boolOfString s).map fun b => (some (integerOfBool b), gType)
  | .charLit s => some (some (integerOfChar s), gType)
  | .stringLit _ => some (none, gType)
  | .null =>
    match gType with
    | .ptr => some (some .null, gType)
    | _ => some (some .zeroInitializer, gType)

def rirTypeOfConstant (ty : ConstantTy) : RirType := lowerIrType (irTypeOfConstant ty)

/-- What a literal is used as. -/
inductive Use where
  | expression
  | global
  | pattern
deriving DecidableEq, Repr

/-- The constant that the compiler emits for a literal, with its type. -/
def emitted (l : Alpha.Literal) : Use → Option (LlConstant × Lltype)
  | .expression =>
    let (c, ty) := constantDescOfParsing l
    llconstOfIrConstant (lowerConstant (desugarConstant c)) (rirTypeOfConstant ty)
  | .global => do
    let (c, ty) := constantDescOfParsing l
    let (init, gType) ← lowerGlobal (lowerConstant (desugarConstant c)) (rirTypeOfConstant ty)
    return (← init, gType)
  | .pattern =>
    let (c, ty) := patternConstant l
    llconstOfIrConstant (lowerConstant c) (rirTypeOfConstant ty)

end Syli.Compiler.Constants
