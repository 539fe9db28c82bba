import Syli.Compiler.CarrierCasts
import Syli.Compiler.PrimitiveTypes

/-! `gen_llvm.ml`, `gen_primitives.ml` and `lower_core_to_cir.ml`: the instructions for comparison
primitives and for literal patterns. -/
namespace Syli.Compiler.GenLlvm

open Foundation

inductive ICmpCond where
  | eq | ne | slt | sle | sgt | sge | ult | ule | ugt | uge
deriving DecidableEq, Repr

inductive SignednessKind where
  | signed
  | unsigned
deriving DecidableEq, Repr

/-- `none` where the source fails. -/
def signednessKind : RirType → Option SignednessKind
  | .i32 | .i64 | .i16 | .i8 => some .signed
  | .u32 | .u64 | .u16 | .u8 => some .unsigned
  | _ => none

def lowerCompareInteger (op : Binop) (ty : RirType) : Option ICmpCond :=
  match op with
  | .eq => some .eq
  | .ne => some .ne
  | _ =>
    match op, signednessKind ty with
    | .lt, some .signed => some .slt
    | .lt, some .unsigned => some .ult
    | .le, some .signed => some .sle
    | .le, some .unsigned => some .ule
    | .gt, some .signed => some .sgt
    | .gt, some .unsigned => some .ugt
    | .ge, some .signed => some .sge
    | .ge, some .unsigned => some .uge
    | _, _ => none

def ICmpCond.eval {w : Nat} (a b : BitVec w) : ICmpCond → Bool
  | .eq => a = b
  | .ne => a ≠ b
  | .slt => a.slt b
  | .sle => a.sle b
  | .sgt => b.slt a
  | .sge => b.sle a
  | .ult => a.ult b
  | .ule => a.ule b
  | .ugt => b.ult a
  | .uge => b.ule a

/-- The result of an integer comparison; `none` where its operands are not two integers or two
pointers of one type. -/
def evalICmp (cond : ICmpCond) (a b : Value) : Option Bool :=
  if a.ty = b.ty ∧ (a.ty.isInt ∨ a.ty.isPtr) then
    some (cond.eval a.bits (b.bits.setWidth a.ty.width))
  else none

/-- The comparison of two operands of a type. Every comparison is lowered to one of integers. -/
def lowerCompare (op : Binop) (operandTy : IrType) (lhs rhs : Value) : Option Bool := do
  let cond ← lowerCompareInteger op (lowerIrType operandTy)
  evalICmp cond lhs rhs

/-- The comparison that the symbol of a primitive stands for. -/
def comparisonOfSymbol : String → Option Binop
  | "eq" => some .eq
  | "lt" => some .lt
  | "le" => some .le
  | "gt" => some .gt
  | "ge" => some .ge
  | _ => none

def irTypeOfConstant : ConstantTy → IrType
  | .int64 => .i64
  | .int32 => .i32
  | .int16 => .i16
  | .int8 => .i8
  | .uint64 => .u64
  | .uint32 => .u32
  | .uint16 => .u16
  | .uint8 => .u8
  | .unit => .void
  | .bool => .bool
  | .f32 => .f32
  | .f64 => .f64
  | .string => .string
  | .char => .char

/-- The native parser fails on decimals that are no signed words. -/
def parseInt64 (s : String) : BitVec 64 :=
  match s.toNat? with
  | some n => if n < 2 ^ 63 then BitVec.ofNat 64 n else 0
  | none => 0

/-- A literal pattern; a float's bits stand for its text. -/
inductive LiteralPattern where
  | intLit (s : String)
  | boolLit (b : Bool)
  | charLit (c : BitVec 8)
  | floatLit (bits : BitVec 64)
  | stringLit (s : List (BitVec 8))

/-- The type that the inference gives a literal pattern. -/
def LiteralPattern.ty : LiteralPattern → ConstantTy
  | .intLit _ => .int64
  | .boolLit _ => .bool
  | .charLit _ => .char
  | .floatLit _ => .f64
  | .stringLit _ => .string

def stringPaddedBytes (len : Nat) : Nat := (len + 8) / 8 * 8

/-- The bytes of a string with the padding that gives its length. -/
def stringBytes (s : List (BitVec 8)) : List (BitVec 8) :=
  s ++ List.replicate (stringPaddedBytes s.length - 1 - s.length) 0 ++
    [BitVec.ofNat 8 (stringPaddedBytes s.length - 1 - s.length)]

/-- The tag of a reference that is never counted. -/
def alwaysBorrowTag : Nat := 2

/-- The constant that a literal is lowered to; a string's is the tagged address of its object. -/
def llconstOfLiteral (literalAddress : Nat) : LiteralPattern → Value
  | .intLit s => { ty := .i64, bits := parseInt64 s }
  | .boolLit b => { ty := .i1, bits := BitVec.ofBool b }
  | .charLit c => { ty := .i8, bits := c }
  | .floatLit bits => { ty := .double, bits }
  | .stringLit _ => { ty := .ptrAs 1, bits := BitVec.ofNat 64 (literalAddress + alwaysBorrowTag) }

/-- The test of a value against a literal pattern. -/
def emitEquality (literalAddress : Nat) (literal : LiteralPattern) (sv : Value) : Option Bool :=
  lowerCompare .eq (irTypeOfConstant literal.ty) sv (llconstOfLiteral literalAddress literal)

end Syli.Compiler.GenLlvm
