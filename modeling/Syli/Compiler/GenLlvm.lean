import Syli.Compiler.LowerOirToRir
import Syli.Foundation.ByteMemory

/-! `gen_llvm.ml`: the instructions for casts and for the slots of objects. -/
namespace Syli.Compiler.GenLlvm

open Foundation

inductive Lltype where
  | i1 | i8 | i16 | i32 | i64 | float | double | void
  | ptr
  | ptrAs (space : Nat)
deriving DecidableEq, Repr

def lltypeOfIrType : RirType → Lltype
  | .bool => .i1
  | .i64 | .u64 => .i64
  | .i32 | .u32 => .i32
  | .i16 | .u16 => .i16
  | .i8 | .u8 => .i8
  | .float => .float
  | .double => .double
  | .void => .void
  | .objPtr => .ptrAs 1
  | .fnPtr => .ptr
  | .char => .i8
  | .string => .ptrAs 1

namespace Lltype

def width : Lltype → Nat
  | .i1 => 1
  | .i8 => 8
  | .i16 => 16
  | .i32 | .float => 32
  | .i64 | .double | .ptr | .ptrAs _ => 64
  | .void => 0

def isPtr : Lltype → Bool
  | .ptr | .ptrAs _ => true
  | _ => false

def isInt : Lltype → Bool
  | .i1 | .i8 | .i16 | .i32 | .i64 => true
  | _ => false

end Lltype

inductive CastOp where
  | ptrToInt
  | intToPtr
  | bitCast
deriving DecidableEq, Repr

/-- The rules of the target language: a `bitcast` keeps the width, and pointers stay pointers of
their address space. -/
def CastOp.Legal : CastOp → Lltype → Lltype → Prop
  | .ptrToInt, src, dst => src.isPtr ∧ dst.isInt
  | .intToPtr, src, dst => src.isInt ∧ dst.isPtr
  | .bitCast, src, dst =>
    src ≠ .void ∧ src.width = dst.width ∧ if src.isPtr ∨ dst.isPtr then src = dst else True

instance (op : CastOp) (src dst : Lltype) : Decidable (op.Legal src dst) := by
  cases op <;> unfold CastOp.Legal <;> infer_instance

structure Value where
  ty : Lltype
  bits : BitVec ty.width

/-- The value of a cast instruction; `none` where the instruction is not legal. -/
def evalCast (op : CastOp) (v : Value) (dst : Lltype) : Option Value :=
  if op.Legal v.ty dst then some { ty := dst, bits := v.bits.setWidth dst.width } else none

/-- The assignment of a cast: no instruction where the types are the same. -/
def lowerCastAssign (op : CastOp) (src' : Lltype) (dstLlty : Lltype) :
    Option (CastOp × Lltype) :=
  if src' = dstLlty then none else some (op, dstLlty)

def runCastAssign (op : CastOp) (v : Value) (dstLlty : Lltype) : Option Value :=
  match lowerCastAssign op v.ty dstLlty with
  | none => some v
  | some (op, dst) => evalCast op v dst

/-- An object starts with two words. -/
def valuesOffset : Nat := 2

/-- The address of a slot, in cells of `2 ^ cellShift` bytes. -/
def slotAddress (obj fieldIdx cellShift : Nat) : Nat :=
  obj + 8 * valuesOffset + fieldIdx * 2 ^ cellShift

def storeSlot (mem : ByteMemory) (obj fieldIdx cellShift : Nat) (v : Value) : ByteMemory :=
  mem.store (slotAddress obj fieldIdx cellShift) v.bits

def loadSlot (mem : ByteMemory) (obj fieldIdx cellShift : Nat) (ty : Lltype) : Value :=
  { ty, bits := mem.load ty.width (slotAddress obj fieldIdx cellShift) }

end Syli.Compiler.GenLlvm
