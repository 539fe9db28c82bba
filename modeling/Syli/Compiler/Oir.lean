import Mathlib
import Syli.Foundation.AssocMap

/-! `oir.ml`: the object intermediate representation, and the maps and sets of `syli_common.ml`. -/
namespace Syli.Compiler

open Foundation

abbrev Id := Nat

abbrev IntSet := Finset Id

/-- In increasing order, as `IntSet.fold` visits them. -/
def IntSet.elements (s : IntSet) : List Id :=
  (List.range (s.sup id + 1)).filter (· ∈ s)

theorem IntSet.mem_elements {s : IntSet} {v : Id} : v ∈ s.elements ↔ v ∈ s := by
  simp only [elements, List.mem_filter, List.mem_range, decide_eq_true_eq, and_iff_right_iff_imp]
  intro hv
  exact Nat.lt_succ_of_le (Finset.le_sup (f := id) hv)

theorem IntSet.nodup_elements (s : IntSet) : s.elements.Nodup :=
  List.nodup_range.filter _

abbrev IntMap (α : Type) := AssocMap Id α

abbrev StringMap (α : Type) := AssocMap String α

inductive IrType where
  | bool | i64 | i32 | i16 | i8 | u64 | u32 | u16 | u8 | f32 | f64
  | fnPtr
  | obj
  | objPtr
  | char
  | string
  | void
deriving DecidableEq, Repr

def isRefTy : IrType → Bool
  | .obj | .objPtr | .string => true
  | _ => false

inductive Binop where
  | add | sub | mul | div | mod | eq | ne | lt | le | gt | ge
  | bitAnd | bitOr | bitXor | shl | shr | and | or
deriving DecidableEq, Repr

inductive Unop where
  | neg | not | bitNot
deriving DecidableEq, Repr

inductive Constant where
  | intLit (s : String)
  | floatLit (s : String)
  | boolLit (s : String)
  | stringLit (s : String)
  | charLit (s : String)
  | null
deriving DecidableEq, Repr

structure Var where
  id : Id
  ty : IrType
deriving DecidableEq, Repr

inductive Operand where
  | constant (c : Constant) (ty : IrType)
  | var (v : Var)
deriving DecidableEq, Repr

inductive CallTarget where
  | direct (name : String)
  | directFnPtr (ptr : Var)
deriving DecidableEq, Repr

inductive OwnershipOp where
  | borrow
  | transfer
  | own
  | share
  | constant
  | alwaysBorrow
  | unknown
deriving DecidableEq, Repr

structure Arg where
  operand : Operand
  ownershipArg : OwnershipOp
deriving DecidableEq, Repr

inductive TerminatorNode where
  | goto (target : Id)
  | switch (scrutinee : Var) (cases : List (Int × Id)) (defaultBlock : Option Id)
  | condBr (cond : Var) (thenBlock elseBlock : Id)
  | ret (operand : Option Operand) (ownershipRet : OwnershipOp)
  | matchFailure
deriving DecidableEq, Repr

inductive Projection where
  | field (idx : Nat)
  | array (index : Operand)
  | variant (tag fieldIdx : Nat)
deriving DecidableEq, Repr

inductive RvalueNode where
  | binOp (op : Binop) (lhs rhs : Operand)
  | unOp (op : Unop) (operand : Operand)
  | objectGet (obj : Operand) (projection : Projection) (valueTy : IrType)
      (ownershipGet : OwnershipOp)
  | objectLength (obj : Operand)
  | objectSize (obj : Operand)
  | objectGetTag (obj : Operand)
  | cast (src : Operand) (toTy : IrType) (ownership : OwnershipOp)
  | move (src : Operand)
  | addrFn (fn : String)
deriving DecidableEq, Repr

inductive StatementNode where
  | assign (dst : Var) (rvalue : RvalueNode)
  | objectSet (obj : Var) (projection : Projection) (value : Operand) (valueTy : IrType)
      (ownershipSet : OwnershipOp)
  | objectCreate (dst : Var) (length : Operand)
  | call (dst : Var) (target : CallTarget) (args : List Arg)
  | storeGlobal (global : String) (value : Operand) (ownershipStore : OwnershipOp)
  | release (obj : Var)
  | gcCycle
  | nop
deriving DecidableEq, Repr

structure Statement where
  id : Id
  node : StatementNode
deriving DecidableEq, Repr

structure Block where
  id : Id
  statements : List Statement
  terminator : TerminatorNode
deriving DecidableEq, Repr

structure FunctionOir where
  params : List Var
  locals : List Var
  entryBlock : Id
  blocks : List Block
deriving DecidableEq, Repr

end Syli.Compiler
