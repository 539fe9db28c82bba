import Syli.Compiler.GenLlvm

/-! `types.ml` of the LLVM texts: functions of words and pointers, and how they run. -/
namespace Syli.Compiler.Llvm

open GenLlvm

abbrev Word := BitVec 64

inductive Operand where
  | constant (n : Int) (ty : Lltype)
  | reg (name : String) (ty : Lltype)
deriving DecidableEq, Repr

/-- A global of a function type. -/
structure FuncRef where
  name : String
  params : List Lltype
  ret : Lltype
deriving DecidableEq, Repr

inductive IBinop where
  | bitAnd
  | bitOr
  | lShr
deriving DecidableEq, Repr

inductive IcmpCond where
  | eq
  | ne
deriving DecidableEq, Repr

inductive InstrRhs where
  | iBinOp (op : IBinop) (a b : Operand)
  | iCmp (cond : IcmpCond) (a b : Operand)
  | load (ptr : Operand) (ty : Lltype)
  | call (fn : FuncRef) (args : List Operand) (retTy : Lltype)
  | cast (op : CastOp) (src : Operand) (ty : Lltype)
deriving DecidableEq, Repr

structure Instruction where
  dst : String
  ty : Lltype
  rhs : InstrRhs
deriving DecidableEq, Repr

inductive Terminator where
  | ret (value : Option Operand)
  | condBr (cond : Operand) (yes no : String)
deriving DecidableEq, Repr

structure Block where
  label : String
  instructions : List Instruction
  terminator : Terminator
deriving DecidableEq, Repr

structure Func where
  name : String
  retType : Lltype
  params : List (Lltype × String)
  blocks : List Block
deriving DecidableEq, Repr

inductive Value where
  | i1 (b : Bool)
  | i64 (w : Word)
  | ptr (w : Word)
  | void
deriving DecidableEq, Repr

def Value.hasType : Value → Lltype → Bool
  | .i1 _, .i1 => true
  | .i64 _, .i64 => true
  | .ptr _, .ptrAs 1 => true
  | .void, .void => true
  | _, _ => false

namespace Value

@[simp] theorem hasType_i1 (b : Bool) : (i1 b).hasType .i1 = true := rfl

@[simp] theorem hasType_i64 (w : Word) : (i64 w).hasType .i64 = true := rfl

@[simp] theorem hasType_ptr (w : Word) : (ptr w).hasType (.ptrAs 1) = true := rfl

@[simp] theorem hasType_void : void.hasType .void = true := rfl

end Value

/-- What the code outside a function does, and the error of a run that has no rule. -/
structure Machine (ε σ : Type) where
  stuck : ε
  call : String → List Value → σ → Except ε (Value × σ)
  load : Word → σ → Except ε Word

abbrev Registers := String → Option Value

variable {ε σ : Type} (m : Machine ε σ)

namespace Machine

def need {α : Type} : Option α → Except ε α
  | some a => .ok a
  | none => .error m.stuck

def check (p : Bool) : Except ε Unit := if p then .ok () else .error m.stuck

end Machine

def evalOperand (regs : Registers) : Operand → Option Value
  | .constant n .i64 => some (.i64 (BitVec.ofInt 64 n))
  | .constant _ _ => none
  | .reg x ty => (regs x).filter (·.hasType ty)

/-- A shift by the width or more is poison. -/
def evalIBinop : IBinop → Word → Word → Option Word
  | .bitAnd, a, b => some (a &&& b)
  | .bitOr, a, b => some (a ||| b)
  | .lShr, a, b => if b.toNat < 64 then some (a >>> b.toNat) else none

def evalIcmp : IcmpCond → Word → Word → Bool
  | .eq, a, b => a == b
  | .ne, a, b => a != b

def evalCast : CastOp → Value → Option Value
  | .ptrToInt, .ptr w => some (.i64 w)
  | .intToPtr, .i64 w => some (.ptr w)
  | _, _ => none

def evalRhs (regs : Registers) (s : σ) : InstrRhs → Except ε (Value × σ)
  | .iBinOp op a b =>
    match evalOperand regs a, evalOperand regs b with
    | some (.i64 x), some (.i64 y) => do return (.i64 (← m.need (evalIBinop op x y)), s)
    | _, _ => .error m.stuck
  | .iCmp cond a b =>
    match evalOperand regs a, evalOperand regs b with
    | some (.i64 x), some (.i64 y) => .ok (.i1 (evalIcmp cond x y), s)
    | _, _ => .error m.stuck
  | .load ptr ty =>
    match evalOperand regs ptr, ty with
    | some (.ptr w), .i64 => do return (.i64 (← m.load w s), s)
    | _, _ => .error m.stuck
  | .call fn args retTy => do
    m.check (decide (fn.ret = retTy))
    let values ← m.need (args.mapM (evalOperand regs))
    m.check (decide (values.length = fn.params.length) &&
      (values.zip fn.params).all fun (v, ty) => v.hasType ty)
    m.call fn.name values s
  | .cast op src _ => do
    let v ← m.need (evalOperand regs src)
    return (← m.need (evalCast op v), s)

def execInstruction (i : Instruction) (regs : Registers) (s : σ) : Except ε (Registers × σ) := do
  let (v, s) ← evalRhs m regs s i.rhs
  m.check (v.hasType i.ty)
  return (Function.update regs i.dst (some v), s)

def execInstructions : List Instruction → Registers → σ → Except ε (Registers × σ)
  | [], regs, s => .ok (regs, s)
  | i :: is, regs, s => do
    let (regs, s) ← execInstruction m i regs s
    execInstructions is regs s

def evalRet (regs : Registers) : Option Operand → Except ε Value
  | none => .ok .void
  | some x => m.need (evalOperand regs x)

/-- The fuel bounds the number of blocks that run. -/
def runBlock (blocks : List Block) : Nat → Block → Registers → σ → Except ε (Value × σ)
  | 0, _, _, _ => .error m.stuck
  | fuel + 1, b, regs, s => do
    let (regs, s) ← execInstructions m b.instructions regs s
    match b.terminator with
    | .ret x => return (← evalRet m regs x, s)
    | .condBr cond yes no =>
      match evalOperand regs cond with
      | some (.i1 taken) =>
        let target ← m.need (blocks.find? fun b => b.label == if taken then yes else no)
        runBlock blocks fuel target regs s
      | _ => .error m.stuck

def bindParams : List (Lltype × String) → List Value → Option Registers
  | [], [] => some fun _ => none
  | (ty, x) :: ps, v :: vs =>
    if v.hasType ty then (bindParams ps vs).map fun regs => Function.update regs x (some v)
    else none
  | _, _ => none

def callFunc (fuel : Nat) (f : Func) (args : List Value) (s : σ) : Except ε (Value × σ) := do
  let regs ← m.need (bindParams f.params args)
  let entry ← m.need f.blocks.head?
  let (v, s) ← runBlock m f.blocks fuel entry regs s
  m.check (v.hasType f.retType)
  return (v, s)

end Syli.Compiler.Llvm

