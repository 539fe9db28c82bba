import Mathlib
import Syli.Compiler.GenClosureHelpers

/-! Runs of the generated functions on a memory of closure objects. -/
namespace Syli.Compiler.GenClosure

inductive Val where
  | word (w : BitVec 64)
  | ref (a : Nat)
  | code (fn : String)
deriving DecidableEq, Repr

structure Mem where
  objects : Nat → Option (List Val) := fun _ => none
  next : Nat := 0

namespace Mem

def set (m : Mem) (a : Nat) (fields : List Val) : Mem :=
  { m with objects := Function.update m.objects a (some fields) }

/-- A new object of null fields. -/
def alloc (m : Mem) (n : Nat) : Mem :=
  { objects := Function.update m.objects m.next (some (List.replicate n (.word 0)))
    next := m.next + 1 }

end Mem

abbrev Env := Id → Option Val

/-- The generated functions, and what they rely on: the literals, the casts and the functions of
the program. -/
structure World where
  functions : String → Option FunctionOir
  literal : Constant → Option Val
  literal_int : ∀ n : Int, literal (.intLit (toString n)) = some (.word (BitVec.ofInt 64 n))
  cast : IrType → IrType → Val → Val
  external : String → List Val → Mem → Option (Val × Mem)

variable (w : World)

section Exec

def evalOperand (env : Env) : Operand → Option Val
  | .var v => env v.id
  | .constant c _ => w.literal c

def operandTy : Operand → IrType
  | .var v => v.ty
  | .constant _ ty => ty

def addWords : Val → Val → Option Val
  | .word a, .word b => some (.word (a + b))
  | _, _ => none

def fieldOf (mem : Mem) (i : Nat) : Val → Option Val
  | .ref a => (mem.objects a).bind fun fields => fields[i]?
  | _ => none

/-- The rvalues that closures are made of. -/
def evalRvalue (env : Env) (mem : Mem) : RvalueNode → Option Val
  | .objectGet obj (.field i) _ _ => (evalOperand w env obj).bind (fieldOf mem i)
  | .binOp .add lhs rhs => do addWords (← evalOperand w env lhs) (← evalOperand w env rhs)
  | .cast src toTy _ => (evalOperand w env src).map (w.cast (operandTy src) toTy)
  | .move src => evalOperand w env src
  | .addrFn fn => some (.code fn)
  | _ => none

def targetOf (env : Env) : CallTarget → Option String
  | .direct fn => some fn
  | .directFnPtr ptr =>
    match env ptr.id with
    | some (.code fn) => some fn
    | _ => none

def setField (mem : Mem) (i : Nat) (v : Val) : Val → Option Mem
  | .ref a => (mem.objects a).bind fun fields =>
    if i < fields.length then some (mem.set a (fields.set i v)) else none
  | _ => none

def create (mem : Mem) : Val → Option (Val × Mem)
  | .word n => some (.ref mem.next, mem.alloc n.toNat)
  | _ => none

/-- The statements that closures are made of. -/
def exec (call : String → List Val → Mem → Option (Val × Mem)) (r : Env × Mem) (s : Statement) :
    Option (Env × Mem) :=
  match s.node with
  | .assign dst rvalue => do
    return (Function.update r.1 dst.id (← evalRvalue w r.1 r.2 rvalue), r.2)
  | .objectSet obj (.field i) value _ _ => do
    return (r.1, ← setField r.2 i (← evalOperand w r.1 value) (← r.1 obj.id))
  | .objectCreate dst length => do
    let (v, mem) ← create r.2 (← evalOperand w r.1 length)
    return (Function.update r.1 dst.id v, mem)
  | .call dst target args => do
    let values ← args.mapM fun a => evalOperand w r.1 a.operand
    let (v, mem) ← call (← targetOf r.1 target) values r.2
    return (Function.update r.1 dst.id v, mem)
  | .gcCycle | .nop => some r
  | _ => none

def execAll (call : String → List Val → Mem → Option (Val × Mem)) (l : List Statement)
    (r : Env × Mem) : Option (Env × Mem) :=
  l.foldlM (exec w call) r

def wordOf : Val → Option (BitVec 64)
  | .word n => some n
  | _ => none

def nextBlock (env : Env) : TerminatorNode → Option Id
  | .goto target => some target
  | .switch scrutinee cases defaultBlock => do
    let n ← (env scrutinee.id).bind wordOf
    ((cases.find? fun c => BitVec.ofInt 64 c.1 == n).map Prod.snd).or defaultBlock
  | _ => none

/-- The generated functions do not loop: `n` bounds the blocks that run. -/
def runBlocks (call : String → List Val → Mem → Option (Val × Mem)) (f : FunctionOir) :
    Nat → Id → Env × Mem → Option (Val × Mem)
  | 0, _, _ => none
  | n + 1, id, r => do
    let b ← f.blocks.find? (·.id == id)
    let r ← execAll w call b.statements r
    match b.terminator with
    | .ret (some op) _ => return (← evalOperand w r.1 op, r.2)
    | t => runBlocks call f n (← nextBlock r.1 t) r

def bindParams : List Var → List Val → Env → Option Env
  | [], [], env => some env
  | p :: ps, v :: vs, env => bindParams ps vs (Function.update env p.id v)
  | _, _, _ => none

def callFunction : Nat → String → List Val → Mem → Option (Val × Mem)
  | 0, _, _, _ => none
  | fuel + 1, fn, args, mem =>
    match w.functions fn with
    | none => w.external fn args mem
    | some f => do
      let env ← bindParams f.params args fun _ => none
      runBlocks w (callFunction fuel) f f.blocks.length f.entryBlock (env, mem)

end Exec

end Syli.Compiler.GenClosure
