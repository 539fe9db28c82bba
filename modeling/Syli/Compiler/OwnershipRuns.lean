import Syli.Compiler.PassOwnership
import Syli.Foundation.Runs

/-! The meaning of the ownership markers: which variable holds which owned count along a path. -/
namespace Syli.Compiler

open Foundation

/-- What a variable of reference type holds: an owned count, a view that relies on a count, or a
reference that is never counted. -/
inductive Ref where
  | own (count : Nat)
  | view (count : Nat)
  | eternal
deriving DecidableEq, Repr

inductive OwnFault where
  | undefined
  | readAfterGiveUp
  | givenUpTwice
  | illegal
deriving DecidableEq, Repr

/-- `counts` are the owned counts that were not given up yet. -/
structure OwnState where
  env : Id → Option Ref := fun _ => none
  counts : Finset Nat := ∅
  next : Nat := 0

abbrev OwnResult := Except OwnFault

namespace OwnState

variable (st : OwnState)

def readVar (v : Var) : OwnResult Unit :=
  if isRefTy v.ty then
    match st.env v.id with
    | none => .error .undefined
    | some (.own t) | some (.view t) => if t ∈ st.counts then .ok () else .error .readAfterGiveUp
    | some .eternal => .ok ()
  else .ok ()

def read : Operand → OwnResult Unit
  | .var v => st.readVar v
  | .constant _ _ => .ok ()

def readProjection : Projection → OwnResult Unit
  | .array index => st.read index
  | .field _ | .variant _ _ => .ok ()

/-- A view and an eternal reference have no count to give up. -/
def giveUp (v : Id) : OwnResult OwnState :=
  match st.env v with
  | none => .error .undefined
  | some (.own t) =>
    if t ∈ st.counts then .ok { st with counts := st.counts.erase t } else .error .givenUpTwice
  | some (.view _) | some .eternal => .ok st

def define (dst : Var) (r : Ref) : OwnState :=
  if isRefTy dst.ty then { st with env := Function.update st.env dst.id (some r) } else st

/-- The destination owns a new count. -/
def defineOwn (dst : Var) : OwnState :=
  if isRefTy dst.ty then
    { env := Function.update st.env dst.id (some (.own st.next))
      counts := insert st.next st.counts
      next := st.next + 1 }
  else st

/-- A borrowed read of an object relies on the count of the object. -/
def viewOf : Operand → Ref
  | .var v =>
    match st.env v.id with
    | some (.own t) | some (.view t) => .view t
    | _ => .eternal
  | .constant _ _ => .eternal

/-- An operand handed to a callee, a field, a global, a carrier word or the caller: `transfer` and
`own` give up the count of an owned reference, the other markers leave it where it is. -/
def hand (marker : OwnershipOp) (op : Operand) : OwnResult OwnState :=
  match marker, op with
  | .transfer, .var v | .own, .var v => if isRefTy v.ty then st.giveUp v.id else .ok st
  | _, _ => do
    st.read op
    return st

/-- A move gives the count of the source up for a count of the destination. -/
def move (dst v : Var) : OwnResult OwnState :=
  match st.env v.id with
  | some (.own _) => do
    let st ← st.giveUp v.id
    return st.defineOwn dst
  | some r => do
    st.readVar v
    return st.define dst r
  | none => .error .undefined

def assign (dst : Var) : RvalueNode → OwnResult OwnState
  | .binOp _ lhs rhs => do
    st.read lhs
    st.read rhs
    return st.define dst .eternal
  | .unOp _ op | .objectLength op | .objectSize op | .objectGetTag op => do
    st.read op
    return st.define dst .eternal
  | .objectGet obj projection _ marker => do
    st.read obj
    st.readProjection projection
    match marker with
    | .share | .transfer | .own => return st.defineOwn dst
    | _ => return st.define dst (st.viewOf obj)
  | .cast (.var v) _ marker =>
    if isRefTy v.ty then
      if isRefTy dst.ty then do
        st.readVar v
        return st.define dst ((st.env v.id).getD .eternal)
      else st.hand marker (.var v)
    else .ok (st.defineOwn dst)
  | .move (.var v) => if isRefTy v.ty then st.move dst v else .ok (st.define dst .eternal)
  | .cast (.constant _ _) _ _ | .move (.constant _ _) | .addrFn _ => .ok (st.define dst .eternal)

def exec (s : Statement) : OwnResult OwnState :=
  match s.node with
  | .assign dst rvalue => st.assign dst rvalue
  | .objectSet obj projection value _ marker => do
    st.readVar obj
    st.readProjection projection
    st.hand marker value
  | .objectCreate dst length => do
    st.read length
    return st.defineOwn dst
  | .call dst target args => do
    match target with
    | .directFnPtr ptr => st.readVar ptr
    | .direct _ => .ok ()
    let st ← args.foldlM (fun st a => st.hand a.ownershipArg a.operand) st
    return st.defineOwn dst
  | .storeGlobal _ value marker => st.hand marker value
  | .release obj => st.giveUp obj.id
  | .gcCycle | .nop => .ok st

def execAll (l : List Statement) : OwnResult OwnState := l.foldlM exec st

def readTerminator : TerminatorNode → OwnResult Unit
  | .condBr cond _ _ => st.readVar cond
  | .switch scrutinee _ _ => st.readVar scrutinee
  | _ => .ok ()

end OwnState

/-- A path through a function: the block to execute next, none after the return. -/
structure OwnConfig where
  block : Option Id
  st : OwnState

/-- The end of a block: the path goes to the block `next`, or returns. -/
def leave (b : Block) (st : OwnState) (next : Option Id) : OwnResult OwnConfig :=
  match b.terminator, next with
  | .ret (some op) marker, none => do
    let st ← st.hand marker op
    return { block := none, st := st }
  | .ret none _, none => return { block := none, st := st }
  | t, some sid => do
    st.readTerminator t
    if sid ∈ successors b then return { block := some sid, st := st } else .error .illegal
  | _, none => .error .illegal

namespace FunctionOir

variable (fn : FunctionOir)

/-- The parameters of reference type come with owned counts. -/
def start : OwnConfig :=
  { block := some fn.entryBlock, st := fn.params.foldl OwnState.defineOwn {} }

def ownStep (c : OwnConfig) (next : Option Id) : OwnResult OwnConfig :=
  match c.block.bind (buildBlockMap fn.blocks).findOpt with
  | none => .error .illegal
  | some b => do
    let st ← c.st.execAll b.statements
    leave b st next

end FunctionOir

end Syli.Compiler
