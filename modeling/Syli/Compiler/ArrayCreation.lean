import Syli.Compiler.LowerOirToRir
import Syli.Runtime.HeaderLayout

/-! How `lower_core_to_cir.ml`, `lower_oir_to_rir.ml` and `object.h` create an array and fill it. -/
namespace Syli.Compiler

open Syli.Runtime

/-- The variables of an array allocation. -/
inductive ArrayVar where
  | size | arr | i | cond | v | next
deriving DecidableEq

inductive ArrayOperand where
  | var (x : ArrayVar)
  | int (k : BitVec 64)

inductive ArrayStatement where
  | objectCreate (dst : ArrayVar) (length : ArrayOperand)
  | move (dst : ArrayVar) (src : ArrayOperand)
  | lt (dst : ArrayVar) (lhs rhs : ArrayOperand)
  | add (dst : ArrayVar) (lhs rhs : ArrayOperand)
  | callInit (dst : ArrayVar) (arg : ArrayOperand)
  | objectSet (obj : ArrayVar) (index value : ArrayOperand)

inductive ArrayLabel where
  | entry | header | body | exit

inductive ArrayTerminator where
  | goto (target : ArrayLabel)
  | condBr (test : ArrayVar) (thenBlock elseBlock : ArrayLabel)
  | leave

abbrev ArrayCode := ArrayLabel → List ArrayStatement × ArrayTerminator

/-- `CExp_ArrayAlloc`, after its size and its closure. -/
def lowerArrayAlloc : ArrayCode
  | .entry => ([.objectCreate .arr (.var .size), .move .i (.int 0)], .goto .header)
  | .header => ([.lt .cond (.var .i) (.var .size)], .condBr .cond .body .exit)
  | .body =>
    ([.callInit .v (.var .i), .objectSet .arr (.var .i) (.var .v), .add .next (.var .i) (.int 1),
      .move .i (.var .next)], .goto .header)
  | .exit => ([], .leave)

/-- `CExp_ArrayLit`, where the elements have the given values. -/
def lowerArrayLit (elements : List (BitVec 64)) : ArrayCode
  | .entry =>
    (.objectCreate .arr (.int (BitVec.ofNat 64 elements.length)) ::
      elements.mapIdx fun i v => .objectSet .arr (.int (BitVec.ofNat 64 i)) (.int v), .goto .exit)
  | _ => ([], .leave)

/-- What `malloc` granted, with the header written into it. -/
structure ArrayBlock where
  header : ObjectHeader
  bytes : Nat

/-- The bytes that `syli_object_alloc` asks for, a `size_t`. -/
def requestBytes (header : ObjectHeader) (length : BitVec 64) : BitVec 64 :=
  16 + (length <<< header.unitShift) + (if header.isCyclicMutable then 1 else 0) * 8

/-- `syli_object_alloc`: none where `malloc` returns a null pointer, through which the header is then
written. -/
def objectAlloc (malloc : BitVec 64 → Bool) (header : ObjectHeader) (length : BitVec 64) :
    Option ArrayBlock :=
  if malloc (requestBytes header length) then
    some ⟨header, (requestBytes header length).toNat⟩
  else none

structure ArrayState where
  env : ArrayVar → BitVec 64
  block : Option ArrayBlock
  /-- The cells in the order in which they are written. -/
  cells : List (BitVec 64 × BitVec 64)

namespace ArrayState

def set (st : ArrayState) (x : ArrayVar) (k : BitVec 64) : ArrayState :=
  { st with env := fun y => if y = x then k else st.env y }

def value (st : ArrayState) : ArrayOperand → BitVec 64
  | .var x => st.env x
  | .int k => k

end ArrayState

/-- What an array creation depends on. -/
structure ArrayContext where
  base : ObjectHeader
  malloc : BitVec 64 → Bool
  init : BitVec 64 → BitVec 64

namespace ArrayContext

variable (ctx : ArrayContext)

/-- `runtime_call_of_array_object_create` adds the length to the header. -/
def execStatement (st : ArrayState) : ArrayStatement → Option ArrayState
  | .objectCreate _ length =>
    (objectAlloc ctx.malloc (ctx.base + st.value length) (st.value length)).map
      fun block => { st with block := some block }
  | .move dst src => some (st.set dst (st.value src))
  | .lt dst lhs rhs => some (st.set dst (if (st.value lhs).slt (st.value rhs) then 1 else 0))
  | .add dst lhs rhs => some (st.set dst (st.value lhs + st.value rhs))
  | .callInit dst arg => some (st.set dst (ctx.init (st.value arg)))
  | .objectSet _ index value =>
    some { st with cells := st.cells ++ [(st.value index, st.value value)] }

def exec (st : ArrayState) : List ArrayStatement → Option ArrayState
  | [] => some st
  | s :: ss => (ctx.execStatement st s).bind fun st => exec st ss

end ArrayContext

inductive ArrayRun where
  | crashed
  | running (label : ArrayLabel) (st : ArrayState)
  | finished (st : ArrayState)

/-- One block. -/
def ArrayContext.step (ctx : ArrayContext) (code : ArrayCode) : ArrayRun → ArrayRun
  | .running label st =>
    match ctx.exec st (code label).1 with
    | none => .crashed
    | some st =>
      match (code label).2 with
      | .goto target => .running target st
      | .condBr test thenBlock elseBlock =>
        .running (if st.env test = 1 then thenBlock else elseBlock) st
      | .leave => .finished st
  | run => run

/-- The arrays of a program: the size of an allocation is a value of its run. -/
inductive ArrayCreation where
  | alloc (size : BitVec 64)
  | literal (elements : List (BitVec 64))

namespace ArrayCreation

def code : ArrayCreation → ArrayCode
  | .alloc _ => lowerArrayAlloc
  | .literal elements => lowerArrayLit elements

def size : ArrayCreation → Int
  | .alloc size => size.toInt
  | .literal elements => elements.length

def length : ArrayCreation → BitVec 64
  | .alloc size => size
  | .literal elements => BitVec.ofNat 64 elements.length

def start (creation : ArrayCreation) : ArrayRun :=
  .running .entry ⟨fun _ => creation.length, none, []⟩

end ArrayCreation

end Syli.Compiler
