import Syli.Compiler.CirTypes
import Syli.Compiler.TypeLowering

/-! `cir.ml`: the modules of the closure intermediate representation. The statements stand over the
type `T` of their annotations, and the ids of types are left out. -/
namespace Syli.Compiler.Mono

mutual

inductive Ty where
  | bool
  | i64
  | i32
  | i16
  | i8
  | u64
  | u32
  | u16
  | u8
  | f32
  | f64
  | fnPtr
  | obj (named : Option String) (objKind : ObjKind) (cyclicProp : CyclicProp)
  | objPtr
  | char
  | string
  | void
  | genericTyp (typeVar : Nat)
  | arrow (args : List Ty) (ret : Ty)

inductive ObjKind where
  | record (fields : List RecordFieldTy)
  | array (elementTy : Ty)
  | variant (constructors : List VariantCtorLayout)

inductive RecordFieldTy where
  | mk (fieldIdx : Nat) (fieldTy : Ty) (fieldMut : MutFlag)

inductive VariantCtorLayout where
  | mk (tag : Nat) (fields : List RecordFieldTy)

end

structure Var (T : Type) where
  id : Id
  name : String
  ty : T

inductive Operand (T : Type) where
  | constant (c : Constant) (ty : T)
  | var (v : Var T)

inductive CallTarget (T : Type) where
  | direct (name : String)
  | directFnPtr (ptr : Var T)
  | apply (closure : Var T)

inductive Projection (T : Type) where
  | field (fieldIdx : Nat)
  | array (index : Operand T)
  | variant (tag fieldIdx : Nat)

inductive RvalueNode (T : Type) where
  | binOp (op : Binop) (lhs rhs : Operand T)
  | unOp (op : Unop) (operand : Operand T)
  | objectGet (obj : Operand T) (projection : Projection T) (valueTy : T)
  | objectLength (obj : Operand T)
  | objectSize (obj : Operand T)
  | objectGetTag (obj : Operand T)
  | cast (src : Operand T) (toTy : T)
  | move (src : Operand T)
  | addrFn (fn : String)

structure Rvalue (T : Type) where
  id : Id
  node : RvalueNode T
  ty : T

inductive StatementNode (T : Type) where
  | assign (dst : Var T) (rvalue : Rvalue T)
  | objectSet (obj : Var T) (projection : Projection T) (value : Operand T) (valueTy : T)
  | objectCreate (dst : Var T) (length : Operand T)
  | call (dst : Var T) (target : CallTarget T) (args : List (Operand T))
  | makeClosure (dst : Var T) (freeVars : List (Var T)) (capturedArgs : List (Operand T))
      (fn : String)
  | partialApply (dst closure : Var T) (newArgs : List (Operand T))
  | storeGlobal (global : String) (value : Operand T)
  | nop

structure Statement (T : Type) where
  id : Id
  node : StatementNode T
  ty : T

inductive TerminatorNode (T : Type) where
  | goto (target : Id)
  | switch (scrutinee : Var T) (cases : List (Int × Id)) (defaultBlock : Option Id)
  | condBr (cond : Var T) (thenBlock elseBlock : Id)
  | ret (operand : Option (Operand T))
  | matchFailure

structure Terminator (T : Type) where
  id : Id
  node : TerminatorNode T

structure Block (T : Type) where
  id : Id
  labelId : Id
  statements : List (Statement T)
  terminator : Terminator T

inductive Visibility where
  | isPublic
  | isPrivate
deriving DecidableEq, Repr

/-- The entry block is one of the blocks, and stands for its id. -/
structure Function (T : Type) where
  name : String
  params : List (Var T)
  locals : List (Var T)
  entryBlock : Id
  blocks : List (Block T)
  returnTy : T
  visibility : Visibility
  unitParamIndices : List Nat

structure GlobalValue where
  name : String
  ty : Ty

structure FfiExternalFunction where
  syliName : String

structure Module where
  functions : List (Function Ty)
  globalValues : List GlobalValue
  ffiExternalFunctions : List FfiExternalFunction

section Map

variable {S T : Type} (f : S → T)

def Var.map (v : Var S) : Var T := { v with ty := f v.ty }

def Operand.map : Operand S → Operand T
  | .constant c ty => .constant c (f ty)
  | .var v => .var (v.map f)

def CallTarget.map : CallTarget S → CallTarget T
  | .direct name => .direct name
  | .directFnPtr ptr => .directFnPtr (ptr.map f)
  | .apply closure => .apply (closure.map f)

def Projection.map : Projection S → Projection T
  | .field fieldIdx => .field fieldIdx
  | .array index => .array (index.map f)
  | .variant tag fieldIdx => .variant tag fieldIdx

def RvalueNode.map : RvalueNode S → RvalueNode T
  | .binOp op lhs rhs => .binOp op (lhs.map f) (rhs.map f)
  | .unOp op operand => .unOp op (operand.map f)
  | .objectGet obj projection valueTy => .objectGet (obj.map f) (projection.map f) (f valueTy)
  | .objectLength obj => .objectLength (obj.map f)
  | .objectSize obj => .objectSize (obj.map f)
  | .objectGetTag obj => .objectGetTag (obj.map f)
  | .cast src toTy => .cast (src.map f) (f toTy)
  | .move src => .move (src.map f)
  | .addrFn fn => .addrFn fn

def Rvalue.map (r : Rvalue S) : Rvalue T := ⟨r.id, r.node.map f, f r.ty⟩

def StatementNode.map : StatementNode S → StatementNode T
  | .assign dst rvalue => .assign (dst.map f) (rvalue.map f)
  | .objectSet obj projection value valueTy =>
    .objectSet (obj.map f) (projection.map f) (value.map f) (f valueTy)
  | .objectCreate dst length => .objectCreate (dst.map f) (length.map f)
  | .call dst target args => .call (dst.map f) (target.map f) (args.map (·.map f))
  | .makeClosure dst freeVars capturedArgs fn =>
    .makeClosure (dst.map f) (freeVars.map (·.map f)) (capturedArgs.map (·.map f)) fn
  | .partialApply dst closure newArgs =>
    .partialApply (dst.map f) (closure.map f) (newArgs.map (·.map f))
  | .storeGlobal global value => .storeGlobal global (value.map f)
  | .nop => .nop

def Statement.map (s : Statement S) : Statement T := ⟨s.id, s.node.map f, f s.ty⟩

def TerminatorNode.map : TerminatorNode S → TerminatorNode T
  | .goto target => .goto target
  | .switch scrutinee cases defaultBlock => .switch (scrutinee.map f) cases defaultBlock
  | .condBr cond thenBlock elseBlock => .condBr (cond.map f) thenBlock elseBlock
  | .ret operand => .ret (operand.map (·.map f))
  | .matchFailure => .matchFailure

def Terminator.map (t : Terminator S) : Terminator T := ⟨t.id, t.node.map f⟩

def Block.map (b : Block S) : Block T :=
  ⟨b.id, b.labelId, b.statements.map (·.map f), b.terminator.map f⟩

def Function.map (fn : Function S) : Function T :=
  { name := fn.name
    params := fn.params.map (·.map f)
    locals := fn.locals.map (·.map f)
    entryBlock := fn.entryBlock
    blocks := fn.blocks.map (·.map f)
    returnTy := f fn.returnTy
    visibility := fn.visibility
    unitParamIndices := fn.unitParamIndices }

end Map

section Compose

variable {R S T : Type} (g : S → T) (f : R → S)

@[simp] theorem Var.map_map (v : Var R) : (v.map f).map g = v.map (g ∘ f) := rfl

@[simp] theorem Operand.map_map (o : Operand R) : (o.map f).map g = o.map (g ∘ f) := by
  cases o <;> rfl

@[simp] theorem CallTarget.map_map (t : CallTarget R) : (t.map f).map g = t.map (g ∘ f) := by
  cases t <;> rfl

@[simp] theorem Projection.map_map (p : Projection R) : (p.map f).map g = p.map (g ∘ f) := by
  cases p <;> simp [Projection.map]

@[simp] theorem RvalueNode.map_map (n : RvalueNode R) : (n.map f).map g = n.map (g ∘ f) := by
  cases n <;> simp [RvalueNode.map]

@[simp] theorem Rvalue.map_map (r : Rvalue R) : (r.map f).map g = r.map (g ∘ f) := by
  simp [Rvalue.map]

@[simp] theorem StatementNode.map_map (n : StatementNode R) :
    (n.map f).map g = n.map (g ∘ f) := by
  cases n <;> simp [StatementNode.map]

@[simp] theorem Statement.map_map (s : Statement R) : (s.map f).map g = s.map (g ∘ f) := by
  simp [Statement.map]

@[simp] theorem TerminatorNode.map_map (n : TerminatorNode R) :
    (n.map f).map g = n.map (g ∘ f) := by
  cases n with
  | ret operand => cases operand <;> simp [TerminatorNode.map]
  | goto | switch | condBr | matchFailure => simp [TerminatorNode.map]

@[simp] theorem Terminator.map_map (t : Terminator R) : (t.map f).map g = t.map (g ∘ f) := by
  simp [Terminator.map]

@[simp] theorem Block.map_map (b : Block R) : (b.map f).map g = b.map (g ∘ f) := by
  simp [Block.map]

@[simp] theorem Function.map_map (fn : Function R) : (fn.map f).map g = fn.map (g ∘ f) := by
  simp [Function.map]

end Compose

section Identity

variable {T : Type}

@[simp] theorem Var.map_id (v : Var T) : v.map (fun ty => ty) = v := rfl

@[simp] theorem Operand.map_id (o : Operand T) : o.map (fun ty => ty) = o := by
  cases o <;> rfl

@[simp] theorem CallTarget.map_id (t : CallTarget T) : t.map (fun ty => ty) = t := by
  cases t <;> rfl

@[simp] theorem Projection.map_id (p : Projection T) : p.map (fun ty => ty) = p := by
  cases p <;> simp [Projection.map]

@[simp] theorem RvalueNode.map_id (n : RvalueNode T) : n.map (fun ty => ty) = n := by
  cases n <;> simp [RvalueNode.map]

@[simp] theorem Rvalue.map_id (r : Rvalue T) : r.map (fun ty => ty) = r := by
  simp [Rvalue.map]

@[simp] theorem StatementNode.map_id (n : StatementNode T) : n.map (fun ty => ty) = n := by
  cases n <;> simp [StatementNode.map]

@[simp] theorem Statement.map_id (s : Statement T) : s.map (fun ty => ty) = s := by
  simp [Statement.map]

@[simp] theorem TerminatorNode.map_id (n : TerminatorNode T) : n.map (fun ty => ty) = n := by
  cases n with
  | ret operand => cases operand <;> simp [TerminatorNode.map]
  | goto | switch | condBr | matchFailure => simp [TerminatorNode.map]

@[simp] theorem Terminator.map_id (t : Terminator T) : t.map (fun ty => ty) = t := by
  simp [Terminator.map]

@[simp] theorem Block.map_id (b : Block T) : b.map (fun ty => ty) = b := by
  simp [Block.map]

@[simp] theorem Function.map_id (fn : Function T) : fn.map (fun ty => ty) = fn := by
  simp [Function.map]

end Identity

end Syli.Compiler.Mono
