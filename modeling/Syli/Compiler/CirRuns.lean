import Syli.Compiler.Monomorphized

/-! The runs of the functions of a module, as far as calls and jumps go: types are erased, and what the
other statements do to the variables and to the memory is a parameter. -/
namespace Syli.Compiler.Mono

open Foundation

variable {V M : Type}

/-- What a run takes from outside. The code of a value is the function behind a closure or a function
pointer, with its arguments. -/
structure Primitives (V M : Type) where
  unset : V
  constant : Constant → V
  truth : V → Bool
  number : V → Int
  statement : Statement Unit → (Id → V) → M → (Id → V) → M → Prop
  code : V → List V → M → Option (String × List V)
  external : String → List V → M → V → M → Prop

/-- The functions by their names; `dispatch` says which functions may run for the one that a closure
names. -/
structure Program where
  lookup : String → Option (Function Unit)
  externals : List String
  dispatch : String → String → Prop

structure Frame (V : Type) where
  fn : Function Unit
  rest : List (Statement Unit)
  terminator : TerminatorNode Unit
  env : Id → V

/-- A caller waits with the variable for the result. -/
structure State (V M : Type) where
  frame : Frame V
  callers : List (Frame V × Id)
  memory : M

namespace Primitives

variable (p : Primitives V M)

def eval (env : Id → V) : Operand Unit → V
  | .constant c _ => p.constant c
  | .var v => env v.id

def nextBlock (env : Id → V) : TerminatorNode Unit → Option Id
  | .goto target => some target
  | .switch scrutinee cases defaultBlock =>
    ((cases.find? fun c => c.1 == p.number (env scrutinee.id)).map Prod.snd).or defaultBlock
  | .condBr cond thenBlock elseBlock =>
    some (if p.truth (env cond.id) then thenBlock else elseBlock)
  | .ret _ | .matchFailure => none

def result (env : Id → V) (operand : Option (Operand Unit)) : V :=
  (operand.map (p.eval env)).getD p.unset

def bindParams (params : List (Var Unit)) (args : List V) : Id → V :=
  (params.zip args).foldl (fun env x => Function.update env x.1.id x.2) fun _ => p.unset

end Primitives

/-- The start of a block. -/
def frameAt (fn : Function Unit) (id : Id) (env : Id → V) : Option (Frame V) :=
  ((buildBlockMap fn.blocks).findOpt id).map fun b => ⟨fn, b.statements, b.terminator.node, env⟩

section Steps

variable (p : Primitives V M) (P : Program)

/-- The function that a call runs, and its arguments. -/
inductive Calls (env : Id → V) (mem : M) : CallTarget Unit → List V → String → List V → Prop where
  | direct (n : String) (args : List V) : Calls env mem (.direct n) args n args
  | directFnPtr (ptr : Var Unit) {args args' : List V} {n m : String} :
      p.code (env ptr.id) args mem = some (n, args') → P.dispatch n m →
      Calls env mem (.directFnPtr ptr) args m args'
  | apply (closure : Var Unit) {args args' : List V} {n m : String} :
      p.code (env closure.id) args mem = some (n, args') → P.dispatch n m →
      Calls env mem (.apply closure) args m args'

inductive Step : State V M → State V M → Prop where
  | statement {fr : Frame V} {s : Statement Unit} {rest : List (Statement Unit)} {env' : Id → V}
      {callers : List (Frame V × Id)} {mem mem' : M} : fr.rest = s :: rest →
      (∀ dst target args, s.node ≠ .call dst target args) →
      p.statement s fr.env mem env' mem' →
      Step ⟨fr, callers, mem⟩ ⟨{ fr with rest := rest, env := env' }, callers, mem'⟩
  | call {fr callee : Frame V} {id : Id} {dst : Var Unit} {target : CallTarget Unit}
      {args : List (Operand Unit)} {ty : Unit} {rest : List (Statement Unit)}
      {callers : List (Frame V × Id)} {mem : M} {n : String} {vs : List V} {fn : Function Unit} :
      fr.rest = ⟨id, .call dst target args, ty⟩ :: rest →
      Calls p P fr.env mem target (args.map (p.eval fr.env)) n vs → P.lookup n = some fn →
      frameAt fn fn.entryBlock (p.bindParams fn.params vs) = some callee →
      Step ⟨fr, callers, mem⟩ ⟨callee, ({ fr with rest := rest }, dst.id) :: callers, mem⟩
  | external {fr : Frame V} {id : Id} {dst : Var Unit} {target : CallTarget Unit}
      {args : List (Operand Unit)} {ty : Unit} {rest : List (Statement Unit)}
      {callers : List (Frame V × Id)} {mem mem' : M} {n : String} {vs : List V} {v : V} :
      fr.rest = ⟨id, .call dst target args, ty⟩ :: rest →
      Calls p P fr.env mem target (args.map (p.eval fr.env)) n vs → n ∈ P.externals →
      p.external n vs mem v mem' →
      Step ⟨fr, callers, mem⟩
        ⟨{ fr with rest := rest, env := Function.update fr.env dst.id v }, callers, mem'⟩
  | jump {fr fr' : Frame V} {id : Id} {callers : List (Frame V × Id)} {mem : M} : fr.rest = [] →
      p.nextBlock fr.env fr.terminator = some id → frameAt fr.fn id fr.env = some fr' →
      Step ⟨fr, callers, mem⟩ ⟨fr', callers, mem⟩
  | ret {fr caller : Frame V} {operand : Option (Operand Unit)} {dst : Id}
      {callers : List (Frame V × Id)} {mem : M} : fr.rest = [] → fr.terminator = .ret operand →
      Step ⟨fr, (caller, dst) :: callers, mem⟩
        ⟨{ caller with env := Function.update caller.env dst (p.result fr.env operand) }, callers,
          mem⟩

/-- The next statement is a call for which the program has no function. -/
def Missing (s : State V M) : Prop :=
  ∃ id dst target args ty rest, s.frame.rest = ⟨id, .call dst target args, ty⟩ :: rest ∧
    ∀ n vs, Calls p P s.frame.env s.memory target (args.map (p.eval s.frame.env)) n vs →
      P.lookup n = none ∧ n ∉ P.externals

end Steps

/-- The first state of a call from outside. -/
def start (p : Primitives V M) (P : Program) (n : String) (args : List V) (mem : M) :
    Option (State V M) :=
  (P.lookup n).bind fun fn =>
    (frameAt fn fn.entryBlock (p.bindParams fn.params args)).map fun fr => ⟨fr, [], mem⟩

/-- A module with its own functions behind its closures, or with those that `dispatch` picks. -/
def programOf (mod : Module) (dispatch : String → String → Prop) : Program where
  lookup n := (mod.functions.find? (·.name == n)).map erase
  externals := mod.ffiExternalFunctions.map (·.syliName)
  dispatch := dispatch

end Syli.Compiler.Mono
