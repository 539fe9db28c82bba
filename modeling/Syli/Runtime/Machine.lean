import Syli.Runtime.Tracing

/-! The mutator and the collector as one machine. Between two calls of `syli_rt_gc_cycle` the
mutator moves; inside a call the machine takes the iterations of the two collector loops. The
counts of the machine are natural numbers. -/
namespace Syli.Runtime

inductive Control where
  | mutator
  | releasing
  | tracing
deriving DecidableEq, Repr

/-- `locals` are the owned references of the mutator, one entry for each count it holds. The old
value of a global is overwritten without a release; `leaked` remembers those counts. -/
structure Machine where
  rt : SyliState
  locals : List Addr := []
  globals : List ObjPtr := []
  leaked : List Addr := []
  control : Control := .mutator

/-- An operand that names an object is the own reference or a borrow of it. -/
inductive Operand where
  | own
  | borrow
deriving DecidableEq, Repr

def Operand.ptr : Operand → Addr → ObjPtr
  | own, a => .own a
  | borrow, a => .borrow a

inductive Action where
  | alloc (header : ObjectHeader)
  | load (x : Addr) (slot : Nat)
  | share (x : Addr)
  | drop (x : Addr)
  | store (operand : Operand) (x : Addr) (slot : Nat) (y : Addr)
  | notify (operand : Operand) (x y : Addr)
  | storeGlobal (global : Nat) (y : Addr)
  | gcCycle (tracingBudget releasingBudget checkingBudget : Int)
  | gcReleasing
  | gcTracing (roots : List ObjPtr)
deriving DecidableEq, Repr

namespace Machine

variable (m : Machine)

def init (env : Env) (globals : Nat) : Machine :=
  { rt := syliStateInit env, globals := List.replicate globals .null }

def globalRefs : List Addr := m.globals.filterMap ObjPtr.ownRef?

/-- The references the mutator can name: its locals and the current values of the globals. -/
def held : List Addr := m.locals ++ m.globalRefs

/-- The object that a slot refers to. -/
def loaded (x : Addr) (slot : Nat) : Option Addr :=
  (m.rt.heap x).bind fun o => (o.value.getD slot .null).ownRef?

/-- Every count outside the heap. -/
def claims : List Addr := m.held ++ m.leaked

/-- Writes `y` over the slot and releases what it held, as the compiled field update does. -/
def storeField (s : SyliState) (operand : Operand) (x slot y : Addr) : Result SyliState := do
  let o ← s.deref x
  check (slot ∈ o.header.refSlots ∧ slot < o.value.length) .illegal
  let s ← syliRtOwnershipRelease naturalCounts s (o.value.getD slot .null)
  let o ← s.deref x
  let s := s.setObj x { o with value := o.value.set slot (.own y) }
  syliRtOwnershipNotifyMutation s (operand.ptr x) (.own y)

def loadField (s : SyliState) (x slot : Addr) : Result (Addr × SyliState) := do
  let o ← s.deref x
  check (slot ∈ o.header.refSlots) .illegal
  match (o.value.getD slot .null).ownRef? with
  | none => .error .illegal
  | some c => do
    let s ← syliRtObjectIncr naturalCounts s c
    return (c, s)

/-- The roots are exactly the owned references of the mutator, among other stackmap values. -/
def RootsExact (roots : List ObjPtr) : Prop :=
  (∀ a ∈ roots.filterMap ObjPtr.ownRef?, a ∈ m.locals) ∧ ∀ a ∈ m.locals, ObjPtr.own a ∈ roots

instance (roots : List ObjPtr) : Decidable (m.RootsExact roots) :=
  inferInstanceAs (Decidable (_ ∧ _))

def mutatorStep : Action → Result Machine
  | .alloc header => do
    check header.WellFormed .illegal
    let (a, s) ← syliRtOwnershipAllocObject m.rt header 1 header.objectLength
    return { m with rt := s, locals := a :: m.locals }
  | .load x slot => do
    check (x ∈ m.held) .illegal
    let (c, s) ← loadField m.rt x slot
    return { m with rt := s, locals := c :: m.locals }
  | .share x => do
    check (x ∈ m.held) .illegal
    let s ← syliRtObjectIncr naturalCounts m.rt x
    return { m with rt := s, locals := x :: m.locals }
  | .drop x => do
    check (x ∈ m.locals) .illegal
    let s ← syliRtOwnershipDecr naturalCounts m.rt (.own x)
    return { m with rt := s, locals := m.locals.erase x }
  | .store operand x slot y => do
    check (x ∈ m.held ∧ y ∈ m.locals) .illegal
    let s ← storeField m.rt operand x slot y
    return { m with rt := s, locals := m.locals.erase y }
  | .notify operand x y => do
    check (x ∈ m.held ∧ y ∈ m.held) .illegal
    let s ← syliRtOwnershipNotifyMutation m.rt (operand.ptr x) (.own y)
    return { m with rt := s }
  | .storeGlobal g y => do
    check (y ∈ m.locals ∧ g < m.globals.length) .illegal
    -- the inserted notification loads the global, which by then holds the stored value
    let s ← syliRtOwnershipNotifyMutation m.rt (.own y) (.own y)
    return { m with
      rt := s
      locals := m.locals.erase y
      globals := m.globals.set g (.own y)
      leaked := (m.globals.getD g .null).ownRef?.toList ++ m.leaked }
  | .gcCycle tracing releasing checking =>
    .ok { m with
      rt := m.rt.setBudgets
        { tracing := tracing, releasing := releasing, checking := checking }
      control := .releasing }
  | .gcReleasing | .gcTracing _ => .error .illegal

def step (m : Machine) (a : Action) : Result Machine :=
  match m.control, a with
  | .mutator, a => m.mutatorStep a
  | .releasing, .gcReleasing => do
    match ← syliStateGcReleasing m.rt with
    | some s => return { m with rt := s }
    | none => return { m with control := .tracing }
  | .tracing, .gcTracing roots => do
    check (m.RootsExact roots) .illegal
    match ← syliStateGcTracing m.rt roots with
    | some s => return { m with rt := s }
    | none => return { m with control := .mutator }
  | _, _ => .error .illegal

end Machine

/-- A chain `1 → 2` and a second root `3`: the trace stops after `3`, before `1` is scanned. -/
def chainTrace : List Action :=
  [.alloc (mutableCell 1), .alloc (mutableCell 1), .alloc (mutableCell 1), .alloc (mutableCell 1),
    .store .own 2 0 4, .store .own 1 0 2, .share 3, .gcCycle 1 0 1, .gcReleasing,
    .gcTracing [.own 1, .own 3], .gcTracing [.own 1, .own 3], .gcTracing [.own 1, .own 3]]

end Syli.Runtime
