import Syli.Foundation.Runs
import Syli.Runtime.Header
import Mathlib.Logic.Function.Basic
import Mathlib.Tactic.Simps.Basic

/-! Tagged pointers, heap objects in the local zone and the state of the collector. -/
namespace Syli.Runtime

abbrev Addr := Nat

/-- A word whose two low bits hold the ownership tag. Only an own or a borrow tagged word points
into the heap: an always-borrow word points to an immortal value, and an immediate word holds a
constructor tag. -/
inductive ObjPtr where
  | null
  | borrow (a : Addr)
  | own (a : Addr)
  | alwaysBorrow (n : Nat)
  | immediate (n : Nat)
deriving DecidableEq, Repr

namespace ObjPtr

/-- The object behind an own-tagged word: `syli_ownership_is_own_ref` and the untagging. -/
def ownRef? : ObjPtr → Option Addr
  | own a => some a
  | _ => none

def isImmediate : ObjPtr → Bool
  | immediate _ => true
  | _ => false

@[simp] theorem ownRef?_eq_some {p : ObjPtr} {a : Addr} : p.ownRef? = some a ↔ p = own a := by
  cases p <;> simp [ownRef?]

end ObjPtr

/-- A heap object: the fields of `meta_ref_count` are kept apart. `spareFlags` are its bits 57, 61
and 62, which no function of the runtime names. -/
structure GCObject where
  header : ObjectHeader
  refcount : Nat
  mark : Bool
  cyclicCandidate : Bool := false
  tracing : Bool := false
  waitingRemove : Bool := false
  childrenReleased : Bool := false
  spareFlags : BitVec 3 := 0
  value : List ObjPtr
deriving DecidableEq, Repr

/-- The own-tagged references in the slots that the loops over the fields visit. -/
def GCObject.ownRefs (o : GCObject) : List Addr :=
  o.header.refSlots.filterMap fun i => (o.value.getD i .null).ownRef?

/-- The references an object still counts: none once it waits for removal or has had its children
released. -/
def GCObject.countedRefs (o : GCObject) : List Addr :=
  if o.waitingRemove || o.childrenReleased then [] else o.ownRefs

inductive TracingState where
  | idle
  | tracing
  | mutationPrepare
  | reclaimingCyclicCandidates
deriving DecidableEq, Repr

inductive ReleasingState where
  | idle
  | releasing
deriving DecidableEq, Repr

/-- The thresholds read from the environment. The comparison of the candidates ratio with its
threshold is a comparison of doubles, and is kept as a predicate on the two counts. -/
structure Env where
  thresholdMemCyclicObj : Nat
  candidatesRatioExceeds : Nat → Nat → Bool
  thresholdReleasingBucket : Nat

/-- The thresholds that the tests of the collector set. -/
def testEnv : Env where
  thresholdMemCyclicObj := 0
  candidatesRatioExceeds candidates _ := decide (0 < candidates)
  thresholdReleasingBucket := 1

structure Budgets where
  tracing : Int := 0
  releasing : Int := 0
  checking : Int := 0

/-- The counters of cyclic memory and cyclic objects that trigger a trace. -/
structure Gauges where
  cyclicMemAlloc : Nat := 0
  cyclicMemDealloc : Nat := 0
  cyclicObjAlloc : Nat := 0
  cyclicObjDealloc : Nat := 0
  cyclicObjAllocAtTrace : Nat := 0

/-- Counts the allocation of a cyclic object. -/
def Gauges.alloc (g : Gauges) (header : ObjectHeader) : Gauges :=
  { g with
    cyclicMemAlloc := g.cyclicMemAlloc + header.totalBytes
    cyclicObjAlloc := g.cyclicObjAlloc + 1 }

/-- Counts the freeing of a cyclic object. -/
def Gauges.dealloc (g : Gauges) (header : ObjectHeader) : Gauges :=
  { g with
    cyclicMemDealloc := g.cyclicMemDealloc + header.totalBytes
    cyclicObjDealloc := g.cyclicObjDealloc + 1 }

/-- Worklists are stacks whose head is the back of the vector. They hold own references only,
except for the mutations worklist, whose tags are asserted when an entry is popped. -/
structure SyliState where
  env : Env
  budgets : Budgets := {}
  tracingWorklist : List Addr := []
  tracingMutationsWorklist : List ObjPtr := []
  releasingWorklist : List Addr := []
  releasingWaitlist : List Addr := []
  cyclicCandidates : List Addr := []
  lostCycleWorklist : List Addr := []
  tracingCurrentBitMark : Bool := false
  tracingState : TracingState := .idle
  releasingState : ReleasingState := .idle
  gauges : Gauges := {}
  currentCandidateCheckIndex : Nat := 0
  heap : Addr → Option GCObject := fun _ => none
  /-- The word behind the fields of a mutable cyclic object. -/
  candidateIndex : Addr → Nat := fun _ => 0
  /-- Addresses are handed out in order and never again; null is 0. -/
  next : Addr := 1
  /-- The calls of `free`, latest first. -/
  freed : List Addr := []

inductive Fault where
  | nullDeref
  | useAfterFree
  | doubleFree
  | refcountUnderflow
  | emptyVector
  | assertion
  | illegal
deriving DecidableEq, Repr

abbrev Result := Except Fault

def flagTracing (heap : Addr → Option GCObject) (new : List Addr) (a : Addr) : Option GCObject :=
  if a ∈ new then (heap a).map fun o => { o with tracing := true } else heap a

namespace SyliState

variable (s : SyliState)

def deref (a : Addr) : Result GCObject :=
  match s.heap a with
  | some o => .ok o
  | none => .error .useAfterFree

@[simps]
def setObj (a : Addr) (o : GCObject) : SyliState :=
  { s with heap := Function.update s.heap a (some o) }

@[simps]
def dropObj (a : Addr) : SyliState :=
  { s with heap := Function.update s.heap a none, freed := a :: s.freed }

@[simps]
def setRegistry (candidates : List Addr) (index : Addr → Nat) : SyliState :=
  { s with cyclicCandidates := candidates, candidateIndex := index }

@[simps]
def setGauges (g : Gauges) : SyliState := { s with gauges := g }

@[simps]
def setBudgets (b : Budgets) : SyliState := { s with budgets := b }

@[simps!]
def chargeTracing (n : Int) : SyliState :=
  s.setBudgets { s.budgets with tracing := s.budgets.tracing - n }

@[simps!]
def chargeReleasing (n : Int) : SyliState :=
  s.setBudgets { s.budgets with releasing := s.budgets.releasing - n }

@[simps!]
def chargeChecking (n : Int) : SyliState :=
  s.setBudgets { s.budgets with checking := s.budgets.checking - n }

@[simps]
def setTracingWorklist (l : List Addr) : SyliState := { s with tracingWorklist := l }

@[simps]
def setMutations (l : List ObjPtr) : SyliState := { s with tracingMutationsWorklist := l }

@[simps]
def setReleasing (worklist waitlist : List Addr) : SyliState :=
  { s with releasingWorklist := worklist, releasingWaitlist := waitlist }

@[simps]
def setLostCycleWorklist (l : List Addr) : SyliState := { s with lostCycleWorklist := l }

@[simps]
def setTracingState (t : TracingState) : SyliState := { s with tracingState := t }

@[simps]
def setReleasingState (r : ReleasingState) : SyliState := { s with releasingState := r }

@[simps]
def setCheckIndex (i : Nat) : SyliState := { s with currentCandidateCheckIndex := i }

/-- Flags and queues the objects of `new` for tracing. -/
@[simps]
def queueTracing (new : List Addr) : SyliState :=
  { s with heap := flagTracing s.heap new, tracingWorklist := new ++ s.tracingWorklist }

@[simps]
def bumpNext : SyliState := { s with next := s.next + 1 }

def free (a : Addr) : Result SyliState :=
  match s.heap a with
  | some _ => .ok (s.dropObj a)
  | none => .error .doubleFree

/-- The references whose counts the object at an address still holds. -/
def outRefs (a : Addr) : List Addr :=
  match s.heap a with
  | some o => o.countedRefs
  | none => []

def refcountOf (a : Addr) : Nat :=
  match s.heap a with
  | some o => o.refcount
  | none => 0

end SyliState

/-- A C assertion. -/
def check (p : Prop) [Decidable p] (f : Fault := .assertion) : Result Unit :=
  if p then .ok () else .error f

@[simp] theorem check_eq_ok {p : Prop} [Decidable p] {f : Fault} {u : Unit} :
    check p f = .ok u ↔ p := by
  unfold check
  split <;> simp_all

/-- `syli_state_init` under the given environment. -/
def syliStateInit (env : Env) : SyliState := { env := env }

variable {s s' : SyliState} {a b : Addr} {o o' : GCObject}

@[simp] theorem deref_eq_ok : s.deref a = .ok o ↔ s.heap a = some o := by
  unfold SyliState.deref
  split <;> simp_all

theorem free_eq_ok : s.free a = .ok s' ↔ (∃ o, s.heap a = some o) ∧ s' = s.dropObj a := by
  unfold SyliState.free
  split
  · rename_i o h
    simp [h, eq_comm]
  · rename_i h
    simp [h]

theorem refcountOf_of_heap (h : s.heap a = some o) : s.refcountOf a = o.refcount := by
  simp [SyliState.refcountOf, h]

theorem outRefs_of_heap (h : s.heap a = some o) : s.outRefs a = o.countedRefs := by
  simp [SyliState.outRefs, h]

theorem outRefs_of_none (h : s.heap a = none) : s.outRefs a = [] := by
  simp [SyliState.outRefs, h]

theorem outRefs_congr (h : s'.heap = s.heap) : s'.outRefs = s.outRefs := by
  unfold SyliState.outRefs
  rw [h]

theorem exists_heap_of_refcountOf_pos (h : 0 < s.refcountOf a) : ∃ o, s.heap a = some o := by
  unfold SyliState.refcountOf at h
  split at h
  · exact ⟨_, ‹_›⟩
  · omega

theorem ownRefs_eq_nil (h : o.header.refSlots = []) : o.ownRefs = [] := by
  simp [GCObject.ownRefs, h]

end Syli.Runtime
