import Syli.Runtime.State

/-! `gc_helpers.h`: the candidate registry, deferred freeing, the worklists and the mark bit. -/
namespace Syli.Runtime

variable (s : SyliState) (a : Addr)

def gcCyclicCandidateCount : Nat := s.cyclicCandidates.length

def gcCurrentCyclicMem : Nat := s.gauges.cyclicMemAlloc - s.gauges.cyclicMemDealloc

def gcCurrentCyclicObj : Nat := s.gauges.cyclicObjAlloc - s.gauges.cyclicObjDealloc

def gcRegisterCandidate : Result SyliState := do
  let o ← s.deref a
  if o.cyclicCandidate then return s
  check (o.header.isCyclicMutable = true)
  return (s.setObj a { o with cyclicCandidate := true }).setRegistry (s.cyclicCandidates ++ [a])
    (Function.update s.candidateIndex a s.cyclicCandidates.length)

def gcRemoveCandidateAt (index : Nat) : Result SyliState :=
  match s.cyclicCandidates.getLast? with
  | none => .error .nullDeref
  | some last =>
    if index = s.cyclicCandidates.length - 1 then
      .ok (s.setRegistry s.cyclicCandidates.dropLast s.candidateIndex)
    else do
      check (index < s.cyclicCandidates.length) .nullDeref
      let moved ← s.deref last
      check (moved.header.isCyclicMutable = true)
      return s.setRegistry (s.cyclicCandidates.set index last).dropLast
        (Function.update s.candidateIndex last index)

def gcAccountCyclicFree (o : GCObject) : SyliState :=
  if o.header.isCyclic then s.setGauges (s.gauges.dealloc o.header) else s

def freeReleasedObject : Result SyliState := do
  let o ← s.deref a
  let s ← if o.cyclicCandidate then do
      check (o.header.isCyclicMutable = true)
      gcRemoveCandidateAt s (s.candidateIndex a)
    else pure s
  let o := { o with cyclicCandidate := false }
  if o.tracing then
    return s.setObj a { o with waitingRemove := true }
  (gcAccountCyclicFree (s.setObj a o) o).free a

def gcVectorPopBack {α : Type} : List α → Result (α × List α)
  | [] => .error .emptyVector
  | x :: xs => .ok (x, xs)

def gcTracingWorklistPush (p : ObjPtr) : Result SyliState :=
  match p.ownRef? with
  | none => .ok s
  | some child => do
    let o ← s.deref child
    if o.tracing then return s
    return (s.setObj child { o with tracing := true }).setTracingWorklist
      (child :: s.tracingWorklist)

def gcMarkTagObject (o : GCObject) : GCObject := { o with mark := s.tracingCurrentBitMark }

def gcIsObjectMarkTagged (o : GCObject) : Bool := o.mark == s.tracingCurrentBitMark

def gcReleasingWorklistPush : Result SyliState := do
  let o ← s.deref a
  check (o.refcount = 0)
  let s := if o.header.isCyclicMutable then s.setObj a (gcMarkTagObject s o) else s
  return s.setReleasing s.releasingWorklist (a :: s.releasingWaitlist)

@[simps]
def gcNextMarkingGeneration : SyliState :=
  { s with tracingCurrentBitMark := !s.tracingCurrentBitMark }

end Syli.Runtime
