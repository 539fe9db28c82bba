import Syli.Runtime.Releasing

/-! `syli_state_gc_tracing.c`: marking, the mutations worklist and the reclaiming of cycles. -/
namespace Syli.Runtime

variable (s : SyliState)

def pushChildren (s : SyliState) (o : GCObject) : Result SyliState :=
  o.ownRefs.foldlM (fun s c => gcTracingWorklistPush s (.own c)) s

def gcOneStepTracing : Result SyliState := do
  let (a, rest) ← gcVectorPopBack s.tracingWorklist
  let o ← s.deref a
  let o := { o with tracing := false }
  let s := (s.setObj a o).setTracingWorklist rest
  if o.waitingRemove then (gcAccountCyclicFree s o).free a
  else if o.refcount = 0 then return s
  else if gcIsObjectMarkTagged s o then return s
  else
    let s := s.setObj a (gcMarkTagObject s o)
    pushChildren (s.chargeTracing o.header.slotBudget) o

/-- The popped target is already marked, so its children are queued here. -/
def gcOneStepPrepareTracingMutations : Result SyliState := do
  let (p, rest) ← gcVectorPopBack s.tracingMutationsWorklist
  match p.ownRef? with
  | none => .error .assertion
  | some a => do
    let s := s.setMutations rest
    let o ← s.deref a
    if o.waitingRemove then s.free a
    else pushChildren (s.chargeTracing o.header.mutationBudget) o

def lostCycleEnqueueFree (a : Addr) : Result SyliState := do
  let o ← s.deref a
  check (o.refcount = 0)
  return s.setLostCycleWorklist (a :: s.lostCycleWorklist)

def lostCycleChildDecr (s : SyliState) (child : Addr) : Result SyliState := do
  let s ← syliObjectDecrLocal s child
  let o ← s.deref child
  if o.refcount = 0 then
    if o.header.hasPointers then lostCycleEnqueueFree s child
    else freeReleasedObject s child
  else return s

def lostCycleReleaseChildren (o : GCObject) : Result SyliState :=
  o.ownRefs.foldlM lostCycleChildDecr (s.chargeChecking o.header.slotBudget)

/-- The guard by `Meta_Flags_Children_Released` that the two reclaiming steps share. -/
def releaseChildrenOnce (a : Addr) : Result SyliState := do
  let o ← s.deref a
  if o.childrenReleased then return s
  lostCycleReleaseChildren (s.setObj a { o with childrenReleased := true }) o

def gcOneStepScan : Result SyliState :=
  match min s.currentCandidateCheckIndex s.cyclicCandidates.length with
  | 0 => .ok (s.setCheckIndex 0)
  | index + 1 =>
    match s.cyclicCandidates[index]? with
    | none => .error .nullDeref
    | some a => do
      let s := s.setCheckIndex index
      let o ← s.deref a
      if gcIsObjectMarkTagged s o then return s
      let s ← releaseChildrenOnce s a
      let o ← s.deref a
      if o.refcount = 0 then lostCycleEnqueueFree s a else return s

def gcOneStepFreeUnreachable : Result SyliState := do
  let (a, rest) ← gcVectorPopBack s.lostCycleWorklist
  let s ← releaseChildrenOnce (s.setLostCycleWorklist rest) a
  freeReleasedObject s a

/-- `collect_frame` pushes the values found at the stackmap locations of the active frames. -/
def syliRtCollectStackRoots (roots : List ObjPtr) : Result SyliState :=
  roots.foldlM gcTracingWorklistPush s

def tracingTriggered : Bool :=
  gcCurrentCyclicMem s > s.env.thresholdMemCyclicObj &&
    s.env.candidatesRatioExceeds (gcCyclicCandidateCount s) (gcCurrentCyclicObj s) &&
    s.gauges.cyclicObjAlloc > s.gauges.cyclicObjAllocAtTrace

/-- The idle machine starts a trace at its next iteration. -/
def TraceStarts : Prop :=
  s.tracingState = .idle ∧ 0 < s.budgets.tracing ∧ tracingTriggered s = true

instance : Decidable (TraceStarts s) := inferInstanceAs (Decidable (_ ∧ _))

/-- The assignments at the start of a trace, before the roots are collected. -/
def tracingStart : SyliState :=
  let s := (s.setTracingState .tracing).setCheckIndex (gcCyclicCandidateCount s)
  gcNextMarkingGeneration
    (s.setGauges { s.gauges with cyclicObjAllocAtTrace := s.gauges.cyclicObjAlloc })

/-- One iteration of the loop of `syli_state_gc_tracing`: `none` when it returns. -/
def syliStateGcTracing (roots : List ObjPtr) : Result (Option SyliState) :=
  if s.budgets.tracing ≤ 0 then .ok none
  else match s.tracingState with
    | .idle =>
      if tracingTriggered s then do
        let s ← syliRtCollectStackRoots (tracingStart s) roots
        if s.tracingWorklist = [] ∧ s.tracingMutationsWorklist = [] then
          return some (s.setTracingState .reclaimingCyclicCandidates)
        return some s
      else .ok none
    | .tracing => do
      let s ← gcOneStepTracing s
      if s.tracingWorklist = [] ∧ s.tracingMutationsWorklist = [] then
        return some (s.setTracingState .reclaimingCyclicCandidates)
      if s.tracingMutationsWorklist ≠ [] then
        return some (s.setTracingState .mutationPrepare)
      return some s
    | .mutationPrepare =>
      if s.tracingMutationsWorklist = [] then
        if s.tracingWorklist ≠ [] then .ok (some (s.setTracingState .tracing))
        else .ok (some (s.setTracingState .reclaimingCyclicCandidates))
      else do
        let s ← gcOneStepPrepareTracingMutations s
        return some s
    | .reclaimingCyclicCandidates => do
      let s := s.chargeChecking 1
      if s.lostCycleWorklist ≠ [] then
        let s ← gcOneStepFreeUnreachable s
        return some s
      if s.currentCandidateCheckIndex = 0 then return some (s.setTracingState .idle)
      let s ← gcOneStepScan s
      return some s

end Syli.Runtime
