import Syli.Runtime.Ownership

/-! `syli_state_gc_releasing.c`: the reference-counting release pipeline. -/
namespace Syli.Runtime

variable (s : SyliState)

def childReleaseObject (s : SyliState) (child : Addr) : Result SyliState := do
  let s ← syliObjectDecrLocal s child
  let o ← s.deref child
  if 0 < o.refcount then return s
  if o.header.hasPointers then gcReleasingWorklistPush s child
  else freeReleasedObject s child

/-- Releasing a child never writes to a field, so the children are read once. -/
def gcOneStepReleasing : Result SyliState := do
  let (a, rest) ← gcVectorPopBack s.releasingWorklist
  let o ← s.deref a
  let s := s.setReleasing rest s.releasingWaitlist
  let s ← o.ownRefs.foldlM childReleaseObject (s.chargeReleasing (1 + o.header.slotBudget))
  let o ← s.deref a
  check (o.refcount = 0)
  freeReleasedObject s a

def setReleasingWorking : SyliState :=
  s.setReleasing s.releasingWaitlist []

/-- One iteration of the loop of `syli_state_gc_releasing`: `none` when it returns. -/
def syliStateGcReleasing : Result (Option SyliState) :=
  if s.budgets.releasing ≤ 0 then .ok none
  else match s.releasingState with
    | .idle =>
      if s.releasingWaitlist.length < s.env.thresholdReleasingBucket ∨
          s.releasingWaitlist.length = 0 then .ok none
      else .ok (some ((setReleasingWorking s).setReleasingState .releasing))
    | .releasing => do
      let s ← gcOneStepReleasing s
      if s.releasingWorklist = [] then return some (s.setReleasingState .idle)
      return some s

end Syli.Runtime
