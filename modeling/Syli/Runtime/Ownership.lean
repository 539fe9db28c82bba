import Syli.Runtime.Counts

/-! `syli.c`: allocation, the ownership primitives and the write barrier. -/
namespace Syli.Runtime

variable (k : Counting) (s : SyliState)

/-- A fresh object carries the mark of the current generation and null fields. -/
def syliRtRcAllocObject (header : ObjectHeader) (refcount length : Nat) : Addr × SyliState :=
  let o : GCObject :=
    { header := header
      refcount := refcount
      mark := s.tracingCurrentBitMark
      value := List.replicate length .null }
  (s.next, (s.setObj s.next o).bumpNext)

def syliRtOwnershipAllocObject (header : ObjectHeader) (refcount length : Nat) :
    Result (Addr × SyliState) :=
  let (a, s) := syliRtRcAllocObject s header refcount length
  if header.isCyclic then
    let s := s.setGauges (s.gauges.alloc header)
    if header.isCyclicMutable then do
      let s ← gcRegisterCandidate s a
      return (a, s)
    else .ok (a, s)
  else .ok (a, s)

def syliRtObjectIncr (a : Addr) : Result SyliState := do
  let o ← s.deref a
  return s.setObj a (k.incr o)

/-- `syli_object_decr_local`, which asserts that there is a count to give up. -/
def syliObjectDecrLocal (a : Addr) : Result SyliState := do
  let o ← s.deref a
  check (0 < o.refcount) .refcountUnderflow
  return s.setObj a { o with refcount := o.refcount - 1 }

/-- An object without reference fields is freed at once, whatever its flags. -/
def syliRtObjectDecr (a : Addr) : Result SyliState := do
  let o ← s.deref a
  let o ← k.decr o
  let s := s.setObj a o
  if o.refcount = 0 then
    if o.header.isMonoImm then s.free a else gcReleasingWorklistPush s a
  else return s

def syliRtObjectNotifyMutation (obj target : Addr) (targetPtr : ObjPtr) : Result SyliState := do
  let o ← s.deref obj
  if !gcIsObjectMarkTagged s o then return s
  if !o.header.isTraceable then return s
  let t ← s.deref target
  if gcIsObjectMarkTagged s t then return s
  return (s.setObj target (gcMarkTagObject s t)).setMutations
    (targetPtr :: s.tracingMutationsWorklist)

/-- The pointer of a live reference: null, immediate and immortal words have no heap object. -/
def ObjPtr.untag : ObjPtr → Result Addr
  | .own a | .borrow a => .ok a
  | _ => .error .nullDeref

def syliRtOwnershipShare (ptr : ObjPtr) : Result (ObjPtr × SyliState) := do
  let a ← ptr.untag
  let s ← syliRtObjectIncr k s a
  return (.own a, s)

def syliRtOwnershipOwn (ptr : ObjPtr) : Result (ObjPtr × SyliState) :=
  match ptr with
  | .own a => .ok (.own a, s)
  | _ => syliRtOwnershipShare k s ptr

def syliRtOwnershipBorrow (ptr : ObjPtr) : Result ObjPtr := do
  let a ← ptr.untag
  return .borrow a

def syliRtOwnershipDecr (ptr : ObjPtr) : Result SyliState :=
  match ptr with
  | .own a => syliRtObjectDecr k s a
  | _ => .error .assertion

/-- The release of anything but an own reference does nothing. -/
def syliRtOwnershipRelease (ptr : ObjPtr) : Result SyliState :=
  match ptr with
  | .own a => syliRtObjectDecr k s a
  | .null | .borrow _ => .ok s
  | .alwaysBorrow _ | .immediate _ => .error .assertion

/-- The barrier ignores a borrow, and does nothing unless a trace is under way. -/
def syliRtOwnershipNotifyMutation (ptr targetPtr : ObjPtr) : Result SyliState := do
  check (ptr.isImmediate = false)
  match ptr.ownRef? with
  | none => return s
  | some obj =>
    if s.tracingState = .tracing ∨ s.tracingState = .mutationPrepare then
      let target ← targetPtr.untag
      syliRtObjectNotifyMutation s obj target targetPtr
    else return s

variable {s} {a : Addr}

theorem syliRtObjectIncr_word (h : ∀ o ∈ s.heap a, o.refcount + 1 < 2 ^ 56) :
    syliRtObjectIncr wordCounts s a = syliRtObjectIncr naturalCounts s a := by
  unfold syliRtObjectIncr SyliState.deref
  cases ho : s.heap a with
  | none => rfl
  | some o =>
    have hincr := wordCounts_incr (h o ho)
    exact congrArg (fun o => Except.ok (s.setObj a o)) hincr

theorem syliRtObjectDecr_word (h : ∀ o ∈ s.heap a, 0 < o.refcount) :
    syliRtObjectDecr wordCounts s a = syliRtObjectDecr naturalCounts s a := by
  unfold syliRtObjectDecr SyliState.deref
  cases ho : s.heap a with
  | none => rfl
  | some o =>
    have hdecr := wordCounts_decr (h o ho)
    simp only [bind, Except.bind, hdecr]

end Syli.Runtime
