import Syli.Runtime.Effects

/-! The entry points of the runtime in any order, and the rule for what all of them keep. -/
namespace Syli.Runtime

open Foundation

variable {k : Counting} {s s' : SyliState} {a : Addr} {o : GCObject} {P : SyliState → Prop}
variable {Free : GCObject → Prop}

/-- The calls that compiled code makes, and the iterations of the collector loops. -/
inductive Entry where
  | alloc (header : ObjectHeader) (refcount : Nat)
  | share (p : ObjPtr)
  | own (p : ObjPtr)
  | release (p : ObjPtr)
  | decr (p : ObjPtr)
  | notify (p target : ObjPtr)
  | write (a : Addr) (slot : Nat) (p : ObjPtr)
  | gcCycle (b : Budgets)
  | gcReleasing
  | gcTracing (roots : List ObjPtr)

/-- A store of compiled code into one of the fields that the header declares. -/
def writeField (s : SyliState) (a : Addr) (slot : Nat) (p : ObjPtr) : Result SyliState := do
  let o ← s.deref a
  check (slot < o.header.objectLength) .illegal
  return s.setObj a { o with value := o.value.set slot p }

def Entry.run (k : Counting) (s : SyliState) : Entry → Result SyliState
  | .alloc header refcount => do
    let (_, s) ← syliRtOwnershipAllocObject s header refcount header.objectLength
    return s
  | .share p => do
    let (_, s) ← syliRtOwnershipShare k s p
    return s
  | .own p => do
    let (_, s) ← syliRtOwnershipOwn k s p
    return s
  | .release p => syliRtOwnershipRelease k s p
  | .decr p => syliRtOwnershipDecr k s p
  | .notify p target => syliRtOwnershipNotifyMutation s p target
  | .write a slot p => writeField s a slot p
  | .gcCycle b => .ok (s.setBudgets b)
  | .gcReleasing => do
    let r ← syliStateGcReleasing s
    return r.getD s
  | .gcTracing roots => do
    let r ← syliStateGcTracing s roots
    return r.getD s

namespace Entry

theorem run_alloc {header : ObjectHeader} {n : Nat} :
    run k s (.alloc header n) = .ok s' ↔
      ∃ a, syliRtOwnershipAllocObject s header n header.objectLength = .ok (a, s') := by
  simp only [run, bind_eq_ok, pure_eq_ok, Prod.exists, exists_eq_right]

theorem run_share {p : ObjPtr} :
    run k s (.share p) = .ok s' ↔ ∃ q, syliRtOwnershipShare k s p = .ok (q, s') := by
  simp only [run, bind_eq_ok, pure_eq_ok, Prod.exists, exists_eq_right]

/-- Owning shares unless there is nothing to count. -/
theorem run_own {p : ObjPtr} (h : run k s (.own p) = .ok s') :
    s' = s ∨ ∃ q, syliRtOwnershipShare k s p = .ok (q, s') := by
  obtain ⟨⟨q, u⟩, hu, hs⟩ := bind_eq_ok.mp h
  obtain rfl := pure_eq_ok.mp hs
  unfold syliRtOwnershipOwn at hu
  split at hu
  · cases hu
    exact Or.inl rfl
  · exact Or.inr ⟨q, hu⟩

theorem run_write {slot : Nat} {p : ObjPtr} :
    run k s (.write a slot p) = .ok s' ↔ ∃ o, s.heap a = some o ∧ slot < o.header.objectLength ∧
      s.setObj a { o with value := o.value.set slot p } = s' := by
  simp only [run, writeField, bind_eq_ok, deref_eq_ok, check_eq_ok, pure_eq_ok, exists_const]

theorem run_gcReleasing :
    run k s .gcReleasing = .ok s' ↔ ∃ r, syliStateGcReleasing s = .ok r ∧ r.getD s = s' := by
  simp only [run, bind_eq_ok, pure_eq_ok]

theorem run_gcTracing {roots : List ObjPtr} :
    run k s (.gcTracing roots) = .ok s' ↔
      ∃ r, syliStateGcTracing s roots = .ok r ∧ r.getD s = s' := by
  simp only [run, bind_eq_ok, pure_eq_ok]

end Entry

/-- The two states differ in nothing that concerns the objects and how they are counted. -/
structure SameObjects (s s' : SyliState) : Prop where
  heap : s'.heap = s.heap
  candidates : s'.cyclicCandidates = s.cyclicCandidates
  index : s'.candidateIndex = s.candidateIndex
  next : s'.next = s.next
  memAlloc : s'.gauges.cyclicMemAlloc = s.gauges.cyclicMemAlloc
  memDealloc : s'.gauges.cyclicMemDealloc = s.gauges.cyclicMemDealloc
  objAlloc : s'.gauges.cyclicObjAlloc = s.gauges.cyclicObjAlloc
  objDealloc : s'.gauges.cyclicObjDealloc = s.gauges.cyclicObjDealloc

/-- What the operations on objects have to keep for every entry point to keep it. `Free` are the
objects that can be freed without any accounting. -/
structure Kept (P : SyliState → Prop) (Free : GCObject → Prop) : Prop where
  same : ∀ {s s'}, P s → SameObjects s s' → P s'
  setObj : ∀ {s a o w}, P s → s.heap a = some o → w.header = o.header →
    w.cyclicCandidate = o.cyclicCandidate → w.waitingRemove = o.waitingRemove → P (s.setObj a w)
  freeReleased : ∀ {s a s'}, P s → freeReleasedObject s a = .ok s' → P s'
  freeWaiting : ∀ {s a o}, P s → s.heap a = some o → o.waitingRemove = true →
    P ((gcAccountCyclicFree s o).dropObj a)
  free : ∀ {s a o}, P s → s.heap a = some o → Free o → P (s.dropObj a)

/-- Adding and giving up a count keeps `P`. -/
structure CountKept (k : Counting) (P : SyliState → Prop) : Prop where
  incr : ∀ {s a o}, P s → s.heap a = some o → P (s.setObj a (k.incr o))
  decr : ∀ {s a o o'}, P s → s.heap a = some o → k.decr o = .ok o' → P (s.setObj a o')

theorem CountKept.syliRtOwnershipShare {p q : ObjPtr} (hcount : CountKept k P) (h : P s)
    (hs : syliRtOwnershipShare k s p = .ok (q, s')) : P s' := by
  simp only [Runtime.syliRtOwnershipShare, bind_eq_ok, pure_eq_ok] at hs
  obtain ⟨a, -, u, hu, heq⟩ := hs
  obtain ⟨-, rfl⟩ := Prod.mk.inj heq
  obtain ⟨o, ho, rfl⟩ := syliRtObjectIncr_effect.mp hu
  exact hcount.incr h ho

/-- A count changes the flags of no object as long as it is a natural number. -/
theorem Kept.natural (hk : Kept P Free) : CountKept naturalCounts P where
  incr h ho := hk.setObj h ho rfl rfl rfl
  decr h ho hdecr := by
    obtain ⟨-, rfl⟩ := naturalCounts_decr.mp hdecr
    exact hk.setObj h ho rfl rfl rfl

/-- A new object as the allocation leaves it. -/
def newObject (s : SyliState) (header : ObjectHeader) (n : Nat) (candidate : Bool) : GCObject where
  header := header
  refcount := n
  mark := s.tracingCurrentBitMark
  cyclicCandidate := candidate
  value := List.replicate header.objectLength .null

/-- The registry after an allocation: a cyclic-mutable object is its last entry. -/
inductive Enlisted (s : SyliState) (header : ObjectHeader) :
    Bool → List Addr → (Addr → Nat) → Prop where
  | skip : Enlisted s header false s.cyclicCandidates s.candidateIndex
  | push : header.isCyclicMutable = true → Enlisted s header true (s.cyclicCandidates ++ [s.next])
      (Function.update s.candidateIndex s.next s.cyclicCandidates.length)

theorem alloc_registry {header : ObjectHeader} {n : Nat}
    (hs : syliRtOwnershipAllocObject s header n header.objectLength = .ok (a, s')) :
    ∃ candidate candidates index g, Enlisted s header candidate candidates index ∧
      g = (if header.isCyclic then s.gauges.alloc header else s.gauges) ∧
      s' = (((s.setObj s.next (newObject s header n candidate)).bumpNext).setGauges g).setRegistry
        candidates index := by
  simp only [syliRtOwnershipAllocObject, syliRtRcAllocObject] at hs
  split at hs
  · split at hs
    · rename_i hcyclic hmut
      simp only [bind_eq_ok, pure_eq_ok, gcRegisterCandidate, deref_eq_ok] at hs
      obtain ⟨u, ⟨o, ho, hs⟩, heq⟩ := hs
      obtain ⟨rfl, rfl⟩ := Prod.mk.inj heq
      obtain rfl : o = newObject s header n false := by
        simpa [newObject, eq_comm] using ho
      simp only [newObject, Bool.false_eq_true, if_false, bind_eq_ok, pure_eq_ok] at hs
      obtain ⟨-, -, rfl⟩ := hs
      refine ⟨true, _, _, s.gauges.alloc header, .push hmut, by simp [hcyclic], ?_⟩
      simp [SyliState.setObj, SyliState.setRegistry, SyliState.bumpNext, SyliState.setGauges,
        newObject]
    · rename_i hcyclic hmut
      obtain ⟨rfl, rfl⟩ := Prod.mk.inj (Except.ok.inj hs)
      exact ⟨false, _, _, s.gauges.alloc header, .skip, by simp [hcyclic], rfl⟩
  · rename_i hcyclic
    obtain ⟨rfl, rfl⟩ := Prod.mk.inj (Except.ok.inj hs)
    exact ⟨false, _, _, s.gauges, .skip, by simp [hcyclic], rfl⟩

/-- The objects that an entry point frees without accounting satisfy `Free`. -/
def Entry.FreesOnly (Free : GCObject → Prop) (s : SyliState) : Entry → Prop
  | .release p | .decr p => ∀ a o, p = .own a → s.heap a = some o → o.refcount = 1 →
      o.header.isMonoImm = true → Free { o with refcount := 0 }
  | .gcTracing _ => ∀ p rest a o, s.tracingState = .mutationPrepare →
      s.tracingMutationsWorklist = p :: rest → p = .own a → s.heap a = some o →
        o.waitingRemove = true → Free o
  | _ => True

namespace Kept

variable (hk : Kept P Free)

include hk

omit hk in
theorem foldlM {f : SyliState → Addr → Result SyliState} {l : List Addr} (h : P s)
    (hs : l.foldlM f s = .ok s') (hf : ∀ s c s', P s → f s c = .ok s' → P s') : P s' :=
  foldlM_invariant (P := fun _ u => P u) hs h fun c _ u u' hu hstep => hf u c u' hu hstep

theorem gcTracingWorklistPush {p : ObjPtr} (h : P s) (hs : gcTracingWorklistPush s p = .ok s') :
    P s' := by
  unfold Runtime.gcTracingWorklistPush at hs
  split at hs
  · cases hs
    exact h
  · simp only [bind_eq_ok, deref_eq_ok] at hs
    obtain ⟨o, ho, hs⟩ := hs
    split at hs
    · cases hs
      exact h
    · cases hs
      have hset := hk.setObj (w := { o with tracing := true }) h ho rfl rfl rfl
      exact hk.same hset ⟨rfl, rfl, rfl, rfl, rfl, rfl, rfl, rfl⟩

theorem gcReleasingWorklistPush (h : P s) (hs : gcReleasingWorklistPush s a = .ok s') : P s' := by
  obtain ⟨o, mark, ho, -, -, rfl⟩ := gcReleasingWorklistPush_effect hs
  have hset : P (s.setObj a { o with mark := mark }) := hk.setObj h ho rfl rfl rfl
  exact hk.same hset ⟨rfl, rfl, rfl, rfl, rfl, rfl, rfl, rfl⟩

theorem syliObjectDecrLocal (h : P s) (hs : syliObjectDecrLocal s a = .ok s') : P s' := by
  obtain ⟨o, ho, -, rfl⟩ := syliObjectDecrLocal_effect.mp hs
  exact hk.setObj h ho rfl rfl rfl

theorem syliRtObjectDecr (hcount : CountKept k P) (h : P s)
    (hs : syliRtObjectDecr k s a = .ok s')
    (hfree : ∀ o, s.heap a = some o → o.refcount = 1 → o.header.isMonoImm = true →
      Free { o with refcount := 0 }) : P s' := by
  obtain ⟨o, o', ho, ho', ⟨-, rfl⟩ | ⟨hone, rfl, ⟨himm, rfl⟩ | ⟨-, hpush⟩⟩⟩ :=
    syliRtObjectDecr_cases hs
  · exact hcount.decr h ho ho'
  · have hdrop := hk.free (a := a) (hcount.decr h ho ho') (by simp) (hfree o ho hone himm)
    rwa [SyliState.setObj_dropObj] at hdrop
  · exact hk.gcReleasingWorklistPush (hcount.decr h ho ho') hpush

theorem childReleaseObject {c : Addr} (h : P s) (hs : childReleaseObject s c = .ok s') : P s' := by
  unfold Runtime.childReleaseObject at hs
  simp only [bind_eq_ok, deref_eq_ok] at hs
  obtain ⟨u, hu, o, ho, hs⟩ := hs
  have hdecr := hk.syliObjectDecrLocal h hu
  split at hs
  · cases hs
    exact hdecr
  split at hs
  · exact hk.gcReleasingWorklistPush hdecr hs
  · exact hk.freeReleased hdecr hs

theorem gcOneStepReleasing (h : P s) (hs : gcOneStepReleasing s = .ok s') : P s' := by
  simp only [Runtime.gcOneStepReleasing, bind_eq_ok, deref_eq_ok, check_eq_ok, Prod.exists,
    gcVectorPopBack_eq_ok] at hs
  obtain ⟨a, rest, -, o, -, v, hv, o', -, -, -, hs⟩ := hs
  refine hk.freeReleased (Kept.foldlM (hk.same h ?_) hv fun s c s' => hk.childReleaseObject) hs
  exact ⟨rfl, rfl, rfl, rfl, rfl, rfl, rfl, rfl⟩

theorem syliStateGcReleasing {r : Option SyliState} (h : P s)
    (hs : syliStateGcReleasing s = .ok r) : P (r.getD s) := by
  unfold Runtime.syliStateGcReleasing at hs
  split at hs
  · cases hs
    exact h
  split at hs
  · split at hs
    · cases hs
      exact h
    · cases hs
      exact hk.same h ⟨rfl, rfl, rfl, rfl, rfl, rfl, rfl, rfl⟩
  · obtain ⟨u, hu, hs⟩ := bind_eq_ok.mp hs
    have hu' := hk.gcOneStepReleasing h hu
    split at hs
    · cases hs
      exact hk.same hu' ⟨rfl, rfl, rfl, rfl, rfl, rfl, rfl, rfl⟩
    · cases hs
      exact hu'

theorem pushAll {ps : List ObjPtr} (h : P s)
    (hs : ps.foldlM Runtime.gcTracingWorklistPush s = .ok s') : P s' :=
  foldlM_invariant (P := fun _ u => P u) hs h fun _ _ _ _ hu hstep =>
    hk.gcTracingWorklistPush hu hstep

theorem pushChildren (h : P s) (hs : pushChildren s o = .ok s') : P s' :=
  Kept.foldlM h hs fun _ _ _ => hk.gcTracingWorklistPush

theorem gcOneStepTracing (h : P s) (hs : gcOneStepTracing s = .ok s') : P s' := by
  simp only [Runtime.gcOneStepTracing, bind_eq_ok, deref_eq_ok, Prod.exists,
    gcVectorPopBack_eq_ok] at hs
  obtain ⟨a, rest, -, o, ho, hs⟩ := hs
  have hset : P (s.setObj a { o with tracing := false }) := hk.setObj h ho rfl rfl rfl
  have hpop : P ((s.setObj a { o with tracing := false }).setTracingWorklist rest) :=
    hk.same hset ⟨rfl, rfl, rfl, rfl, rfl, rfl, rfl, rfl⟩
  split at hs
  · rename_i hw
    obtain ⟨-, rfl⟩ := free_eq_ok.mp hs
    exact hk.freeWaiting hpop (by simp) hw
  split at hs
  · cases hs
    exact hpop
  split at hs
  · cases hs
    exact hpop
  · have hmark := hk.setObj (a := a) (o := { o with tracing := false })
      (w := { o with tracing := false, mark := s.tracingCurrentBitMark }) hpop (by simp) rfl rfl rfl
    refine hk.pushChildren ?_ hs
    exact hk.same hmark ⟨rfl, rfl, rfl, rfl, rfl, rfl, rfl, rfl⟩

theorem gcOneStepPrepareTracingMutations (h : P s)
    (hs : gcOneStepPrepareTracingMutations s = .ok s')
    (hfree : ∀ p rest a o, s.tracingMutationsWorklist = p :: rest → p = .own a →
      s.heap a = some o → o.waitingRemove = true → Free o) : P s' := by
  simp only [Runtime.gcOneStepPrepareTracingMutations, bind_eq_ok, Prod.exists,
    gcVectorPopBack_eq_ok] at hs
  obtain ⟨p, rest, hwl, hs⟩ := hs
  split at hs
  · cases hs
  · rename_i a hown
    simp only [bind_eq_ok, deref_eq_ok] at hs
    obtain ⟨o, ho, hs⟩ := hs
    have hpop : P (s.setMutations rest) := hk.same h ⟨rfl, rfl, rfl, rfl, rfl, rfl, rfl, rfl⟩
    split at hs
    · rename_i hw
      obtain ⟨-, rfl⟩ := free_eq_ok.mp hs
      exact hk.free hpop ho (hfree p rest a o hwl (ObjPtr.ownRef?_eq_some.mp hown) ho hw)
    · have hcharge : P ((s.setMutations rest).chargeTracing o.header.mutationBudget) :=
        hk.same h ⟨rfl, rfl, rfl, rfl, rfl, rfl, rfl, rfl⟩
      exact hk.pushChildren hcharge hs

theorem lostCycleEnqueueFree (h : P s) (hs : lostCycleEnqueueFree s a = .ok s') : P s' := by
  simp only [Runtime.lostCycleEnqueueFree, bind_eq_ok, deref_eq_ok, check_eq_ok, pure_eq_ok] at hs
  obtain ⟨o, -, -, -, rfl⟩ := hs
  exact hk.same h ⟨rfl, rfl, rfl, rfl, rfl, rfl, rfl, rfl⟩

theorem lostCycleChildDecr {c : Addr} (h : P s) (hs : lostCycleChildDecr s c = .ok s') : P s' := by
  unfold Runtime.lostCycleChildDecr at hs
  simp only [bind_eq_ok, deref_eq_ok] at hs
  obtain ⟨u, hu, o, ho, hs⟩ := hs
  have hdecr := hk.syliObjectDecrLocal h hu
  split at hs
  · split at hs
    · exact hk.lostCycleEnqueueFree hdecr hs
    · exact hk.freeReleased hdecr hs
  · cases hs
    exact hdecr

theorem releaseChildrenOnce (h : P s) (hs : releaseChildrenOnce s a = .ok s') : P s' := by
  simp only [Runtime.releaseChildrenOnce, bind_eq_ok, deref_eq_ok] at hs
  obtain ⟨o, ho, hs⟩ := hs
  split at hs
  · cases hs
    exact h
  · have hset : P (s.setObj a { o with childrenReleased := true }) := hk.setObj h ho rfl rfl rfl
    refine Kept.foldlM (hk.same hset ?_) hs fun _ _ _ => hk.lostCycleChildDecr
    exact ⟨rfl, rfl, rfl, rfl, rfl, rfl, rfl, rfl⟩

theorem gcOneStepScan (h : P s) (hs : gcOneStepScan s = .ok s') : P s' := by
  unfold Runtime.gcOneStepScan at hs
  split at hs
  · cases hs
    exact hk.same h ⟨rfl, rfl, rfl, rfl, rfl, rfl, rfl, rfl⟩
  · rename_i index _
    split at hs
    · cases hs
    · have hindex : P (s.setCheckIndex index) :=
        hk.same h ⟨rfl, rfl, rfl, rfl, rfl, rfl, rfl, rfl⟩
      simp only [bind_eq_ok, deref_eq_ok] at hs
      obtain ⟨o, -, hs⟩ := hs
      split at hs
      · cases hs
        exact hindex
      · simp only [bind_eq_ok, deref_eq_ok] at hs
        obtain ⟨u, hu, o', -, hs⟩ := hs
        have hu' := hk.releaseChildrenOnce hindex hu
        split at hs
        · exact hk.lostCycleEnqueueFree hu' hs
        · cases hs
          exact hu'

theorem gcOneStepFreeUnreachable (h : P s) (hs : gcOneStepFreeUnreachable s = .ok s') : P s' := by
  simp only [Runtime.gcOneStepFreeUnreachable, bind_eq_ok, Prod.exists,
    gcVectorPopBack_eq_ok] at hs
  obtain ⟨a, rest, -, u, hu, hs⟩ := hs
  refine hk.freeReleased (hk.releaseChildrenOnce (hk.same h ?_) hu) hs
  exact ⟨rfl, rfl, rfl, rfl, rfl, rfl, rfl, rfl⟩

theorem syliStateGcTracing {roots : List ObjPtr} {r : Option SyliState} (h : P s)
    (hs : syliStateGcTracing s roots = .ok r)
    (hfree : ∀ p rest a o, s.tracingState = .mutationPrepare →
      s.tracingMutationsWorklist = p :: rest → p = .own a → s.heap a = some o →
        o.waitingRemove = true → Free o) : P (r.getD s) := by
  have hstate : ∀ {u : SyliState} {t : TracingState}, P u → P (u.setTracingState t) :=
    fun hu => hk.same hu ⟨rfl, rfl, rfl, rfl, rfl, rfl, rfl, rfl⟩
  unfold Runtime.syliStateGcTracing at hs
  split at hs
  · cases hs
    exact h
  split at hs
  · split at hs
    · obtain ⟨u, hu, hs⟩ := bind_eq_ok.mp hs
      have hu' : P u := by
        refine hk.pushAll (hk.same h ?_) hu
        exact ⟨rfl, rfl, rfl, rfl, rfl, rfl, rfl, rfl⟩
      split at hs
      · cases hs
        exact hstate hu'
      · cases hs
        exact hu'
    · cases hs
      exact h
  · obtain ⟨u, hu, hs⟩ := bind_eq_ok.mp hs
    have hu' := hk.gcOneStepTracing h hu
    split at hs
    · cases hs
      exact hstate hu'
    split at hs
    · cases hs
      exact hstate hu'
    · cases hs
      exact hu'
  · rename_i hprepare
    split at hs
    · split at hs
      · cases hs
        exact hstate h
      · cases hs
        exact hstate h
    · obtain ⟨u, hu, hs⟩ := bind_eq_ok.mp hs
      cases hs
      exact hk.gcOneStepPrepareTracingMutations h hu fun p rest a o => hfree p rest a o hprepare
  · have hcharge : P (s.chargeChecking 1) := hk.same h ⟨rfl, rfl, rfl, rfl, rfl, rfl, rfl, rfl⟩
    dsimp only at hs
    split at hs
    · obtain ⟨u, hu, hs⟩ := bind_eq_ok.mp hs
      cases hs
      exact hk.gcOneStepFreeUnreachable hcharge hu
    · split at hs
      · cases hs
        exact hstate hcharge
      · obtain ⟨u, hu, hs⟩ := bind_eq_ok.mp hs
        cases hs
        exact hk.gcOneStepScan hcharge hu

theorem syliRtOwnershipNotifyMutation {p target : ObjPtr} (h : P s)
    (hs : syliRtOwnershipNotifyMutation s p target = .ok s') : P s' := by
  unfold Runtime.syliRtOwnershipNotifyMutation at hs
  obtain ⟨-, -, hs⟩ := bind_eq_ok.mp hs
  split at hs
  · cases hs
    exact h
  split at hs
  · simp only [bind_eq_ok, syliRtObjectNotifyMutation, deref_eq_ok] at hs
    obtain ⟨b, -, o, -, hs⟩ := hs
    split at hs
    · cases hs
      exact h
    split at hs
    · cases hs
      exact h
    · obtain ⟨t, ht, hs⟩ := bind_eq_ok.mp hs
      rw [deref_eq_ok] at ht
      split at hs
      · cases hs
        exact h
      · cases hs
        have hset := hk.setObj (w := gcMarkTagObject s t) h ht rfl rfl rfl
        exact hk.same hset ⟨rfl, rfl, rfl, rfl, rfl, rfl, rfl, rfl⟩
  · cases hs
    exact h

/-- Every entry point but an allocation keeps what its operations keep. -/
theorem run {e : Entry} (hcount : CountKept k P) (h : P s) (hs : e.run k s = .ok s')
    (hfree : e.FreesOnly Free s)
    (halloc : ∀ header n a, e = .alloc header n →
      syliRtOwnershipAllocObject s header n header.objectLength = .ok (a, s') → P s') : P s' := by
  cases e with
  | alloc header n =>
    obtain ⟨a, ha⟩ := Entry.run_alloc.mp hs
    exact halloc header n a rfl ha
  | share p =>
    obtain ⟨q, hq⟩ := Entry.run_share.mp hs
    exact hcount.syliRtOwnershipShare h hq
  | own p =>
    obtain rfl | ⟨q, hq⟩ := Entry.run_own hs
    · exact h
    · exact hcount.syliRtOwnershipShare h hq
  | release p =>
    cases p with
    | own a => exact hk.syliRtObjectDecr hcount h hs fun o => hfree a o rfl
    | null | borrow a =>
      cases hs
      exact h
    | alwaysBorrow | immediate => cases hs
  | decr p =>
    cases p with
    | own a => exact hk.syliRtObjectDecr hcount h hs fun o => hfree a o rfl
    | null | borrow | alwaysBorrow | immediate => cases hs
  | notify p target => exact hk.syliRtOwnershipNotifyMutation h hs
  | write a slot p =>
    obtain ⟨o, ho, -, rfl⟩ := Entry.run_write.mp hs
    exact hk.setObj h ho rfl rfl rfl
  | gcCycle b =>
    cases hs
    exact hk.same h ⟨rfl, rfl, rfl, rfl, rfl, rfl, rfl, rfl⟩
  | gcReleasing =>
    obtain ⟨r, hr, rfl⟩ := Entry.run_gcReleasing.mp hs
    exact hk.syliStateGcReleasing h hr
  | gcTracing roots =>
    obtain ⟨r, hr, rfl⟩ := Entry.run_gcTracing.mp hs
    exact hk.syliStateGcTracing h hr hfree

end Kept

end Syli.Runtime
