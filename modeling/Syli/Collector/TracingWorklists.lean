import Syli.Collector.FullCollection

/-! No iteration of the tracing loop pops from an empty worklist. -/
namespace Syli.Collector

open Foundation Syli.Runtime

variable {s s' u : SyliState} {m m' : Machine} {a c x y : Addr} {o : GCObject} {act : Action}
variable {roots : List ObjPtr} {env : Env} {globals : Nat} {operand : Operand} {slot : Nat}

/-- The computation does not fail in `gc_vector_pop_back`. -/
def NoEmptyPop {α : Type} (r : Result α) : Prop := r ≠ .error .emptyVector

section

variable {α β : Type} {r : Result α} {f : α → Result β}

theorem noEmptyPop_ok (b : α) : NoEmptyPop (.ok b : Result α) := by simp [NoEmptyPop]

theorem noEmptyPop_bind (hr : NoEmptyPop r) (hf : ∀ b, r = .ok b → NoEmptyPop (f b)) :
    NoEmptyPop (r >>= f) := by
  cases r with
  | ok b => exact hf b rfl
  | error e =>
    intro h
    apply hr
    cases h
    rfl

theorem noEmptyPop_deref (s : SyliState) (a : Addr) : NoEmptyPop (s.deref a) := by
  unfold SyliState.deref
  split <;> simp [NoEmptyPop]

theorem noEmptyPop_free (s : SyliState) (a : Addr) : NoEmptyPop (s.free a) := by
  unfold SyliState.free
  split <;> simp [NoEmptyPop]

theorem noEmptyPop_check (p : Prop) [Decidable p] {e : Fault} (he : e ≠ .emptyVector) :
    NoEmptyPop (check p e) := by
  unfold check
  split <;> simp [NoEmptyPop, he]

theorem noEmptyPop_pop {l : List α} (hl : l ≠ []) : NoEmptyPop (gcVectorPopBack l) := by
  cases l with
  | nil => exact absurd rfl hl
  | cons b l => exact noEmptyPop_ok _

theorem noEmptyPop_foldlM {g : SyliState → α → Result SyliState} (hg : ∀ s b, NoEmptyPop (g s b))
    (l : List α) (s : SyliState) : NoEmptyPop (l.foldlM g s) := by
  induction l generalizing s with
  | nil => exact noEmptyPop_ok s
  | cons b l ih =>
    rw [List.foldlM_cons]
    exact noEmptyPop_bind (hg s b) fun u _ => ih u

end

theorem noEmptyPop_worklistPush (s : SyliState) (p : ObjPtr) :
    NoEmptyPop (gcTracingWorklistPush s p) := by
  unfold gcTracingWorklistPush
  split
  · exact noEmptyPop_ok s
  · refine noEmptyPop_bind (noEmptyPop_deref _ _) fun o _ => ?_
    split
    · exact noEmptyPop_ok _
    · exact noEmptyPop_ok _

theorem noEmptyPop_pushChildren (s : SyliState) (o : GCObject) :
    NoEmptyPop (pushChildren s o) :=
  noEmptyPop_foldlM (fun s c => noEmptyPop_worklistPush s (.own c)) _ s

theorem noEmptyPop_gcOneStepTracing (h : s.tracingWorklist ≠ []) :
    NoEmptyPop (gcOneStepTracing s) := by
  unfold gcOneStepTracing
  refine noEmptyPop_bind (noEmptyPop_pop h) fun _ _ => ?_
  refine noEmptyPop_bind (noEmptyPop_deref _ _) fun o _ => ?_
  dsimp only
  split
  · exact noEmptyPop_free _ _
  · split
    · exact noEmptyPop_ok _
    · split
      · exact noEmptyPop_ok _
      · exact noEmptyPop_pushChildren _ _

theorem noEmptyPop_prepareMutations (h : s.tracingMutationsWorklist ≠ []) :
    NoEmptyPop (gcOneStepPrepareTracingMutations s) := by
  unfold gcOneStepPrepareTracingMutations
  refine noEmptyPop_bind (noEmptyPop_pop h) fun popped _ => ?_
  obtain ⟨p, rest⟩ := popped
  dsimp only
  split
  · simp [NoEmptyPop]
  · refine noEmptyPop_bind (noEmptyPop_deref _ _) fun o _ => ?_
    split
    · exact noEmptyPop_free _ _
    · exact noEmptyPop_pushChildren _ _

theorem noEmptyPop_removeCandidateAt (s : SyliState) (i : Nat) :
    NoEmptyPop (gcRemoveCandidateAt s i) := by
  unfold gcRemoveCandidateAt
  split
  · simp [NoEmptyPop]
  · split
    · exact noEmptyPop_ok _
    · refine noEmptyPop_bind (noEmptyPop_check _ (by simp)) fun _ _ => ?_
      refine noEmptyPop_bind (noEmptyPop_deref _ _) fun o _ => ?_
      exact noEmptyPop_bind (noEmptyPop_check _ (by simp)) fun _ _ => noEmptyPop_ok _

theorem noEmptyPop_freeReleasedObject (s : SyliState) (a : Addr) :
    NoEmptyPop (freeReleasedObject s a) := by
  have hend : ∀ (u : SyliState) (o : GCObject), NoEmptyPop
      (if o.tracing = true then
        pure (u.setObj a { o with cyclicCandidate := false, waitingRemove := true })
      else (gcAccountCyclicFree (u.setObj a { o with cyclicCandidate := false })
        { o with cyclicCandidate := false }).free a : Result SyliState) := by
    intro u o
    split
    · exact noEmptyPop_ok _
    · exact noEmptyPop_free _ _
  unfold freeReleasedObject
  refine noEmptyPop_bind (noEmptyPop_deref _ _) fun o _ => ?_
  dsimp only
  split
  · refine noEmptyPop_bind (noEmptyPop_check _ (by simp)) fun _ _ => ?_
    exact noEmptyPop_bind (noEmptyPop_removeCandidateAt _ _) fun u _ => hend u o
  · exact noEmptyPop_bind (noEmptyPop_ok _) fun u _ => hend u o

theorem noEmptyPop_enqueueFree (s : SyliState) (a : Addr) :
    NoEmptyPop (lostCycleEnqueueFree s a) := by
  unfold lostCycleEnqueueFree
  refine noEmptyPop_bind (noEmptyPop_deref _ _) fun o _ => ?_
  exact noEmptyPop_bind (noEmptyPop_check _ (by simp)) fun _ _ => noEmptyPop_ok _

theorem noEmptyPop_childDecr (s : SyliState) (c : Addr) : NoEmptyPop (lostCycleChildDecr s c) := by
  unfold lostCycleChildDecr syliObjectDecrLocal
  refine noEmptyPop_bind ?_ fun u _ => ?_
  · refine noEmptyPop_bind (noEmptyPop_deref _ _) fun o _ => ?_
    exact noEmptyPop_bind (noEmptyPop_check _ (by simp)) fun _ _ => noEmptyPop_ok _
  · refine noEmptyPop_bind (noEmptyPop_deref _ _) fun o _ => ?_
    split
    · split
      · exact noEmptyPop_enqueueFree _ _
      · exact noEmptyPop_freeReleasedObject _ _
    · exact noEmptyPop_ok _

theorem noEmptyPop_releaseOnce (s : SyliState) (a : Addr) :
    NoEmptyPop (releaseChildrenOnce s a) := by
  unfold releaseChildrenOnce
  refine noEmptyPop_bind (noEmptyPop_deref _ _) fun o _ => ?_
  split
  · exact noEmptyPop_ok _
  · exact noEmptyPop_foldlM noEmptyPop_childDecr _ _

theorem noEmptyPop_freeUnreachable (h : s.lostCycleWorklist ≠ []) :
    NoEmptyPop (gcOneStepFreeUnreachable s) := by
  unfold gcOneStepFreeUnreachable
  refine noEmptyPop_bind (noEmptyPop_pop h) fun _ _ => ?_
  refine noEmptyPop_bind (noEmptyPop_releaseOnce _ _) fun u _ => ?_
  exact noEmptyPop_freeReleasedObject _ _

theorem noEmptyPop_gcOneStepScan (s : SyliState) : NoEmptyPop (gcOneStepScan s) := by
  unfold gcOneStepScan
  split
  · exact noEmptyPop_ok _
  · split
    · simp [NoEmptyPop]
    · refine noEmptyPop_bind (noEmptyPop_deref _ _) fun o _ => ?_
      split
      · exact noEmptyPop_ok _
      · refine noEmptyPop_bind (noEmptyPop_releaseOnce _ _) fun u _ => ?_
        refine noEmptyPop_bind (noEmptyPop_deref _ _) fun o _ => ?_
        split
        · exact noEmptyPop_enqueueFree _ _
        · exact noEmptyPop_ok _

/-- Only the state `Tracing` pops without a look at the worklist. -/
theorem noEmptyPop_iterate (h : s.tracingState = .tracing → s.tracingWorklist ≠ []) :
    NoEmptyPop (syliStateGcTracing s roots) := by
  unfold syliStateGcTracing
  split
  · exact noEmptyPop_ok _
  split
  · split
    · refine noEmptyPop_bind (noEmptyPop_foldlM noEmptyPop_worklistPush _ _) fun u _ => ?_
      split
      · exact noEmptyPop_ok _
      · exact noEmptyPop_ok _
    · exact noEmptyPop_ok _
  · rename_i hst
    refine noEmptyPop_bind (noEmptyPop_gcOneStepTracing (h hst)) fun u _ => ?_
    split
    · exact noEmptyPop_ok _
    · split
      · exact noEmptyPop_ok _
      · exact noEmptyPop_ok _
  · split
    · split
      · exact noEmptyPop_ok _
      · exact noEmptyPop_ok _
    · rename_i hmut
      exact noEmptyPop_bind (noEmptyPop_prepareMutations hmut) fun u _ => noEmptyPop_ok _
  · dsimp only
    split
    · rename_i hlost
      exact noEmptyPop_bind (noEmptyPop_freeUnreachable hlost) fun u _ => noEmptyPop_ok _
    · split
      · exact noEmptyPop_ok _
      · exact noEmptyPop_bind (noEmptyPop_gcOneStepScan _) fun u _ => noEmptyPop_ok _

/-- The worklists of the tracer are empty outside of a trace, and the state `Tracing` has work. -/
structure WorklistsReady (s : SyliState) : Prop where
  quiet : ¬ InTrace s.tracingState → s.tracingWorklist = [] ∧ s.tracingMutationsWorklist = []
  tracing : s.tracingState = .tracing → s.tracingWorklist ≠ []

namespace WorklistsReady

theorem congr (h : WorklistsReady s) (hst : s'.tracingState = s.tracingState)
    (hwl : s'.tracingWorklist = s.tracingWorklist)
    (hmut : ¬ InTrace s.tracingState → s'.tracingMutationsWorklist = s.tracingMutationsWorklist) :
    WorklistsReady s' := by
  constructor
  · intro hquiet
    rw [hst] at hquiet
    rw [hwl, hmut hquiet]
    exact h.quiet hquiet
  · intro ht
    rw [hwl]
    exact h.tracing (hst.symm.trans ht)

theorem of_frame (h : WorklistsReady s) (hf : ReleaseFrame s s') : WorklistsReady s' :=
  h.congr hf.state hf.worklist fun _ => hf.mutations

theorem notified (h : WorklistsReady s) (hn : Notified operand x y s s') : WorklistsReady s' := by
  cases hn with
  | quiet _ => exact h
  | barrier hst _ _ _ _ _ _ => exact h.congr rfl rfl fun hquiet => absurd hst hquiet

theorem stored (h : WorklistsReady s) (hs : Stored operand x slot y s s') : WorklistsReady s' := by
  obtain @⟨u, o, o₁, -, -, -, hold, -, hn⟩ := hs
  have hu : WorklistsReady u := by
    rcases hold with ⟨rfl, -⟩ | ⟨c, oc, -, hc, hg⟩
    · exact h
    · exact h.of_frame (hg.frame hc)
  have hset : WorklistsReady (u.setObj x { o₁ with value := o₁.value.set slot (.own y) }) :=
    hu.congr rfl rfl fun _ => rfl
  exact hset.notified hn

/-- The rule for the steps that choose the next state by the worklists that they leave. -/
theorem of_afterTracing (hst : s'.tracingState =
    afterTracing s'.tracingWorklist s'.tracingMutationsWorklist) : WorklistsReady s' := by
  constructor
  · intro hquiet
    rw [hst] at hquiet
    exact Ledger.afterTracing_quiet hquiet
  · intro ht hnil
    rw [hst] at ht
    unfold afterTracing at ht
    split at ht
    · cases ht
    · split at ht
      · rename_i hne hmut
        exact hne ⟨hnil, hmut⟩
      · cases ht

theorem of_prepare (hst : s'.tracingState = .mutationPrepare) : WorklistsReady s' := by
  constructor
  · intro hquiet
    exact absurd (Or.inr hst) hquiet
  · intro ht
    simp [hst] at ht

theorem markStep (hs : MarkStep s s') : WorklistsReady s' := by
  cases hs with
  | popWaiting g _ _ _ _ ht =>
    subst ht
    exact of_afterTracing rfl
  | popSkip _ _ _ _ _ ht =>
    subst ht
    exact of_afterTracing rfl
  | popMark b _ _ _ _ _ _ hu _ ht =>
    subst ht hu
    exact of_afterTracing rfl
  | mutationsDone _ hmut ht =>
    subst ht
    refine of_afterTracing ?_
    simp [afterTracing, hmut]
  | mutationWaiting hst _ _ _ => exact of_prepare hst
  | mutationScan b hst _ _ _ => exact of_prepare hst

theorem start (h : WorklistsReady s) (hidle : s.tracingState = .idle)
    (hs : TracingStep roots s s') : WorklistsReady s' := by
  obtain ⟨new, t, -, ht, rfl⟩ := hs.of_idle hidle
  obtain ⟨hwl, hmut⟩ := h.quiet (by simp [hidle, InTrace])
  subst ht
  refine of_afterTracing ?_
  simp [afterTracing, hwl, hmut]

theorem reclaimStep (h : WorklistsReady s) (hs : ReclaimStep s s') : WorklistsReady s' := by
  obtain ⟨hwl, hmut, -⟩ := hs.lists
  obtain ⟨hwl₀, hmut₀⟩ := h.quiet (not_inTrace_of_reclaiming hs.reclaiming)
  constructor
  · intro _
    rw [hwl, hmut]
    exact ⟨hwl₀, hmut₀⟩
  · intro ht
    rcases reclaimStep_state hs with hst | hst <;> simp [hst] at ht

theorem move (h : WorklistsReady m.rt) (hm : Move m act m') : WorklistsReady m'.rt := by
  cases hm with
  | alloc candidate candidates index g _ _ => exact h.congr (by simp) (by simp) fun _ => by simp
  | load _ _ _ _ _ _ => exact h.congr rfl rfl fun _ => rfl
  | share _ _ _ => exact h.congr rfl rfl fun _ => rfl
  | drop _ _ ho hg => exact h.of_frame (hg.frame ho)
  | store _ _ _ hs => exact h.stored hs
  | notify _ _ _ hn => exact h.notified hn
  | storeGlobal _ _ _ => exact h
  | gcCycle b _ => exact h.congr rfl rfl fun _ => rfl
  | releasing _ hs => exact h.of_frame hs.frame
  | releasingDone _ => exact h
  | tracing _ _ hs =>
    cases hs with
    | start hstart hq ht => exact h.start hstart.1 (.start hstart hq ht)
    | mark hs => exact markStep hs
    | reclaim hs => exact h.reclaimStep hs
  | tracingDone _ => exact h

end WorklistsReady

theorem worklistsReady_of_runs {ok : Machine → Action → Prop}
    (hr : Runs Machine.step ok (Machine.init env globals) m) : WorklistsReady m.rt := by
  refine hr.invariant (P := fun m => WorklistsReady m.rt) ?_ fun m act m' h _ hstep =>
    h.move (step_move hstep)
  constructor <;> simp [Machine.init, syliStateInit]

end Syli.Collector
