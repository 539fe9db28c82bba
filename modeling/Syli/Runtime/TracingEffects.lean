import Syli.Runtime.Effects

/-! What one iteration of the tracing loop can do to the state. -/
namespace Syli.Runtime

open Foundation

variable {s s' : SyliState} {a : Addr} {o : GCObject}

/-- Of the references `refs`, those in `new` were not queued for tracing yet. -/
structure Queued (s : SyliState) (refs new : List Addr) : Prop where
  nodup : new.Nodup
  unflagged : ∀ a ∈ new, a ∈ refs ∧ ∃ o, s.heap a = some o ∧ o.tracing = false
  flagged : ∀ a ∈ refs, a ∈ new ∨ ∃ o, s.heap a = some o ∧ o.tracing = true

variable {heap : Addr → Option GCObject} {new : List Addr} {c : Addr}

theorem flagTracing_of_mem (ha : a ∈ new) :
    flagTracing heap new a = (heap a).map fun o => { o with tracing := true } :=
  if_pos ha

theorem flagTracing_of_not_mem (ha : a ∉ new) : flagTracing heap new a = heap a :=
  if_neg ha

theorem flagTracing_append (hc : c ∉ new) :
    flagTracing (flagTracing heap [c]) new = flagTracing heap (new ++ [c]) := by
  funext a
  by_cases ha : a = c
  · subst ha
    simp [flagTracing, hc]
  · by_cases hn : a ∈ new <;> simp [flagTracing, ha, hn]

theorem flagTracing_singleton (hc : heap c = some o) :
    flagTracing heap [c] = Function.update heap c (some { o with tracing := true }) := by
  funext a
  by_cases ha : a = c
  · subst ha
    simp [flagTracing, hc]
  · simp [flagTracing, ha]

theorem queueTracing_nil (s : SyliState) : s.queueTracing [] = s := by
  have hnil : flagTracing s.heap [] = s.heap := funext fun a => by simp [flagTracing]
  simp [SyliState.queueTracing, hnil]

theorem queueTracing_append (hc : c ∉ new) :
    (s.queueTracing [c]).queueTracing new = s.queueTracing (new ++ [c]) := by
  simp [SyliState.queueTracing, flagTracing_append hc]

theorem gcTracingWorklistPush_own (h : gcTracingWorklistPush s (.own c) = .ok s') :
    ∃ o, s.heap c = some o ∧
      (o.tracing = true ∧ s' = s ∨ o.tracing = false ∧ s' = s.queueTracing [c]) := by
  simp only [gcTracingWorklistPush, ObjPtr.ownRef?, bind_eq_ok, deref_eq_ok] at h
  obtain ⟨o, ho, h⟩ := h
  refine ⟨o, ho, ?_⟩
  split at h
  · obtain rfl := pure_eq_ok.mp h
    exact Or.inl ⟨‹_›, rfl⟩
  · rename_i ht
    obtain rfl := pure_eq_ok.mp h
    refine Or.inr ⟨by simpa using ht, ?_⟩
    simp [SyliState.queueTracing, SyliState.setObj, SyliState.setTracingWorklist,
      flagTracing_singleton ho]

theorem pushAll_effect {ps : List ObjPtr} (h : ps.foldlM gcTracingWorklistPush s = .ok s') :
    ∃ new, Queued s (ps.filterMap ObjPtr.ownRef?) new ∧ s' = s.queueTracing new := by
  induction ps generalizing s with
  | nil =>
    cases h
    exact ⟨[], ⟨by simp, by simp, by simp⟩, (queueTracing_nil _).symm⟩
  | cons p ps ih =>
    rw [List.foldlM_cons] at h
    obtain ⟨u, hu, hps⟩ := bind_eq_ok.mp h
    cases hp : p.ownRef? with
    | none =>
      simp only [gcTracingWorklistPush, hp, Except.ok.injEq] at hu
      subst hu
      simpa [hp] using ih hps
    | some c =>
      obtain rfl := ObjPtr.ownRef?_eq_some.mp hp
      obtain ⟨o, ho, ⟨ht, rfl⟩ | ⟨ht, rfl⟩⟩ := gcTracingWorklistPush_own hu
      · obtain ⟨new, hq, hs'⟩ := ih hps
        refine ⟨new, ⟨hq.nodup, ?_, ?_⟩, hs'⟩
        · intro a ha
          obtain ⟨hmem, hun⟩ := hq.unflagged a ha
          exact ⟨by simp [ObjPtr.ownRef?, hmem], hun⟩
        · intro a ha
          rw [List.filterMap_cons_some hp, List.mem_cons] at ha
          rcases ha with rfl | ha
          · exact Or.inr ⟨o, ho, ht⟩
          · exact hq.flagged a ha
      · obtain ⟨new, hq, rfl⟩ := ih hps
        have hc : c ∉ new := by
          intro hc
          obtain ⟨-, o', ho', hf⟩ := hq.unflagged c hc
          rw [SyliState.queueTracing_heap, flagTracing_of_mem (List.mem_singleton_self c), ho] at ho'
          simp [← Option.some.inj ho'] at hf
        refine ⟨new ++ [c], ⟨?_, ?_, ?_⟩, queueTracing_append hc⟩
        · rw [List.nodup_append_comm]
          simp [hq.nodup, hc]
        · intro a ha
          rw [List.filterMap_cons_some hp]
          rcases List.mem_append.mp ha with ha | ha
          · obtain ⟨hmem, o', ho', hf⟩ := hq.unflagged a ha
            have hac : a ≠ c := fun hac => hc (hac ▸ ha)
            exact ⟨List.mem_cons_of_mem _ hmem, o', by simpa [flagTracing, hac] using ho', hf⟩
          · obtain rfl := List.mem_singleton.mp ha
            exact ⟨List.mem_cons_self, o, ho, ht⟩
        · intro a ha
          rw [List.filterMap_cons_some hp, List.mem_cons] at ha
          rcases ha with rfl | ha
          · exact Or.inl (by simp)
          · rcases hq.flagged a ha with hn | ⟨o', ho', hf⟩
            · exact Or.inl (by simp [hn])
            · by_cases hac : a = c
              · exact Or.inl (by simp [hac])
              · exact Or.inr ⟨o', by simpa [flagTracing, hac] using ho', hf⟩

theorem pushChildren_effect (h : pushChildren s o = .ok s') :
    ∃ new, Queued s o.ownRefs new ∧ s' = s.queueTracing new := by
  have hmap : (o.ownRefs.map ObjPtr.own).filterMap ObjPtr.ownRef? = o.ownRefs := by
    rw [List.filterMap_map]
    exact List.filterMap_some
  have h' : (o.ownRefs.map ObjPtr.own).foldlM gcTracingWorklistPush s = .ok s' := by
    rw [List.foldlM_map]
    exact h
  simpa [hmap] using pushAll_effect h'

/-- The state the machine is in after a step that leaves these worklists. -/
def afterTracing (worklist : List Addr) (mutations : List ObjPtr) : TracingState :=
  if worklist = [] ∧ mutations = [] then .reclaimingCyclicCandidates
  else if mutations = [] then .tracing
  else .mutationPrepare

/-- The worklists of a trace are in use. -/
def InTrace (t : TracingState) : Prop := t = .tracing ∨ t = .mutationPrepare

instance (t : TracingState) : Decidable (InTrace t) := inferInstanceAs (Decidable (_ ∨ _))

/-- The iterations of the tracing loop during a trace. -/
inductive MarkStep : SyliState → SyliState → Prop where
  | popWaiting {s : SyliState} {a : Addr} {rest : List Addr} {o : GCObject} {t : TracingState}
      (g : Gauges) :
      s.tracingState = .tracing → s.tracingWorklist = a :: rest → s.heap a = some o →
      o.waitingRemove = true → t = afterTracing rest s.tracingMutationsWorklist →
      MarkStep s
        ((((s.setTracingWorklist rest).setGauges g).dropObj a).setTracingState t)
  | popSkip {s : SyliState} {a : Addr} {rest : List Addr} {o : GCObject} {t : TracingState} :
      s.tracingState = .tracing → s.tracingWorklist = a :: rest → s.heap a = some o →
      o.waitingRemove = false → o.refcount = 0 ∨ o.mark = s.tracingCurrentBitMark →
      t = afterTracing rest s.tracingMutationsWorklist →
      MarkStep s
        (((s.setObj a { o with tracing := false }).setTracingWorklist rest).setTracingState t)
  | popMark {s u : SyliState} {a : Addr} {rest new : List Addr} {o : GCObject} {t : TracingState}
      (b : Budgets) :
      s.tracingState = .tracing → s.tracingWorklist = a :: rest → s.heap a = some o →
      o.waitingRemove = false → 0 < o.refcount → o.mark ≠ s.tracingCurrentBitMark →
      u = ((s.setObj a { o with tracing := false, mark := s.tracingCurrentBitMark
        }).setTracingWorklist rest).setBudgets b →
      Queued u o.ownRefs new → t = afterTracing (new ++ rest) s.tracingMutationsWorklist →
      MarkStep s ((u.queueTracing new).setTracingState t)
  | mutationsDone {s : SyliState} {t : TracingState} :
      s.tracingState = .mutationPrepare → s.tracingMutationsWorklist = [] →
      t = (if s.tracingWorklist = [] then .reclaimingCyclicCandidates else .tracing) →
      MarkStep s (s.setTracingState t)
  | mutationWaiting {s : SyliState} {a : Addr} {rest : List ObjPtr} {o : GCObject} :
      s.tracingState = .mutationPrepare → s.tracingMutationsWorklist = .own a :: rest →
      s.heap a = some o → o.waitingRemove = true →
      MarkStep s ((s.setMutations rest).dropObj a)
  | mutationScan {s : SyliState} {a : Addr} {rest : List ObjPtr} {o : GCObject} {new : List Addr}
      (b : Budgets) :
      s.tracingState = .mutationPrepare → s.tracingMutationsWorklist = .own a :: rest →
      s.heap a = some o → o.waitingRemove = false →
      Queued ((s.setMutations rest).setBudgets b) o.ownRefs new →
      MarkStep s (((s.setMutations rest).setBudgets b).queueTracing new)

/-- The iterations of the tracing loop that reclaim the candidates left unmarked. -/
inductive ReclaimStep : SyliState → SyliState → Prop where
  | reclaimFree {s u s' : SyliState} {a : Addr} {rest : List Addr} (b : Budgets) :
      s.tracingState = .reclaimingCyclicCandidates → s.lostCycleWorklist = a :: rest →
      releaseChildrenOnce ((s.setBudgets b).setLostCycleWorklist rest) a = .ok u →
      freeReleasedObject u a = .ok s' → ReclaimStep s s'
  | reclaimDone {s : SyliState} (b : Budgets) :
      s.tracingState = .reclaimingCyclicCandidates → s.lostCycleWorklist = [] →
      s.currentCandidateCheckIndex = 0 → ReclaimStep s ((s.setBudgets b).setTracingState .idle)
  | scanIdle {s : SyliState} (b : Budgets) :
      s.tracingState = .reclaimingCyclicCandidates → s.lostCycleWorklist = [] →
      s.currentCandidateCheckIndex = 0 ∨ s.cyclicCandidates = [] →
      ReclaimStep s ((s.setBudgets b).setCheckIndex 0)
  | scanMarked {s : SyliState} {a : Addr} {o : GCObject} {i : Nat} (b : Budgets) :
      s.tracingState = .reclaimingCyclicCandidates → s.lostCycleWorklist = [] →
      min s.currentCandidateCheckIndex s.cyclicCandidates.length = i + 1 →
      s.cyclicCandidates[i]? = some a → s.heap a = some o → o.mark = s.tracingCurrentBitMark →
      ReclaimStep s ((s.setBudgets b).setCheckIndex i)
  | scanRelease {s u s' : SyliState} {a : Addr} {o o' : GCObject} {i : Nat} (b : Budgets) :
      s.tracingState = .reclaimingCyclicCandidates → s.lostCycleWorklist = [] →
      min s.currentCandidateCheckIndex s.cyclicCandidates.length = i + 1 →
      s.cyclicCandidates[i]? = some a → s.heap a = some o → o.mark ≠ s.tracingCurrentBitMark →
      releaseChildrenOnce ((s.setBudgets b).setCheckIndex i) a = .ok u → u.heap a = some o' →
      (o'.refcount = 0 ∧ s' = u.setLostCycleWorklist (a :: u.lostCycleWorklist) ∨
        0 < o'.refcount ∧ s' = u) →
      ReclaimStep s s'

/-- The iterations of the tracing loop that do not return. -/
inductive TracingStep (roots : List ObjPtr) : SyliState → SyliState → Prop where
  | start {s : SyliState} {new : List Addr} {t : TracingState} :
      TraceStarts s →
      Queued (tracingStart s) (roots.filterMap ObjPtr.ownRef?) new →
      t = (if new ++ s.tracingWorklist = [] ∧ s.tracingMutationsWorklist = []
        then .reclaimingCyclicCandidates else .tracing) →
      TracingStep roots s (((tracingStart s).queueTracing new).setTracingState t)
  | mark {s s' : SyliState} : MarkStep s s' → TracingStep roots s s'
  | reclaim {s s' : SyliState} : ReclaimStep s s' → TracingStep roots s s'

theorem MarkStep.inTrace (h : MarkStep s s') : InTrace s.tracingState := by
  cases h with
  | popWaiting _ hst _ _ _ _ => exact Or.inl hst
  | popSkip hst _ _ _ _ _ => exact Or.inl hst
  | popMark _ hst _ _ _ _ _ _ _ _ => exact Or.inl hst
  | mutationsDone hst _ _ => exact Or.inr hst
  | mutationWaiting hst _ _ _ => exact Or.inr hst
  | mutationScan _ hst _ _ _ _ => exact Or.inr hst

theorem ReclaimStep.reclaiming (h : ReclaimStep s s') :
    s.tracingState = .reclaimingCyclicCandidates := by
  cases h <;> assumption

theorem not_inTrace_of_reclaiming (h : s.tracingState = .reclaimingCyclicCandidates) :
    ¬ InTrace s.tracingState := by
  simp [h, InTrace]

variable {roots : List ObjPtr}

theorem setTracingState_self {t : TracingState} (h : s.tracingState = t) :
    s.setTracingState t = s := by
  subst h
  rfl

@[simp] theorem tracingStart_heap (s : SyliState) : (tracingStart s).heap = s.heap := rfl

@[simp] theorem tracingStart_next (s : SyliState) : (tracingStart s).next = s.next := rfl

@[simp] theorem tracingStart_cyclicCandidates (s : SyliState) :
    (tracingStart s).cyclicCandidates = s.cyclicCandidates := rfl

@[simp] theorem tracingStart_currentCandidateCheckIndex (s : SyliState) :
    (tracingStart s).currentCandidateCheckIndex = s.cyclicCandidates.length := rfl

@[simp] theorem tracingStart_tracingWorklist (s : SyliState) :
    (tracingStart s).tracingWorklist = s.tracingWorklist := rfl

@[simp] theorem tracingStart_tracingMutationsWorklist (s : SyliState) :
    (tracingStart s).tracingMutationsWorklist = s.tracingMutationsWorklist := rfl

@[simp] theorem tracingStart_tracingCurrentBitMark (s : SyliState) :
    (tracingStart s).tracingCurrentBitMark = !s.tracingCurrentBitMark := rfl

/-- An idle machine can only start a trace. -/
theorem TracingStep.of_idle (h : TracingStep roots s s') (hidle : s.tracingState = .idle) :
    ∃ new t, Queued (tracingStart s) (roots.filterMap ObjPtr.ownRef?) new ∧
      t = (if new ++ s.tracingWorklist = [] ∧ s.tracingMutationsWorklist = []
        then .reclaimingCyclicCandidates else .tracing) ∧
      s' = ((tracingStart s).queueTracing new).setTracingState t := by
  cases h with
  | start _ hq ht => exact ⟨_, _, hq, ht, rfl⟩
  | mark hs => exact absurd hs.inTrace (by simp [hidle, InTrace])
  | reclaim hs => exact absurd hs.reclaiming (by simp [hidle])

theorem gcOneStepTracing_effect (hs : s.tracingState = .tracing)
    (h : gcOneStepTracing s = .ok s') :
    s'.tracingState = .tracing ∧ MarkStep s
      (s'.setTracingState (afterTracing s'.tracingWorklist s'.tracingMutationsWorklist)) := by
  unfold gcOneStepTracing at h
  simp only [bind_eq_ok, deref_eq_ok, Prod.exists, gcVectorPopBack_eq_ok] at h
  obtain ⟨a, rest, hwl, o, ho, h⟩ := h
  split at h
  · rename_i hw
    obtain ⟨g, hg⟩ := gcAccountCyclicFree_effect
      ((s.setObj a { o with tracing := false }).setTracingWorklist rest) { o with tracing := false }
    rw [hg, free_eq_ok] at h
    obtain ⟨-, rfl⟩ := h
    have heq : (((s.setObj a { o with tracing := false }).setTracingWorklist rest).setGauges
        g).dropObj a = ((s.setTracingWorklist rest).setGauges g).dropObj a := by
      simp [SyliState.setObj, SyliState.dropObj, SyliState.setGauges, SyliState.setTracingWorklist]
    rw [heq]
    exact ⟨hs, .popWaiting g hs hwl ho hw rfl⟩
  · rename_i hw
    have hwait : o.waitingRemove = false := by simpa using hw
    split at h
    · obtain rfl := pure_eq_ok.mp h
      exact ⟨hs, .popSkip hs hwl ho hwait (Or.inl ‹_›) rfl⟩
    split at h
    · rename_i hmark
      obtain rfl := pure_eq_ok.mp h
      exact ⟨hs, .popSkip hs hwl ho hwait
        (Or.inr (by simpa [gcIsObjectMarkTagged] using hmark)) rfl⟩
    · rename_i hz hmark
      obtain ⟨new, hq, rfl⟩ := pushChildren_effect h
      refine ⟨hs, ?_⟩
      refine .popMark (s.chargeTracing o.header.slotBudget).budgets hs hwl ho hwait
        (Nat.pos_of_ne_zero hz)
        (by simpa [gcIsObjectMarkTagged] using hmark) ?_ hq rfl
      simp [SyliState.chargeTracing, SyliState.setObj, SyliState.setTracingWorklist,
        SyliState.setBudgets, gcMarkTagObject]

theorem gcOneStepPrepareTracingMutations_effect (hs : s.tracingState = .mutationPrepare)
    (h : gcOneStepPrepareTracingMutations s = .ok s') : MarkStep s s' := by
  unfold gcOneStepPrepareTracingMutations at h
  simp only [bind_eq_ok, Prod.exists, gcVectorPopBack_eq_ok] at h
  obtain ⟨p, rest, hwl, h⟩ := h
  split at h
  · cases h
  · rename_i a hp
    obtain rfl := ObjPtr.ownRef?_eq_some.mp hp
    simp only [bind_eq_ok, deref_eq_ok] at h
    obtain ⟨o, ho, h⟩ := h
    split at h
    · obtain ⟨-, rfl⟩ := free_eq_ok.mp h
      exact .mutationWaiting hs hwl ho ‹_›
    · rename_i hw
      obtain ⟨new, hq, rfl⟩ := pushChildren_effect h
      exact .mutationScan _ hs hwl ho (by simpa using hw) hq

theorem gcOneStepScan_effect (hs : s.tracingState = .reclaimingCyclicCandidates)
    (hl : s.lostCycleWorklist = []) (h : gcOneStepScan (s.chargeChecking 1) = .ok s') :
    ReclaimStep s s' := by
  unfold gcOneStepScan at h
  split at h
  · rename_i hmin
    obtain rfl := Except.ok.inj h
    refine .scanIdle _ hs hl ?_
    simpa using hmin
  · rename_i i hmin
    split at h
    · cases h
    · rename_i a hcand
      simp only [bind_eq_ok, deref_eq_ok] at h
      obtain ⟨o, ho, h⟩ := h
      split at h
      · rename_i hmark
        obtain rfl := pure_eq_ok.mp h
        exact .scanMarked _ hs hl hmin hcand ho (by simpa [gcIsObjectMarkTagged] using hmark)
      · rename_i hmark
        simp only [bind_eq_ok, deref_eq_ok] at h
        obtain ⟨u, hu, o', ho', h⟩ := h
        refine .scanRelease _ hs hl hmin hcand ho (by simpa [gcIsObjectMarkTagged] using hmark) hu
          ho' ?_
        split at h
        · rename_i hz
          simp only [lostCycleEnqueueFree, bind_eq_ok, deref_eq_ok, check_eq_ok, pure_eq_ok] at h
          obtain ⟨_, _, -, _, rfl⟩ := h
          exact Or.inl ⟨hz, rfl⟩
        · rename_i hz
          obtain rfl := pure_eq_ok.mp h
          exact Or.inr ⟨Nat.pos_of_ne_zero hz, rfl⟩

theorem syliStateGcTracing_effect (h : syliStateGcTracing s roots = .ok (some s')) :
    TracingStep roots s s' := by
  unfold syliStateGcTracing at h
  split at h
  · cases h
  rename_i hbudget
  split at h
  · rename_i hs
    split at h
    · rename_i htrig
      obtain ⟨u, hu, h⟩ := bind_eq_ok.mp h
      obtain ⟨new, hq, rfl⟩ := pushAll_effect hu
      have ht := TracingStep.start ⟨hs, by omega, htrig⟩ hq rfl
      split at h
      · rename_i he
        obtain rfl := Option.some.inj (pure_eq_ok.mp h)
        rwa [if_pos (by simpa [tracingStart] using he)] at ht
      · rename_i he
        obtain rfl := Option.some.inj (pure_eq_ok.mp h)
        rwa [if_neg (by simpa [tracingStart] using he)] at ht
    · cases h
  · rename_i hs
    obtain ⟨u, hu, h⟩ := bind_eq_ok.mp h
    obtain ⟨hstate, ht⟩ := gcOneStepTracing_effect hs hu
    replace ht := @TracingStep.mark roots _ _ ht
    unfold afterTracing at ht
    split at h
    · rename_i he
      obtain rfl := Option.some.inj (pure_eq_ok.mp h)
      rwa [if_pos he] at ht
    rename_i hne
    rw [if_neg hne] at ht
    split at h
    · rename_i he
      obtain rfl := Option.some.inj (pure_eq_ok.mp h)
      rwa [if_neg he] at ht
    · rename_i he
      obtain rfl := Option.some.inj (pure_eq_ok.mp h)
      rwa [if_pos (not_not.mp he), setTracingState_self hstate] at ht
  · rename_i hs
    split at h
    · rename_i hm
      split at h
      · rename_i hw
        obtain rfl := Option.some.inj (Except.ok.inj h)
        exact .mark <| .mutationsDone hs hm (by simp [hw])
      · rename_i hw
        obtain rfl := Option.some.inj (Except.ok.inj h)
        exact .mark <| .mutationsDone hs hm (by simp [not_not.mp hw])
    · obtain ⟨u, hu, h⟩ := bind_eq_ok.mp h
      obtain rfl := Option.some.inj (pure_eq_ok.mp h)
      exact .mark (gcOneStepPrepareTracingMutations_effect hs hu)
  · rename_i hs
    dsimp only at h
    split at h
    · rename_i hl
      obtain ⟨u, hu, h⟩ := bind_eq_ok.mp h
      obtain rfl := Option.some.inj (pure_eq_ok.mp h)
      simp only [gcOneStepFreeUnreachable, bind_eq_ok, Prod.exists, gcVectorPopBack_eq_ok] at hu
      obtain ⟨a, rest, hpop, v, hv, hf⟩ := hu
      exact .reclaim (.reclaimFree _ hs hpop hv hf)
    rename_i hl
    have hl : s.lostCycleWorklist = [] := by simpa using hl
    split at h
    · rename_i hi
      obtain rfl := Option.some.inj (pure_eq_ok.mp h)
      exact .reclaim (.reclaimDone _ hs hl (by simpa using hi))
    · obtain ⟨u, hu, h⟩ := bind_eq_ok.mp h
      obtain rfl := Option.some.inj (pure_eq_ok.mp h)
      exact .reclaim (gcOneStepScan_effect hs hl hu)

end Syli.Runtime
