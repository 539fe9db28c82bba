import Syli.Foundation.Descent
import Syli.Collector.CandidateScan
import Syli.Collector.TracingWorklists

/-! A call of the tracing loop does not iterate forever. -/
namespace Syli.Collector

open Foundation Syli.Runtime

variable {s s' u : SyliState} {a b : Addr} {o : GCObject} {roots : List ObjPtr}
variable {p q : GCObject → Bool}

/-- Whether a trace can be started depends on these two counters only. -/
structure SameTrigger (s s' : SyliState) : Prop where
  alloc : s'.gauges.cyclicObjAlloc = s.gauges.cyclicObjAlloc
  atTrace : s'.gauges.cyclicObjAllocAtTrace = s.gauges.cyclicObjAllocAtTrace

theorem SameTrigger.refl (s : SyliState) : SameTrigger s s := ⟨rfl, rfl⟩

theorem SameTrigger.trans (h : SameTrigger s u) (h' : SameTrigger u s') : SameTrigger s s' :=
  ⟨h'.alloc.trans h.alloc, h'.atTrace.trans h.atTrace⟩

theorem sameTrigger_account (s : SyliState) (o : GCObject) :
    SameTrigger s (gcAccountCyclicFree s o) := by
  unfold gcAccountCyclicFree
  split
  · exact ⟨rfl, rfl⟩
  · exact .refl s

theorem sameTrigger_freeReleasedObject (h : freeReleasedObject s a = .ok s') :
    SameTrigger s s' := by
  obtain ⟨o, u, -, -, ⟨candidates, index, rfl⟩, rfl | rfl⟩ := freeReleasedObject_cases h
  · exact ⟨rfl, rfl⟩
  · have haccount := sameTrigger_account (s.setRegistry candidates index) o
    exact ⟨haccount.alloc, haccount.atTrace⟩

theorem sameTrigger_childDecr (h : lostCycleChildDecr s a = .ok s') : SameTrigger s s' := by
  unfold lostCycleChildDecr at h
  simp only [bind_eq_ok, deref_eq_ok, syliObjectDecrLocal_effect] at h
  obtain ⟨_, ⟨o, -, -, rfl⟩, o', -, h⟩ := h
  split at h
  · split at h
    · simp only [lostCycleEnqueueFree, bind_eq_ok, deref_eq_ok, check_eq_ok, pure_eq_ok] at h
      obtain ⟨_, -, -, -, rfl⟩ := h
      exact ⟨rfl, rfl⟩
    · have hfree := sameTrigger_freeReleasedObject h
      exact ⟨hfree.alloc, hfree.atTrace⟩
  · obtain rfl := pure_eq_ok.mp h
    exact ⟨rfl, rfl⟩

theorem sameTrigger_releaseOnce (h : releaseChildrenOnce s a = .ok s') : SameTrigger s s' := by
  simp only [releaseChildrenOnce, bind_eq_ok, deref_eq_ok] at h
  obtain ⟨o, -, h⟩ := h
  split at h
  · obtain rfl := pure_eq_ok.mp h
    exact .refl _
  · refine foldlM_invariant (P := fun _ u => SameTrigger s u) h ⟨rfl, rfl⟩ ?_
    intro c cs u v hu hv
    exact hu.trans (sameTrigger_childDecr hv)

theorem sameTrigger_gcOneStepTracing (h : gcOneStepTracing s = .ok s') : SameTrigger s s' := by
  simp only [gcOneStepTracing, bind_eq_ok, deref_eq_ok, Prod.exists, gcVectorPopBack_eq_ok] at h
  obtain ⟨a, rest, -, o, -, h⟩ := h
  split at h
  · obtain ⟨-, rfl⟩ := free_eq_ok.mp h
    have haccount := sameTrigger_account
      ((s.setObj a { o with tracing := false }).setTracingWorklist rest) { o with tracing := false }
    exact ⟨haccount.alloc, haccount.atTrace⟩
  split at h
  · obtain rfl := pure_eq_ok.mp h
    exact ⟨rfl, rfl⟩
  split at h
  · obtain rfl := pure_eq_ok.mp h
    exact ⟨rfl, rfl⟩
  · obtain ⟨new, -, rfl⟩ := pushChildren_effect h
    exact ⟨rfl, rfl⟩

theorem sameTrigger_reclaimStep (hs : ReclaimStep s s') : SameTrigger s s' := by
  cases hs with
  | reclaimFree b _ _ hu hf =>
    have hrelease := sameTrigger_releaseOnce hu
    have hfree := sameTrigger_freeReleasedObject hf
    exact ⟨hfree.alloc.trans hrelease.alloc, hfree.atTrace.trans hrelease.atTrace⟩
  | scanRelease b _ _ _ _ _ _ hu _ hs' =>
    have hrelease := sameTrigger_releaseOnce hu
    rcases hs' with ⟨-, rfl⟩ | ⟨-, rfl⟩
    · exact ⟨hrelease.alloc, hrelease.atTrace⟩
    · exact ⟨hrelease.alloc, hrelease.atTrace⟩
  | _ => exact ⟨rfl, rfl⟩

/-- Only the start of a trace changes the counters that trigger one. -/
theorem sameTrigger_iterate (hbusy : s.tracingState ≠ .idle)
    (h : syliStateGcTracing s roots = .ok (some s')) : SameTrigger s s' := by
  have hstep := syliStateGcTracing_effect h
  unfold syliStateGcTracing at h
  split at h
  · cases h
  split at h
  · exact absurd ‹_› hbusy
  · obtain ⟨u, hu, h⟩ := bind_eq_ok.mp h
    have hu' := sameTrigger_gcOneStepTracing hu
    split at h
    · obtain rfl := Option.some.inj (pure_eq_ok.mp h)
      exact ⟨hu'.alloc, hu'.atTrace⟩
    split at h
    · obtain rfl := Option.some.inj (pure_eq_ok.mp h)
      exact ⟨hu'.alloc, hu'.atTrace⟩
    · obtain rfl := Option.some.inj (pure_eq_ok.mp h)
      exact hu'
  · rename_i hst
    cases hstep with
    | start ht _ _ => exact absurd ht.1 hbusy
    | reclaim hs => exact absurd (hst.symm.trans hs.reclaiming) (by simp)
    | mark hs =>
      cases hs with
      | popWaiting _ hst' _ _ _ _ => simp [hst] at hst'
      | popSkip hst' _ _ _ _ _ => simp [hst] at hst'
      | popMark _ hst' _ _ _ _ _ _ _ _ => simp [hst] at hst'
      | mutationsDone _ _ _ => exact ⟨rfl, rfl⟩
      | mutationWaiting _ _ _ _ => exact ⟨rfl, rfl⟩
      | mutationScan _ _ _ _ _ _ => exact ⟨rfl, rfl⟩
  · rename_i hst
    cases hstep with
    | start ht _ _ => exact absurd ht.1 hbusy
    | mark hs => exact absurd hs.inTrace (not_inTrace_of_reclaiming hst)
    | reclaim hs => exact sameTrigger_reclaimStep hs

/-- The number of allocated objects that pass the test. -/
def countObjects (p : GCObject → Bool) (s : SyliState) : Nat :=
  ((Finset.range s.next).filter fun a => (s.heap a).any p = true).card

theorem mem_countObjects :
    a ∈ (Finset.range s.next).filter (fun a => (s.heap a).any p = true) ↔
      a < s.next ∧ ∃ o, s.heap a = some o ∧ p o = true := by
  rw [Finset.mem_filter, Finset.mem_range]
  cases ho : s.heap a <;> simp

theorem countObjects_le (hn : s'.next = s.next) (h : ∀ a o', s'.heap a = some o' → q o' = true →
    ∃ o, s.heap a = some o ∧ p o = true) : countObjects q s' ≤ countObjects p s := by
  apply Finset.card_le_card
  intro b hb
  obtain ⟨hlt, o', ho', hq⟩ := mem_countObjects.mp hb
  exact mem_countObjects.mpr ⟨hn ▸ hlt, h b o' ho' hq⟩

theorem countObjects_lt (hn : s'.next = s.next) (h : ∀ a o', s'.heap a = some o' → q o' = true →
    ∃ o, s.heap a = some o ∧ p o = true) (hlt : b < s.next) (ho : s.heap b = some o)
    (hp : p o = true) (hgone : ∀ o', s'.heap b = some o' → q o' = false) :
    countObjects q s' < countObjects p s := by
  apply Finset.card_lt_card
  rw [Finset.ssubset_iff_of_subset]
  · refine ⟨b, mem_countObjects.mpr ⟨hlt, o, ho, hp⟩, ?_⟩
    intro hb
    obtain ⟨-, o', ho', hq⟩ := mem_countObjects.mp hb
    simp [hgone o' ho'] at hq
  · intro c hc
    obtain ⟨hlt', o', ho', hq⟩ := mem_countObjects.mp hc
    exact mem_countObjects.mpr ⟨hn ▸ hlt', h c o' ho' hq⟩

/-- The objects that the trace has not marked yet. -/
def unmarkedObjects (s : SyliState) : Nat :=
  countObjects (fun o => o.mark != s.tracingCurrentBitMark) s

/-- The objects that still count their children. -/
def unreleasedObjects (s : SyliState) : Nat := countObjects (fun o => !o.childrenReleased) s

/-- A trace empties the queue of mutations, then marks objects, and queues only when it marks. -/
def traceWork (s : SyliState) : ℕ ×ₗ ℕ ×ₗ ℕ ×ₗ ℕ :=
  toLex (s.tracingMutationsWorklist.length, toLex (unmarkedObjects s,
    toLex (s.tracingWorklist.length, if s.tracingState = .mutationPrepare then 1 else 0)))

/-- The reclaiming releases the children of an object once, and queues only then. -/
def reclaimWork (s : SyliState) : ℕ ×ₗ ℕ ×ₗ ℕ ×ₗ ℕ :=
  toLex (unreleasedObjects s, toLex (s.currentCandidateCheckIndex,
    toLex (s.lostCycleWorklist.length, 0)))

def startsLeft (s : SyliState) : Nat :=
  if s.gauges.cyclicObjAlloc > s.gauges.cyclicObjAllocAtTrace then 1 else 0

def phasesLeft (s : SyliState) : Nat :=
  3 * startsLeft s +
    match s.tracingState with
    | .idle => 0
    | .reclaimingCyclicCandidates => 1
    | _ => 2

/-- What a call has left: the phases of at most one more trace, and the work of the phase. -/
def sliceRank (s : SyliState) : ℕ ×ₗ ℕ ×ₗ ℕ ×ₗ ℕ ×ₗ ℕ :=
  toLex (phasesLeft s,
    if s.tracingState = .reclaimingCyclicCandidates then reclaimWork s else traceWork s)

theorem startsLeft_eq (h : SameTrigger s s') : startsLeft s' = startsLeft s := by
  simp only [startsLeft, h.alloc, h.atTrace]

theorem phasesLeft_of_inTrace (h : InTrace s.tracingState) :
    phasesLeft s = 3 * startsLeft s + 2 := by
  unfold phasesLeft
  rcases h with h | h <;> rw [h]

theorem phasesLeft_of_reclaiming (h : s.tracingState = .reclaimingCyclicCandidates) :
    phasesLeft s = 3 * startsLeft s + 1 := by
  unfold phasesLeft
  rw [h]

theorem phasesLeft_of_idle (h : s.tracingState = .idle) : phasesLeft s = 3 * startsLeft s := by
  unfold phasesLeft
  rw [h]
  rfl

/-- A step of the trace shortens the queue of mutations, marks an object or shortens the
worklist. -/
theorem traceWork_lt (hf : Freed s) (hs : MarkStep s s') : traceWork s' < traceWork s := by
  have hnext := hs.next
  cases hs with
  | @popWaiting a rest o t g hst hwl _ _ _ =>
    refine toLex_lt_of_le (Nat.le_refl _) (toLex_lt_of_le ?_ (toLex_lt_of_lt ?_))
    · exact countObjects_le rfl fun c oc hc hq => ⟨oc, (heap_drop_cases rfl hc).2, hq⟩
    · change rest.length < s.tracingWorklist.length
      simp [hwl]
  | @popSkip a rest o t hst hwl ho _ _ _ =>
    refine toLex_lt_of_le (Nat.le_refl _) (toLex_lt_of_le ?_ (toLex_lt_of_lt ?_))
    · refine countObjects_le rfl fun c oc hc hq => ?_
      rcases heap_cases rfl hc with ⟨rfl, rfl⟩ | ⟨-, hc'⟩
      · exact ⟨o, ho, hq⟩
      · exact ⟨oc, hc', hq⟩
    · change rest.length < s.tracingWorklist.length
      simp [hwl]
  | @popMark u a rest new o t b hst hwl ho _ _ hmark hu _ _ =>
    subst hu
    refine toLex_lt_of_le (Nat.le_refl _) (toLex_lt_of_lt ?_)
    refine countObjects_lt hnext ?_ (hf.live a o ho).2 ho (by simpa using hmark) ?_
    · intro c oc hc hq
      obtain ⟨o₁, ho₁, -, -, hm, -⟩ := flag_cases rfl hc
      rcases heap_cases (s := s) rfl ho₁ with ⟨rfl, rfl⟩ | ⟨-, hc'⟩
      · simp [hm] at hq
      · exact ⟨o₁, hc', by simpa [hm] using hq⟩
    · intro oc hc
      obtain ⟨o₁, ho₁, -, -, hm, -⟩ := flag_cases rfl hc
      obtain rfl : { o with tracing := false, mark := s.tracingCurrentBitMark } = o₁ := by
        simpa using ho₁
      simp [hm]
  | mutationsDone hst hmut ht =>
    rename_i t
    refine toLex_lt_of_le (Nat.le_refl _) (toLex_lt_of_le (Nat.le_refl _)
      (toLex_lt_of_le (Nat.le_refl _) ?_))
    have ht' : t ≠ .mutationPrepare := by
      rw [ht]
      split <;> simp
    change (if t = .mutationPrepare then 1 else 0) <
      if s.tracingState = .mutationPrepare then 1 else 0
    rw [if_neg ht', if_pos hst]
    exact Nat.zero_lt_one
  | @mutationWaiting a rest o _ hmut _ _ =>
    refine toLex_lt_of_lt ?_
    change rest.length < s.tracingMutationsWorklist.length
    simp [hmut]
  | @mutationScan a rest o new b _ hmut _ _ _ =>
    refine toLex_lt_of_lt ?_
    change rest.length < s.tracingMutationsWorklist.length
    simp [hmut]

/-- What a release of children does to the measure of the reclaiming: nothing, where they had been
released, and else one object less counts its children. -/
theorem unreleased_releaseOnce (hlt : a < s.next) (h : releaseChildrenOnce s a = .ok s') :
    s' = s ∨ unreleasedObjects s' < unreleasedObjects s := by
  obtain ⟨o, ho, ⟨-, heq⟩ | ⟨hcr, -⟩⟩ := releaseChildrenOnce_effect h
  · exact Or.inl heq
  · right
    refine countObjects_lt (releaseChildrenOnce_next h) ?_ hlt ho (by simp [hcr]) ?_
    · intro c oc hc hq
      obtain ⟨o₁, ho₁, hkeep⟩ := released_of_releaseOnce h hc
      refine ⟨o₁, ho₁, ?_⟩
      by_contra hreleased
      simp only [Bool.not_eq_true', Bool.not_eq_false] at hreleased hq
      simp [hkeep hreleased] at hq
    · intro oc hc
      simp [releaseChildrenOnce_released h hc]

/-- A step of the reclaiming releases children, moves the cursor or shortens the list of the lost
objects. -/
theorem reclaimWork_lt (hf : Freed s) (hs : ReclaimStep s s')
    (hleft : ¬ (s.lostCycleWorklist = [] ∧ s.currentCandidateCheckIndex = 0)) :
    reclaimWork s' < reclaimWork s := by
  cases hs with
  | @reclaimFree u _ a rest b hst hlost hu hfree =>
    obtain ⟨o, ho, hr⟩ := freeReleasedObject_effect hfree
    have hle : unreleasedObjects s' ≤ unreleasedObjects u := by
      have hnext : s'.next = u.next := by cases hr <;> rfl
      refine countObjects_le hnext fun c oc hc hq => ?_
      obtain ⟨o₁, ho₁, -, -, -, hcr, -⟩ := hr.obj ho hc
      exact ⟨o₁, ho₁, by simpa [← hcr] using hq⟩
    obtain ⟨oa, hoa, -⟩ := releaseChildrenOnce_effect hu
    have hlt : a < ((s.setBudgets b).setLostCycleWorklist rest).next := (hf.live a oa hoa).2
    rcases unreleased_releaseOnce hlt hu with rfl | hless
    · have hsame := sameScan_removed hr
      have hlost' : s'.lostCycleWorklist = rest := by cases hr <;> rfl
      refine toLex_lt_of_le hle (toLex_lt_of_le (Nat.le_of_eq hsame.index) (toLex_lt_of_lt ?_))
      rw [hlost', hlost]
      exact Nat.lt_succ_self _
    · exact toLex_lt_of_lt (Nat.lt_of_le_of_lt hle hless)
  | reclaimDone b _ hlost hzero => exact absurd ⟨hlost, hzero⟩ hleft
  | scanIdle b _ hlost _ =>
    have hne : s.currentCandidateCheckIndex ≠ 0 := fun hzero => hleft ⟨hlost, hzero⟩
    exact toLex_lt_of_le (Nat.le_refl _) (toLex_lt_of_lt (Nat.pos_of_ne_zero hne))
  | @scanMarked a o i b _ _ hmin _ _ _ =>
    refine toLex_lt_of_le (Nat.le_refl _) (toLex_lt_of_lt ?_)
    change i < s.currentCandidateCheckIndex
    omega
  | @scanRelease u _ a o o' i b _ _ hmin _ ho _ hu _ hs' =>
    have hindex : s'.currentCandidateCheckIndex = i ∧
        unreleasedObjects s' = unreleasedObjects u := by
      rcases hs' with ⟨-, rfl⟩ | ⟨-, rfl⟩
      · exact ⟨(sameScan_releaseOnce hu).index, rfl⟩
      · exact ⟨(sameScan_releaseOnce hu).index, rfl⟩
    have hlt : a < ((s.setBudgets b).setCheckIndex i).next := (hf.live a o ho).2
    have hle : unreleasedObjects u ≤ unreleasedObjects s := by
      rcases unreleased_releaseOnce hlt hu with rfl | hless
      · exact Nat.le_refl _
      · exact Nat.le_of_lt hless
    refine toLex_lt_of_le (hindex.2.trans_le hle) (toLex_lt_of_lt ?_)
    rw [hindex.1]
    omega

theorem sliceRank_of_reclaiming (h : s.tracingState = .reclaimingCyclicCandidates) :
    sliceRank s = toLex (phasesLeft s, reclaimWork s) := by
  rw [sliceRank, if_pos h]

theorem sliceRank_of_inTrace (h : InTrace s.tracingState) :
    sliceRank s = toLex (phasesLeft s, traceWork s) := by
  have hne : s.tracingState ≠ .reclaimingCyclicCandidates :=
    fun hst => not_inTrace_of_reclaiming hst h
  rw [sliceRank, if_neg hne]

/-- Every iteration brings the end of the call nearer. -/
theorem sliceRank_lt (hf : Freed s) (h : syliStateGcTracing s roots = .ok (some s')) :
    sliceRank s' < sliceRank s := by
  have hstep := syliStateGcTracing_effect h
  cases hstep with
  | @start new t hstart hq ht =>
    obtain ⟨hidle, -, htrig⟩ := hstart
    have hleft : startsLeft s = 1 := by
      simp only [tracingTriggered, Bool.and_eq_true, decide_eq_true_eq] at htrig
      exact if_pos htrig.2
    have hnone : startsLeft (((tracingStart s).queueTracing new).setTracingState t) = 0 :=
      if_neg (Nat.lt_irrefl _)
    refine toLex_lt_of_lt ?_
    rw [phasesLeft_of_idle hidle, hleft, phasesLeft, hnone]
    split <;> omega
  | mark hs =>
    have hbusy : s.tracingState ≠ .idle := by
      rcases hs.inTrace with hst | hst <;> simp [hst]
    have hleft := startsLeft_eq (sameTrigger_iterate hbusy h)
    rw [sliceRank_of_inTrace hs.inTrace, phasesLeft_of_inTrace hs.inTrace]
    cases hst' : s'.tracingState with
    | idle => exact absurd hst' (markStep_state_ne hs)
    | reclaimingCyclicCandidates =>
      rw [sliceRank_of_reclaiming hst', phasesLeft_of_reclaiming hst', hleft]
      exact toLex_lt_of_lt (by omega)
    | tracing =>
      have hin : InTrace s'.tracingState := Or.inl hst'
      rw [sliceRank_of_inTrace hin, phasesLeft_of_inTrace hin, hleft]
      exact toLex_lt_of_le (Nat.le_refl _) (traceWork_lt hf hs)
    | mutationPrepare =>
      have hin : InTrace s'.tracingState := Or.inr hst'
      rw [sliceRank_of_inTrace hin, phasesLeft_of_inTrace hin, hleft]
      exact toLex_lt_of_le (Nat.le_refl _) (traceWork_lt hf hs)
  | reclaim hs =>
    have hst := hs.reclaiming
    have hleft := startsLeft_eq (sameTrigger_iterate (by simp [hst]) h)
    rw [sliceRank_of_reclaiming hst, phasesLeft_of_reclaiming hst]
    rcases reclaimStep_state hs with hst' | hst'
    · rw [sliceRank_of_reclaiming hst', phasesLeft_of_reclaiming hst', hleft]
      refine toLex_lt_of_le (Nat.le_refl _) (reclaimWork_lt hf hs ?_)
      rintro ⟨hlost, hzero⟩
      simp [iterate_done hst hlost hzero h] at hst'
    · refine toLex_lt_of_lt ?_
      rw [phasesLeft_of_idle hst', hleft]
      omega

/-- An iteration of the tracing loop that does not return. -/
def Iterates (roots : List ObjPtr) (s s' : SyliState) : Prop :=
  syliStateGcTracing s roots = .ok (some s')

/-- No call of the tracing loop iterates forever. -/
theorem slice_acc (hf : Freed s) : Acc (flip (Iterates roots)) s :=
  acc_of_rank (P := Freed) sliceRank
    (fun _ _ hs h => ⟨hs.tracingStep (syliStateGcTracing_effect h), sliceRank_lt hs h⟩) hf

theorem freed_of_runs {ok : Machine → Action → Prop} {env : Env} {globals : Nat} {m : Machine}
    (hr : Runs Machine.step ok (Machine.init env globals) m) : Freed m.rt :=
  hr.invariant (P := fun m => Freed m.rt) (freed_init env globals) fun _ _ _ h _ hstep =>
    freed_move h (step_move hstep)

end Syli.Collector
