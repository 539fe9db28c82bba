import Syli.Collector.Reclaiming

/-! A full collection as a run: it does not fail, it ends, and it frees what the owners do not
reach. -/
namespace Syli.Collector

open Foundation Syli.Runtime

variable {s s' s₁ : SyliState} {m₀ : Owned} {a b x : Addr} {o : GCObject}
variable {roots : List ObjPtr} {rest new : List Addr} {act : CollectAction}

/-- A step of the trace leaves the machine tracing as long as objects are queued. -/
theorem markStep_state (h : MarkStep s s') (hst : s.tracingState = .tracing)
    (hmut : s.tracingMutationsWorklist = []) :
    s'.tracingState = if s'.tracingWorklist = [] then .reclaimingCyclicCandidates else .tracing := by
  cases h with
  | popWaiting _ _ _ _ _ ht =>
    subst ht
    simp [afterTracing, hmut]
  | popSkip _ _ _ _ _ ht =>
    subst ht
    simp [afterTracing, hmut]
  | popMark _ _ _ _ _ _ _ hu _ ht =>
    subst ht hu
    simp [afterTracing, hmut]
  | mutationsDone hst' _ _ => simp [hst] at hst'
  | mutationWaiting hst' _ _ _ => simp [hst] at hst'
  | mutationScan _ hst' _ _ _ _ => simp [hst] at hst'

/-- The reclaiming goes on, or ends the collection. -/
theorem reclaimStep_state (h : ReclaimStep s s') :
    s'.tracingState = .reclaimingCyclicCandidates ∨ s'.tracingState = .idle := by
  cases h with
  | reclaimFree b hst _ hu hf =>
    obtain ⟨o, -, hr⟩ := freeReleasedObject_effect hf
    exact Or.inl ((hr.tracingState.trans (releaseChildrenOnce_state hu)).trans hst)
  | reclaimDone _ _ _ _ => exact Or.inr rfl
  | scanIdle _ hst _ _ => exact Or.inl hst
  | scanMarked _ hst _ _ _ _ _ => exact Or.inl hst
  | scanRelease _ hst _ _ _ _ _ hu _ hs' =>
    have hst' := (releaseChildrenOnce_state hu).trans hst
    rcases hs' with ⟨-, rfl⟩ | ⟨-, rfl⟩
    · exact Or.inl hst'
    · exact Or.inl hst'

/-- The trace is over: the marked objects are those that the owners reach. -/
theorem MarkPhase.reclaiming (h₀ : IdleHeap m₀) (h : MarkPhase m₀ s) (hwl : s.tracingWorklist = [])
    (hst : s.tracingState = .reclaimingCyclicCandidates) : Reclaiming m₀ s := by
  have hcells : ∀ a o, s.heap a = some o → ∃ o₀ mark, m₀.rt.heap a = some o₀ ∧
      o = { o₀ with mark := mark } := by
    intro a o ho
    obtain ⟨o₀, mark, tracing, ho₀, rfl⟩ := h.cells a o ho
    have htr := (h.ledger.not_waiting (not_inTrace_of_reclaiming hst) ho).2
    obtain rfl : tracing = o₀.tracing := htr.trans (h₀.quiet ho₀).2.symm
    exact ⟨o₀, mark, ho₀, rfl⟩
  constructor
  · exact
      { ledger := h.ledger
        owners := fun _ => id
        reclaiming := hst
        releasing := h.releasing
        next := h.next
        cells := by
          intro a o ho
          obtain ⟨o₀, mark, ho₀, rfl⟩ := hcells a o ho
          exact ⟨o₀, _, _, _, ho₀, rfl⟩
        marked := h.marked_reach
        kept := by
          intro a ha
          obtain ⟨o, ho, hmark⟩ := (h.marked_iff hwl a).mpr ha
          obtain ⟨o₀, mark, ho₀, rfl⟩ := hcells a o ho
          exact ⟨_, ho, h₀.intact a o₀ ho₀, hmark⟩
        zero := by
          intro a o ho hz
          obtain ⟨o₀, mark, ho₀, rfl⟩ := hcells a o ho
          exact absurd hz (Nat.ne_of_gt (h₀.counted a o₀ ho₀)) }
  · constructor <;> simp [releaseQueues, h.releasing, h.lost]
  · exact h.registered
  · exact h.freed
  · intro i a ha hle
    have hlt := (List.getElem?_eq_some_iff.mp ha).1
    rw [h.index] at hle
    omega

/-- Where a collection stands. -/
def Collecting (m₀ : Owned) (s : SyliState) : Prop :=
  s.tracingState = .tracing ∧ s.tracingWorklist ≠ [] ∧ MarkPhase m₀ s ∨ Reclaiming m₀ s ∨
    s.tracingState = .idle ∧ Collected m₀ s

namespace Collecting

variable (h₀ : IdleHeap m₀)

include h₀ in
theorem of_markPhase (h : MarkPhase m₀ s)
    (hst : s.tracingState =
      if s.tracingWorklist = [] then .reclaimingCyclicCandidates else .tracing) :
    Collecting m₀ s := by
  by_cases hwl : s.tracingWorklist = []
  · rw [if_pos hwl] at hst
    exact Or.inr (Or.inl (h.reclaiming h₀ hwl hst))
  · rw [if_neg hwl] at hst
    exact Or.inl ⟨hst, hwl, h⟩

theorem setBudgets (h : Collecting m₀ s) (b : Budgets) : Collecting m₀ (s.setBudgets b) := by
  rcases h with ⟨hst, hwl, h⟩ | h | ⟨hst, h⟩
  · exact Or.inl ⟨hst, hwl, { h with
      ledger := { h.ledger with }, deferred := { h.deferred with }
      registered := { h.registered with }, freed := { h.freed with } }⟩
  · exact Or.inr (Or.inl
      { phase := { h.phase with ledger := { h.phase.ledger with } }
        separate := { h.separate with }
        registered := { h.registered with }
        freed := { h.freed with }
        scanned := h.scanned })
  · exact Or.inr (Or.inr ⟨hst, { h with }⟩)

theorem lost_alive (h : Reclaiming m₀ s) : ∀ a ∈ s.lostCycleWorklist, ∃ o, s.heap a = some o := by
  intro a ha
  obtain ⟨o, ho, -⟩ := h.separate.alive a (List.mem_append_right _ ha)
  exact ⟨o, ho⟩

include h₀ in
/-- No iteration of the collection fails. -/
theorem iterate_ok (h : Collecting m₀ s) (hidle : s.tracingState ≠ .idle) :
    ∃ r, syliStateGcTracing s roots = .ok r := by
  rcases h with ⟨hst, hwl, h⟩ | h | ⟨hst, -⟩
  · obtain ⟨a, rest, hwl⟩ := List.exists_cons_of_ne_nil hwl
    obtain ⟨o, ho, -⟩ := (h.deferred.flagged a).mp (hwl ▸ List.mem_cons_self)
    refine tracing_iterate_ok hst hwl ho fun _ _ _ c hc => ?_
    obtain ⟨oc, hoc⟩ : ∃ oc, m₀.rt.heap c = some oc := by
      have hedge := h.ownRefs h₀ ho hc
      obtain ⟨o₀, -, -, ho₀, -⟩ := h.cells a o ho
      obtain ⟨oc, hoc, -⟩ := h₀.ledger.exists_of_edge (h₀.ledger.lt_next ho₀) hedge
      exact ⟨oc, hoc⟩
    by_contra hno
    have hnone := h.kept c (Option.eq_none_iff_forall_ne_some.mpr fun o ho => hno ⟨o, ho⟩)
    simp [hoc] at hnone
  · exact (reclaim_iterate_ok h.registered h.phase.ledger h.phase.reclaiming
      (lost_alive h)).imp fun _ hr => hr.1
  · exact absurd hst hidle

include h₀ in
theorem iterate (h : Collecting m₀ s) (hidle : s.tracingState ≠ .idle) (hok : ScansOthers s)
    (hstep : syliStateGcTracing s roots = .ok (some s')) : Collecting m₀ s' := by
  have hbudget : 0 < s.budgets.tracing := by
    by_contra hb
    rw [syliStateGcTracing, if_pos (Int.not_lt.mp hb)] at hstep
    simp at hstep
  have hs := syliStateGcTracing_effect hstep
  rcases h with ⟨hst, hwl, h⟩ | h | ⟨hst, -⟩
  · cases hs with
    | start hstarts _ _ => exact absurd hstarts.1 hidle
    | mark hs => exact of_markPhase h₀ (h.step h₀ hst hs) (markStep_state hs hst h.mutations)
    | reclaim hs => exact absurd (hst.symm.trans hs.reclaiming) (by simp)
  · cases hs with
    | start hstarts _ _ => exact absurd hstarts.1 hidle
    | mark hs => exact absurd hs.inTrace (not_inTrace_of_reclaiming h.phase.reclaiming)
    | reclaim hs =>
      obtain ⟨r, hr, hall⟩ : ∃ r, syliStateGcTracing s roots = .ok r ∧
          ∀ s' ∈ r, Registered s' ∧ Descends s s' :=
        reclaim_iterate_ok h.registered h.phase.ledger h.phase.reclaiming (lost_alive h)
      obtain rfl := Except.ok.inj (hstep.symm.trans hr)
      obtain ⟨hreg, hd⟩ := hall s' rfl
      rcases h.step h₀ hbudget hok hs hreg hd with h' | ⟨hlost, hindex, b, rfl⟩
      · exact Or.inr (Or.inl h')
      · exact Or.inr (Or.inr ⟨rfl, { h.collected h₀ hlost hindex with }⟩)
  · exact absurd hst hidle

end Collecting

def unmarked (s : SyliState) : Finset Addr := {a ∈ Finset.range s.next | ¬ Marked s a}

def unfreed (s : SyliState) : Finset Addr := {a ∈ Finset.range s.next | (s.heap a).isSome}

/-- The iterations that a collection has left, at most. -/
def collectWork (s : SyliState) : Nat :=
  match s.tracingState with
  | .idle => 0
  | .reclaimingCyclicCandidates => (unfreed s).card + s.currentCandidateCheckIndex + 1
  | _ => (unmarked s).card * (s.next + 1) + s.tracingWorklist.length +
      (s.next + s.currentCandidateCheckIndex + 2)

theorem unfreed_subset (hn : s'.next = s.next)
    (hobj : ∀ b o', s'.heap b = some o' → ∃ o, s.heap b = some o) : unfreed s' ⊆ unfreed s := by
  intro b hb
  obtain ⟨hlt, hsome⟩ := Finset.mem_filter.mp hb
  obtain ⟨o', ho'⟩ := Option.isSome_iff_exists.mp hsome
  obtain ⟨o, ho⟩ := hobj b o' ho'
  exact Finset.mem_filter.mpr ⟨hn ▸ hlt, by simp [ho]⟩

theorem unfreed_card_le (s : SyliState) : (unfreed s).card ≤ s.next := by
  have hcard := Finset.card_filter_le (Finset.range s.next) fun a => (s.heap a).isSome
  rwa [Finset.card_range] at hcard

/-- A step of the trace marks an object, or takes one off the worklist. -/
theorem MarkPhase.work (h₀ : IdleHeap m₀) (h : MarkPhase m₀ s) (hst : s.tracingState = .tracing)
    (hs : MarkStep s s') :
    (unmarked s').card * (s'.next + 1) + s'.tracingWorklist.length <
      (unmarked s).card * (s.next + 1) + s.tracingWorklist.length ∧ s'.next = s.next ∧
        s'.currentCandidateCheckIndex = s.currentCandidateCheckIndex := by
  cases hs with
  | popWaiting _ _ _ ho hw _ =>
    obtain ⟨o₀, _, _, ho₀, rfl⟩ := h.cells _ _ ho
    simp [(h₀.quiet ho₀).1] at hw
  | @popSkip a rest o t _ hwl ho _ hskip ht =>
    have hset : ∀ x, Marked (s.setObj a { o with tracing := false }) x ↔ Marked s x :=
      marked_setObj ho rfl
    have heq : unmarked (((s.setObj a { o with tracing := false }).setTracingWorklist
        rest).setTracingState t) = unmarked s :=
      Finset.filter_congr fun x _ => not_congr (hset x)
    refine ⟨?_, rfl, rfl⟩
    rw [heq, hwl, List.length_cons]
    exact Nat.lt_succ_self _
  | @popMark u a rest new o t b _ hwl ho _ _ hmark hu hq ht =>
    have hlt : (unmarked ((u.queueTracing new).setTracingState t)).card < (unmarked s).card := by
      subst hu
      apply Finset.card_lt_card
      rw [Finset.ssubset_iff_of_subset]
      · refine ⟨a, Finset.mem_filter.mpr ⟨?_, ?_⟩, ?_⟩
        · exact Finset.mem_range.mpr (h.ledger.lt_next ho)
        · rintro ⟨o', ho', hm⟩
          obtain rfl := Option.some.inj (ho.symm.trans ho')
          exact hmark hm
        · intro hmem
          exact (Finset.mem_filter.mp hmem).2 (marked_popMark.mpr (Or.inl rfl))
      · intro x hx
        obtain ⟨hrange, hnot⟩ := Finset.mem_filter.mp hx
        exact Finset.mem_filter.mpr ⟨hrange, fun hm => hnot (marked_popMark.mpr (Or.inr hm))⟩
    have hnew : new.length ≤ s.next := by
      have hsub : new ⊆ List.range s.next := by
        intro c hc
        obtain ⟨-, oc, hoc, -⟩ := hq.unflagged c hc
        subst hu
        rcases heap_cases (s := s) rfl hoc with ⟨rfl, -⟩ | ⟨-, hb⟩
        · exact List.mem_range.mpr (h.ledger.lt_next ho)
        · exact List.mem_range.mpr (h.ledger.lt_next hb)
      simpa using (hq.nodup.subperm hsub).length_le
    subst hu
    refine ⟨?_, rfl, rfl⟩
    have hmul := Nat.mul_le_mul_right (s.next + 1) hlt
    rw [Nat.succ_mul] at hmul
    simp only [SyliState.setTracingState_next, SyliState.setTracingState_tracingWorklist,
      SyliState.queueTracing_next, SyliState.queueTracing_tracingWorklist,
      SyliState.setBudgets_next, SyliState.setBudgets_tracingWorklist,
      SyliState.setTracingWorklist_next, SyliState.setTracingWorklist_tracingWorklist,
      SyliState.setObj_next, List.length_append, hwl, List.length_cons]
    omega
  | mutationsDone hst' _ _ => simp [hst] at hst'
  | mutationWaiting hst' _ _ _ => simp [hst] at hst'
  | mutationScan _ hst' _ _ _ _ => simp [hst] at hst'

theorem iterate_done (hst : s.tracingState = .reclaimingCyclicCandidates)
    (hlost : s.lostCycleWorklist = []) (hindex : s.currentCandidateCheckIndex = 0)
    (hstep : syliStateGcTracing s roots = .ok (some s')) : s'.tracingState = .idle := by
  unfold syliStateGcTracing at hstep
  split at hstep
  · cases hstep
  · simp only [hst] at hstep
    rw [if_neg (by simp [hlost]), if_pos (by simpa using hindex)] at hstep
    obtain rfl := Option.some.inj (Except.ok.inj hstep)
    rfl

/-- An iteration of the reclaiming frees an object, or looks at a candidate. -/
theorem Reclaiming.work (h₀ : IdleHeap m₀) (h : Reclaiming m₀ s) (hs : ReclaimStep s s')
    (hleft : ¬ (s.lostCycleWorklist = [] ∧ s.currentCandidateCheckIndex = 0)) :
    (unfreed s').card + s'.currentCandidateCheckIndex <
      (unfreed s).card + s.currentCandidateCheckIndex := by
  have hsub : unfreed s' ⊆ unfreed s := by
    refine unfreed_subset hs.next fun b o' ho' => ?_
    obtain ⟨o, ho, -⟩ := hs.obj ho'
    exact ⟨o, ho⟩
  have hle := Finset.card_le_card hsub
  cases hs with
  | @reclaimFree u _ a rest b hst hlost hu hf =>
    obtain ⟨-, hindex, -⟩ := h.reclaimFree h₀ hlost hu hf
    obtain ⟨o, ho, hz, -⟩ := h.separate.alive a (by simp [releaseQueues, hlost])
    have hnone : s'.heap a = none := by
      obtain ⟨o₂, ho₂, hr⟩ := freeReleasedObject_effect hf
      cases hr with
      | drop _ _ _ _ => simp
      | wait _ _ hflag =>
        obtain ⟨o₁, ho₁, hframe, hself⟩ := releaseChildrenOnce_frame hu
        obtain rfl := Option.some.inj (ho.symm.trans ho₁)
        obtain rfl := Option.some.inj ((hself hz).symm.trans ho₂)
        simp [(h.phase.quiet ho).2] at hflag
    have hlt : (unfreed s').card < (unfreed s).card := by
      apply Finset.card_lt_card
      rw [Finset.ssubset_iff_of_subset hsub]
      refine ⟨a, Finset.mem_filter.mpr ⟨?_, by simp [ho]⟩, ?_⟩
      · exact Finset.mem_range.mpr (h.phase.ledger.lt_next ho)
      · intro hmem
        simpa [hnone] using (Finset.mem_filter.mp hmem).2
    omega
  | reclaimDone b _ hlost hzero => exact absurd ⟨hlost, hzero⟩ hleft
  | scanIdle b _ hlost _ =>
    have hne : s.currentCandidateCheckIndex ≠ 0 := fun hzero => hleft ⟨hlost, hzero⟩
    simp only [SyliState.setCheckIndex_currentCandidateCheckIndex]
    omega
  | scanMarked b _ _ hmin _ _ _ =>
    simp only [SyliState.setCheckIndex_currentCandidateCheckIndex]
    omega
  | @scanRelease u _ a o o' i b hst hlost hmin ha ho hmark hu ho' hs' =>
    have hindex : s'.currentCandidateCheckIndex = i := by
      rcases hs' with ⟨-, rfl⟩ | ⟨-, rfl⟩
      · exact checkIndex_releaseOnce hu
      · exact checkIndex_releaseOnce hu
    omega

namespace Collecting

variable (h₀ : IdleHeap m₀)

theorem work_mark (hst : s.tracingState = .tracing) :
    collectWork s = (unmarked s).card * (s.next + 1) + s.tracingWorklist.length +
      (s.next + s.currentCandidateCheckIndex + 2) := by
  simp [collectWork, hst]

theorem work_reclaim (hst : s.tracingState = .reclaimingCyclicCandidates) :
    collectWork s = (unfreed s).card + s.currentCandidateCheckIndex + 1 := by
  simp [collectWork, hst]

theorem work_idle (hst : s.tracingState = .idle) : collectWork s = 0 := by
  simp [collectWork, hst]

include h₀ in
/-- Every iteration of a collection brings its end nearer. -/
theorem work (h : Collecting m₀ s) (hidle : s.tracingState ≠ .idle)
    (hstep : syliStateGcTracing s roots = .ok (some s')) : collectWork s' < collectWork s := by
  have hs := syliStateGcTracing_effect hstep
  rcases h with ⟨hst, hwl, h⟩ | h | ⟨hst, -⟩
  · cases hs with
    | start hstarts _ _ => exact absurd hstarts.1 hidle
    | mark hs =>
      obtain ⟨hlt, hn, hindex⟩ := h.work h₀ hst hs
      rw [work_mark hst, ← hn, ← hindex]
      rw [← hn] at hlt
      rcases of_markPhase h₀ (h.step h₀ hst hs) (markStep_state hs hst h.mutations) with
        ⟨hst', -, -⟩ | h' | ⟨hst', -⟩
      · rw [work_mark hst']
        exact Nat.add_lt_add_right hlt _
      · rw [work_reclaim h'.phase.reclaiming]
        have hcard := unfreed_card_le s'
        omega
      · rw [work_idle hst']
        omega
    | reclaim hs => exact absurd (hst.symm.trans hs.reclaiming) (by simp)
  · rw [work_reclaim h.phase.reclaiming]
    by_cases hdone : s.lostCycleWorklist = [] ∧ s.currentCandidateCheckIndex = 0
    · rw [work_idle (iterate_done h.phase.reclaiming hdone.1 hdone.2 hstep)]
      omega
    · cases hs with
      | start hstarts _ _ => exact absurd hstarts.1 hidle
      | mark hs => exact absurd hs.inTrace (not_inTrace_of_reclaiming h.phase.reclaiming)
      | reclaim hs =>
        have hlt := h.work h₀ hs hdone
        rcases reclaimStep_state hs with hst' | hst'
        · rw [work_reclaim hst']
          omega
        · rw [work_idle hst']
          omega
  · exact absurd hst hidle

theorem iterate_some (hidle : s.tracingState ≠ .idle) (hb : 0 < s.budgets.tracing) :
    syliStateGcTracing s roots ≠ .ok none := by
  intro h
  unfold syliStateGcTracing at h
  rw [if_neg (Int.not_le.mpr hb)] at h
  split at h
  · exact hidle ‹_›
  · obtain ⟨u, -, h⟩ := bind_eq_ok.mp h
    split at h
    · cases h
    · split at h <;> cases h
  · split at h
    · split at h <;> cases h
    · obtain ⟨u, -, h⟩ := bind_eq_ok.mp h
      cases h
  · dsimp only at h
    split at h
    · obtain ⟨u, -, h⟩ := bind_eq_ok.mp h
      cases h
    · split at h
      · cases h
      · obtain ⟨u, -, h⟩ := bind_eq_ok.mp h
        cases h

end Collecting

/-- The collection goes on until the machine is idle again, and the scan meets no unmarked
candidate whose counts are all its own references. -/
def Collects (s : SyliState) : CollectAction → Prop
  | .budgets _ => s.tracingState ≠ .idle
  | .iterate => s.tracingState ≠ .idle ∧ ScansOthers s

instance (s : SyliState) : (act : CollectAction) → Decidable (Collects s act)
  | .budgets _ => inferInstanceAs (Decidable (s.tracingState ≠ .idle))
  | .iterate => inferInstanceAs (Decidable (s.tracingState ≠ .idle ∧ ScansOthers s))

theorem collecting_step (h₀ : IdleHeap m₀) (h : Collecting m₀ s) (hok : Collects s act)
    (hstep : collectStep roots s act = .ok s') : Collecting m₀ s' := by
  cases act with
  | budgets b =>
    obtain rfl := Except.ok.inj hstep
    exact h.setBudgets b
  | iterate =>
    obtain ⟨r, hr, hstep⟩ := bind_eq_ok.mp hstep
    cases r with
    | none =>
      obtain rfl := pure_eq_ok.mp hstep
      exact h
    | some u =>
      obtain rfl := pure_eq_ok.mp hstep
      exact h.iterate h₀ hok.1 hok.2 hr

/-- One full collection: no iteration fails, the work left falls with each, and the idle machine
has freed what the owners do not reach and nothing else. -/
theorem full_collection {b : Budgets} (h₀ : IdleHeap m₀)
    (hroots : ∀ a, a ∈ roots.filterMap ObjPtr.ownRef? ↔ a ∈ m₀.owners)
    (hstarts : TraceStarts (m₀.rt.setBudgets b)) :
    ∃ s₁, syliStateGcTracing (m₀.rt.setBudgets b) roots = .ok (some s₁) ∧
      ∀ s, Runs (collectStep roots) Collects s₁ s →
        (s.tracingState = .idle → Collected m₀ s) ∧
        (s.tracingState ≠ .idle → 0 < s.budgets.tracing →
          ∃ s', collectStep roots s .iterate = .ok s' ∧ collectWork s' < collectWork s) := by
  obtain ⟨s₁, hs₁⟩ := start_ok hstarts fun a (ha : a ∈ roots.filterMap ObjPtr.ownRef?) => by
    obtain ⟨o, ho, -⟩ := h₀.ledger.exists_of_claim ((hroots a).mp ha)
    exact ⟨o, ho⟩
  obtain ⟨new, t, hq, ht, rfl⟩ := (syliStateGcTracing_effect hs₁).of_idle hstarts.1
  have hwl : m₀.rt.tracingWorklist = [] ∧ m₀.rt.tracingMutationsWorklist = [] :=
    ⟨h₀.lists.1, h₀.lists.2.1⟩
  have hstart := MarkPhase.start h₀ hroots hstarts hq ht
  have hcollecting := Collecting.of_markPhase h₀ hstart (by
    rw [ht]
    simp [hwl])
  refine ⟨_, hs₁, fun s hs => ?_⟩
  have h := hs.invariant (P := Collecting m₀) hcollecting
    fun _ _ _ hc hok hstep => collecting_step h₀ hc hok hstep
  constructor
  · intro hidle
    rcases h with ⟨hst, -, -⟩ | h | ⟨-, hdone⟩
    · exact absurd (hst.symm.trans hidle) (by simp)
    · exact absurd (h.phase.reclaiming.symm.trans hidle) (by simp)
    · exact hdone
  · intro hidle hb
    obtain ⟨r, hr⟩ : ∃ r, syliStateGcTracing s roots = .ok r := h.iterate_ok h₀ hidle
    cases r with
    | none => exact absurd hr (Collecting.iterate_some hidle hb)
    | some s' =>
      refine ⟨s', ?_, h.work h₀ hidle hr⟩
      rw [collectStep, bind_eq_ok]
      exact ⟨some s', hr, rfl⟩

/-- What remains to be checked of a state that a mutator has reached, where every object that has
references is a candidate. -/
def ReadyToCollect (s : SyliState) : Prop :=
  ReadyToRelease s ∧ (s.releasingWaitlist = [] ∧ s.releasingWorklist = []) ∧
    ∀ a < s.next, (∀ o ∈ s.heap a, o.mark = s.tracingCurrentBitMark) ∧
      (s.outRefs a = [] ∨ a ∈ s.cyclicCandidates)

instance (s : SyliState) : Decidable (ReadyToCollect s) :=
  inferInstanceAs (Decidable (_ ∧ _ ∧ _))

theorem idleHeap_of_machine {w : Machine} (he : Exact w) (hf : Freed w.rt)
    (hglobals : w.globals = [] ∧ w.leaked = []) (hready : ReadyToCollect w.rt) :
    IdleHeap { rt := w.rt, owners := w.locals } := by
  obtain ⟨hrelease, hlists, hmark⟩ := hready
  have hseparate : Separate w.rt := by
    have hlost := he.lost_nil (by simp [hrelease.1])
    constructor <;> simp [releaseQueues, hlists, hlost]
  have h := exactHeap_of_machine he hseparate hf hglobals hrelease
  have hquiet : ∀ a, w.rt.next ≤ a → w.rt.outRefs a = [] := fun a ha => by
    rw [outRefs_of_none (h.ledger.fresh a ha)]
  exact
    { ledger := h.ledger
      registered := h.registered
      freed := hf
      idle := h.idle
      releasing := hlists
      counted := by
        intro a o ho
        apply Nat.pos_of_ne_zero
        intro hz
        simpa [hlists] using h.queued a o ho hz
      intact := h.intact
      current := fun a o ho => (hmark a (hf.live a o ho).2).1 o ho
      cycles := by
        intro a ha
        have hno : ∀ x y, ¬ (Refers { rt := w.rt, owners := w.locals } x y ∧
            x ∉ w.rt.cyclicCandidates) := by
          rintro x y ⟨hxy, hnot⟩
          rcases Nat.lt_or_ge x w.rt.next with hx | hx
          · rcases (hmark x hx).2 with hnil | hmem
            · simp [Refers, hnil] at hxy
            · exact hnot hmem
          · simp [Refers, hquiet x hx] at hxy
        cases ha with
        | single h => exact hno _ _ h
        | tail _ h => exact hno _ _ h }

theorem exactFreed_of_execute {as : List Action} {w : Machine}
    (hw : w ∈ execute Machine.step RespectsReleased (Machine.init testEnv 0) as) :
    Exact w ∧ Freed w.rt := by
  refine (Runs.of_execute hw).invariant (P := fun m => Exact m ∧ Freed m.rt)
    ⟨exact_init testEnv 0, freed_init testEnv 0⟩ ?_
  rintro m act m' ⟨he, hf⟩ hok hstep
  exact ⟨exact_move he hok (step_move hstep), freed_move hf (step_move hstep)⟩

/-- The budgets of one call of `syli_rt_gc_cycle`. -/
def collectBudgets : Budgets where
  tracing := 100
  checking := 100

/-- Two cells that refer to each other are dropped and collected; a third is kept. -/
theorem full_collection_lostPair :
    ∃ m₀ s₁ s, IdleHeap m₀ ∧
      syliStateGcTracing (m₀.rt.setBudgets collectBudgets) [.own 3] = .ok (some s₁) ∧
        Runs (collectStep [.own 3]) Collects s₁ s ∧ s.tracingState = .idle ∧
          s.freed = [2, 1] ∧ s.cyclicCandidates = [3] ∧ Collected m₀ s := by
  obtain ⟨w, hw, hglobals, hready, hlocals, hstarts, r, hr, s₁, hs₁, s, hs, hidle, hfreed, hcand⟩ :
      ∃ w ∈ execute Machine.step RespectsReleased (Machine.init testEnv 0)
        [.alloc (mutableCell 1), .alloc (mutableCell 1), .alloc (mutableCell 1), .share 1,
          .store .own 2 0 1, .share 2, .store .own 1 0 2, .drop 1, .drop 2],
        (w.globals = [] ∧ w.leaked = []) ∧ ReadyToCollect w.rt ∧ w.locals = [3] ∧
          TraceStarts (w.rt.setBudgets collectBudgets) ∧
            ∃ r ∈ (syliStateGcTracing (w.rt.setBudgets collectBudgets) [.own 3]).toOption,
              ∃ s₁ ∈ r, ∃ s ∈ execute (collectStep [.own 3]) Collects s₁
                (List.replicate 7 .iterate),
                s.tracingState = .idle ∧ s.freed = [2, 1] ∧ s.cyclicCandidates = [3] := by
    decide +kernel
  obtain ⟨he, hf⟩ := exactFreed_of_execute hw
  have h₀ := idleHeap_of_machine he hf hglobals hready
  obtain ⟨s₂, hs₂, hall⟩ := @full_collection _ [.own 3] _ h₀
    (fun a => by simp [hlocals, ObjPtr.ownRef?]) hstarts
  have hstart : r = some s₁ := hs₁
  have hstep := (mem_toOption.mp hr).trans (congrArg Except.ok hstart)
  obtain rfl := Option.some.inj (Except.ok.inj (hs₂.symm.trans hstep))
  exact ⟨_, s₂, s, h₀, hs₂, Runs.of_execute hs, hidle, hfreed, hcand,
    (hall s (Runs.of_execute hs)).1 hidle⟩

/-- A lost candidate that only refers to itself is queued twice by its own scan, and freed twice:
the second time the collection fails. -/
theorem selfReference_freed_twice :
    ∃ m₀ s₁ s, IdleHeap m₀ ∧ (∀ a, a ∈ [ObjPtr.own 2].filterMap ObjPtr.ownRef? ↔ a ∈ m₀.owners) ∧
      syliStateGcTracing (m₀.rt.setBudgets collectBudgets) [.own 2] = .ok (some s₁) ∧
        Runs (collectStep [.own 2]) (fun s _ => s.tracingState ≠ .idle) s₁ s ∧
          1 ∈ s.freed ∧ s.tracingState ≠ .idle ∧
            ∀ s', collectStep [.own 2] s .iterate ≠ .ok s' := by
  obtain ⟨w, hw, hglobals, hready, hlocals, r, hr, s₁, hs₁, s, hs, hfreed, hidle, hfail⟩ :
      ∃ w ∈ execute Machine.step RespectsReleased (Machine.init testEnv 0)
        [.alloc (mutableCell 1), .alloc (mutableCell 1), .share 1, .store .own 1 0 1, .drop 1],
        (w.globals = [] ∧ w.leaked = []) ∧ ReadyToCollect w.rt ∧ w.locals = [2] ∧
          ∃ r ∈ (syliStateGcTracing (w.rt.setBudgets collectBudgets) [.own 2]).toOption,
            ∃ s₁ ∈ r, ∃ s ∈ execute (collectStep [.own 2]) (fun s _ => s.tracingState ≠ .idle) s₁
              (List.replicate 4 .iterate),
              1 ∈ s.freed ∧ s.tracingState ≠ .idle ∧
                (collectStep [.own 2] s .iterate).toOption = none := by
    decide +kernel
  obtain ⟨he, hf⟩ := exactFreed_of_execute hw
  have hstart : r = some s₁ := hs₁
  refine ⟨_, s₁, s, idleHeap_of_machine he hf hglobals hready, ?_,
    (mem_toOption.mp hr).trans (congrArg Except.ok hstart), Runs.of_execute hs, hfreed, hidle, ?_⟩
  · intro a
    simp [hlocals, ObjPtr.ownRef?]
  · intro s' hs'
    simp [hs', Except.toOption] at hfail

end Syli.Collector
