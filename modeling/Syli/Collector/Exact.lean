import Syli.Collector.Ledger

/-! The counts stay exact along every run in which no released object is touched again. -/
namespace Syli.Collector

open Foundation Syli.Runtime

variable {s s' u : SyliState} {claims : List Addr} {out : Addr → List Addr}
variable {a x : Addr} {o : GCObject} {roots : List ObjPtr} {rest new : List Addr}

namespace Ledger

theorem detach (h : Ledger s claims out) (ho : s.heap x = some o) :
    Ledger s (out x ++ claims) (Function.update out x []) :=
  { h with balanced := h.balanced.detach (Finset.mem_range.mpr (h.lt_next ho)) }

theorem setReleasing (h : Ledger s claims out) {v w : List Addr}
    (hs : (w ++ v).Sublist (s.releasingWaitlist ++ s.releasingWorklist)) :
    Ledger (s.setReleasing v w) claims out := by
  refine { h with
    bounded := ?_
    releasing_nodup := hs.nodup h.releasing_nodup
    releasing := fun b hb => h.releasing b (hs.subset hb) }
  intro b hb
  rcases List.mem_append.mp hb with hb | hb
  · exact h.bounded b (List.mem_append_left _ (hs.subset hb))
  · exact h.bounded b (List.mem_append_right _ hb)

/-- The references of the object that the releasing machine pops become claims. -/
theorem popReleasing (h : Ledger s claims s.outRefs) (hwl : s.releasingWorklist = a :: rest)
    (ho : s.heap a = some o) (hcr : o.childrenReleased = false) (n : Int) :
    Ledger ((s.setReleasing rest s.releasingWaitlist).chargeReleasing n) (o.ownRefs ++ claims)
      (Function.update s.outRefs a []) := by
  have hwait := (h.releasing a (by simp [hwl]) o ho).2
  have hsub : (s.releasingWaitlist ++ rest).Sublist
      (s.releasingWaitlist ++ s.releasingWorklist) := by
    rw [hwl]
    exact (List.sublist_cons_self a rest).append_left _
  have hd := (h.detach ho).setReleasing hsub
  rw [outRefs_of_heap ho, countedRefs_of_intact hwait hcr] at hd
  exact { hd with }

theorem releasingStep (h : Ledger s claims s.outRefs) (hs : ReleasingStep s s')
    (hintact : ∀ a ∈ s.releasingWorklist.head?, ∀ o, s.heap a = some o →
      o.childrenReleased = false) :
    Ledger s' claims s'.outRefs := by
  cases hs with
  | start _ =>
    refine { h.setReleasing (v := s.releasingWaitlist) (w := []) ?_ with }
    exact List.sublist_append_left _ _
  | @release v w _ a rest o o' n _ hwl ho hg ho' hz hr hs' =>
    have hzero := (h.releasing a (by simp [hwl]) o ho).1
    have hnot : a ∉ s.releasingWaitlist ++ rest := by
      have := h.releasing_nodup
      rw [hwl, List.nodup_append_comm, List.cons_append, List.nodup_cons] at this
      simpa [or_comm] using this.1
    have hcharged := h.popReleasing hwl ho (hintact a (by simp [hwl]) o ho) n
    obtain ⟨hv, hvout⟩ := hcharged.giveUpAll (by simp) hg
    have hnotv := hg.not_mem_releasing ho hzero hnot
    have hw := hv.removed ho' hz (fun _ => hnotv) hr
    have hwout : w.outRefs = Function.update s.outRefs a [] := by
      rw [hr.outRefs, hvout]
      rfl
    subst hs'
    rw [← hwout] at hw
    exact { hw with }

/-- The reclaiming steps run with empty tracing worklists, so no object waits for removal. -/
theorem not_waiting (h : Ledger s claims out) (hq : ¬ InTrace s.tracingState)
    (ho : s.heap a = some o) : o.waitingRemove = false ∧ o.tracing = false := by
  have hwl := (h.quiet hq).1
  have ht : o.tracing = false := by
    by_contra ht
    have := h.flagged a o ho (by simpa using ht)
    simp [hwl] at this
  refine ⟨?_, ht⟩
  by_contra hw
  have := (h.waiting a o ho (by simpa using hw)).1
  simp [ht] at this

/-- The references of the object whose children are released become claims. -/
theorem markReleased (h : Ledger s claims s.outRefs)
    (hstate : s.tracingState = .reclaimingCyclicCandidates) (ho : s.heap a = some o)
    (hcr : o.childrenReleased = false) (n : Int) :
    Ledger ((s.setObj a { o with childrenReleased := true }).chargeChecking n)
      (o.ownRefs ++ claims) (Function.update s.outRefs a []) := by
  have hwait := (h.not_waiting (by simp [hstate, InTrace]) ho).1
  have hd := (h.detach ho).restate (w := { o with childrenReleased := true }) ho rfl rfl rfl rfl
  rw [outRefs_of_heap ho, countedRefs_of_intact hwait hcr] at hd
  exact { hd with }

theorem releaseOnce (h : Ledger s claims s.outRefs)
    (hstate : s.tracingState = .reclaimingCyclicCandidates)
    (hr : releaseChildrenOnce s a = .ok s') : Ledger s' claims s'.outRefs := by
  obtain ⟨o, ho, ⟨-, rfl⟩ | ⟨hcr, n, hg⟩⟩ := releaseChildrenOnce_effect hr
  · exact h
  · obtain ⟨hs', hout'⟩ := (h.markReleased hstate ho hcr n).giveUpAll (fun _ => hstate) hg
    have heq : s'.outRefs = Function.update s.outRefs a [] := by
      refine hout'.trans ?_
      refine (outRefs_setObj (o := { o with childrenReleased := true })).trans ?_
      simp [GCObject.countedRefs]
    rw [heq]
    exact hs'

theorem popLost (h : Ledger s claims out) {l : List Addr}
    (hl : ∀ b ∈ l, b ∈ s.lostCycleWorklist) : Ledger (s.setLostCycleWorklist l) claims out := by
  refine { h with
    bounded := ?_
    lost := fun b hb => h.lost b (hl b hb)
    lost_nil := ?_ }
  · intro b hb
    rcases List.mem_append.mp hb with hb | hb
    · exact h.bounded b (List.mem_append_left _ hb)
    · exact h.bounded b (List.mem_append_right _ (hl b hb))
  · intro hne
    have hnil := h.lost_nil hne
    rw [hnil] at hl
    exact List.eq_nil_iff_forall_not_mem.mpr fun b hb => List.not_mem_nil (hl b hb)

theorem queue (h : Ledger s claims out) (hstate : InTrace s.tracingState) (new : List Addr) :
    Ledger (s.queueTracing new) claims out := by
  have hobj : ∀ b ob, (s.queueTracing new).heap b = some ob → ∃ o, s.heap b = some o ∧
      ob.header = o.header ∧ ob.refcount = o.refcount ∧ ob.waitingRemove = o.waitingRemove ∧
        (ob.tracing = true → o.tracing = true ∨ b ∈ new) ∧
        (o.tracing = true → ob.tracing = true) := by
    intro b ob hob
    obtain ⟨o, ho, ⟨-, rfl⟩ | ⟨hn, rfl⟩⟩ := flagTracing_eq_some hob
    · exact ⟨_, ho, rfl, rfl, rfl, Or.inl, id⟩
    · exact ⟨o, ho, rfl, rfl, rfl, fun _ => Or.inr hn, fun _ => rfl⟩
  refine { h with
    balanced := by rw [refcountOf_queueTracing]; exact h.balanced
    fresh := ?_
    wellFormed := ?_
    releasing := ?_
    lost := ?_
    waiting := ?_
    flagged := ?_
    quiet := fun hq => absurd hstate hq }
  · intro b hb
    have := h.fresh b hb
    simp [flagTracing, this]
  · intro b ob hob
    obtain ⟨o, ho, hheader, -⟩ := hobj b ob hob
    exact hheader ▸ h.wellFormed b o ho
  · intro b hb ob hob
    obtain ⟨o, ho, -, hcount, hwait, -⟩ := hobj b ob hob
    rw [hcount, hwait]
    exact h.releasing b hb o ho
  · intro b hb ob hob
    obtain ⟨o, ho, -, hcount, -⟩ := hobj b ob hob
    rw [hcount]
    exact h.lost b hb o ho
  · intro b ob hob hw
    obtain ⟨o, ho, -, hcount, hwait, -, ht⟩ := hobj b ob hob
    rw [hwait] at hw
    obtain ⟨hflag, hz⟩ := h.waiting b o ho hw
    exact ⟨ht hflag, hcount.trans hz⟩
  · intro b ob hob ht
    obtain ⟨o, ho, -, -, -, hflag, -⟩ := hobj b ob hob
    rcases hflag ht with hf | hn
    · exact List.mem_append_right _ (h.flagged b o ho hf)
    · exact List.mem_append_left _ hn

theorem setState (h : Ledger s claims out) {t : TracingState}
    (hquiet : ¬ InTrace t → s.tracingWorklist = [] ∧ s.tracingMutationsWorklist = [])
    (hlost : t ≠ .reclaimingCyclicCandidates → s.lostCycleWorklist = []) :
    Ledger (s.setTracingState t) claims out :=
  { h with quiet := hquiet, lost_nil := hlost }

theorem popTracing (h : Ledger s claims out) (hwl : s.tracingWorklist = a :: rest)
    (hstate : InTrace s.tracingState)
    (ha : ∀ o, s.heap a = some o → o.tracing = false) :
    Ledger (s.setTracingWorklist rest) claims out := by
  refine { h with flagged := ?_, quiet := fun hq => absurd hstate hq }
  intro b ob hob ht
  have hmem := h.flagged b ob hob ht
  rw [hwl] at hmem
  rcases List.mem_cons.mp hmem with rfl | hmem
  · simp [ha ob hob] at ht
  · exact hmem

theorem popMutation (h : Ledger s claims out) (hstate : InTrace s.tracingState)
    (l : List ObjPtr) : Ledger (s.setMutations l) claims out :=
  { h with quiet := fun hq => absurd hstate hq }

theorem drop_of_zero (h : Ledger s claims out) (ho : s.heap a = some o) (hz : o.refcount = 0) :
    Ledger (s.dropObj a) claims out :=
  h.drop ho (h.balanced.update_of_zero ((refcountOf_of_heap ho).trans hz))

theorem afterTracing_quiet {l : List Addr} {m : List ObjPtr} (h : ¬ InTrace (afterTracing l m)) :
    l = [] ∧ m = [] := by
  unfold afterTracing at h
  by_contra hne
  rw [if_neg hne] at h
  split at h <;> simp [InTrace] at h

theorem reclaimFree (h : Ledger s claims s.outRefs) {l : List Addr} {b : Budgets}
    (hstate : s.tracingState = .reclaimingCyclicCandidates) (hl : s.lostCycleWorklist = a :: l)
    (hu : releaseChildrenOnce ((s.setBudgets b).setLostCycleWorklist l) a = .ok u)
    (hf : freeReleasedObject u a = .ok s') : Ledger s' claims s'.outRefs := by
  have hp := h.popLost (l := l) fun c hc => hl ▸ List.mem_cons_of_mem a hc
  have hp' : Ledger ((s.setBudgets b).setLostCycleWorklist l) claims
      ((s.setBudgets b).setLostCycleWorklist l).outRefs := { hp with }
  have hlu := hp'.releaseOnce hstate hu
  obtain ⟨o, ho, -, hzero⟩ := releaseChildrenOnce_frame hu
  have hz : o.refcount = 0 := h.lost a (by simp [hl]) o ho
  obtain ⟨o', ho', hr⟩ := freeReleasedObject_effect hf
  obtain rfl : { o with childrenReleased := true } = o' := by simpa [hzero hz] using ho'
  have hquiet : ¬ InTrace u.tracingState := by
    rw [releaseChildrenOnce_state hu]
    simp [hstate, InTrace]
  have ht := (hlu.not_waiting hquiet ho').2
  have hs' := hlu.removed ho' hz (fun hflag => absurd (ht.symm.trans hflag) Bool.false_ne_true) hr
  have hout : s'.outRefs = u.outRefs :=
    hr.outRefs.trans (update_outRefs_of_eq ho' (by simp [GCObject.countedRefs]))
  rw [hout]
  exact hs'

theorem markStep (h : Ledger s claims s.outRefs) (hs : MarkStep s s') :
    Ledger s' claims s'.outRefs := by
  rw [hs.outRefs]
  cases hs with
  | @popWaiting a rest o t g hst hwl ho hw ht =>
    have hlost := h.lost_nil (by simp [hst])
    obtain ⟨-, hz⟩ := h.waiting a o ho hw
    have h₁ := (h.drop_of_zero ho hz).popTracing hwl (Or.inl hst) (by simp)
    have h₂ := h₁.setState (t := t) (fun hn => afterTracing_quiet (ht ▸ hn)) (fun _ => hlost)
    exact { h₂ with }
  | @popSkip a rest o t hst hwl ho hw _ ht =>
    have h₁ := h.update (w := { o with tracing := false }) ho rfl
      (by rw [← refcountOf_of_heap ho, Function.update_eq_self]; exact h.balanced)
      (fun ha => h.releasing a ha o ho) (fun ha => h.lost a ha o ho)
      (fun hw' => by simp [hw] at hw') (fun hf => by simp at hf)
    have h₂ := h₁.popTracing hwl (Or.inl hst) (by simp)
    exact h₂.setState (t := t) (fun hn => afterTracing_quiet (ht ▸ hn))
      (fun _ => h.lost_nil (by simp [hst]))
  | @popMark u a rest new o t b hst hwl ho hw _ _ hu _ ht =>
    have h₁ := h.update (w := { o with tracing := false, mark := s.tracingCurrentBitMark }) ho rfl
      (by rw [← refcountOf_of_heap ho, Function.update_eq_self]; exact h.balanced)
      (fun ha => h.releasing a ha o ho) (fun ha => h.lost a ha o ho)
      (fun hw' => by simp [hw] at hw') (fun hf => by simp at hf)
    have h₂ := h₁.popTracing hwl (Or.inl hst) (by simp)
    have h₃ : Ledger u claims s.outRefs := hu ▸ { h₂ with }
    refine (h₃.queue (hu ▸ Or.inl hst) new).setState (t := t) ?_ ?_
    · intro hn
      have := afterTracing_quiet (ht ▸ hn)
      simpa [hu] using this
    · intro _
      rw [hu]
      exact h.lost_nil (by simp [hst])
  | @mutationsDone t hst hm ht =>
    have hlost := h.lost_nil (by simp [hst])
    refine h.setState (t := t) ?_ (fun _ => hlost)
    intro hn
    by_contra hne
    rw [ht] at hn
    split at hn
    · exact hne ⟨‹_›, hm⟩
    · simp [InTrace] at hn
  | @mutationWaiting a rest o hst hm ho hw =>
    obtain ⟨-, hz⟩ := h.waiting a o ho hw
    exact (h.drop_of_zero ho hz).popMutation (Or.inr hst) rest
  | @mutationScan a rest o new b hst hm ho hw hq =>
    have h₁ : Ledger ((s.setMutations rest).setBudgets b) claims s.outRefs :=
      { h.popMutation (Or.inr hst) rest with }
    exact h₁.queue (Or.inr hst) new

theorem reclaimStep (h : Ledger s claims s.outRefs) (hs : ReclaimStep s s') :
    Ledger s' claims s'.outRefs := by
  cases hs with
  | reclaimFree b hst hl hu hf => exact h.reclaimFree hst hl hu hf
  | reclaimDone b hst hl _ =>
    have h₁ := h.setState (t := .idle) (fun _ => h.quiet (by simp [hst, InTrace])) (fun _ => hl)
    exact { h₁ with }
  | scanIdle b _ _ _ => exact { h with }
  | scanMarked b _ _ _ _ _ _ => exact { h with }
  | @scanRelease u _ a o o' i b hst hl _ _ ho _ hu ho' hs' =>
    have h₁ : Ledger ((s.setBudgets b).setCheckIndex i) claims
        ((s.setBudgets b).setCheckIndex i).outRefs := { h with }
    have h₂ := h₁.releaseOnce hst hu
    have hstate := (releaseChildrenOnce_state hu).trans hst
    rcases hs' with ⟨hz, rfl⟩ | ⟨-, rfl⟩
    · refine { h₂ with
        bounded := ?_
        lost := ?_
        lost_nil := fun hne => absurd hstate hne }
      · intro c hc
        simp only [SyliState.setLostCycleWorklist_lostCycleWorklist, List.mem_append,
          List.mem_cons] at hc
        rcases hc with hc | rfl | hc
        · exact h₂.bounded c (List.mem_append_left _ (List.mem_append.mpr hc))
        · exact h₂.lt_next ho'
        · exact h₂.bounded c (List.mem_append_right _ hc)
      · intro c hc oc hoc
        rcases List.mem_cons.mp hc with rfl | hc
        · obtain rfl := Option.some.inj (ho'.symm.trans hoc)
          exact hz
        · exact h₂.lost c hc oc hoc
    · exact h₂

theorem tracingStep (h : Ledger s claims s.outRefs) (hs : TracingStep roots s s') :
    Ledger s' claims s'.outRefs := by
  cases hs with
  | @start new t hstart hq ht =>
    have hidle := hstart.1
    have h₁ : Ledger (tracingStart s) claims (tracingStart s).outRefs :=
      { h with
        quiet := fun hn => absurd (Or.inl rfl) hn
        lost_nil := fun _ => h.lost_nil (by simp [hidle]) }
    have h₂ := (h₁.queue (Or.inl rfl) new).setState (t := t) ?_ ?_
    · rw [← outRefs_queueTracing new] at h₂
      exact h₂
    · intro hn
      change new ++ s.tracingWorklist = [] ∧ s.tracingMutationsWorklist = []
      by_contra hne
      rw [ht, if_neg hne] at hn
      exact hn (Or.inl rfl)
    · exact fun _ => h.lost_nil (by simp [hidle])
  | mark hs => exact h.markStep hs
  | reclaim hs => exact h.reclaimStep hs

end Ledger

end Syli.Collector
