import Syli.Collector.Registry

/-! The iterations of the tracing loop do not fail where the worklists hold allocated objects. -/
namespace Syli.Collector

open Foundation Syli.Runtime

variable {s s' : SyliState} {a c : Addr} {o : GCObject} {rest claims : List Addr}
variable {roots : List ObjPtr}

theorem gcTracingWorklistPush_ok {p : ObjPtr} (h : ∀ c ∈ p.ownRef?, ∃ o, s.heap c = some o) :
    ∃ s', gcTracingWorklistPush s p = .ok s' ∧ ∀ a, (∃ o, s.heap a = some o) →
      ∃ o, s'.heap a = some o := by
  unfold gcTracingWorklistPush
  cases hp : p.ownRef? with
  | none => exact ⟨s, rfl, fun _ => id⟩
  | some c =>
    obtain ⟨o, ho⟩ := h c hp
    cases ht : o.tracing with
    | true =>
      refine ⟨s, ?_, fun _ => id⟩
      simp only [bind_eq_ok, deref_eq_ok]
      exact ⟨o, ho, by rw [if_pos ht]; rfl⟩
    | false =>
      refine ⟨(s.setObj c { o with tracing := true }).setTracingWorklist (c :: s.tracingWorklist),
        ?_, ?_⟩
      · simp only [bind_eq_ok, deref_eq_ok]
        exact ⟨o, ho, by rw [if_neg (by simp [ht])]; rfl⟩
      · rintro a ⟨oa, hoa⟩
        by_cases hac : a = c
        · exact ⟨{ o with tracing := true }, by simp [hac]⟩
        · exact ⟨oa, by simp [hac, hoa]⟩

theorem pushAll_ok {ps : List ObjPtr}
    (h : ∀ c ∈ ps.filterMap ObjPtr.ownRef?, ∃ o, s.heap c = some o) :
    ∃ s', ps.foldlM gcTracingWorklistPush s = .ok s' := by
  induction ps generalizing s with
  | nil => exact ⟨s, rfl⟩
  | cons p ps ih =>
    have hhead : ∀ c ∈ p.ownRef?, ∃ o, s.heap c = some o := by
      intro c hc
      apply h
      rw [List.filterMap_cons_some hc]
      exact List.mem_cons_self
    obtain ⟨u, hu, hkeep⟩ := gcTracingWorklistPush_ok hhead
    obtain ⟨s', hs'⟩ := ih (s := u) fun c hc => by
      apply hkeep
      apply h
      rw [List.filterMap_cons]
      split
      · exact hc
      · exact List.mem_cons_of_mem _ hc
    refine ⟨s', ?_⟩
    rw [List.foldlM_cons, bind_eq_ok]
    exact ⟨u, hu, hs'⟩

theorem pushChildren_ok (h : ∀ c ∈ o.ownRefs, ∃ o, s.heap c = some o) :
    ∃ s', pushChildren s o = .ok s' := by
  have hmap : (o.ownRefs.map ObjPtr.own).filterMap ObjPtr.ownRef? = o.ownRefs := by
    rw [List.filterMap_map]
    exact List.filterMap_some
  have hall :
      ∀ c ∈ (o.ownRefs.map ObjPtr.own).filterMap ObjPtr.ownRef?, ∃ o, s.heap c = some o := by
    rw [hmap]
    exact h
  obtain ⟨s', hs'⟩ := pushAll_ok hall
  rw [List.foldlM_map] at hs'
  exact ⟨s', hs'⟩

theorem gcOneStepTracing_eq (hwl : s.tracingWorklist = a :: rest) (ho : s.heap a = some o) :
    gcOneStepTracing s =
      let w := { o with tracing := false }
      let u := (s.setObj a w).setTracingWorklist rest
      if w.waitingRemove then (gcAccountCyclicFree u w).free a
      else if w.refcount = 0 then pure u
      else if gcIsObjectMarkTagged u w then pure u
      else pushChildren ((u.setObj a (gcMarkTagObject u w)).chargeTracing w.header.slotBudget) w := by
  unfold gcOneStepTracing
  rw [gcVectorPopBack_eq_ok.mpr hwl]
  simp only [bind, Except.bind, deref_eq_ok.mpr ho]

theorem gcOneStepTracing_ok (hwl : s.tracingWorklist = a :: rest) (ho : s.heap a = some o)
    (hchildren : o.waitingRemove = false → 0 < o.refcount → o.mark ≠ s.tracingCurrentBitMark →
      ∀ c ∈ o.ownRefs, ∃ o, s.heap c = some o) :
    ∃ s', gcOneStepTracing s = .ok s' := by
  rw [gcOneStepTracing_eq hwl ho]
  simp only
  split
  · obtain ⟨g, hg⟩ := gcAccountCyclicFree_effect
      ((s.setObj a { o with tracing := false }).setTracingWorklist rest) { o with tracing := false }
    rw [hg]
    exact ⟨_, free_eq_ok.mpr ⟨⟨{ o with tracing := false }, by simp⟩, rfl⟩⟩
  · rename_i hw
    split
    · exact ⟨_, rfl⟩
    · rename_i hz
      split
      · exact ⟨_, rfl⟩
      · rename_i hmark
        apply pushChildren_ok
        intro c hc
        obtain ⟨oc, hoc⟩ := hchildren (by simpa using hw) (Nat.pos_of_ne_zero hz)
          (by simpa [gcIsObjectMarkTagged] using hmark) c hc
        by_cases hca : c = a
        · simp [hca]
        · exact ⟨oc, by simp [hca, hoc]⟩

/-- An iteration in the state `Tracing` does not fail. -/
theorem tracing_iterate_ok (hst : s.tracingState = .tracing) (hwl : s.tracingWorklist = a :: rest)
    (ho : s.heap a = some o)
    (hchildren : o.waitingRemove = false → 0 < o.refcount → o.mark ≠ s.tracingCurrentBitMark →
      ∀ c ∈ o.ownRefs, ∃ o, s.heap c = some o) :
    ∃ r, syliStateGcTracing s roots = .ok r := by
  obtain ⟨u, hu⟩ := gcOneStepTracing_ok hwl ho hchildren
  unfold syliStateGcTracing
  split
  · exact ⟨none, rfl⟩
  · simp only [hst, hu, bind, Except.bind]
    split
    · exact ⟨_, rfl⟩
    · split
      · exact ⟨_, rfl⟩
      · exact ⟨_, rfl⟩

/-- The start of a trace does not fail where the roots are allocated. -/
theorem start_ok (h : TraceStarts s)
    (hroots : ∀ c ∈ roots.filterMap ObjPtr.ownRef?, ∃ o, s.heap c = some o) :
    ∃ s', syliStateGcTracing s roots = .ok (some s') := by
  obtain ⟨hidle, hbudget, htrig⟩ := h
  obtain ⟨u, hu⟩ := pushAll_ok (s := tracingStart s) hroots
  unfold syliStateGcTracing syliRtCollectStackRoots
  rw [if_neg (Int.not_le.mpr hbudget)]
  simp only [hidle, htrig, if_true, hu, bind, Except.bind]
  split
  · exact ⟨_, rfl⟩
  · exact ⟨_, rfl⟩

theorem gcOneStepFreeUnreachable_ok (h : Registered s) (hl : Ledger s claims s.outRefs)
    (hst : s.tracingState = .reclaimingCyclicCandidates) (hw : s.lostCycleWorklist = a :: rest)
    (ho : s.heap a = some o) :
    ∃ s', gcOneStepFreeUnreachable s = .ok s' ∧ Registered s' ∧ Descends s s' := by
  have hp := hl.popLost (l := rest) fun c hc => hw ▸ List.mem_cons_of_mem a hc
  have hbase : Registered (s.setLostCycleWorklist rest) := { h with }
  obtain ⟨v, hv, hreg, hdesc⟩ := hbase.releaseChildrenOnce { hp with } hst ho
  have hzero := hl.lost a (hw ▸ List.mem_cons_self) o ho
  obtain ⟨o', ho', -, hself⟩ := releaseChildrenOnce_frame hv
  obtain rfl := Option.some.inj (ho.symm.trans ho')
  obtain ⟨w, hw', hreg', hdesc'⟩ := hreg.freeReleasedObject (hself hzero)
  refine ⟨w, ?_, hreg', Descends.trans hdesc hdesc'⟩
  unfold gcOneStepFreeUnreachable
  rw [gcVectorPopBack_eq_ok.mpr hw]
  simp only [bind, Except.bind, hv, hw']

/-- An object with reference fields is not freed while counts are given up. -/
theorem exists_of_giveUpAll {p : Pipeline} {cs : List Addr} (hg : GiveUpAll p s cs s')
    (hp : p ≠ .dropping) (ho : s.heap a = some o) (hptr : o.header.hasPointers = true) :
    ∃ o', s'.heap a = some o' := by
  have hinv : ∃ o', s'.heap a = some o' ∧ o'.header.hasPointers = true := by
    refine hg.invariant
      (P := fun _ u => ∃ o', u.heap a = some o' ∧ o'.header.hasPointers = true) ⟨o, ho, hptr⟩ ?_
    rintro u c cs oc v ⟨o', ho', hptr'⟩ hc hstep
    by_cases hca : a = c
    · subst hca
      obtain rfl := Option.some.inj (ho'.symm.trans hc)
      cases hstep with
      | keep _ => exact ⟨{ o' with refcount := o'.refcount - 1 }, by simp, hptr'⟩
      | queue mark _ _ _ => exact ⟨{ o' with refcount := 0, mark := mark }, by simp, hptr'⟩
      | enqueue _ _ => exact ⟨{ o' with refcount := 0 }, by simp, hptr'⟩
      | freeImm _ _ => exact absurd rfl hp
      | remove _ _ hleaf _ => simp [hptr'] at hleaf
    · exact ⟨o', (hstep.heap_of_ne hca).trans ho', hptr'⟩
  obtain ⟨o', ho', -⟩ := hinv
  exact ⟨o', ho'⟩

theorem exists_of_releaseOnce (hr : releaseChildrenOnce s a = .ok s') (ho : s.heap c = some o)
    (hptr : o.header.hasPointers = true) : ∃ o', s'.heap c = some o' := by
  obtain ⟨oa, hoa, ⟨-, rfl⟩ | ⟨-, n, hg⟩⟩ := releaseChildrenOnce_effect hr
  · exact ⟨o, ho⟩
  · by_cases hca : c = a
    · subst hca
      obtain rfl := Option.some.inj (ho.symm.trans hoa)
      exact exists_of_giveUpAll (o := { o with childrenReleased := true }) hg (by simp) (by simp)
        hptr
    · exact exists_of_giveUpAll hg (by simp) (o := o) (by simp [hca, ho]) hptr

theorem gcOneStepScan_ok (h : Registered s) (hl : Ledger s claims s.outRefs)
    (hst : s.tracingState = .reclaimingCyclicCandidates) :
    ∃ s', gcOneStepScan s = .ok s' ∧ Registered s' ∧ Descends s s' := by
  unfold gcOneStepScan
  split
  · exact ⟨_, rfl, { h with }, .of_eq rfl⟩
  rename_i i hi
  have hlt : i < s.cyclicCandidates.length := by omega
  obtain ⟨a, ha⟩ : ∃ a, s.cyclicCandidates[i]? = some a := ⟨_, List.getElem?_eq_getElem hlt⟩
  obtain ⟨-, o, ho, -, hmut⟩ := h.entry i a ha
  have hbase : Registered (s.setCheckIndex i) := { h with }
  have hbase' : Ledger (s.setCheckIndex i) claims (s.setCheckIndex i).outRefs := { hl with }
  have hderef : (s.setCheckIndex i).deref a = .ok o := deref_eq_ok.mpr ho
  simp only [ha, bind, Except.bind, hderef]
  split
  · exact ⟨_, rfl, hbase, .of_eq rfl⟩
  obtain ⟨v, hv, hreg, hdesc⟩ := hbase.releaseChildrenOnce hbase' hst ho
  obtain ⟨ov, hov⟩ := exists_of_releaseOnce hv ho
    ((hl.wellFormed a o ho).hasPointers_of_cyclicMutable hmut)
  simp only [hv, deref_eq_ok.mpr hov]
  split
  · rename_i hz
    exact ⟨_, Registered.lostCycleEnqueueFree_ok hov hz, { hreg with }, hdesc⟩
  · exact ⟨v, rfl, hreg, hdesc⟩

/-- An iteration that reclaims does not fail, and keeps the registry in order. -/
theorem reclaim_iterate_ok (h : Registered s) (hl : Ledger s claims s.outRefs)
    (hst : s.tracingState = .reclaimingCyclicCandidates)
    (hlost : ∀ a ∈ s.lostCycleWorklist, ∃ o, s.heap a = some o) :
    ∃ r, syliStateGcTracing s roots = .ok r ∧ ∀ s' ∈ r, Registered s' ∧ Descends s s' := by
  have hbase : Registered (s.chargeChecking 1) := { h with }
  have hbase' : Ledger (s.chargeChecking 1) claims (s.chargeChecking 1).outRefs := { hl with }
  unfold syliStateGcTracing
  split
  · exact ⟨none, rfl, by simp⟩
  simp only [hst]
  split
  · rename_i hne
    obtain ⟨a, rest, hw⟩ := List.exists_cons_of_ne_nil hne
    obtain ⟨o, ho⟩ := hlost a (by simpa using hw ▸ List.mem_cons_self)
    obtain ⟨w, hok, hreg, hdesc⟩ := gcOneStepFreeUnreachable_ok hbase hbase' hst hw ho
    refine ⟨some w, by simp only [hok, bind, Except.bind]; rfl, ?_⟩
    rintro s' hs'
    obtain rfl := Option.some.inj (Option.mem_def.mp hs')
    exact ⟨hreg, hdesc⟩
  · split
    · refine ⟨_, rfl, ?_⟩
      rintro s' hs'
      obtain rfl := Option.some.inj (Option.mem_def.mp hs')
      exact ⟨{ h with }, .of_eq rfl⟩
    · obtain ⟨w, hok, hreg, hdesc⟩ := gcOneStepScan_ok hbase hbase' hst
      refine ⟨some w, by simp only [hok, bind, Except.bind]; rfl, ?_⟩
      rintro s' hs'
      obtain rfl := Option.some.inj (Option.mem_def.mp hs')
      exact ⟨hreg, hdesc⟩

end Syli.Collector
