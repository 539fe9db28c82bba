import Syli.Collector.SliceEnds

/-! A call of the tracing loop returns, as long as no released object is touched. -/
namespace Syli.Collector

open Foundation Syli.Runtime

variable {s s' : SyliState} {m m' : Machine} {a c x y : Addr} {o : GCObject} {act : Action}
variable {roots : List ObjPtr} {env : Env} {globals : Nat} {operand : Operand} {slot : Nat}
variable {ok : Machine → Action → Prop} {claims : List Addr}

theorem entryRuns_one {e : Entry} (hok : CompilerHeaders s e) (h : e.run naturalCounts s = .ok s') :
    Runs (Entry.run naturalCounts) CompilerHeaders s s' :=
  Runs.refl.tail hok h

theorem entryRuns_incr (h : syliRtObjectIncr naturalCounts s a = .ok s') :
    Runs (Entry.run naturalCounts) CompilerHeaders s s' := by
  refine entryRuns_one (e := .share (.own a)) trivial (Entry.run_share.mpr ⟨.own a, ?_⟩)
  simp only [syliRtOwnershipShare, ObjPtr.untag, bind_eq_ok, pure_eq_ok]
  exact ⟨a, rfl, s', h, rfl⟩

theorem header_of_release {p : ObjPtr} {o' : GCObject}
    (h : syliRtOwnershipRelease naturalCounts s p = .ok s') (ho : s.heap x = some o) (ho' : s'.heap x = some o') : o'.header = o.header := by
  have hframe : ReleaseFrame s s' := by
    cases p with
    | own a =>
      obtain ⟨oa, hoa, hg⟩ := syliRtObjectDecr_effect h
      exact hg.frame hoa
    | null | borrow a =>
      obtain rfl := Except.ok.inj h
      exact .refl _
    | alwaysBorrow | immediate => cases h
  obtain ⟨o₁, ho₁, hf⟩ := hframe.obj x o' ho'
  obtain rfl := Option.some.inj (ho.symm.trans ho₁)
  exact hf.header

/-- The compiled update of a field releases, writes and notifies. -/
theorem entryRuns_storeField (h : Machine.storeField s operand x slot y = .ok s') :
    Runs (Entry.run naturalCounts) CompilerHeaders s s' := by
  simp only [Machine.storeField, bind_eq_ok, deref_eq_ok, check_eq_ok] at h
  obtain ⟨o, ho, -, ⟨hslot, -⟩, u, hu, o', ho', hn⟩ := h
  have hrelease : Runs (Entry.run naturalCounts) CompilerHeaders s u :=
    entryRuns_one (e := .release (o.value.getD slot .null)) trivial hu
  have hwrite : Entry.run naturalCounts u (.write x slot (.own y)) =
      .ok (u.setObj x { o' with value := o'.value.set slot (.own y) }) := by
    refine Entry.run_write.mpr ⟨o', ho', ?_, rfl⟩
    rw [header_of_release hu ho ho']
    exact o.header.lt_objectLength_of_mem_refSlots hslot
  have hwritten := hrelease.trans (entryRuns_one (e := .write x slot (.own y)) trivial hwrite)
  exact hwritten.trans (entryRuns_one (e := .notify (operand.ptr x) (.own y)) trivial hn)

theorem entryRuns_mutatorStep (h : m.mutatorStep act = .ok m') :
    Runs (Entry.run naturalCounts) CompilerHeaders m.rt m'.rt := by
  cases act with
  | alloc header =>
    simp only [Machine.mutatorStep, bind_eq_ok, check_eq_ok, pure_eq_ok, Prod.exists] at h
    obtain ⟨-, hwf, a, s, ha, rfl⟩ := h
    exact entryRuns_one (e := .alloc header 1) hwf.not_monoImm_of_cyclicMutable
      (Entry.run_alloc.mpr ⟨a, ha⟩)
  | load x slot =>
    simp only [Machine.mutatorStep, Machine.loadField, bind_eq_ok, check_eq_ok, deref_eq_ok,
      pure_eq_ok, Prod.exists] at h
    obtain ⟨-, -, c, s, ⟨o, -, -, -, h⟩, rfl⟩ := h
    split at h
    · cases h
    · obtain ⟨u, hu, h⟩ := bind_eq_ok.mp h
      obtain ⟨-, rfl⟩ := Prod.mk.inj (pure_eq_ok.mp h)
      exact entryRuns_incr hu
  | share x =>
    simp only [Machine.mutatorStep, bind_eq_ok, check_eq_ok, pure_eq_ok] at h
    obtain ⟨-, -, s, hs, rfl⟩ := h
    exact entryRuns_incr hs
  | drop x =>
    simp only [Machine.mutatorStep, bind_eq_ok, check_eq_ok, pure_eq_ok] at h
    obtain ⟨-, -, s, hs, rfl⟩ := h
    exact entryRuns_one (e := .decr (.own x)) trivial hs
  | store operand x slot y =>
    simp only [Machine.mutatorStep, bind_eq_ok, check_eq_ok, pure_eq_ok] at h
    obtain ⟨-, -, s, hs, rfl⟩ := h
    exact entryRuns_storeField hs
  | notify operand x y =>
    simp only [Machine.mutatorStep, bind_eq_ok, check_eq_ok, pure_eq_ok] at h
    obtain ⟨-, -, s, hs, rfl⟩ := h
    exact entryRuns_one (e := .notify (operand.ptr x) (.own y)) trivial hs
  | storeGlobal g y =>
    simp only [Machine.mutatorStep, bind_eq_ok, check_eq_ok, pure_eq_ok] at h
    obtain ⟨-, -, s, hs, rfl⟩ := h
    exact entryRuns_one (e := .notify (.own y) (.own y)) trivial hs
  | gcCycle t r c =>
    obtain rfl := Except.ok.inj h
    exact entryRuns_one
      (e := .gcCycle { tracing := t, releasing := r, checking := c }) trivial rfl
  | gcReleasing | gcTracing roots => cases h

/-- Every step of the machine is made of calls of the entry points. -/
theorem entryRuns_step (h : m.step act = .ok m') :
    Runs (Entry.run naturalCounts) CompilerHeaders m.rt m'.rt := by
  unfold Machine.step at h
  split at h
  · exact entryRuns_mutatorStep h
  · obtain ⟨r, hr, h⟩ := bind_eq_ok.mp h
    refine entryRuns_one (e := .gcReleasing) trivial (Entry.run_gcReleasing.mpr ⟨r, hr, ?_⟩)
    cases r <;> (obtain rfl := pure_eq_ok.mp h; rfl)
  · rename_i roots _
    simp only [bind_eq_ok, check_eq_ok] at h
    obtain ⟨-, -, r, hr, h⟩ := h
    refine entryRuns_one (e := .gcTracing roots) trivial (Entry.run_gcTracing.mpr ⟨r, hr, ?_⟩)
    cases r <;> (obtain rfl := pure_eq_ok.mp h; rfl)
  · cases h

theorem registered_of_runs (hr : Runs Machine.step ok (Machine.init env globals) m) :
    Registered m.rt := by
  have hentries : Runs (Entry.run naturalCounts) CompilerHeaders (syliStateInit env) m.rt := by
    refine hr.invariant (P := fun m =>
      Runs (Entry.run naturalCounts) CompilerHeaders (syliStateInit env) m.rt) .refl ?_
    intro m act m' h _ hstep
    exact h.trans (entryRuns_step hstep)
  exact (candidates_of_runs hentries).registered

/-- The object that the tracer pops next has its children, if it is to be expanded. -/
def TracesIntact (s : SyliState) : Prop :=
  0 < s.budgets.tracing →
    (s.tracingState = .tracing → ∀ a ∈ s.tracingWorklist.head?, ∀ o ∈ s.heap a,
      o.waitingRemove = false → 0 < o.refcount → o.mark ≠ s.tracingCurrentBitMark →
        o.childrenReleased = false) ∧
      (s.tracingState = .mutationPrepare → ∀ p ∈ s.tracingMutationsWorklist.head?,
        ∀ a ∈ p.ownRef?, ∀ o ∈ s.heap a, o.childrenReleased = false)

instance (s : SyliState) : Decidable (TracesIntact s) :=
  inferInstanceAs (Decidable (0 < s.budgets.tracing →
    (s.tracingState = .tracing → ∀ a ∈ s.tracingWorklist.head?, ∀ o ∈ s.heap a,
      o.waitingRemove = false → 0 < o.refcount → o.mark ≠ s.tracingCurrentBitMark →
        o.childrenReleased = false) ∧
      (s.tracingState = .mutationPrepare → ∀ p ∈ s.tracingMutationsWorklist.head?,
        ∀ a ∈ p.ownRef?, ∀ o ∈ s.heap a, o.childrenReleased = false)))

/-- The children of an object that still counts them are allocated. -/
theorem children_allocated (hl : Ledger s claims s.outRefs) (ho : s.heap a = some o)
    (hw : o.waitingRemove = false) (hcr : o.childrenReleased = false) :
    ∀ c ∈ o.ownRefs, ∃ o, s.heap c = some o := by
  intro c hc
  have hmem : c ∈ s.outRefs a := by
    rw [outRefs_of_heap ho, countedRefs_of_intact hw hcr]
    exact hc
  obtain ⟨oc, hoc, -⟩ := hl.exists_of_edge (hl.lt_next ho) hmem
  exact ⟨oc, hoc⟩

theorem idle_iterate_ok (hidle : s.tracingState = .idle)
    (hroots : ∀ c ∈ roots.filterMap ObjPtr.ownRef?, ∃ o, s.heap c = some o) :
    ∃ r, syliStateGcTracing s roots = .ok r := by
  by_cases hstart : TraceStarts s
  · obtain ⟨s', hs'⟩ := start_ok hstart hroots
    exact ⟨some s', hs'⟩
  · refine ⟨none, ?_⟩
    unfold syliStateGcTracing
    split
    · rfl
    · rename_i hb
      have htrig : ¬ tracingTriggered s = true := fun htrig =>
        hstart ⟨hidle, Int.not_le.mp hb, htrig⟩
      simp only [hidle, if_neg htrig]

theorem mutation_iterate_ok (hl : Ledger s claims s.outRefs) (hd : Deferred s)
    (hst : s.tracingState = .mutationPrepare) (hok : TracesIntact s) :
    ∃ r, syliStateGcTracing s roots = .ok r := by
  unfold syliStateGcTracing
  split
  · exact ⟨none, rfl⟩
  rename_i hb
  simp only [hst]
  split
  · split
    · exact ⟨_, rfl⟩
    · exact ⟨_, rfl⟩
  · rename_i hne
    obtain ⟨p, rest, hmut⟩ := List.exists_cons_of_ne_nil hne
    obtain ⟨a, o, rfl, ho, hw⟩ := hd.mutations p (hmut ▸ List.mem_cons_self)
    have hcr : o.childrenReleased = false :=
      (hok (Int.not_le.mp hb)).2 hst (.own a) (by simp [hmut]) a rfl o ho
    have hchildren : ∀ c ∈ o.ownRefs, ∃ o, s.heap c = some o := children_allocated hl ho hw hcr
    obtain ⟨u, hu⟩ := pushChildren_ok (s := (s.setMutations rest).chargeTracing
      o.header.mutationBudget) hchildren
    have hstep : gcOneStepPrepareTracingMutations s = .ok u := by
      unfold gcOneStepPrepareTracingMutations
      rw [gcVectorPopBack_eq_ok.mpr hmut]
      have hderef : (s.setMutations rest).deref a = .ok o := deref_eq_ok.mpr ho
      simp only [bind, Except.bind, ObjPtr.ownRef?, hderef, hw, Bool.false_eq_true, if_false]
      exact hu
    exact ⟨some u, by simp only [hstep, bind, Except.bind]; rfl⟩

/-- An iteration does not fail where the object to expand has its children. -/
theorem iterate_ok (he : Exact m) (hd : Deferred m.rt) (hsep : Separate m.rt)
    (hreg : Registered m.rt) (hw : WorklistsReady m.rt) (hroots : m.RootsExact roots)
    (hok : TracesIntact m.rt) : ∃ r, syliStateGcTracing m.rt roots = .ok r := by
  cases hst : m.rt.tracingState with
  | idle =>
    refine idle_iterate_ok hst fun c hc => ?_
    have hmem : c ∈ m.claims :=
      List.mem_append_left _ (List.mem_append_left _ (hroots.1 c hc))
    obtain ⟨oc, hoc, -⟩ := he.exists_of_claim hmem
    exact ⟨oc, hoc⟩
  | tracing =>
    by_cases hb : 0 < m.rt.budgets.tracing
    · obtain ⟨a, rest, hwl⟩ := List.exists_cons_of_ne_nil (hw.tracing hst)
      obtain ⟨o, ho, -⟩ := (hd.flagged a).mp (hwl ▸ List.mem_cons_self)
      refine tracing_iterate_ok hst hwl ho fun hwait hpos hmark => ?_
      have hcr : o.childrenReleased = false :=
        (hok hb).1 hst a (by simp [hwl]) o ho hwait hpos hmark
      exact children_allocated he ho hwait hcr
    · refine ⟨none, ?_⟩
      unfold syliStateGcTracing
      rw [if_pos (Int.not_lt.mp hb)]
  | mutationPrepare => exact mutation_iterate_ok he hd hst hok
  | reclaimingCyclicCandidates =>
    have hlost : ∀ a ∈ m.rt.lostCycleWorklist, ∃ o, m.rt.heap a = some o := by
      intro a ha
      obtain ⟨o, ho, -⟩ := hsep.alive a (List.mem_append_right _ ha)
      exact ⟨o, ho⟩
    exact (reclaim_iterate_ok hreg he hst hlost).imp fun _ hr => hr.1

/-- The tracer expands no object whose children were released. -/
def ExpandsIntact (m : Machine) : Action → Prop
  | .gcTracing _ => TracesIntact m.rt
  | _ => True

instance (m : Machine) : (act : Action) → Decidable (ExpandsIntact m act)
  | .gcTracing _ => inferInstanceAs (Decidable (TracesIntact m.rt))
  | .alloc _ | .load _ _ | .share _ | .drop _ | .store _ _ _ _ | .notify _ _ _
  | .storeGlobal _ _ | .gcCycle _ _ _ | .gcReleasing => isTrue trivial

/-- No released object is touched, no scanned candidate holds all its own counts, and nothing that
the tracer still queues is freed. -/
def SliceSafe (m : Machine) (act : Action) : Prop :=
  (RespectsReleased m act ∧ ScansCounted m act) ∧ Deferrable m act ∧ ExpandsIntact m act

instance (m : Machine) (act : Action) : Decidable (SliceSafe m act) :=
  inferInstanceAs (Decidable ((_ ∧ _) ∧ _ ∧ _))

theorem exact_of_runs (hr : Runs Machine.step SliceSafe (Machine.init env globals) m) :
    Exact m :=
  hr.invariant (exact_init env globals) fun _ _ _ h hok hstep =>
    exact_move h hok.1.1 (step_move hstep)

/-- In a run that meets the condition, one more iteration succeeds: the call returns to the
mutator, or goes on. -/
theorem machine_iterate_ok (hr : Runs Machine.step SliceSafe (Machine.init env globals) m)
    (hc : m.control = .tracing) (hroots : m.RootsExact roots)
    (hok : SliceSafe m (.gcTracing roots)) :
    ∃ m', m.step (.gcTracing roots) = .ok m' ∧ (m'.control = .mutator ∨
      m'.control = .tracing ∧ m'.locals = m.locals ∧ Iterates roots m.rt m'.rt) := by
  have hd := (deferred_of_runs (hr.mono fun _ _ h => h.2.1)).1
  have hsep := separate_of_runs (hr.mono fun _ _ h => h.1)
  obtain ⟨r, hr'⟩ := iterate_ok (exact_of_runs hr) hd hsep (registered_of_runs hr)
    (worklistsReady_of_runs hr) hroots hok.2.2
  have hcheck : check (m.RootsExact roots) .illegal = .ok () := check_eq_ok.mpr hroots
  cases r with
  | none =>
    refine ⟨{ m with control := .mutator }, ?_, Or.inl rfl⟩
    simp only [Machine.step, hc, hcheck, hr', bind, Except.bind]
    rfl
  | some s =>
    refine ⟨{ m with rt := s }, ?_, Or.inr ⟨hc, rfl, hr'⟩⟩
    simp only [Machine.step, hc, hcheck, hr', bind, Except.bind]
    rfl

/-- The call that the machine is in comes back to the mutator, unless one of its iterations breaks
the condition. -/
inductive Returns (ok : Machine → Action → Prop) (roots : List ObjPtr) : Machine → Prop where
  | excluded {m : Machine} : ¬ ok m (.gcTracing roots) → Returns ok roots m
  | returns {m m' : Machine} : m.step (.gcTracing roots) = .ok m' → m'.control = .mutator →
      Returns ok roots m
  | iterates {m m' : Machine} : m.step (.gcTracing roots) = .ok m' → m'.control = .tracing →
      Returns ok roots m' → Returns ok roots m

theorem returns_of_acc (hacc : Acc (flip (Iterates roots)) s) (hs : m.rt = s)
    (hr : Runs Machine.step SliceSafe (Machine.init env globals) m) (hc : m.control = .tracing)
    (hroots : m.RootsExact roots) : Returns SliceSafe roots m := by
  induction hacc generalizing m with
  | intro s _ ih =>
    by_cases hok : SliceSafe m (.gcTracing roots)
    · obtain ⟨m', hstep, hdone | ⟨hc', hlocals, hiter⟩⟩ := machine_iterate_ok hr hc hroots hok
      · exact .returns hstep hdone
      · have hroots' : m'.RootsExact roots := by
          unfold Machine.RootsExact
          rw [hlocals]
          exact hroots
        exact .iterates hstep hc'
          (ih m'.rt (hs ▸ hiter) rfl (hr.tail hok hstep) hc' hroots')
    · exact .excluded hok

/-- In every run no iteration pops from an empty worklist and no call iterates forever; in a run
that meets the condition every call returns. -/
theorem slices_return (roots : List ObjPtr) :
    (∀ m, Runs Machine.step (fun _ _ => True) (Machine.init env globals) m →
      NoEmptyPop (syliStateGcTracing m.rt roots) ∧ Acc (flip (Iterates roots)) m.rt) ∧
      ∀ m, Runs Machine.step SliceSafe (Machine.init env globals) m → m.control = .tracing →
        m.RootsExact roots → Returns SliceSafe roots m := by
  constructor
  · intro m hr
    exact ⟨noEmptyPop_iterate (worklistsReady_of_runs hr).tracing, slice_acc (freed_of_runs hr)⟩
  · intro m hr hc hroots
    exact returns_of_acc (slice_acc (freed_of_runs hr)) rfl hr hc hroots

/-- The reclaiming of two lost cells that refer to each other. -/
theorem slices_return_lostPair :
    ∃ m, Runs Machine.step SliceSafe (Machine.init testEnv 0) m ∧ m.rt.lostCycleWorklist ≠ [] ∧
      Returns SliceSafe [.own 3] m := by
  obtain ⟨m, hm, hlost, hc, hroots⟩ :
      ∃ m ∈ execute Machine.step SliceSafe (Machine.init testEnv 0) lostPair,
        m.rt.lostCycleWorklist ≠ [] ∧ m.control = .tracing ∧ m.RootsExact [.own 3] := by
    decide +kernel
  exact ⟨m, Runs.of_execute hm, hlost,
    (slices_return [.own 3]).2 m (Runs.of_execute hm) hc hroots⟩

/-- A lost cell that only refers to itself is queued twice: the call that frees it the second time
uses a freed object, and does not return. -/
theorem slice_faults_on_selfReference :
    ∃ m, Runs Machine.step (fun _ _ => True) (Machine.init testEnv 0) m ∧
      m.control = .tracing ∧ m.RootsExact [.own 2] ∧
        syliStateGcTracing m.rt [.own 2] = .error .useAfterFree ∧
          ¬ Returns (fun _ _ => True) [.own 2] m := by
  obtain ⟨m, hm, hc, hroots, hfault⟩ :
      ∃ m ∈ execute Machine.step (fun _ _ => True) (Machine.init testEnv 0)
        ([.alloc (mutableCell 1), .alloc (mutableCell 1), .share 1, .store .own 1 0 1, .drop 1,
          .gcCycle 100 0 100, .gcReleasing] ++ List.replicate 5 (.gcTracing [.own 2])),
        m.control = .tracing ∧ m.RootsExact [.own 2] ∧
          (match syliStateGcTracing m.rt [.own 2] with
            | .error .useAfterFree => true
            | _ => false) = true := by
    decide +kernel
  have herror : syliStateGcTracing m.rt [.own 2] = .error .useAfterFree := by
    split at hfault
    · assumption
    · cases hfault
  have hcheck : check (m.RootsExact [.own 2]) .illegal = .ok () := check_eq_ok.mpr hroots
  have hstep : m.step (.gcTracing [.own 2]) = .error .useAfterFree := by
    simp only [Machine.step, hc, hcheck, herror, bind, Except.bind]
  refine ⟨m, Runs.of_execute hm, hc, hroots, herror, ?_⟩
  intro hreturns
  cases hreturns with
  | excluded hno => exact hno trivial
  | returns h _ => simp [hstep] at h
  | iterates h _ _ => simp [hstep] at h

end Syli.Collector
