import Syli.Collector.Marking

/-! The write barrier: when a trace ends, no marked object with counts refers to an unmarked one. -/
namespace Syli.Collector

open Foundation Syli.Runtime

variable {s s' : SyliState} {m m' : Machine} {a x y : Addr} {act : Action}
variable {env : Env} {globals : Nat} {roots : List ObjPtr}

/-- Every object with counts carries the current mark. -/
def AllMarked (s : SyliState) : Prop :=
  ∀ a < s.next, ∀ o ∈ s.heap a, 0 < o.refcount → o.mark = s.tracingCurrentBitMark

def Traceable (s : SyliState) (a : Addr) : Prop :=
  ∀ o ∈ s.heap a, o.header.isTraceable = true

/-- During a trace a store goes into a traceable object, and where the object is marked and the
target is not it is notified with the own reference; a trace starts from an all marked heap. -/
def Fenced (m : Machine) : Action → Prop
  | .store operand x _ y => InTrace m.rt.tracingState →
    Traceable m.rt x ∧ (operand = .own ∨ ¬ Marked m.rt x ∨ Marked m.rt y)
  | .gcTracing _ => TraceStarts m.rt → AllMarked m.rt
  | _ => True

instance (m : Machine) : (act : Action) → Decidable (Fenced m act)
  | .store operand x _ y => inferInstanceAs (Decidable (InTrace m.rt.tracingState →
      (∀ o ∈ m.rt.heap x, o.header.isTraceable = true) ∧
        (operand = .own ∨ ¬ Marked m.rt x ∨ Marked m.rt y)))
  | .gcTracing _ => inferInstanceAs (Decidable (TraceStarts m.rt → ∀ a < m.rt.next,
      ∀ o ∈ m.rt.heap a, 0 < o.refcount → o.mark = m.rt.tracingCurrentBitMark))
  | .alloc _ | .load _ _ | .share _ | .drop _ | .notify _ _ _ | .storeGlobal _ _
  | .gcCycle _ _ _ | .gcReleasing => isTrue trivial

/-- The objects with counts are intact, and the references of the marked ones are covered. -/
structure Fence (s : SyliState) : Prop where
  intact : ∀ a o, s.heap a = some o → 0 < o.refcount → o.childrenReleased = false
  covered : Covered (Counted s) s

/-- Outside of a trace an object with counts whose children were released is not marked. -/
structure Barrier (s : SyliState) : Prop where
  released : ¬ InTrace s.tracingState → ∀ a o, s.heap a = some o → 0 < o.refcount →
    o.childrenReleased = true → o.mark ≠ s.tracingCurrentBitMark
  fence : InTrace s.tracingState → Fence s

theorem Fence.barrier (h : Fence s) : Barrier s where
  released _ a o ho hpos hcr := by simp [h.intact a o ho hpos] at hcr
  fence _ := h

/-- The property at the end of a trace: no marked object with counts has an own-tagged field that
points to an unmarked object. -/
def NoMarkedToUnmarked (s : SyliState) : Prop :=
  ∀ x o y, s.heap x = some o → 0 < o.refcount → o.mark = s.tracingCurrentBitMark →
    y ∈ o.ownRefs → Marked s y

theorem Fence.noMarkedToUnmarked {claims : List Addr} (h : Fence s)
    (hl : Ledger s claims s.outRefs) (hwl : s.tracingWorklist = [])
    (hm : s.tracingMutationsWorklist = []) : NoMarkedToUnmarked s := by
  intro x o y ho hpos hmark hy
  have hxy : y ∈ s.outRefs x := by
    rw [outRefs_of_heap ho, countedRefs_of_intact (hl.not_waiting_of_pos ho hpos)
      (h.intact x o ho hpos)]
    exact hy
  exact h.covered.marked hwl hm ⟨o, ho, hpos⟩ ⟨o, ho, hmark⟩ hxy

/-- An object with counts after a step, next to the object before: the step keeps the child flag,
and outside of a trace the mark. -/
def Persists (s s' : SyliState) : Prop :=
  ∀ a o', s'.heap a = some o' → 0 < o'.refcount → ∃ o, s.heap a = some o ∧ 0 < o.refcount ∧
    o'.childrenReleased = o.childrenReleased ∧
      (¬ InTrace s.tracingState → o'.mark = o.mark)

theorem Fence.step {claims : List Addr} (h : Fence s) (h' : Ledger s' claims s'.outRefs)
    (hp : Persists s s') (hr : Respects s s') : Fence s' where
  intact a o' ho' hpos := by
    obtain ⟨o, ho, hpos, hcr, -⟩ := hp a o' ho' hpos
    exact hcr.trans (h.intact a o ho hpos)
  covered := hr.covered h' hr.counted (fun _ => id) h.covered

theorem Barrier.step {claims : List Addr} (h : Barrier s) (h' : Ledger s' claims s'.outRefs)
    (hstate : s'.tracingState = s.tracingState)
    (hbit : s'.tracingCurrentBitMark = s.tracingCurrentBitMark) (hp : Persists s s')
    (hr : InTrace s.tracingState → Respects s s') : Barrier s' where
  released hn a o' ho' hpos hcr := by
    rw [hstate] at hn
    obtain ⟨o, ho, hpos, hcr', hm⟩ := hp a o' ho' hpos
    rw [hm hn, hbit]
    exact h.released hn a o ho hpos (hcr'.symm.trans hcr)
  fence ht := by
    rw [hstate] at ht
    exact (h.fence ht).step h' hp (hr ht)

theorem persists_of_release (hf : ReleaseFrame s s') : Persists s s' := by
  intro a o' ho' hpos
  obtain ⟨o, ho, hframe⟩ := hf.obj a o' ho'
  refine ⟨o, ho, Nat.lt_of_lt_of_le hpos hframe.refcount, hframe.childrenReleased, fun _ => ?_⟩
  exact hframe.mark.resolve_right (by omega)

theorem persists_of_share {o : GCObject} (ho : s.heap x = some o) (hpos : 0 < o.refcount) :
    Persists s (s.setObj x { o with refcount := o.refcount + 1 }) := by
  intro a o' ho' hpos'
  rcases heap_cases rfl ho' with ⟨rfl, rfl⟩ | ⟨-, ha⟩
  · exact ⟨o, ho, hpos, rfl, fun _ => rfl⟩
  · exact ⟨o', ha, hpos', rfl, fun _ => rfl⟩

/-- A notification with the own reference marks the target where the object is marked. -/
theorem stored_marks_target {slot : Nat} (h : Stored .own x slot y s s')
    (ht : InTrace s.tracingState) (htr : Traceable s x) (hm : Marked s' x) : Marked s' y := by
  obtain @⟨u, o, o₁, ho, -, -, hold, ho₁, hn⟩ := h
  have hframe : ReleaseFrame s u := by
    rcases hold with ⟨rfl, -⟩ | ⟨c, oc, -, hc, hg⟩
    · exact .refl _
    · exact hg.frame hc
  have hheader : o₁.header.isTraceable = true := by
    obtain ⟨o₂, ho₂, hf⟩ := hframe.obj x o₁ ho₁
    rw [hf.header]
    exact htr o₂ ho₂
  cases hn with
  | quiet hq =>
    have hst : InTrace u.tracingState := hframe.state ▸ ht
    obtain ⟨o₂, t, ho₂, hmark⟩ := hq hst rfl
    obtain ⟨o₃, ho₃, hm₃⟩ := hm
    obtain rfl := Option.some.inj (ho₂.symm.trans ho₃)
    rcases heap_cases rfl ho₂ with ⟨-, rfl⟩ | ⟨hne, -⟩
    · exact ⟨t, hmark hm₃ hheader⟩
    · exact absurd rfl hne
  | @barrier o₂ t _ _ _ _ _ _ _ =>
    exact ⟨{ t with mark := u.tracingCurrentBitMark }, by simp, rfl⟩

theorem persists_of_stored {operand : Operand} {slot : Nat} {claims : List Addr}
    (h' : Ledger s' claims s'.outRefs) (hs : Stored operand x slot y s s') : Persists s s' := by
  intro a o' ho' hpos
  obtain ⟨o, ho, -, hcr, hle, hm⟩ := hs.obj ho'
  refine ⟨o, ho, Nat.lt_of_lt_of_le hpos hle, hcr, fun hn => ?_⟩
  rcases hm with hm | hz | ⟨-, hmem⟩
  · exact hm
  · omega
  · rw [← hs.lists.2.2.1] at hn
    simp [(h'.quiet hn).2] at hmem

theorem persists_of_notified {operand : Operand} {claims : List Addr}
    (h' : Ledger s' claims s'.outRefs) (hn : Notified operand x y s s') : Persists s s' := by
  intro a o' ho' hpos
  obtain ⟨o, ho, -, hcr, hcount, hm⟩ := hn.obj ho'
  refine ⟨o, ho, hcount ▸ hpos, hcr, fun hst => ?_⟩
  rcases hm with hm | ⟨-, hmem⟩
  · exact hm
  · rw [← hn.lists.2.2.1] at hst
    simp [(h'.quiet hst).2] at hmem

theorem barrier_alloc {claims : List Addr} (h : Ledger s claims s.outRefs) (hb : Barrier s)
    (hs : Allocated s s') : Barrier s' where
  released hn a o' ho' hpos hcr := by
    rcases hs.obj ho' with ⟨-, hno, -⟩ | ⟨-, ho⟩
    · simp [hno] at hcr
    · rw [hs.bit]
      exact hb.released (hs.state ▸ hn) a o' ho hpos hcr
  fence ht := by
    have hf := hb.fence (hs.state ▸ ht)
    refine ⟨?_, hs.covered h ?_ hf.covered⟩
    · intro a o' ho' hpos
      rcases hs.obj ho' with ⟨-, hno, -⟩ | ⟨-, ho⟩
      · exact hno
      · exact hf.intact a o' ho hpos
    · rintro a ⟨o', ho', hpos⟩
      rcases hs.obj ho' with ⟨rfl, -⟩ | ⟨-, ho⟩
      · exact Or.inr rfl
      · exact Or.inl ⟨o', ho, hpos⟩

/-- At the start of a trace the marks are turned, so that nothing with counts is marked. -/
theorem fence_start {claims : List Addr} (h : Ledger s claims s.outRefs) (hb : Barrier s)
    (hidle : s.tracingState = .idle) (hall : AllMarked s) (hst : Started roots s s') :
    Fence s' := by
  have hback : ∀ a o', s'.heap a = some o' → 0 < o'.refcount → ∃ o, s.heap a = some o ∧
      0 < o.refcount ∧ o'.childrenReleased = o.childrenReleased ∧
        o.mark = s.tracingCurrentBitMark := by
    intro a o' ho' hpos
    obtain ⟨o, ho, -, hcr, -, hcount⟩ := hst.obj ho'
    have hpos' : 0 < o.refcount := hcount ▸ hpos
    exact ⟨o, ho, hpos', hcr, hall a (h.lt_next ho) o ho hpos'⟩
  refine ⟨?_, hst.covered ?_⟩
  · intro a o' ho' hpos
    obtain ⟨o, ho, hpos', hcr, hmark⟩ := hback a o' ho' hpos
    by_contra hno
    refine hb.released (by simp [hidle, InTrace]) a o ho hpos' ?_ hmark
    rw [← hcr]
    simpa using hno
  · rintro a ⟨o', ho', hpos⟩
    obtain ⟨o, ho, -, -, hmark⟩ := hback a o' ho' hpos
    exact ⟨o, ho, hmark⟩

/-- The steps that start a trace or take one further keep the fence. -/
theorem fence_tracing (h : Exact m) (h' : Exact { m with rt := s' }) (hb : Barrier m.rt)
    (hf : Fenced m (.gcTracing roots)) (hs : TracingStep roots m.rt s')
    (hne : m.rt.tracingState ≠ .reclaimingCyclicCandidates) : Fence s' := by
  cases hs with
  | start hstart hq ht =>
    exact fence_start h hb hstart.1 (hf hstart) (started_of_idle hstart.1 (.start hstart hq ht))
  | mark hs =>
    refine (hb.fence hs.inTrace).step h' ?_ (respects_of_mark h' hs)
    intro a o' ho' hpos
    obtain ⟨o, mark, tracing, ho, rfl⟩ := hs.obj ho'
    exact ⟨o, ho, hpos, rfl, fun hn => absurd hs.inTrace hn⟩
  | reclaim hs => exact absurd hs.reclaiming hne

theorem barrier_reclaim {claims : List Addr} (h : Ledger s claims s.outRefs) (hb : Barrier s)
    (hs : ReclaimStep s s') : Barrier s' where
  released _ a o' ho' hpos hcr := by
    obtain ⟨o, ho, hf⟩ := hs.obj ho'
    have hpos' : 0 < o.refcount := Nat.lt_of_lt_of_le hpos hf.refcount
    rw [hf.mark.resolve_right (by omega), hs.lists.2.2]
    rcases hf.childrenReleased with heq | hlost | hne
    · exact hb.released (not_inTrace_of_reclaiming hs.reclaiming) a o ho hpos' (heq ▸ hcr)
    · have := h.lost a hlost o ho
      omega
    · exact hne
  fence ht := absurd ht (not_inTrace_of_reclaim hs)

theorem barrier_move (h : Exact m) (hb : Barrier m.rt) (hok : RespectsReleased m act)
    (hf : Fenced m act) (hm : Move m act m') : Barrier m'.rt := by
  have h' := exact_move h hok hm
  have hrelease : ReleaseFrame m.rt m'.rt → Barrier m'.rt := fun hr =>
    hb.step h' hr.state hr.bit (persists_of_release hr) fun _ => respects_of_release hr
  cases hm with
  | alloc candidate candidates index g _ _ =>
    exact barrier_alloc h hb (allocated h candidates index g)
  | @load x slot o oc c _ hx ho hc hoc _ =>
    have hxc : c ∈ m.rt.outRefs x := by
      rw [Ledger.outRefs_of_claim h (List.mem_append_left _ hx) ho (hok o ho)]
      exact hc
    obtain ⟨oc', hoc', hpos⟩ := Ledger.counted_of_outRefs h hxc
    obtain rfl := Option.some.inj (hoc.symm.trans hoc')
    exact hb.step h' rfl rfl (persists_of_share hoc hpos) fun _ => respects_of_share hoc hpos
  | @share x o _ hx ho =>
    obtain ⟨o', ho', hpos⟩ := h.exists_of_claim (List.mem_append_left _ hx)
    obtain rfl := Option.some.inj (ho.symm.trans ho')
    exact hb.step h' rfl rfl (persists_of_share ho hpos) fun _ => respects_of_share ho hpos
  | drop _ _ ho hgive => exact hrelease (hgive.frame ho)
  | @store operand x y slot s _ hx hy hs =>
    obtain ⟨-, hbit, hstate, -⟩ := hs.lists
    refine hb.step h' hstate hbit (persists_of_stored h' hs) fun ht => respects_of_stored h' hs ?_
    obtain ⟨htr, rfl | hno | hmark⟩ := hf ht
    · exact Or.inr (Or.inl (stored_marks_target hs ht htr))
    · exact Or.inr (Or.inr hno)
    · exact Or.inl (Or.inl hmark)
  | notify _ _ _ hn =>
    obtain ⟨-, hbit, hstate, -⟩ := hn.lists
    exact hb.step h' hstate hbit (persists_of_notified h' hn) fun _ => respects_of_notified hn
  | storeGlobal _ _ _ => exact hrelease (.refl m.rt)
  | gcCycle b _ => exact hrelease ((ReleaseFrame.refl m.rt).lists rfl rfl rfl rfl rfl rfl)
  | releasing _ hs => exact hrelease hs.frame
  | releasingDone _ => exact hrelease (.refl m.rt)
  | tracing _ _ hs =>
    by_cases hst : m.rt.tracingState = .reclaimingCyclicCandidates
    · cases hs with
      | start hstart _ _ => exact absurd (hstart.1.symm.trans hst) (by simp)
      | mark hs => exact absurd hs.inTrace (not_inTrace_of_reclaiming hst)
      | reclaim hs => exact barrier_reclaim h hb hs
    · exact (fence_tracing h h' hb hf hs hst).barrier
  | tracingDone _ => exact hrelease (.refl m.rt)

theorem exact_barrier_of_runs
    (h : Runs Machine.step (fun m act => RespectsReleased m act ∧ Fenced m act)
      (Machine.init env globals) m) : Exact m ∧ Barrier m.rt := by
  refine h.invariant (P := fun m => Exact m ∧ Barrier m.rt) ⟨exact_init env globals, ?_⟩ ?_
  · exact ⟨fun _ a o ho => by simp [Machine.init, syliStateInit] at ho,
      fun hin => by simp [InTrace, Machine.init, syliStateInit] at hin⟩
  · rintro m act m' ⟨he, hb⟩ ⟨hok, hf⟩ hstep
    have hm := step_move hstep
    exact ⟨exact_move he hok hm, barrier_move he hb hok hf hm⟩

/-- When the machine begins to reclaim, no marked object with counts refers to an unmarked one. -/
theorem barrier_holds_at_reclaiming
    (h : Runs Machine.step (fun m act => RespectsReleased m act ∧ Fenced m act)
      (Machine.init env globals) m)
    (hok : RespectsReleased m act) (hf : Fenced m act) (hstep : m.step act = .ok m')
    (hbefore : m.rt.tracingState ≠ .reclaimingCyclicCandidates)
    (hafter : m'.rt.tracingState = .reclaimingCyclicCandidates) : NoMarkedToUnmarked m'.rt := by
  obtain ⟨he, hb⟩ := exact_barrier_of_runs h
  have hm := step_move hstep
  have he' := exact_move he hok hm
  obtain ⟨hwl, hmut⟩ := he'.quiet (not_inTrace_of_reclaiming hafter)
  have hkeep : ∀ {s}, ReleaseFrame m.rt s → s.tracingState ≠ .reclaimingCyclicCandidates :=
    fun hr heq => hbefore (hr.state.symm.trans heq)
  cases hm with
  | tracing _ _ hs =>
    exact (fence_tracing he he' hb hf hs hbefore).noMarkedToUnmarked he' hwl hmut
  | alloc _ _ _ _ _ _ => exact absurd (by simpa using hafter) hbefore
  | drop _ _ ho hgive => exact absurd hafter (hkeep (hgive.frame ho))
  | store _ _ _ hs => exact absurd (hs.lists.2.2.1.symm.trans hafter) hbefore
  | notify _ _ _ hn => exact absurd (hn.lists.2.2.1.symm.trans hafter) hbefore
  | releasing _ hs => exact absurd hafter (hkeep hs.frame)
  | _ => exact absurd hafter hbefore

/-- The mutator loads `2` out of the unscanned `1`, overwrites the slot it came from, and stores it
into the marked `3`. -/
def markedStore (operand : Operand) : List Action :=
  chainTrace ++ [.load 1 0, .store .own 1 0 3, .store operand 3 0 2, .gcCycle 100 0 100,
    .gcReleasing]

theorem barrier_holds_at_reclaiming_own :
    ∃ m m', Runs Machine.step (fun m act => RespectsReleased m act ∧ Fenced m act)
        (Machine.init testEnv 0) m ∧ m.step (.gcTracing [.own 1, .own 3]) = .ok m' ∧
      NoMarkedToUnmarked m'.rt := by
  obtain ⟨m, hm, m', hm', hok, hf, hbefore, hafter⟩ :
      ∃ m ∈ execute Machine.step (fun m act => RespectsReleased m act ∧ Fenced m act)
        (Machine.init testEnv 0)
          (markedStore .own ++ List.replicate 4 (.gcTracing [.own 1, .own 3])),
        ∃ m' ∈ (m.step (.gcTracing [.own 1, .own 3])).toOption,
          RespectsReleased m (.gcTracing [.own 1, .own 3]) ∧
            Fenced m (.gcTracing [.own 1, .own 3]) ∧
              m.rt.tracingState ≠ .reclaimingCyclicCandidates ∧
                m'.rt.tracingState = .reclaimingCyclicCandidates := by
    decide +kernel
  have hstep := mem_toOption.mp hm'
  exact ⟨m, m', Runs.of_execute hm, hstep,
    barrier_holds_at_reclaiming (Runs.of_execute hm) hok hf hstep hbefore hafter⟩

/-- A cell that may not lie on a cycle, so that it is never a candidate. -/
def plainCell : ObjectHeader := makeHeader false .monoRef (flagHasPointers ||| flagTraceable) 3 1

/-- The trace misses `2`, which the mutator has loaded. The next trace takes its mark for a current
one and does not scan it, so that the fresh object stored into it stays unmarked. -/
def staleMark : List Action :=
  [.alloc (mutableCell 1), .alloc plainCell, .alloc (mutableCell 1), .store .own 1 0 2, .share 3,
    .gcCycle 1 0 1, .gcReleasing, .gcTracing [.own 1, .own 3], .gcTracing [.own 1, .own 3],
    .gcTracing [.own 1, .own 3], .load 1 0, .store .own 1 0 3, .gcCycle 100 0 100, .gcReleasing] ++
    List.replicate 6 (.gcTracing [.own 1, .own 2, .own 3]) ++
    [.alloc (mutableCell 1), .store .own 2 0 4, .gcCycle 100 0 100, .gcReleasing]

/-- Both a store through a borrow and a stale mark leave a marked object that refers to an unmarked
one when the machine begins to reclaim. -/
theorem barrier_broken_by_borrow_and_by_stale_mark :
    (∃ m m', Runs Machine.step (fun _ _ => True) (Machine.init testEnv 0) m ∧
      m.step (.gcTracing [.own 1, .own 3]) = .ok m' ∧
        m.rt.tracingState = .tracing ∧ m'.rt.tracingState = .reclaimingCyclicCandidates ∧
          ¬ NoMarkedToUnmarked m'.rt) ∧
      ∃ m m', Runs Machine.step (fun _ _ => True) (Machine.init testEnv 0) m ∧
        m.step (.gcTracing [.own 1, .own 2, .own 3]) = .ok m' ∧
          m.rt.tracingState = .tracing ∧ m'.rt.tracingState = .reclaimingCyclicCandidates ∧
            ¬ NoMarkedToUnmarked m'.rt := by
  have hbreaks : ∀ {s : SyliState} {x y : Addr}, (∃ o ∈ s.heap x, 0 < o.refcount ∧
      o.mark = s.tracingCurrentBitMark ∧ y ∈ o.ownRefs) → ¬ Marked s y → ¬ NoMarkedToUnmarked s :=
    fun ⟨o, ho, hpos, hmark, hy⟩ hno hall => hno (hall _ o _ ho hpos hmark hy)
  constructor
  · obtain ⟨m, hm, m', hm', hbefore, hafter, hx, hy⟩ :
        ∃ m ∈ execute Machine.step (fun _ _ => True) (Machine.init testEnv 0)
          (markedStore .borrow ++ List.replicate 1 (.gcTracing [.own 1, .own 3])),
          ∃ m' ∈ (m.step (.gcTracing [.own 1, .own 3])).toOption,
            m.rt.tracingState = .tracing ∧ m'.rt.tracingState = .reclaimingCyclicCandidates ∧
              (∃ o ∈ m'.rt.heap 3, 0 < o.refcount ∧ o.mark = m'.rt.tracingCurrentBitMark ∧
                2 ∈ o.ownRefs) ∧ ¬ Marked m'.rt 2 := by
      decide +kernel
    exact ⟨m, m', Runs.of_execute hm, mem_toOption.mp hm', hbefore, hafter, hbreaks hx hy⟩
  · obtain ⟨m, hm, m', hm', hbefore, hafter, hx, hy⟩ :
        ∃ m ∈ execute Machine.step (fun _ _ => True) (Machine.init testEnv 0)
          (staleMark ++ List.replicate 4 (.gcTracing [.own 1, .own 2, .own 3])),
          ∃ m' ∈ (m.step (.gcTracing [.own 1, .own 2, .own 3])).toOption,
            m.rt.tracingState = .tracing ∧ m'.rt.tracingState = .reclaimingCyclicCandidates ∧
              (∃ o ∈ m'.rt.heap 2, 0 < o.refcount ∧ o.mark = m'.rt.tracingCurrentBitMark ∧
                4 ∈ o.ownRefs) ∧ ¬ Marked m'.rt 4 := by
      decide +kernel
    exact ⟨m, m', Runs.of_execute hm, mem_toOption.mp hm', hbefore, hafter, hbreaks hx hy⟩

end Syli.Collector
