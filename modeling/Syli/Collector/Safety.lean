import Syli.Collector.Tricolor

/-! The safety of the cycle collector: what the mutator reaches is neither freed nor released. -/
namespace Syli.Collector

open Foundation Syli.Runtime

variable {m m' : Machine} {env : Env} {globals : Nat} {act : Action} {a : Addr}

/-- During a trace the mutator loads only objects that are marked or queued, and the reference
counting does not release an object whose children the reclaiming of cycles has released. -/
def Guarded (m : Machine) : Action → Prop
  | .load x slot => InTrace m.rt.tracingState → ∀ c ∈ m.loaded x slot, Shaded m.rt c
  | .gcReleasing => ∀ a ∈ m.rt.releasingWorklist.head?, Intact m a
  | _ => True

/-- A trace starts only when what the globals hold is among the roots. -/
def GlobalsRooted (m : Machine) : Action → Prop
  | .gcTracing roots => TraceStarts m.rt → ∀ a ∈ m.globalRefs, ObjPtr.own a ∈ roots
  | _ => True

instance (m : Machine) : (act : Action) → Decidable (Guarded m act)
  | .load x slot => inferInstanceAs
      (Decidable (InTrace m.rt.tracingState → ∀ c ∈ m.loaded x slot, Shaded m.rt c))
  | .gcReleasing => inferInstanceAs (Decidable (∀ a ∈ m.rt.releasingWorklist.head?, Intact m a))
  | .alloc _ | .share _ | .drop _ | .store _ _ _ _ | .notify _ _ _ | .storeGlobal _ _
  | .gcCycle _ _ _ | .gcTracing _ => isTrue trivial

instance (m : Machine) : (act : Action) → Decidable (GlobalsRooted m act)
  | .gcTracing roots => inferInstanceAs
      (Decidable (TraceStarts m.rt → ∀ a ∈ m.globalRefs, ObjPtr.own a ∈ roots))
  | .alloc _ | .load _ _ | .share _ | .drop _ | .store _ _ _ _ | .notify _ _ _
  | .storeGlobal _ _ | .gcCycle _ _ _ | .gcReleasing => isTrue trivial

theorem Guarded.respectsReleased (hg : Guarded m act) (ht : Tricolor m) (hm : Move m act m') :
    RespectsReleased m act := by
  cases hm with
  | load _ hx _ _ _ _ => exact ht.intact _ (.root hx)
  | store _ hx _ _ => exact ht.intact _ (.root hx)
  | releasing _ _ => exact hg
  | releasingDone _ => exact hg
  | _ => trivial

theorem mem_held_of_erase {y b : Addr} (hb : b ∈ m.locals.erase y ++ m.globalRefs) : b ∈ m.held :=
  (List.mem_append.mp hb).elim (fun hb => List.mem_append_left _ (List.mem_of_mem_erase hb))
    (List.mem_append_right _)

theorem follows_share {c : Addr} {oc : GCObject} (hc : m.rt.heap c = some oc)
    (hpos : 0 < oc.refcount)
    (hrt : m'.rt = m.rt.setObj c { oc with refcount := oc.refcount + 1 })
    (hheld : ∀ b ∈ m'.held, b ∈ m.held ∨ Live m b ∧ Shaded m'.rt b) : Follows m m' := by
  have hr : Respects m.rt m'.rt := hrt ▸ respects_of_share hc hpos
  refine hr.follows hheld ?_ ?_
  · intro x y hxy
    rw [hrt, outRefs_setRefcount hc] at hxy
    exact Or.inl hxy
  · intro a _ hi o' ho'
    rw [hrt] at ho'
    rcases heap_cases rfl ho' with ⟨rfl, rfl⟩ | ⟨-, hb⟩
    · exact hi oc hc
    · exact hi o' hb

/-- One move of the mutator or of the collector keeps the marking invariant. -/
theorem tricolor_move (h : Exact m) (ht : Tricolor m) (hg : Guarded m act)
    (hroots : GlobalsRooted m act) (hm : Move m act m') : Tricolor m' := by
  have h' := exact_move h (hg.respectsReleased ht hm) hm
  have hstep : m'.rt.tracingState = m.rt.tracingState → Follows m m' → Tricolor m' :=
    fun heq hf => ht.step h' hf fun hin => heq ▸ hin
  have hrelease : ReleaseFrame m.rt m'.rt → (∀ b ∈ m'.held, b ∈ m.held) → Tricolor m' := by
    intro hf hheld
    refine hstep hf.state ((respects_of_release hf).follows (fun b hb => Or.inl (hheld b hb))
      (fun x y hxy => Or.inl (hf.outRefs_subset x hxy)) fun a _ hi o' ho' => ?_)
    obtain ⟨o, ho, hframe⟩ := hf.obj a o' ho'
    exact hframe.childrenReleased.trans (hi o ho)
  cases hm with
  | alloc candidate candidates index g _ _ =>
    exact tricolor_alloc h ht (allocated h candidates index g)
      (by simp [Machine.held, Machine.globalRefs])
  | @load x slot o oc c _ hx ho hc hoc hval =>
    have hxc : c ∈ m.rt.outRefs x := by
      rw [Ledger.outRefs_of_claim h (List.mem_append_left _ hx) ho (ht.intact x (.root hx) o ho)]
      exact hc
    have hlive : Live m c := .step (.root hx) hxc
    have hshaded : Shaded m.rt c := by
      by_cases hst : InTrace m.rt.tracingState
      · exact hg hst c (by simp only [Machine.loaded, ho, Option.bind_some, hval]; rfl)
      · exact Or.inl (ht.settled hst c hlive)
    obtain ⟨oc', hoc', hpos⟩ := h.live hlive
    obtain rfl := Option.some.inj (hoc.symm.trans hoc')
    refine hstep rfl (follows_share hoc hpos rfl fun b hb => ?_)
    rcases List.mem_cons.mp hb with rfl | hb
    · exact Or.inr ⟨hlive, (respects_of_share hoc hpos).shaded (h'.live (.root hb)) hshaded⟩
    · exact Or.inl hb
  | @share x o _ hx ho =>
    obtain ⟨o', ho', hpos⟩ := h.live (.root hx)
    obtain rfl := Option.some.inj (ho.symm.trans ho')
    refine hstep rfl (follows_share ho hpos rfl fun b hb => Or.inl ?_)
    rcases List.mem_cons.mp hb with rfl | hb
    · exact hx
    · exact hb
  | drop _ _ ho hgive => exact hrelease (hgive.frame ho) fun b => mem_held_of_erase
  | @store operand x y slot s _ hx hy hs =>
    have hyheld : y ∈ m.held := List.mem_append_left _ hy
    refine hstep hs.lists.2.2.1 (Respects.follows
      (respects_of_stored h' hs (Or.inl (ht.shaded hyheld)))
      (fun b hb => Or.inl (mem_held_of_erase hb)) ?_ ?_)
    · intro b c hbc
      rcases hs.outRefs hbc with hr | hr
      · exact Or.inl hr
      · exact Or.inr (hr.2 ▸ .root hyheld)
    · intro a _ hi o' ho'
      obtain ⟨o, ho, -, hcr, -⟩ := hs.obj ho'
      exact hcr.trans (hi o ho)
  | @notify operand x y s _ _ _ hn =>
    refine hstep hn.lists.2.2.1 (Respects.follows (respects_of_notified hn)
      (fun _ => Or.inl) ?_ ?_)
    · exact fun b c hbc => Or.inl (Ledger.outRefs_notified hn ▸ hbc)
    · intro a _ hi o' ho'
      obtain ⟨o, ho, -, hcr, -⟩ := hn.obj ho'
      exact hcr.trans (hi o ho)
  | @storeGlobal g y _ hy hglobal =>
    refine hrelease (.refl m.rt) fun b hb => ?_
    rcases List.mem_append.mp hb with hb | hb
    · exact List.mem_append_left _ (List.mem_of_mem_erase hb)
    · have hset := (globalRefs_set (r := .own y) hglobal).subset (List.mem_append_left _ hb)
      rcases List.mem_cons.mp hset with rfl | hset
      · exact List.mem_append_left _ hy
      · exact List.mem_append_right _ hset
  | gcCycle b _ => exact hrelease ((ReleaseFrame.refl m.rt).lists rfl rfl rfl rfl rfl rfl) fun _ => id
  | releasing _ hs => exact hrelease hs.frame fun _ => id
  | releasingDone _ => exact hrelease (.refl m.rt) fun _ => id
  | @tracing roots s _ hr hs =>
    cases hs with
    | start hstart hq hstate =>
      refine tricolor_start h' ht hstart.1 (.start hstart hq hstate) fun a ha => ?_
      rcases List.mem_append.mp ha with ha | ha
      · exact hr.2 a ha
      · exact hroots hstart a ha
    | mark hs =>
      refine ht.step h' (Respects.follows (respects_of_mark h' hs) (fun _ => Or.inl) ?_ ?_)
        fun _ => hs.inTrace
      · exact fun b c hbc => Or.inl (hs.outRefs ▸ hbc)
      · intro a _ hi o' ho'
        obtain ⟨o, mark, tracing, ho, rfl⟩ := hs.obj ho'
        exact hi o ho
    | reclaim hs =>
      refine ht.step h' (Respects.follows (respects_of_reclaim hs) (fun _ => Or.inl) ?_ ?_)
        fun hin => absurd hin (not_inTrace_of_reclaim hs)
      · exact fun b c hbc => Or.inl (hs.outRefs_subset b hbc)
      · intro a ha hi o' ho'
        obtain ⟨o, ho, hf⟩ := hs.obj ho'
        obtain ⟨o₁, ho₁, hm⟩ := ht.settled (not_inTrace_of_reclaiming hs.reclaiming) a ha
        obtain ⟨o₂, ho₂, hpos⟩ := h.live ha
        obtain rfl := Option.some.inj (ho.symm.trans ho₁)
        obtain rfl := Option.some.inj (ho.symm.trans ho₂)
        rcases hf.childrenReleased with hcr | hlost | hne
        · exact hcr.trans (hi o ho)
        · have := h.lost a hlost o ho
          omega
        · exact absurd hm hne
  | tracingDone _ => exact hrelease (.refl m.rt) fun _ => id

theorem tricolor_init (env : Env) (globals : Nat) : Tricolor (Machine.init env globals) := by
  have hdead : ∀ a, ¬ Live (Machine.init env globals) a := by
    intro a ha
    obtain ⟨o, ho, -⟩ := (exact_init env globals).live ha
    simp [Machine.init, syliStateInit] at ho
  exact ⟨fun a ha => absurd ha (hdead a), fun hin => absurd hin (by simp [InTrace, Machine.init,
    syliStateInit]), fun _ a ha => absurd ha (hdead a)⟩

/-- What is reached from `roots` through the own-tagged slots of unfreed objects. -/
def Reachable (s : SyliState) (roots : List Addr) : Addr → Prop :=
  Reach (fun x y => ∃ o, s.heap x = some o ∧ y ∈ o.ownRefs) (· ∈ roots)

/-- Neither freed nor with its children released. -/
def Kept (s : SyliState) (a : Addr) : Prop := ∃ o, s.heap a = some o ∧ o.childrenReleased = false

theorem Tricolor.live_of_reachable (ht : Tricolor m) (h : Exact m) {roots : List Addr}
    (hroots : ∀ a ∈ roots, a ∈ m.held) (ha : Reachable m.rt roots a) : Live m a := by
  refine ha.transfer (fun a ha => .root (hroots a ha)) ?_
  rintro x y hx ⟨o, ho, hxy⟩
  refine .step hx ?_
  obtain ⟨o', ho', hpos⟩ := h.live hx
  obtain rfl := Option.some.inj (ho.symm.trans ho')
  rw [outRefs_of_heap ho, countedRefs_of_intact (h.not_waiting_of_pos ho hpos)
    (ht.intact x hx o ho)]
  exact hxy

theorem Tricolor.kept (ht : Tricolor m) (h : Exact m) (ha : Live m a) : Kept m.rt a := by
  obtain ⟨o, ho, -⟩ := h.live ha
  exact ⟨o, ho, ht.intact a ha o ho⟩

/-- An iteration of the tracing loop keeps what is reached before it. -/
theorem Tricolor.kept_of_tracing {roots : List ObjPtr} {held : List Addr} (ht' : Tricolor m')
    (h' : Exact m') (hm : Move m (.gcTracing roots) m') (hheld : ∀ a ∈ held, a ∈ m.held)
    (ha : Reachable m.rt held a) : Kept m'.rt a := by
  have hrest : m'.held = m.held ∧ ∀ b o', m'.rt.heap b = some o' →
      ∃ o, m.rt.heap b = some o ∧ o'.header = o.header ∧ o'.value = o.value := by
    cases hm with
    | tracing _ _ hs => exact ⟨rfl, fun _ _ => hs.fields⟩
    | tracingDone _ => exact ⟨rfl, fun _ o' ho' => ⟨o', ho', rfl, rfl⟩⟩
  obtain ⟨heq, hfields⟩ := hrest
  have hsub : ∀ b ∈ held, b ∈ m'.held := fun b hb => heq ▸ hheld b hb
  refine ht'.kept h' (ht'.live_of_reachable h' hsub (Reach.closed ha (fun b hb => .root hb) ?_))
  rintro x y - hx ⟨o, ho, hxy⟩
  obtain ⟨o', ho', -⟩ := h'.live (ht'.live_of_reachable h' hsub hx)
  obtain ⟨o₁, ho₁, hheader, hvalue⟩ := hfields x o' ho'
  obtain rfl := Option.some.inj (ho.symm.trans ho₁)
  refine .step hx ⟨o', ho', ?_⟩
  simpa only [GCObject.ownRefs, hheader, hvalue] using hxy

/-- The invariants hold in every state of a run that keeps to the conditions. -/
theorem exact_tricolor_of_runs
    (h : Runs Machine.step (fun m act => Guarded m act ∧ GlobalsRooted m act)
      (Machine.init env globals) m) : Exact m ∧ Tricolor m := by
  refine h.invariant (P := fun m => Exact m ∧ Tricolor m)
    ⟨exact_init env globals, tricolor_init env globals⟩ ?_
  rintro m act m' ⟨he, ht⟩ ⟨hg, hroots⟩ hstep
  have hm := step_move hstep
  exact ⟨exact_move he (hg.respectsReleased ht hm) hm, tricolor_move he ht hg hroots hm⟩

/-- Whatever is reachable from a global is neither freed nor released by the collector. -/
theorem globals_keep_reachable
    (h : Runs Machine.step (fun m act => Guarded m act ∧ GlobalsRooted m act)
      (Machine.init env globals) m) :
    (∀ a, Reachable m.rt m.globalRefs a → Kept m.rt a) ∧
      ∀ roots m', m.step (.gcTracing roots) = .ok m' → GlobalsRooted m (.gcTracing roots) →
        ∀ a, Reachable m.rt m.globalRefs a → Kept m'.rt a := by
  have hheld : ∀ a ∈ m.globalRefs, a ∈ m.held := fun a => List.mem_append_right _
  obtain ⟨he, ht⟩ := exact_tricolor_of_runs h
  refine ⟨fun a ha => ht.kept he (ht.live_of_reachable he hheld ha), ?_⟩
  intro roots m' hstep hroots a ha
  obtain ⟨he', ht'⟩ := exact_tricolor_of_runs (h.tail (a := .gcTracing roots) ⟨trivial, hroots⟩ hstep)
  exact ht'.kept_of_tracing he' (step_move hstep) hheld ha

/-- A global holds `1`, which the mutator may hold as well, and `1` refers to `2`. -/
def globalTrace (kept : Bool) (roots : List ObjPtr) : List Action :=
  [.alloc (mutableCell 1), .alloc (mutableCell 1), .store .own 1 0 2] ++
    (if kept then [.share 1] else []) ++
    [.storeGlobal 0 1, .gcCycle 100 0 100, .gcReleasing] ++ List.replicate 6 (.gcTracing roots)

theorem globals_keep_reachable_rooted :
    ∃ m, Runs Machine.step (fun m act => Guarded m act ∧ GlobalsRooted m act)
        (Machine.init testEnv 1) m ∧ Reachable m.rt m.globalRefs 2 ∧ Kept m.rt 2 := by
  obtain ⟨m, hm, h1, h2⟩ : ∃ m ∈ execute Machine.step (fun m act => Guarded m act ∧
      GlobalsRooted m act) (Machine.init testEnv 1) (globalTrace true [.own 1]),
        1 ∈ m.globalRefs ∧ ∃ o ∈ m.rt.heap 1, 2 ∈ o.ownRefs := by
    decide +kernel
  have hruns := Runs.of_execute hm
  have hreach : Reachable m.rt m.globalRefs 2 := .step (.root h1) h2
  exact ⟨m, hruns, hreach, (globals_keep_reachable hruns).1 2 hreach⟩

/-- A trace that starts while only the global holds `1` releases it, and frees `2`. -/
theorem globalTrace_frees_reachable :
    ∃ m, Runs Machine.step (fun _ _ => True) (Machine.init testEnv 1) m ∧
      Reachable m.rt m.globalRefs 1 ∧ ¬ Kept m.rt 1 ∧
        Reachable m.rt m.globalRefs 2 ∧ ¬ Kept m.rt 2 := by
  obtain ⟨m, hm, h1, hcr, ⟨o, ho, h2⟩, hfreed⟩ :
      ∃ m ∈ execute Machine.step (fun _ _ => True) (Machine.init testEnv 1) (globalTrace false []),
        1 ∈ m.globalRefs ∧ (∀ o ∈ m.rt.heap 1, o.childrenReleased = true) ∧
          (∃ o ∈ m.rt.heap 1, 2 ∈ o.ownRefs) ∧ m.rt.heap 2 = none := by
    decide +kernel
  refine ⟨m, Runs.of_execute hm, .root h1, ?_, .step (.root h1) ⟨o, ho, h2⟩, ?_⟩
  · rintro ⟨o', ho', hno⟩
    simp [hcr o' ho'] at hno
  · rintro ⟨o', ho', -⟩
    simp [hfreed] at ho'

theorem no_globals (h : Runs Machine.step Guarded (Machine.init env 0) m) : m.globals = [] := by
  refine h.invariant (P := fun m => m.globals = []) rfl ?_
  intro m act m' hno _ hstep
  cases step_move hstep with
  | storeGlobal _ _ hg => simp [hno] at hg
  | _ => exact hno

/-- Without globals a trace starts from everything the mutator holds. -/
theorem guarded_runs (h : Runs Machine.step Guarded (Machine.init env 0) m) :
    Runs Machine.step (fun m act => Guarded m act ∧ GlobalsRooted m act)
      (Machine.init env 0) m := by
  induction h with
  | refl => exact .refl
  | @tail m m' act hr hg hstep ih =>
    have hroots : GlobalsRooted m act := by
      cases act with
      | gcTracing roots => simp [GlobalsRooted, Machine.globalRefs, no_globals hr]
      | _ => trivial
    exact ih.tail ⟨hg, hroots⟩ hstep

/-- Whatever the mutator reaches is neither freed nor released by the collector. -/
theorem locals_keep_reachable (h : Runs Machine.step Guarded (Machine.init env 0) m) :
    (∀ a, Reachable m.rt m.locals a → Kept m.rt a) ∧
      ∀ roots m', m.step (.gcTracing roots) = .ok m' →
        ∀ a, Reachable m.rt m.locals a → Kept m'.rt a := by
  have hheld : ∀ a ∈ m.locals, a ∈ m.held := fun a => List.mem_append_left _
  obtain ⟨he, ht⟩ := exact_tricolor_of_runs (guarded_runs h)
  refine ⟨fun a ha => ht.kept he (ht.live_of_reachable he hheld ha), ?_⟩
  intro roots m' hstep a ha
  have h' := h.tail (show Guarded m (.gcTracing roots) from trivial) hstep
  obtain ⟨he', ht'⟩ := exact_tricolor_of_runs (guarded_runs h')
  exact ht'.kept_of_tracing he' (step_move hstep) hheld ha

/-- The mutator loads `2` and overwrites the slot it came from before the trace resumes. -/
def whiteLoad : List Action :=
  chainTrace ++ [.load 1 0, .store .own 1 0 3, .gcCycle 100 0 100, .gcReleasing] ++
    List.replicate 6 (.gcTracing [.own 1, .own 2, .own 3])

/-- The mutator loads `2` only after `1` has been scanned. -/
def shadedLoad : List Action :=
  chainTrace ++ [.gcCycle 1 0 1, .gcReleasing, .gcTracing [.own 1, .own 3],
    .gcTracing [.own 1, .own 3], .load 1 0, .store .own 1 0 3, .gcCycle 100 0 100, .gcReleasing] ++
    List.replicate 6 (.gcTracing [.own 1, .own 2, .own 3])

theorem locals_keep_reachable_shadedLoad :
    ∃ m, Runs Machine.step Guarded (Machine.init testEnv 0) m ∧ Reachable m.rt m.locals 4 ∧
      Kept m.rt 4 := by
  obtain ⟨m, hm, h2, h4⟩ : ∃ m ∈ execute Machine.step Guarded (Machine.init testEnv 0) shadedLoad,
      2 ∈ m.locals ∧ ∃ o ∈ m.rt.heap 2, 4 ∈ o.ownRefs := by
    decide +kernel
  have hruns := Runs.of_execute hm
  have hreach : Reachable m.rt m.locals 4 := .step (.root h2) h4
  exact ⟨m, hruns, hreach, (locals_keep_reachable hruns).1 4 hreach⟩

/-- The mutator holds `2`, whose children have been released, and reaches `4`, which is freed. -/
theorem whiteLoad_frees_reachable :
    ∃ m, Runs Machine.step (fun _ _ => True) (Machine.init testEnv 0) m ∧
      Reachable m.rt m.locals 2 ∧ ¬ Kept m.rt 2 ∧ Reachable m.rt m.locals 4 ∧ ¬ Kept m.rt 4 := by
  obtain ⟨m, hm, h2, hcr, ⟨o, ho, h4⟩, hfreed⟩ :
      ∃ m ∈ execute Machine.step (fun _ _ => True) (Machine.init testEnv 0) whiteLoad,
        2 ∈ m.locals ∧ (∀ o ∈ m.rt.heap 2, o.childrenReleased = true) ∧
          (∃ o ∈ m.rt.heap 2, 4 ∈ o.ownRefs) ∧ m.rt.heap 4 = none := by
    decide +kernel
  refine ⟨m, Runs.of_execute hm, .root h2, ?_, .step (.root h2) ⟨o, ho, h4⟩, ?_⟩
  · rintro ⟨o', ho', hno⟩
    simp [hcr o' ho'] at hno
  · rintro ⟨o', ho', -⟩
    simp [hfreed] at ho'

end Syli.Collector
