import Syli.Collector.SliceReturns

/-! No step of a run that meets the condition of the slices faults: nothing is freed twice, and
nothing freed is used. -/
namespace Syli.Collector

open Foundation Syli.Runtime

variable {s s' u : SyliState} {m m' : Machine} {a b x y slot : Nat} {o : GCObject} {act : Action}
variable {claims : List Addr} {p : ObjPtr} {operand : Operand} {env : Env} {globals : Nat}

/-- The fields of the objects are null or own a reference. -/
def FieldsOwned (s : SyliState) : Prop :=
  ∀ a o, s.heap a = some o → ∀ p ∈ o.value, p = .null ∨ ∃ c, p = .own c

/-- The rule for the steps that write no field. -/
theorem FieldsOwned.of_values (h : FieldsOwned s)
    (hvalue : ∀ b o', s'.heap b = some o' → ∃ o, s.heap b = some o ∧ o'.value = o.value) :
    FieldsOwned s' := by
  intro b o' ho' p hp
  obtain ⟨o, ho, heq⟩ := hvalue b o' ho'
  exact h b o ho p (heq ▸ hp)

theorem FieldsOwned.of_frame (h : FieldsOwned s) (hf : ReleaseFrame s s') : FieldsOwned s' :=
  h.of_values fun b o' ho' => by
    obtain ⟨o, ho, hobj⟩ := hf.obj b o' ho'
    exact ⟨o, ho, hobj.value⟩

theorem FieldsOwned.setObj {w : GCObject} (h : FieldsOwned s)
    (hw : ∀ p ∈ w.value, p = .null ∨ ∃ c, p = .own c) : FieldsOwned (s.setObj a w) := by
  intro b ob hob
  rcases heap_cases rfl hob with ⟨rfl, rfl⟩ | ⟨-, hb⟩
  · exact hw
  · exact h b ob hb

theorem FieldsOwned.notified (h : FieldsOwned s) (hn : Notified operand x y s s') :
    FieldsOwned s' := by
  cases hn with
  | quiet _ => exact h
  | @barrier o t _ _ _ _ _ ht _ =>
    exact h.setObj (w := { t with mark := s.tracingCurrentBitMark }) (h _ t ht)

theorem FieldsOwned.stored (h : FieldsOwned s) (hs : Stored operand x slot y s s') :
    FieldsOwned s' := by
  obtain @⟨u, o, o₁, -, -, -, hold, ho₁, hn⟩ := hs
  have hu : FieldsOwned u := by
    rcases hold with ⟨rfl, -⟩ | ⟨c, oc, -, hc, hg⟩
    · exact h
    · exact h.of_frame (hg.frame hc)
  refine FieldsOwned.notified (hu.setObj fun p hp => ?_) hn
  rcases List.mem_or_eq_of_mem_set hp with hp | rfl
  · exact hu _ o₁ ho₁ p hp
  · exact Or.inr ⟨y, rfl⟩

theorem fieldsOwned_move (h : FieldsOwned m.rt) (hm : Move m act m') : FieldsOwned m'.rt := by
  cases hm with
  | @alloc header candidate candidates index g _ _ =>
    have hs := h.setObj (a := m.rt.next) (w := freshObject m.rt header candidate)
      fun p hp => Or.inl (List.eq_of_mem_replicate hp)
    exact fun a o ho => hs a o ho
  | @load x slot o oc c _ _ _ _ hoc _ =>
    exact h.setObj (w := { oc with refcount := oc.refcount + 1 }) (h _ oc hoc)
  | @share x o _ _ ho => exact h.setObj (w := { o with refcount := o.refcount + 1 }) (h _ o ho)
  | drop _ _ ho hg => exact h.of_frame (hg.frame ho)
  | store _ _ _ hs => exact h.stored hs
  | notify _ _ _ hn => exact h.notified hn
  | storeGlobal _ _ _ | gcCycle _ _ | releasingDone _ | tracingDone _ => exact h
  | releasing _ hs => exact h.of_frame hs.frame
  | tracing _ _ hs =>
    exact h.of_values fun b o' ho' => by
      obtain ⟨o, ho, -, hvalue⟩ := hs.fields ho'
      exact ⟨o, ho, hvalue⟩

theorem fieldsOwned_of_runs {ok : Machine → Action → Prop}
    (hr : Runs Machine.step ok (Machine.init env globals) m) : FieldsOwned m.rt := by
  refine hr.invariant (P := fun m => FieldsOwned m.rt) ?_ fun _ _ _ h _ hstep =>
    fieldsOwned_move h (step_move hstep)
  intro a o ho
  cases ho

/-- The releasing machine and its worklist are left alone. -/
structure SameReleasing (s s' : SyliState) : Prop where
  state : s'.releasingState = s.releasingState
  worklist : s'.releasingWorklist = s.releasingWorklist

theorem SameReleasing.trans (h : SameReleasing s u) (h' : SameReleasing u s') :
    SameReleasing s s' :=
  ⟨h'.state.trans h.state, h'.worklist.trans h.worklist⟩

theorem sameReleasing_removed (h : Removed s a o s') : SameReleasing s s' := by
  cases h with
  | drop _ _ _ _ => exact ⟨rfl, rfl⟩
  | wait _ _ _ => exact ⟨rfl, rfl⟩

theorem sameReleasing_giveUp {q : Pipeline} (h : GiveUp q s a o s') : SameReleasing s s' := by
  cases h with
  | keep _ => exact ⟨rfl, rfl⟩
  | queue _ _ _ _ => exact ⟨rfl, rfl⟩
  | enqueue _ _ => exact ⟨rfl, rfl⟩
  | freeImm _ _ => exact ⟨rfl, rfl⟩
  | remove _ _ _ hr => exact ⟨(sameReleasing_removed hr).state, (sameReleasing_removed hr).worklist⟩

theorem sameReleasing_releaseOnce (h : releaseChildrenOnce s a = .ok s') : SameReleasing s s' := by
  obtain ⟨o, -, ⟨-, rfl⟩ | ⟨-, n, hg⟩⟩ := releaseChildrenOnce_effect h
  · exact ⟨rfl, rfl⟩
  · refine hg.invariant (P := fun _ v => SameReleasing s v) ⟨rfl, rfl⟩ ?_
    exact fun _ _ _ _ _ hv _ hstep => hv.trans (sameReleasing_giveUp hstep)

theorem sameReleasing_notified (h : Notified operand x y s s') : SameReleasing s s' := by
  cases h with
  | quiet _ => exact ⟨rfl, rfl⟩
  | barrier _ _ _ _ _ _ _ => exact ⟨rfl, rfl⟩

theorem sameReleasing_stored (h : Stored operand x slot y s s') : SameReleasing s s' := by
  obtain @⟨u, o, o₁, -, -, -, hold, -, hn⟩ := h
  have hu : SameReleasing s u := by
    rcases hold with ⟨rfl, -⟩ | ⟨c, oc, -, -, hg⟩
    · exact ⟨rfl, rfl⟩
    · exact sameReleasing_giveUp hg
  have hn' := sameReleasing_notified hn
  exact hu.trans ⟨hn'.state, hn'.worklist⟩

theorem sameReleasing_tracing {roots : List ObjPtr} (h : TracingStep roots s s') :
    SameReleasing s s' := by
  cases h with
  | start _ _ _ => exact ⟨rfl, rfl⟩
  | mark hs =>
    cases hs with
    | popMark _ _ _ _ _ _ _ hu _ _ =>
      subst hu
      exact ⟨rfl, rfl⟩
    | _ => exact ⟨rfl, rfl⟩
  | reclaim hs =>
    cases hs with
    | reclaimFree _ _ _ hu hf =>
      obtain ⟨o, -, hr⟩ := freeReleasedObject_effect hf
      have hu' := sameReleasing_releaseOnce hu
      exact SameReleasing.trans ⟨hu'.state, hu'.worklist⟩ (sameReleasing_removed hr)
    | scanRelease _ _ _ _ _ _ _ hu _ hs' =>
      have hu' := sameReleasing_releaseOnce hu
      rcases hs' with ⟨-, rfl⟩ | ⟨-, rfl⟩
      · exact ⟨hu'.state, hu'.worklist⟩
      · exact ⟨hu'.state, hu'.worklist⟩
    | _ => exact ⟨rfl, rfl⟩

/-- The releasing machine is at work only while there is something to pop. -/
def ReleasingReady (s : SyliState) : Prop :=
  s.releasingState = .releasing → s.releasingWorklist ≠ []

theorem ReleasingReady.congr (h : ReleasingReady s) (hs : SameReleasing s s') :
    ReleasingReady s' := by
  intro hst
  rw [hs.worklist]
  exact h (hs.state.symm.trans hst)

theorem releasingReady_iterate (h : syliStateGcReleasing s = .ok (some s')) :
    ReleasingReady s' := by
  unfold syliStateGcReleasing at h
  split at h
  · cases h
  split at h
  · split at h
    · cases h
    · rename_i hne
      obtain rfl := Option.some.inj (Except.ok.inj h)
      intro _ hnil
      have hwait : s.releasingWaitlist = [] := hnil
      simp [hwait] at hne
  · obtain ⟨u, -, h⟩ := bind_eq_ok.mp h
    split at h
    · obtain rfl := Option.some.inj (pure_eq_ok.mp h)
      intro hst
      cases hst
    · obtain rfl := Option.some.inj (pure_eq_ok.mp h)
      exact fun _ => ‹_›

theorem releasingReady_step (h : ReleasingReady m.rt) (hstep : m.step act = .ok m') :
    ReleasingReady m'.rt := by
  cases step_move hstep with
  | alloc _ _ _ _ _ _ | load _ _ _ _ _ _ | share _ _ _ | gcCycle _ _ => exact h.congr ⟨rfl, rfl⟩
  | drop _ _ _ hg => exact h.congr (sameReleasing_giveUp hg)
  | store _ _ _ hs => exact h.congr (sameReleasing_stored hs)
  | notify _ _ _ hn => exact h.congr (sameReleasing_notified hn)
  | storeGlobal _ _ _ | releasingDone _ | tracingDone _ => exact h
  | @releasing s hc _ =>
    simp only [Machine.step, hc, bind_eq_ok] at hstep
    obtain ⟨r, hr, hstep⟩ := hstep
    cases r with
    | none =>
      have heq := congrArg Machine.rt (pure_eq_ok.mp hstep)
      exact (show m.rt = s from heq) ▸ h
    | some u =>
      have heq := congrArg Machine.rt (pure_eq_ok.mp hstep)
      exact (show u = s from heq) ▸ releasingReady_iterate hr
  | tracing _ _ hs => exact h.congr (sameReleasing_tracing hs)

theorem releasingReady_of_runs {ok : Machine → Action → Prop}
    (hr : Runs Machine.step ok (Machine.init env globals) m) : ReleasingReady m.rt := by
  refine hr.invariant (P := fun m => ReleasingReady m.rt) ?_ fun _ _ _ h _ hstep =>
    releasingReady_step h hstep
  intro hst
  cases hst

/-- A computation that succeeds, or that nobody was allowed to ask for. -/
def Legal {α : Type} (r : Result α) : Prop := ∀ f, r = .error f → f = .illegal

theorem legal_ok {α : Type} {r : Result α} (h : ∃ v, r = .ok v) : Legal r := by
  intro f hf
  obtain ⟨v, hv⟩ := h
  cases hv.symm.trans hf

theorem legal_bind {α β : Type} {r : Result α} {f : α → Result β} (h : Legal r)
    (hf : ∀ v, r = .ok v → Legal (f v)) : Legal (r >>= f) := by
  cases r with
  | ok v => exact hf v rfl
  | error e =>
    intro f' hf'
    obtain rfl := Except.error.inj hf'
    exact h e rfl

theorem legal_check {p : Prop} [Decidable p] : Legal (check p .illegal) := by
  unfold check
  split
  · exact legal_ok ⟨_, rfl⟩
  · intro f hf
    exact (Except.error.inj hf).symm

theorem legal_deref (ho : s.heap a = some o) : Legal (s.deref a) :=
  legal_ok ⟨o, deref_eq_ok.mpr ho⟩

theorem legal_incr (ho : s.heap a = some o) : Legal (syliRtObjectIncr naturalCounts s a) :=
  legal_ok ⟨_, syliRtObjectIncr_effect.mpr ⟨o, ho, rfl⟩⟩

theorem legal_alloc (header : ObjectHeader) (n : Nat) :
    Legal (syliRtOwnershipAllocObject s header n header.objectLength) := by
  unfold syliRtOwnershipAllocObject
  dsimp only [syliRtRcAllocObject]
  split
  · split
    · rename_i hmut
      refine legal_bind (legal_ok ?_) fun _ _ => legal_ok ⟨_, rfl⟩
      simp only [gcRegisterCandidate, SyliState.deref, SyliState.setGauges_heap,
        SyliState.bumpNext_heap, SyliState.setObj_heap, Function.update_self, bind, Except.bind,
        Bool.false_eq_true, if_false, check, hmut, if_true]
      exact ⟨_, rfl⟩
    · exact legal_ok ⟨_, rfl⟩
  · exact legal_ok ⟨_, rfl⟩

theorem legal_notify (operand : Operand) {ox oy : GCObject} (hx : s.heap x = some ox)
    (hy : s.heap y = some oy) :
    Legal (syliRtOwnershipNotifyMutation s (operand.ptr x) (.own y)) := by
  cases operand with
  | borrow => exact legal_ok ⟨s, rfl⟩
  | own =>
    change Legal (if s.tracingState = .tracing ∨ s.tracingState = .mutationPrepare then
      syliRtObjectNotifyMutation s x y (.own y) else pure s)
    split
    · unfold syliRtObjectNotifyMutation
      refine legal_bind (legal_deref hx) fun o _ => ?_
      split
      · exact legal_ok ⟨_, rfl⟩
      split
      · exact legal_ok ⟨_, rfl⟩
      · refine legal_bind (legal_deref hy) fun t _ => ?_
        split
        · exact legal_ok ⟨_, rfl⟩
        · exact legal_ok ⟨_, rfl⟩
    · exact legal_ok ⟨_, rfl⟩

/-- An object with counts gives one up without a fault. -/
theorem legal_decr (hl : Ledger s claims s.outRefs) (hreg : Registered s) (ha : Counted s a) :
    Legal (syliRtObjectDecr naturalCounts s a) := by
  obtain ⟨o, ho, hpos⟩ := ha
  obtain ⟨s', hs', -⟩ := hreg.syliRtObjectDecr ho hpos (hl.wellFormed a o ho)
  exact legal_ok ⟨s', hs'⟩

/-- The old value of a field is null, or a reference that the object still counts. -/
theorem legal_release {v : ObjPtr} (hl : Ledger s claims s.outRefs) (hreg : Registered s)
    (hv : v = .null ∨ ∃ c, v = .own c) (hcounted : ∀ c, v = .own c → Counted s c) :
    Legal (syliRtOwnershipRelease naturalCounts s v) ∧
      ∀ u, syliRtOwnershipRelease naturalCounts s v = .ok u →
        u = s ∧ v.ownRef? = none ∨
          ∃ c oc, v = .own c ∧ s.heap c = some oc ∧ GiveUp .dropping s c oc u := by
  obtain rfl | ⟨c, rfl⟩ := hv
  · exact ⟨legal_ok ⟨s, rfl⟩, fun u hu => Or.inl ⟨(Except.ok.inj hu).symm, rfl⟩⟩
  · refine ⟨legal_decr hl hreg (hcounted c rfl), fun u hu => ?_⟩
    obtain ⟨oc, hoc, hg⟩ := syliRtObjectDecr_effect hu
    exact Or.inr ⟨c, oc, rfl, hoc, hg⟩

theorem legal_loadField (hl : Ledger s claims s.outRefs) (hx : x ∈ claims)
    (hcr : ∀ o, s.heap x = some o → o.childrenReleased = false) :
    Legal (Machine.loadField s x slot) := by
  obtain ⟨o, ho, -⟩ := hl.exists_of_claim hx
  unfold Machine.loadField
  refine legal_bind (legal_deref ho) fun o' ho' => ?_
  obtain rfl := Option.some.inj (ho.symm.trans (deref_eq_ok.mp ho'))
  refine legal_bind legal_check fun _ hslot => ?_
  split
  · exact fun f hf => (Except.error.inj hf).symm
  · rename_i c hc
    have hmem : c ∈ s.outRefs x := by
      rw [hl.outRefs_of_claim hx ho (hcr o ho)]
      exact List.mem_filterMap.mpr ⟨slot, check_eq_ok.mp hslot, hc⟩
    obtain ⟨oc, hoc, -⟩ := hl.exists_of_edge (hl.lt_next ho) hmem
    exact legal_bind (legal_incr hoc) fun _ _ => legal_ok ⟨_, rfl⟩

theorem legal_storeField (hl : Ledger s claims s.outRefs) (hreg : Registered s)
    (hfields : FieldsOwned s) (hx : x ∈ claims) (hy : y ∈ claims)
    (hcr : ∀ o, s.heap x = some o → o.childrenReleased = false) :
    Legal (Machine.storeField s operand x slot y) := by
  obtain ⟨o, ho, hpos⟩ := hl.exists_of_claim hx
  unfold Machine.storeField
  refine legal_bind (legal_deref ho) fun o' ho' => ?_
  obtain rfl := Option.some.inj (ho.symm.trans (deref_eq_ok.mp ho'))
  refine legal_bind legal_check fun _ hcheck => ?_
  obtain ⟨hslot, hlen⟩ := check_eq_ok.mp hcheck
  have hfield : o.value.getD slot .null ∈ o.value := by
    rw [List.getD_eq_getElem _ _ hlen]
    exact List.getElem_mem hlen
  have hcounted : ∀ c, o.value.getD slot .null = .own c → Counted s c := by
    intro c hc
    have hmem : c ∈ s.outRefs x := by
      rw [hl.outRefs_of_claim hx ho (hcr o ho)]
      exact List.mem_filterMap.mpr ⟨slot, hslot, by rw [hc]; rfl⟩
    exact hl.exists_of_edge (hl.lt_next ho) hmem
  obtain ⟨hrelease, hold⟩ := legal_release hl hreg (hfields x o ho _ hfield) hcounted
  refine legal_bind hrelease fun u hu => ?_
  -- the object and the target are still claimed, so neither was freed with the old value
  obtain ⟨rest, -, hlu, -, -⟩ := hl.overwrites (y := y) hx ho (hcr o ho) hslot hlen (hold u hu)
  obtain ⟨ox, hox, -⟩ := hlu.exists_of_claim (List.mem_append_right rest hx)
  obtain ⟨oy, hoy, -⟩ := hlu.exists_of_claim (List.mem_append_right rest hy)
  refine legal_bind (legal_deref hox) fun ox' _ => ?_
  have hself : (u.setObj x { ox' with value := ox'.value.set slot (.own y) }).heap x =
      some { ox' with value := ox'.value.set slot (.own y) } := by simp
  by_cases hyx : y = x
  · subst hyx
    exact legal_notify _ hself hself
  · have hy : (u.setObj x { ox' with value := ox'.value.set slot (.own y) }).heap y = some oy := by
      simp [hyx, hoy]
    exact legal_notify _ hself hy

theorem legal_mutatorStep (he : Exact m) (hreg : Registered m.rt) (hfields : FieldsOwned m.rt)
    (hok : RespectsReleased m act) : Legal (m.mutatorStep act) := by
  have hheld : ∀ a ∈ m.held, Counted m.rt a := fun a ha =>
    he.exists_of_claim (List.mem_append_left _ ha)
  have hlocals : ∀ a ∈ m.locals, a ∈ m.held := fun a => List.mem_append_left _
  cases act with
  | alloc header =>
    refine legal_bind legal_check fun _ _ => ?_
    exact legal_bind (legal_alloc header 1) fun _ _ => legal_ok ⟨_, rfl⟩
  | load x slot =>
    refine legal_bind legal_check fun _ hx => ?_
    refine legal_bind ?_ fun _ _ => legal_ok ⟨_, rfl⟩
    exact legal_loadField he (List.mem_append_left _ (check_eq_ok.mp hx)) hok
  | share x =>
    refine legal_bind legal_check fun _ hx => ?_
    obtain ⟨o, ho, -⟩ := hheld x (check_eq_ok.mp hx)
    exact legal_bind (legal_incr ho) fun _ _ => legal_ok ⟨_, rfl⟩
  | drop x =>
    refine legal_bind legal_check fun _ hx => ?_
    refine legal_bind ?_ fun _ _ => legal_ok ⟨_, rfl⟩
    exact legal_decr he hreg (hheld x (hlocals x (check_eq_ok.mp hx)))
  | store operand x slot y =>
    refine legal_bind legal_check fun _ hcheck => ?_
    obtain ⟨hx, hy⟩ := check_eq_ok.mp hcheck
    refine legal_bind ?_ fun _ _ => legal_ok ⟨_, rfl⟩
    exact legal_storeField he hreg hfields (List.mem_append_left _ hx)
      (List.mem_append_left _ (hlocals y hy)) hok
  | notify operand x y =>
    refine legal_bind legal_check fun _ hcheck => ?_
    obtain ⟨ox, hox, -⟩ := hheld x (check_eq_ok.mp hcheck).1
    obtain ⟨oy, hoy, -⟩ := hheld y (check_eq_ok.mp hcheck).2
    exact legal_bind (legal_notify _ hox hoy) fun _ _ => legal_ok ⟨_, rfl⟩
  | storeGlobal g y =>
    refine legal_bind legal_check fun _ hcheck => ?_
    obtain ⟨oy, hoy, -⟩ := hheld y (hlocals y (check_eq_ok.mp hcheck).1)
    exact legal_bind (legal_notify .own hoy hoy) fun _ _ => legal_ok ⟨_, rfl⟩
  | gcCycle tracing releasing checking => exact legal_ok ⟨_, rfl⟩
  | gcReleasing | gcTracing roots => exact fun f hf => (Except.error.inj hf).symm

theorem legal_releasing (he : Exact m) (hreg : Registered m.rt) (hq : Separate m.rt)
    (hready : ReleasingReady m.rt)
    (hok : RespectsReleased m .gcReleasing) : Legal (syliStateGcReleasing m.rt) := by
  unfold syliStateGcReleasing
  split
  · exact legal_ok ⟨_, rfl⟩
  split
  · split
    · exact legal_ok ⟨_, rfl⟩
    · exact legal_ok ⟨_, rfl⟩
  · rename_i hst
    obtain ⟨a, rest, hwl⟩ := List.exists_cons_of_ne_nil (hready hst)
    obtain ⟨o, ho, -⟩ := hq.alive a (by simp [releaseQueues, hwl])
    obtain ⟨s', hs', -⟩ :=
      hreg.gcOneStepReleasing he hwl ho (hok a (by simp [hwl]) o ho)
    refine legal_bind (legal_ok ⟨s', hs'⟩) fun _ _ => ?_
    split
    · exact legal_ok ⟨_, rfl⟩
    · exact legal_ok ⟨_, rfl⟩

/-- In a run that meets the condition no step that meets it faults. -/
theorem legal_step (hr : Runs Machine.step SliceSafe (Machine.init env globals) m)
    (hok : SliceSafe m act) : Legal (m.step act) := by
  have he := exact_of_runs hr
  have hreg := registered_of_runs hr
  unfold Machine.step
  split
  · exact legal_mutatorStep he hreg (fieldsOwned_of_runs hr) hok.1.1
  · have hq := separate_of_runs (hr.mono fun _ _ h => h.1)
    refine legal_bind (legal_releasing he hreg hq (releasingReady_of_runs hr) hok.1.1) fun r _ => ?_
    cases r <;> exact legal_ok ⟨_, rfl⟩
  · rename_i roots hc
    refine legal_bind legal_check fun _ hroots => ?_
    obtain ⟨m', hstep, -⟩ := machine_iterate_ok hr hc (check_eq_ok.mp hroots) hok
    refine legal_bind (legal_ok ?_) fun r _ => ?_
    · simp only [Machine.step, hc, bind_eq_ok] at hstep
      obtain ⟨-, -, r, hr', -⟩ := hstep
      exact ⟨r, hr'⟩
    · cases r <;> exact legal_ok ⟨_, rfl⟩
  · exact fun f hf => (Except.error.inj hf).symm

/-- The worklists hold allocated objects; one whose removal waits is freed by the step that pops its
last entry, and no step frees it again or uses it. -/
theorem queued_objects_are_allocated
    (hr : Runs Machine.step SliceSafe (Machine.init env globals) m) :
    QueuedAllocated m.rt ∧ m.rt.freed.Nodup ∧ (∀ a ∈ m.rt.freed, m.rt.heap a = none) ∧
      ∀ act, SliceSafe m act →
        Legal (m.step act) ∧ ∀ m', m.step act = .ok m' → RemovesWaiting m.rt m'.rt := by
  obtain ⟨hd, hf⟩ := deferred_of_runs (hr.mono fun _ _ h => h.2.1)
  refine ⟨hd.queuedAllocated, hf.freed_nodup, fun a ha => ((hf.freed a).mp ha).2.2, ?_⟩
  intro act hok
  refine ⟨legal_step hr hok, fun m' hstep => ?_⟩
  exact removesWaiting_move hd hf hok.2.1 (step_move hstep)

/-- `2` is dropped while it is queued: the reference counting leaves it to the tracer, and the
tracer frees it when it pops the entry. -/
theorem queued_objects_are_allocated_deferred :
    ∃ m m', Runs Machine.step SliceSafe (Machine.init testEnv 0) m ∧
      SliceSafe m (.gcTracing [.own 1]) ∧ m.step (.gcTracing [.own 1]) = .ok m' ∧
        2 ∈ m.rt.tracingWorklist ∧ QueuedAllocated m.rt ∧ RemovesWaiting m.rt m'.rt ∧
          m'.rt.freed = [2] := by
  obtain ⟨m, hm, m', hm', hok, hqueued, hfreed⟩ :
      ∃ m ∈ execute Machine.step SliceSafe (Machine.init testEnv 0)
        (queuedSecond (mutableCell 1) ++
          [.gcCycle 100 100 0, .gcReleasing, .gcReleasing, .gcReleasing]),
        ∃ m' ∈ (m.step (.gcTracing [.own 1])).toOption,
          SliceSafe m (.gcTracing [.own 1]) ∧ 2 ∈ m.rt.tracingWorklist ∧ m'.rt.freed = [2] := by
    decide +kernel
  have hstep := mem_toOption.mp hm'
  obtain ⟨hall, -, -, hnext⟩ := queued_objects_are_allocated (Runs.of_execute hm)
  exact ⟨m, m', Runs.of_execute hm, hok, hstep, hqueued, hall, (hnext _ hok).2 m' hstep, hfreed⟩

/-- An object waits in at most one release pipeline, without counts and unfreed, and no step frees
an object a second time or uses a freed one. -/
theorem pipelines_separate
    (hr : Runs Machine.step SliceSafe (Machine.init env globals) m) :
    Separate m.rt ∧ m.rt.freed.Nodup ∧ ∀ act, SliceSafe m act → Legal (m.step act) :=
  ⟨separate_of_runs (hr.mono fun _ _ h => h.1), (freed_of_runs hr).freed_nodup,
    fun _ hok => legal_step hr hok⟩

theorem pipelines_separate_lostPair :
    ∃ m, Runs Machine.step SliceSafe (Machine.init testEnv 0) m ∧ m.rt.lostCycleWorklist ≠ [] ∧
      Separate m.rt ∧ m.rt.freed.Nodup ∧ Legal (m.step (.gcTracing [.own 3])) := by
  obtain ⟨m, hm, hlost, hok⟩ :
      ∃ m ∈ execute Machine.step SliceSafe (Machine.init testEnv 0) lostPair,
        m.rt.lostCycleWorklist ≠ [] ∧ SliceSafe m (.gcTracing [.own 3]) := by
    decide +kernel
  obtain ⟨hq, hfreed, hstep⟩ := pipelines_separate (Runs.of_execute hm)
  exact ⟨m, Runs.of_execute hm, hlost, hq, hfreed, hstep _ hok⟩

end Syli.Collector
