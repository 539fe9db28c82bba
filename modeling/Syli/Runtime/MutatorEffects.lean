import Syli.Runtime.TracingEffects

/-! What one action of the mutator can do to the machine. -/
namespace Syli.Runtime

open Foundation

variable {s s' : SyliState} {m m' : Machine} {a x y : Addr} {slot : Nat} {operand : Operand}

/-- The effect of a notification: it is without effect, or it marks and queues the target. -/
inductive Notified (operand : Operand) (x y : Addr) (s : SyliState) : SyliState → Prop where
  | quiet : (s.tracingState = .tracing ∨ s.tracingState = .mutationPrepare → operand = .own →
        ∃ o t, s.heap x = some o ∧ (o.mark = s.tracingCurrentBitMark →
          o.header.isTraceable = true → s.heap y = some t ∧ t.mark = s.tracingCurrentBitMark)) →
      Notified operand x y s s
  | barrier {o t : GCObject} : s.tracingState = .tracing ∨ s.tracingState = .mutationPrepare →
      operand = .own → s.heap x = some o → o.mark = s.tracingCurrentBitMark →
      o.header.isTraceable = true → s.heap y = some t → t.mark ≠ s.tracingCurrentBitMark →
      Notified operand x y s ((s.setObj y { t with mark := s.tracingCurrentBitMark }).setMutations
        (.own y :: s.tracingMutationsWorklist))

theorem notify_effect
    (h : syliRtOwnershipNotifyMutation s (operand.ptr x) (.own y) = .ok s') :
    Notified operand x y s s' := by
  simp only [syliRtOwnershipNotifyMutation, bind_eq_ok, check_eq_ok] at h
  obtain ⟨-, -, h⟩ := h
  cases operand with
  | borrow =>
    obtain rfl := pure_eq_ok.mp h
    exact .quiet (by simp)
  | own =>
    simp only [Operand.ptr, ObjPtr.ownRef?, ObjPtr.untag] at h
    split at h
    · rename_i hst
      obtain ⟨_, hy, h⟩ := bind_eq_ok.mp h
      obtain rfl := Except.ok.inj hy
      simp only [syliRtObjectNotifyMutation, bind_eq_ok, deref_eq_ok] at h
      obtain ⟨o, ho, h⟩ := h
      split at h
      · rename_i hm
        obtain rfl := pure_eq_ok.mp h
        exact .quiet fun _ _ => ⟨o, o, ho, fun hmark => by
          simp [gcIsObjectMarkTagged, hmark] at hm⟩
      split at h
      · rename_i ht
        obtain rfl := pure_eq_ok.mp h
        exact .quiet fun _ _ => ⟨o, o, ho, fun _ htr => by simp [htr] at ht⟩
      rename_i hm ht
      obtain ⟨t, ht', h⟩ := bind_eq_ok.mp h
      rw [deref_eq_ok] at ht'
      split at h
      · rename_i hmt
        obtain rfl := pure_eq_ok.mp h
        exact .quiet fun _ _ => ⟨o, t, ho, fun _ _ =>
          ⟨ht', by simpa [gcIsObjectMarkTagged] using hmt⟩⟩
      · rename_i hmt
        obtain rfl := pure_eq_ok.mp h
        exact .barrier hst rfl ho (by simpa [gcIsObjectMarkTagged] using hm) (by simpa using ht) ht'
          (by simpa [gcIsObjectMarkTagged] using hmt)
    · rename_i hst
      obtain rfl := pure_eq_ok.mp h
      exact .quiet fun hst' => absurd hst' hst

/-- The effect of overwriting a slot: the old reference is given up, the field is written and
the store is notified. -/
inductive Stored (operand : Operand) (x slot y : Addr) (s s' : SyliState) : Prop where
  | mk {u : SyliState} {o o' : GCObject} : s.heap x = some o → slot ∈ o.header.refSlots →
      slot < o.value.length →
      (u = s ∧ (o.value.getD slot .null).ownRef? = none ∨
        ∃ c oc, o.value.getD slot .null = .own c ∧ s.heap c = some oc ∧
          GiveUp .dropping s c oc u) →
      u.heap x = some o' →
      Notified operand x y (u.setObj x { o' with value := o'.value.set slot (.own y) }) s' →
      Stored operand x slot y s s'

theorem storeField_effect (h : Machine.storeField s operand x slot y = .ok s') :
    Stored operand x slot y s s' := by
  simp only [Machine.storeField, bind_eq_ok, deref_eq_ok, check_eq_ok] at h
  obtain ⟨o, ho, -, ⟨hslot, hlen⟩, u, hu, o', ho', h⟩ := h
  refine .mk ho hslot hlen ?_ ho' (notify_effect h)
  cases hv : o.value.getD slot .null with
  | own c =>
    rw [hv] at hu
    obtain ⟨oc, hoc, hg⟩ := syliRtObjectDecr_effect hu
    exact Or.inr ⟨c, oc, rfl, hoc, hg⟩
  | null | borrow a =>
    rw [hv] at hu
    obtain rfl := Except.ok.inj hu
    exact Or.inl ⟨rfl, rfl⟩
  | alwaysBorrow n | immediate n =>
    rw [hv] at hu
    cases hu

/-- A fresh object as the allocation leaves it. -/
def freshObject (s : SyliState) (header : ObjectHeader) (candidate : Bool) : GCObject where
  header := header
  refcount := 1
  mark := s.tracingCurrentBitMark
  cyclicCandidate := candidate
  value := List.replicate header.objectLength .null

theorem freshObject_ownRefs (s : SyliState) (header : ObjectHeader) (candidate : Bool) :
    (freshObject s header candidate).ownRefs = [] := by
  refine List.filterMap_eq_nil_iff.mpr fun i _ => ?_
  have hnull : ((freshObject s header candidate).value.getD i .null) = .null := by
    simp only [freshObject, List.getD_eq_getElem?_getD, List.getElem?_replicate]
    split <;> rfl
  rw [hnull]
  rfl

theorem alloc_effect {header : ObjectHeader}
    (h : syliRtOwnershipAllocObject s header 1 header.objectLength = .ok (a, s')) :
    a = s.next ∧ ∃ candidate candidates index g,
      s' = (((s.setObj s.next (freshObject s header candidate)).bumpNext).setGauges g).setRegistry
        candidates index := by
  simp only [syliRtOwnershipAllocObject, syliRtRcAllocObject] at h
  split at h
  · split at h
    · simp only [bind_eq_ok, pure_eq_ok, gcRegisterCandidate, deref_eq_ok] at h
      obtain ⟨u, ⟨o, ho, h⟩, heq⟩ := h
      obtain ⟨rfl, rfl⟩ := Prod.mk.inj heq
      obtain rfl : o = freshObject s header false := by
        simpa [freshObject, eq_comm] using ho
      simp only [freshObject, Bool.false_eq_true, if_false, bind_eq_ok, pure_eq_ok] at h
      obtain ⟨-, -, rfl⟩ := h
      refine ⟨rfl, true, s.cyclicCandidates ++ [s.next],
        Function.update s.candidateIndex s.next s.cyclicCandidates.length,
        s.gauges.alloc header, ?_⟩
      simp [SyliState.setObj, SyliState.setRegistry, SyliState.bumpNext, SyliState.setGauges,
        freshObject]
    · obtain ⟨rfl, rfl⟩ := Prod.mk.inj (Except.ok.inj h)
      exact ⟨rfl, false, s.cyclicCandidates, s.candidateIndex, s.gauges.alloc header, rfl⟩
  · obtain ⟨rfl, rfl⟩ := Prod.mk.inj (Except.ok.inj h)
    exact ⟨rfl, false, s.cyclicCandidates, s.candidateIndex, s.gauges, rfl⟩

/-- The moves of the mutator and of the collector, by the actions that make them. -/
inductive Move (m : Machine) : Action → Machine → Prop where
  | alloc {header : ObjectHeader} (candidate : Bool) (candidates : List Addr)
      (index : Addr → Nat) (g : Gauges) : m.control = .mutator → header.WellFormed →
      Move m (.alloc header)
        { m with
          rt := (((m.rt.setObj m.rt.next (freshObject m.rt header candidate)).bumpNext).setGauges
            g).setRegistry candidates index
          locals := m.rt.next :: m.locals }
  | load {x : Addr} {slot : Nat} {o oc : GCObject} {c : Addr} : m.control = .mutator →
      x ∈ m.held → m.rt.heap x = some o → c ∈ o.ownRefs → m.rt.heap c = some oc →
      o.value.getD slot .null = .own c →
      Move m (.load x slot)
        { m with
          rt := m.rt.setObj c { oc with refcount := oc.refcount + 1 }
          locals := c :: m.locals }
  | share {x : Addr} {o : GCObject} : m.control = .mutator → x ∈ m.held → m.rt.heap x = some o →
      Move m (.share x)
        { m with
          rt := m.rt.setObj x { o with refcount := o.refcount + 1 }
          locals := x :: m.locals }
  | drop {x : Addr} {o : GCObject} {s : SyliState} : m.control = .mutator → x ∈ m.locals →
      m.rt.heap x = some o → GiveUp .dropping m.rt x o s →
      Move m (.drop x) { m with rt := s, locals := m.locals.erase x }
  | store {operand : Operand} {x y : Addr} {slot : Nat} {s : SyliState} : m.control = .mutator →
      x ∈ m.held → y ∈ m.locals → Stored operand x slot y m.rt s →
      Move m (.store operand x slot y) { m with rt := s, locals := m.locals.erase y }
  | notify {operand : Operand} {x y : Addr} {s : SyliState} : m.control = .mutator →
      x ∈ m.held → y ∈ m.held → Notified operand x y m.rt s →
      Move m (.notify operand x y) { m with rt := s }
  | storeGlobal {g : Nat} {y : Addr} : m.control = .mutator → y ∈ m.locals →
      g < m.globals.length → Move m (.storeGlobal g y)
        { m with
          locals := m.locals.erase y
          globals := m.globals.set g (.own y)
          leaked := (m.globals.getD g .null).ownRef?.toList ++ m.leaked }
  | gcCycle {t r c : Int} (b : Budgets) : m.control = .mutator →
      Move m (.gcCycle t r c) { m with rt := m.rt.setBudgets b, control := .releasing }
  | releasing {s : SyliState} : m.control = .releasing → ReleasingStep m.rt s →
      Move m .gcReleasing { m with rt := s }
  | releasingDone : m.control = .releasing → Move m .gcReleasing { m with control := .tracing }
  | tracing {roots : List ObjPtr} {s : SyliState} : m.control = .tracing → m.RootsExact roots →
      TracingStep roots m.rt s → Move m (.gcTracing roots) { m with rt := s }
  | tracingDone {roots : List ObjPtr} : m.control = .tracing →
      Move m (.gcTracing roots) { m with control := .mutator }

/-- A notification about an object that is its own target has no effect. -/
theorem notify_self (h : syliRtOwnershipNotifyMutation s (.own y) (.own y) = .ok s') : s' = s := by
  have hn : Notified .own y y s s' := notify_effect h
  cases hn with
  | quiet _ => rfl
  | barrier _ _ ho hmark _ ht hne =>
    obtain rfl := Option.some.inj (ho.symm.trans ht)
    exact absurd hmark hne

theorem mutatorStep_move {act : Action} (hc : m.control = .mutator)
    (h : m.mutatorStep act = .ok m') : Move m act m' := by
  cases act with
  | alloc header =>
    simp only [Machine.mutatorStep, bind_eq_ok, check_eq_ok, pure_eq_ok, Prod.exists] at h
    obtain ⟨-, hwf, a, s, ha, rfl⟩ := h
    obtain ⟨rfl, candidate, candidates, index, g, rfl⟩ := alloc_effect ha
    exact .alloc candidate candidates index g hc hwf
  | load x slot =>
    simp only [Machine.mutatorStep, Machine.loadField, bind_eq_ok, check_eq_ok, deref_eq_ok,
      pure_eq_ok, Prod.exists] at h
    obtain ⟨-, hx, c, s, ⟨o, ho, -, hslot, h⟩, rfl⟩ := h
    split at h
    · cases h
    · rename_i c' hv
      obtain ⟨u, hu, h⟩ := bind_eq_ok.mp h
      obtain ⟨rfl, rfl⟩ := Prod.mk.inj (pure_eq_ok.mp h)
      obtain ⟨oc, hoc, rfl⟩ := syliRtObjectIncr_effect.mp hu
      have hmem : c' ∈ o.ownRefs := List.mem_filterMap.mpr ⟨slot, hslot, hv⟩
      exact .load hc hx ho hmem hoc (ObjPtr.ownRef?_eq_some.mp hv)
  | share x =>
    simp only [Machine.mutatorStep, bind_eq_ok, check_eq_ok, pure_eq_ok,
      syliRtObjectIncr_effect] at h
    obtain ⟨-, hx, _, ⟨o, ho, rfl⟩, rfl⟩ := h
    exact .share hc hx ho
  | drop x =>
    simp only [Machine.mutatorStep, bind_eq_ok, check_eq_ok, pure_eq_ok] at h
    obtain ⟨-, hx, s, hs, rfl⟩ := h
    obtain ⟨o, ho, hg⟩ := syliRtObjectDecr_effect hs
    exact .drop hc hx ho hg
  | store operand x slot y =>
    simp only [Machine.mutatorStep, bind_eq_ok, check_eq_ok, pure_eq_ok] at h
    obtain ⟨-, ⟨hx, hy⟩, s, hs, rfl⟩ := h
    exact .store hc hx hy (storeField_effect hs)
  | notify operand x y =>
    simp only [Machine.mutatorStep, bind_eq_ok, check_eq_ok, pure_eq_ok] at h
    obtain ⟨-, ⟨hx, hy⟩, s, hs, rfl⟩ := h
    exact .notify hc hx hy (notify_effect hs)
  | storeGlobal g y =>
    simp only [Machine.mutatorStep, bind_eq_ok, check_eq_ok, pure_eq_ok] at h
    obtain ⟨-, ⟨hy, hg⟩, s, hs, rfl⟩ := h
    obtain rfl := notify_self hs
    exact .storeGlobal hc hy hg
  | gcCycle t r c =>
    obtain rfl := Except.ok.inj h
    exact .gcCycle _ hc
  | gcReleasing | gcTracing roots => cases h

theorem step_move {act : Action} (h : m.step act = .ok m') : Move m act m' := by
  unfold Machine.step at h
  split at h
  · exact mutatorStep_move ‹_› h
  · obtain ⟨r, hr, h⟩ := bind_eq_ok.mp h
    cases r with
    | some s =>
      obtain rfl := pure_eq_ok.mp h
      exact .releasing ‹_› (syliStateGcReleasing_effect hr)
    | none =>
      obtain rfl := pure_eq_ok.mp h
      exact .releasingDone ‹_›
  · simp only [bind_eq_ok, check_eq_ok] at h
    obtain ⟨-, hroots, r, hr, h⟩ := h
    cases r with
    | some s =>
      obtain rfl := pure_eq_ok.mp h
      exact .tracing ‹_› hroots (syliStateGcTracing_effect hr)
    | none =>
      obtain rfl := pure_eq_ok.mp h
      exact .tracingDone ‹_›
  · cases h

end Syli.Runtime
