import Syli.Runtime.Machine

/-! What each function of the runtime can do to the state. -/
namespace Syli.Runtime

open Foundation

variable {s s' : SyliState} {a b : Addr} {o : GCObject}

namespace SyliState

theorem setObj_self (h : s.heap a = some o) : s.setObj a o = s := by
  simp [setObj, ← h]

@[simp] theorem setObj_setObj (o' : GCObject) : (s.setObj a o).setObj a o' = s.setObj a o' := by
  simp [setObj]

@[simp] theorem setObj_dropObj : (s.setObj a o).dropObj a = s.dropObj a := by
  simp [setObj, dropObj]

end SyliState

/-- `free_released_object` frees the object, or leaves it to the tracer that still queues it. -/
inductive Removed (s : SyliState) (a : Addr) (o : GCObject) : SyliState → Prop where
  | drop (candidates : List Addr) (index : Addr → Nat) (g : Gauges) : o.tracing = false →
      Removed s a o (((s.setRegistry candidates index).setGauges g).dropObj a)
  | wait (candidates : List Addr) (index : Addr → Nat) : o.tracing = true →
      Removed s a o ((s.setRegistry candidates index).setObj a
        { o with cyclicCandidate := false, waitingRemove := true })

/-- The ways in which a count is given up: by the mutator, by the reference-counting release of a
parent, and by the reclaiming of lost cycles. -/
inductive Pipeline where
  | dropping
  | counting
  | cycles

/-- Whether the object goes to the releasing waitlist when its last count is given up. -/
def Pipeline.Queues (p : Pipeline) (header : ObjectHeader) : Prop :=
  match p with
  | dropping => header.isMonoImm = false
  | counting => header.hasPointers = true
  | cycles => False

/-- What giving up one count of `a` can do. -/
inductive GiveUp : Pipeline → SyliState → Addr → GCObject → SyliState → Prop where
  | keep {p : Pipeline} {s : SyliState} {a : Addr} {o : GCObject} : 1 < o.refcount →
      GiveUp p s a o (s.setObj a { o with refcount := o.refcount - 1 })
  | queue {p : Pipeline} {s : SyliState} {a : Addr} {o : GCObject} (mark : Bool) :
      o.refcount = 1 → p.Queues o.header → mark = o.mark ∨ mark = s.tracingCurrentBitMark →
      GiveUp p s a o ((s.setObj a { o with refcount := 0, mark := mark }).setReleasing
        s.releasingWorklist (a :: s.releasingWaitlist))
  | enqueue {s : SyliState} {a : Addr} {o : GCObject} : o.refcount = 1 →
      o.header.hasPointers = true →
      GiveUp .cycles s a o ((s.setObj a { o with refcount := 0 }).setLostCycleWorklist
        (a :: s.lostCycleWorklist))
  | freeImm {s : SyliState} {a : Addr} {o : GCObject} : o.refcount = 1 →
      o.header.isMonoImm = true → GiveUp .dropping s a o (s.dropObj a)
  | remove {p : Pipeline} {s s' : SyliState} {a : Addr} {o : GCObject} : p ≠ .dropping →
      o.refcount = 1 → o.header.hasPointers = false →
      Removed (s.setObj a { o with refcount := 0 }) a { o with refcount := 0 } s' →
      GiveUp p s a o s'

/-- What giving up one count of each of `cs` in turn can do. -/
inductive GiveUpAll (p : Pipeline) : SyliState → List Addr → SyliState → Prop where
  | nil {s : SyliState} : GiveUpAll p s [] s
  | cons {s u s' : SyliState} {c : Addr} {cs : List Addr} {o : GCObject} :
      s.heap c = some o → GiveUp p s c o u → GiveUpAll p u cs s' → GiveUpAll p s (c :: cs) s'

/-- The rule for the loops that release children: `P` speaks of the counts still to give up. -/
theorem GiveUpAll.invariant {p : Pipeline} {P : List Addr → SyliState → Prop} {cs : List Addr}
    (h : GiveUpAll p s cs s') (h₀ : P cs s)
    (hstep : ∀ s c cs o u, P (c :: cs) s → s.heap c = some o → GiveUp p s c o u → P cs u) :
    P [] s' := by
  induction h with
  | nil => exact h₀
  | cons hc hu _ ih => exact ih (hstep _ _ _ _ _ h₀ hc hu)

theorem gcRemoveCandidateAt_effect {i : Nat} (h : gcRemoveCandidateAt s i = .ok s') :
    ∃ candidates index, s' = s.setRegistry candidates index := by
  unfold gcRemoveCandidateAt at h
  split at h
  · cases h
  split at h
  · cases h
    exact ⟨_, _, rfl⟩
  · simp only [bind_eq_ok, deref_eq_ok, check_eq_ok, pure_eq_ok] at h
    obtain ⟨_, _, o, _, _, _, rfl⟩ := h
    exact ⟨_, _, rfl⟩

theorem gcVectorPopBack_eq_ok {α : Type} {l l' : List α} {x : α} :
    gcVectorPopBack l = .ok (x, l') ↔ l = x :: l' := by
  cases l <;> simp [gcVectorPopBack]

theorem gcAccountCyclicFree_effect (s : SyliState) (o : GCObject) :
    ∃ g, gcAccountCyclicFree s o = s.setGauges g := by
  unfold gcAccountCyclicFree
  split
  · exact ⟨_, rfl⟩
  · exact ⟨s.gauges, rfl⟩

theorem freeReleasedObject_effect (h : freeReleasedObject s a = .ok s') :
    ∃ o, s.heap a = some o ∧ Removed s a o s' := by
  unfold freeReleasedObject at h
  simp only [bind_eq_ok, deref_eq_ok] at h
  obtain ⟨o, ho, h⟩ := h
  refine ⟨o, ho, ?_⟩
  have hreg : ∃ candidates index,
      (if o.tracing = true then
        pure ((s.setRegistry candidates index).setObj a
          { o with cyclicCandidate := false, waitingRemove := true })
      else (gcAccountCyclicFree ((s.setRegistry candidates index).setObj a
          { o with cyclicCandidate := false }) { o with cyclicCandidate := false }).free a) =
        Except.ok s' := by
    split at h
    · obtain ⟨-, -, h⟩ := bind_eq_ok.mp h
      obtain ⟨u, hu, h⟩ := bind_eq_ok.mp h
      obtain ⟨candidates, index, rfl⟩ := gcRemoveCandidateAt_effect hu
      exact ⟨candidates, index, h⟩
    · exact ⟨s.cyclicCandidates, s.candidateIndex, h⟩
  obtain ⟨candidates, index, h⟩ := hreg
  split at h
  · rename_i ht
    obtain rfl := pure_eq_ok.mp h
    exact .wait candidates index ht
  · rename_i ht
    obtain ⟨g, hg⟩ := gcAccountCyclicFree_effect ((s.setRegistry candidates index).setObj a
      { o with cyclicCandidate := false }) { o with cyclicCandidate := false }
    rw [hg, free_eq_ok] at h
    obtain ⟨-, rfl⟩ := h
    have heq : (((s.setRegistry candidates index).setObj a
        { o with cyclicCandidate := false }).setGauges g).dropObj a =
        ((s.setRegistry candidates index).setGauges g).dropObj a := by
      simp [SyliState.setObj, SyliState.dropObj, SyliState.setGauges]
    rw [heq]
    exact .drop candidates index g (by simpa using ht)

theorem gcReleasingWorklistPush_effect (h : gcReleasingWorklistPush s a = .ok s') :
    ∃ o mark, s.heap a = some o ∧ o.refcount = 0 ∧
      (mark = o.mark ∨ mark = s.tracingCurrentBitMark) ∧
      s' = (s.setObj a { o with mark := mark }).setReleasing s.releasingWorklist
        (a :: s.releasingWaitlist) := by
  unfold gcReleasingWorklistPush at h
  simp only [bind_eq_ok, deref_eq_ok, check_eq_ok, pure_eq_ok] at h
  obtain ⟨o, ho, -, hz, rfl⟩ := h
  split
  · exact ⟨o, _, ho, hz, Or.inr rfl, rfl⟩
  · refine ⟨o, o.mark, ho, hz, Or.inl rfl, ?_⟩
    rw [SyliState.setObj_self ho]

theorem syliObjectDecrLocal_effect : syliObjectDecrLocal s a = .ok s' ↔
    ∃ o, s.heap a = some o ∧ 0 < o.refcount ∧
      s' = s.setObj a { o with refcount := o.refcount - 1 } := by
  simp only [syliObjectDecrLocal, bind_eq_ok, deref_eq_ok, check_eq_ok, pure_eq_ok, exists_const,
    eq_comm (a := s')]

/-- The object is read back after its count went down. -/
theorem decrLocal_deref {f : SyliState → GCObject → Result SyliState}
    (h : (do
      let s ← syliObjectDecrLocal s a
      let o ← s.deref a
      f s o) = .ok s') : ∃ o, s.heap a = some o ∧ 0 < o.refcount ∧
      f (s.setObj a { o with refcount := o.refcount - 1 }) { o with refcount := o.refcount - 1 } =
        .ok s' := by
  simp only [bind_eq_ok, deref_eq_ok, syliObjectDecrLocal_effect] at h
  obtain ⟨_, ⟨o, ho, hpos, rfl⟩, o', ho', h⟩ := h
  obtain rfl : o' = { o with refcount := o.refcount - 1 } := by simpa [eq_comm] using ho'
  exact ⟨o, ho, hpos, h⟩

theorem syliRtObjectIncr_effect {k : Counting} : syliRtObjectIncr k s a = .ok s' ↔
    ∃ o, s.heap a = some o ∧ s' = s.setObj a (k.incr o) := by
  simp only [syliRtObjectIncr, bind_eq_ok, deref_eq_ok, pure_eq_ok, eq_comm (a := s')]

/-- Only a count that goes from 1 to 0 does more than change the count. -/
theorem syliRtObjectDecr_cases {k : Counting} (h : syliRtObjectDecr k s a = .ok s') :
    ∃ o o', s.heap a = some o ∧ k.decr o = .ok o' ∧
      (o'.refcount ≠ 0 ∧ s' = s.setObj a o' ∨ o.refcount = 1 ∧ o' = { o with refcount := 0 } ∧
        (o.header.isMonoImm = true ∧ s' = s.dropObj a ∨
          o.header.isMonoImm = false ∧ gcReleasingWorklistPush (s.setObj a o') a = .ok s')) := by
  simp only [syliRtObjectDecr, bind_eq_ok, deref_eq_ok] at h
  obtain ⟨o, ho, o', ho', h⟩ := h
  refine ⟨o, o', ho, ho', ?_⟩
  split at h
  · rename_i hzero
    obtain ⟨hone, rfl⟩ := k.decr_last ho' hzero
    refine Or.inr ⟨hone, rfl, ?_⟩
    split at h
    · obtain ⟨-, rfl⟩ := free_eq_ok.mp h
      exact Or.inl ⟨‹_›, SyliState.setObj_dropObj⟩
    · rename_i himm
      exact Or.inr ⟨by simpa using himm, h⟩
  · exact Or.inl ⟨‹_›, (pure_eq_ok.mp h).symm⟩

theorem naturalCounts_decr {o o' : GCObject} :
    naturalCounts.decr o = .ok o' ↔ 0 < o.refcount ∧ o' = { o with refcount := o.refcount - 1 } := by
  simp only [naturalCounts, bind_eq_ok, check_eq_ok, pure_eq_ok, exists_const, eq_comm (a := o')]

theorem syliRtObjectDecr_effect (h : syliRtObjectDecr naturalCounts s a = .ok s') :
    ∃ o, s.heap a = some o ∧ GiveUp .dropping s a o s' := by
  obtain ⟨o, o', ho, ho', h⟩ := syliRtObjectDecr_cases h
  obtain ⟨hpos, rfl⟩ := naturalCounts_decr.mp ho'
  refine ⟨o, ho, ?_⟩
  obtain ⟨hne, rfl⟩ | ⟨hone, hzero, ⟨himm, rfl⟩ | ⟨himm, hpush⟩⟩ := h
  · have hmore : 1 < o.refcount := by
      simp only at hne
      omega
    exact .keep hmore
  · exact .freeImm hone himm
  · obtain ⟨o', mark, ho', -, hmark, rfl⟩ := gcReleasingWorklistPush_effect hpush
    obtain rfl : o' = { o with refcount := 0 } := by simpa [hzero, eq_comm] using ho'
    rw [SyliState.setObj_setObj]
    exact .queue mark hone (by simpa [Pipeline.Queues] using himm) hmark

theorem childReleaseObject_effect (h : childReleaseObject s a = .ok s') :
    ∃ o, s.heap a = some o ∧ GiveUp .counting s a o s' := by
  unfold childReleaseObject at h
  obtain ⟨o, ho, hpos, h⟩ := decrLocal_deref h
  refine ⟨o, ho, ?_⟩
  by_cases hone : o.refcount = 1
  · simp only [hone, Nat.sub_self, Nat.lt_irrefl, if_false] at h
    split at h
    · rename_i hptr
      obtain ⟨o', mark, ho', -, hmark, rfl⟩ := gcReleasingWorklistPush_effect h
      obtain rfl : o' = { o with refcount := 0 } := by simpa [eq_comm] using ho'
      rw [SyliState.setObj_setObj]
      exact .queue mark hone hptr hmark
    · rename_i hleaf
      obtain ⟨o', ho', hr⟩ := freeReleasedObject_effect h
      obtain rfl : o' = { o with refcount := 0 } := by simpa [eq_comm] using ho'
      exact .remove (by simp) hone (by simpa using hleaf) hr
  · rw [if_pos (by simp only; omega)] at h
    obtain rfl := pure_eq_ok.mp h
    exact .keep (by omega)

theorem giveUpAll_of_foldlM {p : Pipeline} {f : SyliState → Addr → Result SyliState}
    (hf : ∀ s c s', f s c = .ok s' → ∃ o, s.heap c = some o ∧ GiveUp p s c o s')
    {cs : List Addr} (h : cs.foldlM f s = .ok s') : GiveUpAll p s cs s' := by
  induction cs generalizing s with
  | nil =>
    cases h
    exact .nil
  | cons c cs ih =>
    rw [List.foldlM_cons] at h
    obtain ⟨u, hu, hcs⟩ := bind_eq_ok.mp h
    obtain ⟨o, ho, hg⟩ := hf _ _ _ hu
    exact .cons ho hg (ih hcs)

theorem lostCycleChildDecr_effect (h : lostCycleChildDecr s a = .ok s') :
    ∃ o, s.heap a = some o ∧ GiveUp .cycles s a o s' := by
  unfold lostCycleChildDecr at h
  obtain ⟨o, ho, hpos, h⟩ := decrLocal_deref h
  refine ⟨o, ho, ?_⟩
  by_cases hone : o.refcount = 1
  · simp only [hone, Nat.sub_self, if_true] at h
    split at h
    · unfold lostCycleEnqueueFree at h
      simp only [bind_eq_ok, deref_eq_ok, check_eq_ok, pure_eq_ok] at h
      obtain ⟨o', ho', -, -, rfl⟩ := h
      exact .enqueue hone ‹_›
    · rename_i hleaf
      obtain ⟨o', ho', hr⟩ := freeReleasedObject_effect h
      obtain rfl : o' = { o with refcount := 0 } := by simpa [eq_comm] using ho'
      exact .remove (by simp) hone (by simpa using hleaf) hr
  · rw [if_neg (by simp only; omega)] at h
    obtain rfl := pure_eq_ok.mp h
    exact .keep (by omega)

theorem releaseChildrenOnce_effect (h : releaseChildrenOnce s a = .ok s') :
    ∃ o, s.heap a = some o ∧ (o.childrenReleased = true ∧ s' = s ∨
      o.childrenReleased = false ∧ ∃ n, GiveUpAll .cycles
        ((s.setObj a { o with childrenReleased := true }).chargeChecking n) o.ownRefs s') := by
  simp only [releaseChildrenOnce, bind_eq_ok, deref_eq_ok] at h
  obtain ⟨o, ho, h⟩ := h
  refine ⟨o, ho, ?_⟩
  split at h
  · obtain rfl := pure_eq_ok.mp h
    exact Or.inl ⟨‹_›, rfl⟩
  · rename_i hr
    refine Or.inr ⟨by simpa using hr, _, giveUpAll_of_foldlM ?_ h⟩
    exact fun s c s' => lostCycleChildDecr_effect

/-- The iterations of the releasing loop that do not return. -/
inductive ReleasingStep : SyliState → SyliState → Prop where
  | start {s : SyliState} : s.releasingState = .idle →
      ReleasingStep s ((s.setReleasing s.releasingWaitlist []).setReleasingState .releasing)
  | release {s v w s' : SyliState} {a : Addr} {rest : List Addr} {o o' : GCObject} (n : Int) :
      s.releasingState = .releasing → s.releasingWorklist = a :: rest → s.heap a = some o →
      GiveUpAll .counting ((s.setReleasing rest s.releasingWaitlist).chargeReleasing n) o.ownRefs v →
      v.heap a = some o' → o'.refcount = 0 → Removed v a o' w →
      s' = w.setReleasingState (if w.releasingWorklist = [] then .idle else .releasing) →
      ReleasingStep s s'

theorem Removed.releasing (h : Removed s a o s') : s'.releasingState = s.releasingState := by
  cases h <;> rfl

theorem Removed.tracingState (h : Removed s a o s') : s'.tracingState = s.tracingState := by
  cases h <;> rfl

theorem GiveUp.releasing {p : Pipeline} (h : GiveUp p s a o s') :
    s'.releasingState = s.releasingState := by
  cases h with
  | remove _ _ _ h => exact h.releasing
  | _ => rfl

theorem GiveUpAll.releasing {p : Pipeline} {cs : List Addr} (h : GiveUpAll p s cs s') :
    s'.releasingState = s.releasingState :=
  h.invariant (P := fun _ u => u.releasingState = s.releasingState) rfl
    fun _ _ _ _ _ hu _ hg => hg.releasing.trans hu

theorem syliStateGcReleasing_effect (h : syliStateGcReleasing s = .ok (some s')) :
    ReleasingStep s s' := by
  unfold syliStateGcReleasing at h
  split at h
  · cases h
  split at h
  · rename_i hs
    split at h
    · cases h
    · obtain rfl := Option.some.inj (Except.ok.inj h)
      exact .start hs
  · rename_i hs
    simp only [gcOneStepReleasing, bind_eq_ok, deref_eq_ok, check_eq_ok, Prod.exists,
      gcVectorPopBack_eq_ok] at h
    obtain ⟨w, ⟨a, rest, hwl, o, ho, v, hv, o', ho', -, hz, hw⟩, h⟩ := h
    have hv := giveUpAll_of_foldlM (fun _ _ _ => childReleaseObject_effect) hv
    obtain ⟨o'', ho'', hr⟩ := freeReleasedObject_effect hw
    obtain rfl : o' = o'' := Option.some.inj (ho'.symm.trans ho'')
    have hstate : w.releasingState = .releasing := by
      rw [hr.releasing, hv.releasing]
      exact hs
    refine .release _ hs hwl ho hv ho' hz hr ?_
    split at h
    · rename_i he
      rw [if_pos he]
      exact (Option.some.inj (pure_eq_ok.mp h)).symm
    · rename_i he
      rw [if_neg he, ← hstate]
      exact (Option.some.inj (pure_eq_ok.mp h)).symm

end Syli.Runtime
