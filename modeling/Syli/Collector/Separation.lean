import Syli.Collector.Sound
import Syli.Collector.Freed

/-! The two release pipelines: an object waits in the queues of the reference counting or in the
queue of the lost cycles, at most once. -/
namespace Syli.Collector

open Foundation Syli.Runtime

variable {s s' u : SyliState} {m m' : Machine} {a b : Addr} {o o' : GCObject} {act : Action}
variable {p : Pipeline} {cs rest new : List Addr} {env : Env} {globals : Nat}

/-- The objects that wait in one of the release pipelines. -/
def releaseQueues (s : SyliState) : List Addr :=
  s.releasingWaitlist ++ s.releasingWorklist ++ s.lostCycleWorklist

/-- The release queues hold unfreed objects without counts, each once. -/
structure Separate (s : SyliState) : Prop where
  nodup : (releaseQueues s).Nodup
  alive : ∀ a ∈ releaseQueues s, ∃ o, s.heap a = some o ∧ o.refcount = 0 ∧ o.waitingRemove = false

namespace Separate

theorem not_mem (h : Separate s) (ho : s.heap a = some o) (hpos : 0 < o.refcount) :
    a ∉ releaseQueues s := by
  intro ha
  obtain ⟨o', ho', hz, -⟩ := h.alive a ha
  obtain rfl := Option.some.inj (ho.symm.trans ho')
  omega

/-- The rule for the steps that queue nothing. -/
theorem shrink (h : Separate s) (hsub : (releaseQueues s').Sublist (releaseQueues s))
    (hobj : ∀ a ∈ releaseQueues s', ∀ o, s.heap a = some o → o.refcount = 0 →
      o.waitingRemove = false →
        ∃ o', s'.heap a = some o' ∧ o'.refcount = 0 ∧ o'.waitingRemove = false) :
    Separate s' := by
  constructor
  · exact hsub.nodup h.nodup
  · intro a ha
    obtain ⟨o, ho, hz, hw⟩ := h.alive a (hsub.subset ha)
    exact hobj a ha o ho hz hw

theorem push (h : Separate s) (hp : (releaseQueues s').Perm (a :: releaseQueues s))
    (ha : a ∉ releaseQueues s) (hheap : s'.heap = s.heap)
    (ho : s.heap a = some o) (hz : o.refcount = 0) (hw : o.waitingRemove = false) :
    Separate s' := by
  constructor
  · exact hp.nodup_iff.mpr (List.nodup_cons.mpr ⟨ha, h.nodup⟩)
  · intro b hb
    rw [hheap]
    rcases List.mem_cons.mp (hp.subset hb) with rfl | hb
    · exact ⟨o, ho, hz, hw⟩
    · exact h.alive b hb

/-- The objects in the queues are left as they are. -/
theorem of_heap (h : Separate s) (hsub : (releaseQueues s').Sublist (releaseQueues s))
    (hheap : ∀ a ∈ releaseQueues s', s'.heap a = s.heap a) : Separate s' := by
  apply h.shrink hsub
  intro a ha o ho hz hw
  exact ⟨o, (hheap a ha).trans ho, hz, hw⟩

theorem congr (h : Separate s) (hq : releaseQueues s' = releaseQueues s)
    (hheap : s'.heap = s.heap) : Separate s' := by
  constructor
  · rw [hq]
    exact h.nodup
  · rw [hq, hheap]
    exact h.alive

theorem setObj {w : GCObject} (h : Separate s) (ha : a ∉ releaseQueues s) :
    Separate (s.setObj a w) := by
  refine h.of_heap (List.Sublist.refl _) fun b hb => ?_
  have hba : b ≠ a := by
    rintro rfl
    exact ha hb
  simp [hba]

theorem dropObj (h : Separate s) (ha : a ∉ releaseQueues s) : Separate (s.dropObj a) := by
  refine h.of_heap (List.Sublist.refl _) fun b hb => ?_
  have hba : b ≠ a := by
    rintro rfl
    exact ha hb
  simp [hba]

/-- A change that keeps the count and the wait of the object. -/
theorem restate {w : GCObject} (h : Separate s) (ho : s.heap a = some o)
    (hcount : w.refcount = o.refcount) (hwait : w.waitingRemove = o.waitingRemove) :
    Separate (s.setObj a w) := by
  refine h.shrink (List.Sublist.refl _) fun b _ ob hob hz hw => ?_
  by_cases hba : b = a
  · subst hba
    obtain rfl := Option.some.inj (ho.symm.trans hob)
    exact ⟨w, by simp, hcount.trans hz, hwait.trans hw⟩
  · exact ⟨ob, by simp [hba, hob], hz, hw⟩

theorem notified {operand : Operand} {x y : Addr} (h : Separate s)
    (hn : Notified operand x y s s') : Separate s' := by
  cases hn with
  | quiet _ => exact h
  | @barrier o t _ _ _ _ _ ht _ =>
    exact { h.restate ht rfl rfl (w := { t with mark := s.tracingCurrentBitMark }) with }

theorem removed (h : Separate s) (ha : a ∉ releaseQueues s) (hr : Removed s a o s') :
    Separate s' := by
  cases hr with
  | drop _ _ _ _ => exact { h.dropObj ha with }
  | wait _ _ _ => exact { h.setObj ha with }

theorem giveUp (h : Separate s) (ho : s.heap a = some o)
    (hw : 0 < o.refcount → o.waitingRemove = false) (hg : GiveUp p s a o s') : Separate s' := by
  have ha := h.not_mem ho hg.pos
  have hwait := hw hg.pos
  cases hg with
  | keep _ => exact h.setObj ha
  | queue mark _ _ _ =>
    have hs := h.setObj (w := { o with refcount := 0, mark := mark }) ha
    have hself := Function.update_self (β := fun _ => Option GCObject) a
      (some { o with refcount := 0, mark := mark }) s.heap
    exact hs.push (List.Perm.refl _) ha rfl hself rfl hwait
  | enqueue _ _ =>
    have hs := h.setObj (w := { o with refcount := 0 }) ha
    have hself := Function.update_self (β := fun _ => Option GCObject) a
      (some { o with refcount := 0 }) s.heap
    exact hs.push List.perm_middle ha rfl hself rfl hwait
  | freeImm _ _ => exact h.dropObj ha
  | remove _ _ _ hr =>
    have hs := h.setObj (w := { o with refcount := 0 }) ha
    exact hs.removed ha hr

end Separate

theorem releaseQueues_of_giveUp (h : GiveUp p s a o s') (hb : b ∈ releaseQueues s') :
    b = a ∨ b ∈ releaseQueues s := by
  cases h with
  | queue _ _ _ _ => simpa [releaseQueues, or_assoc] using hb
  | enqueue _ _ =>
    have hp : (releaseQueues ((s.setObj a { o with refcount := 0 }).setLostCycleWorklist
        (a :: s.lostCycleWorklist))).Perm (a :: releaseQueues s) := List.perm_middle
    exact List.mem_cons.mp (hp.subset hb)
  | remove _ _ _ hr =>
    cases hr <;> exact Or.inr hb
  | _ => exact Or.inr hb

namespace Separate

variable {claims : List Addr} {out : Addr → List Addr}

theorem giveUpAll (h : Separate s) (hl : Ledger s (cs ++ claims) out)
    (hstate : p = .cycles → s.tracingState = .reclaimingCyclicCandidates)
    (hg : GiveUpAll p s cs s') : Separate s' := by
  induction hg with
  | nil => exact h
  | cons hc hu _ ih =>
    have hwait := hl.not_waiting_of_pos hc
    apply ih (h.giveUp hc hwait hu) (hl.giveUp hc hstate hu)
    exact fun hp => (hu.frame hc).state.trans (hstate hp)

end Separate

/-- Only objects with counts enter a queue when counts are given up. -/
theorem not_mem_releaseQueues (h : GiveUpAll p s cs s') (ho : s.heap a = some o)
    (hz : o.refcount = 0) (hnot : a ∉ releaseQueues s) : a ∉ releaseQueues s' := by
  refine (h.invariant (P := fun _ u => u.heap a = some o ∧ a ∉ releaseQueues u) ⟨ho, hnot⟩ ?_).2
  rintro s c cs oc u ⟨ha, hna⟩ hc hg
  have hac : a ≠ c := by
    rintro rfl
    obtain rfl := Option.some.inj (ha.symm.trans hc)
    have := hg.pos
    omega
  exact ⟨(hg.heap_of_ne hac).trans ha, fun hmem => (releaseQueues_of_giveUp hg hmem).elim hac hna⟩

/-- The candidate that the next iteration of the reclaiming loop looks at. -/
def nextCandidate (s : SyliState) : Option Addr :=
  if s.tracingState = .reclaimingCyclicCandidates ∧ 0 < s.budgets.tracing ∧
      s.lostCycleWorklist = [] then
    (s.cyclicCandidates.take s.currentCandidateCheckIndex).getLast?
  else none

/-- A candidate that the scan finds unmarked has counts, and not only from its own fields. -/
def ScansCounted (m : Machine) : Action → Prop
  | .gcTracing _ => ∀ a ∈ nextCandidate m.rt, ∀ o ∈ m.rt.heap a,
    o.mark ≠ m.rt.tracingCurrentBitMark →
      0 < o.refcount ∧ (o.childrenReleased = false → o.ownRefs.count a < o.refcount)
  | _ => True

instance (m : Machine) : (act : Action) → Decidable (ScansCounted m act)
  | .gcTracing _ => inferInstanceAs (Decidable (∀ a ∈ nextCandidate m.rt, ∀ o ∈ m.rt.heap a,
      o.mark ≠ m.rt.tracingCurrentBitMark →
        0 < o.refcount ∧ (o.childrenReleased = false → o.ownRefs.count a < o.refcount)))
  | .alloc _ | .load _ _ | .share _ | .drop _ | .store _ _ _ _ | .notify _ _ _
  | .storeGlobal _ _ | .gcCycle _ _ _ | .gcReleasing => isTrue trivial

namespace Separate

variable {claims : List Addr} {roots : List ObjPtr}

theorem releasingStep (h : Separate s) (hl : Ledger s claims s.outRefs)
    (hs : ReleasingStep s s') (hintact : ∀ a ∈ s.releasingWorklist.head?, ∀ o,
      s.heap a = some o → o.childrenReleased = false) : Separate s' := by
  cases hs with
  | start _ =>
    have hsub : (releaseQueues ((s.setReleasing s.releasingWaitlist []).setReleasingState
        .releasing)).Sublist (releaseQueues s) := by
      apply List.Sublist.append_right
      exact List.sublist_append_left _ _
    exact h.of_heap hsub fun _ _ => rfl
  | @release v w _ a rest o o' n _ hwl ho hg ho' hz hr hs' =>
    have hperm : (releaseQueues s).Perm
        (a :: releaseQueues ((s.setReleasing rest s.releasingWaitlist).chargeReleasing n)) := by
      have hp : (s.releasingWaitlist ++ a :: rest ++ s.lostCycleWorklist).Perm
          (a :: (s.releasingWaitlist ++ rest ++ s.lostCycleWorklist)) :=
        List.perm_middle.append_right _
      rw [← hwl] at hp
      exact hp
    have hnot := (List.nodup_cons.mp (hperm.nodup_iff.mp h.nodup)).1
    have hzero := (hl.releasing a (by simp [hwl]) o ho).1
    have hbase : Separate ((s.setReleasing rest s.releasingWaitlist).chargeReleasing n) := by
      refine h.of_heap ?_ (by simp)
      apply List.Sublist.append_right
      rw [hwl]
      exact (List.sublist_cons_self a rest).append_left _
    have hcharged := hl.popReleasing hwl ho (hintact a (by simp [hwl]) o ho) n
    have hv := hbase.giveUpAll hcharged (by simp) hg
    have hnotv := not_mem_releaseQueues hg ho hzero hnot
    have hw := hv.removed hnotv hr
    subst hs'
    exact { hw with }

/-- The marking steps free only what waits for its removal, which no release queue holds. -/
theorem markStep (h : Separate s) (hs : MarkStep s s') : Separate s' := by
  have hqueues : releaseQueues s' = releaseQueues s := by
    cases hs with
    | popMark _ _ _ _ _ _ _ hu _ _ =>
      subst hu
      rfl
    | _ => rfl
  refine h.shrink (hqueues ▸ List.Sublist.refl _) fun a _ o ho hz hw => ?_
  rcases hs.heap ho with ⟨mark, tracing, ho'⟩ | ⟨hwait, -⟩
  · exact ⟨_, ho', hz, hw⟩
  · simp [hw] at hwait

/-- The release of children, with the object itself not queued. -/
theorem releaseOnce (h : Separate s) (hl : Ledger s claims s.outRefs)
    (hstate : s.tracingState = .reclaimingCyclicCandidates)
    (hr : releaseChildrenOnce s a = .ok s') : Separate s' := by
  obtain ⟨o, ho, ⟨-, rfl⟩ | ⟨hcr, n, hg⟩⟩ := releaseChildrenOnce_effect hr
  · exact h
  · have hset : Separate ((s.setObj a { o with childrenReleased := true }).chargeChecking n) :=
      { h.restate ho rfl rfl (w := { o with childrenReleased := true }) with }
    exact hset.giveUpAll (hl.markReleased hstate ho hcr n) (fun _ => hstate) hg

theorem not_mem_releaseOnce (hr : releaseChildrenOnce s a = .ok s') (ho : s.heap a = some o)
    (hz : o.refcount = 0) (hnot : a ∉ releaseQueues s) : a ∉ releaseQueues s' := by
  obtain ⟨o₁, ho₁, ⟨-, rfl⟩ | ⟨-, n, hg⟩⟩ := releaseChildrenOnce_effect hr
  · exact hnot
  · obtain rfl := Option.some.inj (ho.symm.trans ho₁)
    have hset : ((s.setObj a { o with childrenReleased := true }).chargeChecking n).heap a =
        some { o with childrenReleased := true } := by simp
    exact not_mem_releaseQueues hg hset hz hnot

theorem nextCandidate_eq {i : Nat} (hst : s.tracingState = .reclaimingCyclicCandidates)
    (hb : 0 < s.budgets.tracing) (hl : s.lostCycleWorklist = [])
    (hi : min s.currentCandidateCheckIndex s.cyclicCandidates.length = i + 1)
    (ha : s.cyclicCandidates[i]? = some a) : nextCandidate s = some a := by
  have hlt : i < s.currentCandidateCheckIndex := by omega
  rw [nextCandidate, if_pos ⟨hst, hb, hl⟩, List.getLast?_eq_getElem?, List.length_take, hi,
    Nat.add_sub_cancel, List.getElem?_take_of_lt hlt]
  exact ha

/-- A scanned candidate that keeps a count of another object is not queued at the end. -/
theorem count_of_scan (hr : releaseChildrenOnce s a = .ok s') (ho : s.heap a = some o)
    (hpos : 0 < o.refcount) (hself : o.childrenReleased = false → o.ownRefs.count a < o.refcount)
    (ho' : s'.heap a = some o') : 0 < o'.refcount := by
  obtain ⟨o₁, ho₁, ⟨-, rfl⟩ | ⟨hcr, n, hg⟩⟩ := releaseChildrenOnce_effect hr
  · obtain rfl := Option.some.inj (ho.symm.trans ho')
    exact hpos
  · obtain rfl := Option.some.inj (ho.symm.trans ho₁)
    have hlt := hself hcr
    have hset : ((s.setObj a { o with childrenReleased := true }).chargeChecking n).heap a =
        some { o with childrenReleased := true } := by simp
    have ha := hg.heap_of_lt hset hlt
    obtain rfl := Option.some.inj (ha.symm.trans ho')
    exact Nat.sub_pos_of_lt hlt

theorem reclaimStep (h : Separate s) (hl : Ledger s claims s.outRefs)
    (hb : 0 < s.budgets.tracing)
    (hok : ∀ a ∈ nextCandidate s, ∀ o ∈ s.heap a, o.mark ≠ s.tracingCurrentBitMark →
      0 < o.refcount ∧ (o.childrenReleased = false → o.ownRefs.count a < o.refcount))
    (hs : ReclaimStep s s') : Separate s' := by
  cases hs with
  | @reclaimFree u _ a rest b hst hlost hu hf =>
    have hperm : (releaseQueues s).Perm (a :: (s.releasingWaitlist ++ s.releasingWorklist ++
        rest)) := by
      rw [releaseQueues, hlost]
      exact List.perm_middle
    have hnot := (List.nodup_cons.mp (hperm.nodup_iff.mp h.nodup)).1
    have hbase : Separate ((s.setBudgets b).setLostCycleWorklist rest) := by
      refine h.of_heap ?_ (by simp)
      apply List.Sublist.append_left
      rw [hlost]
      exact List.sublist_cons_self a rest
    have hlbase := hl.popLost (l := rest) fun c hc => hlost ▸ List.mem_cons_of_mem a hc
    obtain ⟨o, ho, hz, -⟩ := h.alive a (hperm.symm.subset List.mem_cons_self)
    have hv := hbase.releaseOnce { hlbase with } hst hu
    obtain ⟨o', ho', hr⟩ := freeReleasedObject_effect hf
    exact hv.removed (not_mem_releaseOnce hu ho hz hnot) hr
  | reclaimDone b _ _ _ => exact { h with }
  | scanIdle b _ _ _ => exact { h with }
  | scanMarked b _ _ _ _ _ _ => exact { h with }
  | @scanRelease u _ a o o' i b hst hlost hi ha ho hmark hu ho' hs' =>
    have hbase : Separate ((s.setBudgets b).setCheckIndex i) := { h with }
    have hlbase : Ledger ((s.setBudgets b).setCheckIndex i) claims
        ((s.setBudgets b).setCheckIndex i).outRefs := { hl with }
    have hv := hbase.releaseOnce hlbase hst hu
    obtain ⟨hpos, hself⟩ := hok a (nextCandidate_eq hst hb hlost hi ha) o ho hmark
    have hcount := count_of_scan hu ho hpos hself ho'
    rcases hs' with ⟨hz, -⟩ | ⟨-, rfl⟩
    · omega
    · exact hv

theorem tracingStep (h : Separate s) (hl : Ledger s claims s.outRefs)
    (hb : 0 < s.budgets.tracing)
    (hok : ∀ a ∈ nextCandidate s, ∀ o ∈ s.heap a, o.mark ≠ s.tracingCurrentBitMark →
      0 < o.refcount ∧ (o.childrenReleased = false → o.ownRefs.count a < o.refcount))
    (hs : TracingStep roots s s') : Separate s' := by
  cases hs with
  | @start new _ _ _ _ =>
    refine h.shrink ?_ fun a _ o ho hz hw => ?_
    · simp [releaseQueues, tracingStart]
    · obtain ⟨tracing, ho'⟩ := @flagTracing_of_heap _ _ (tracingStart s).heap ho new
      exact ⟨{ o with tracing := tracing }, ho', hz, hw⟩
  | mark hs => exact h.markStep hs
  | reclaim hs => exact h.reclaimStep hl hb hok hs

end Separate

/-- What an iteration of the tracing loop needs of the budget. -/
theorem gcTracing_exhausted {roots : List ObjPtr} (hb : ¬ 0 < m.rt.budgets.tracing)
    (hstep : m.step (.gcTracing roots) = .ok m') : m'.rt = m.rt := by
  cases hm : m.control with
  | mutator | releasing => simp [Machine.step, Machine.mutatorStep, hm] at hstep
  | tracing =>
    simp only [Machine.step, hm, bind_eq_ok, check_eq_ok] at hstep
    obtain ⟨-, -, r, hr, hstep⟩ := hstep
    rw [syliStateGcTracing, if_pos (Int.not_lt.mp hb)] at hr
    obtain rfl := Except.ok.inj hr
    obtain rfl := pure_eq_ok.mp hstep
    rfl

theorem separate_step (h : Exact m) (hq : Separate m.rt) (hok : RespectsReleased m act)
    (hc : ScansCounted m act) (hstep : m.step act = .ok m') : Separate m'.rt := by
  have hcount : ∀ {b : Addr} {ob w : GCObject}, m.rt.heap b = some ob → 0 < ob.refcount →
      Separate (m.rt.setObj b w) := fun hob hpos => hq.setObj (hq.not_mem hob hpos)
  have hnext : m.rt.next ∉ releaseQueues m.rt := fun ha => Nat.lt_irrefl _ (h.bounded _ ha)
  cases step_move hstep with
  | @alloc header candidate candidates index g _ _ =>
    have hs := hq.setObj (w := freshObject m.rt header candidate) hnext
    apply hs.congr
    · simp [releaseQueues]
    · rfl
  | @load x slot o oc c _ hx ho hc' hoc _ =>
    have hxc : c ∈ m.rt.outRefs x := by
      rw [Ledger.outRefs_of_claim h (List.mem_append_left _ hx) ho (hok o ho)]
      exact hc'
    obtain ⟨oc', hoc', hpos⟩ := h.exists_of_edge (h.lt_next ho) hxc
    obtain rfl := Option.some.inj (hoc.symm.trans hoc')
    exact hcount hoc hpos
  | share _ hx ho =>
    obtain ⟨o', ho', hpos⟩ := h.exists_of_claim (List.mem_append_left _ hx)
    obtain rfl := Option.some.inj (ho.symm.trans ho')
    exact hcount ho hpos
  | drop _ _ ho hg => exact hq.giveUp ho (h.not_waiting_of_pos ho) hg
  | @store operand x y slot s _ hx hy hs =>
    obtain @⟨u, o, o₁, ho, -, -, hold, ho₁, hn⟩ := hs
    have hu : Separate u := by
      rcases hold with ⟨rfl, -⟩ | ⟨c, oc, -, hc', hg⟩
      · exact hq
      · exact hq.giveUp hc' (h.not_waiting_of_pos hc') hg
    have hset := hu.restate ho₁ rfl rfl (w := { o₁ with value := o₁.value.set slot (.own y) })
    exact hset.notified hn
  | notify _ _ _ hn => exact hq.notified hn
  | storeGlobal _ _ _ => exact hq
  | gcCycle b _ => exact { hq with }
  | releasing _ hs => exact hq.releasingStep h hs hok
  | releasingDone _ => exact hq
  | @tracing roots s _ _ hs =>
    by_cases hb : 0 < m.rt.budgets.tracing
    · exact hq.tracingStep h hb hc hs
    · rw [gcTracing_exhausted hb hstep]
      exact hq
  | tracingDone _ => exact hq

theorem separate_init (env : Env) (globals : Nat) : Separate (Machine.init env globals).rt := by
  constructor <;> simp [Machine.init, syliStateInit, releaseQueues]

theorem separate_of_runs
    (h : Runs Machine.step (fun m act => RespectsReleased m act ∧ ScansCounted m act)
      (Machine.init env globals) m) : Separate m.rt := by
  have hall : Exact m ∧ Separate m.rt := by
    refine h.invariant (P := fun m => Exact m ∧ Separate m.rt)
      ⟨exact_init env globals, separate_init env globals⟩ ?_
    rintro m act m' ⟨he, hs⟩ ⟨hok, hc⟩ hstep
    exact ⟨exact_move he hok (step_move hstep), separate_step he hs hok hc hstep⟩
  exact hall.2

instance (s : SyliState) : Decidable (Separate s) :=
  decidable_of_iff ((releaseQueues s).Nodup ∧ ∀ a ∈ releaseQueues s, ∃ o ∈ s.heap a,
    o.refcount = 0 ∧ o.waitingRemove = false) ⟨fun h => ⟨h.1, h.2⟩, fun h => ⟨h.nodup, h.alive⟩⟩

/-- Two cells refer to each other and are dropped; a third keeps the collector busy. -/
def lostPair : List Action :=
  [.alloc (mutableCell 1), .alloc (mutableCell 1), .alloc (mutableCell 1), .share 1,
    .store .own 2 0 1, .share 2, .store .own 1 0 2, .drop 1, .drop 2, .gcCycle 100 0 100,
    .gcReleasing] ++ List.replicate 4 (.gcTracing [.own 3])

/-- A candidate that waits in the waitlist loses its mark to the next trace, and a candidate that
only refers to itself is queued twice by its own scan. -/
theorem pipelines_overlap :
    (∃ m, Runs Machine.step (fun _ _ => True) (Machine.init testEnv 0) m ∧
      1 ∈ m.rt.releasingWaitlist ∧ 1 ∈ m.rt.lostCycleWorklist ∧ ¬ Separate m.rt) ∧
      ∃ m, Runs Machine.step (fun _ _ => True) (Machine.init testEnv 0) m ∧
        m.rt.lostCycleWorklist = [1, 1] ∧ ¬ Separate m.rt := by
  constructor
  · obtain ⟨m, hm, hwait, hlost, hno⟩ :
        ∃ m ∈ execute Machine.step (fun _ _ => True) (Machine.init testEnv 0)
          ([.alloc (mutableCell 1), .alloc (mutableCell 1), .drop 1, .gcCycle 100 0 100,
            .gcReleasing] ++ List.replicate 4 (.gcTracing [.own 2])),
          1 ∈ m.rt.releasingWaitlist ∧ 1 ∈ m.rt.lostCycleWorklist ∧ ¬ Separate m.rt := by
      decide +kernel
    exact ⟨m, Runs.of_execute hm, hwait, hlost, hno⟩
  · obtain ⟨m, hm, hlost, hno⟩ :
        ∃ m ∈ execute Machine.step (fun _ _ => True) (Machine.init testEnv 0)
          ([.alloc (mutableCell 1), .alloc (mutableCell 1), .share 1, .store .own 1 0 1, .drop 1,
            .gcCycle 100 0 100, .gcReleasing] ++ List.replicate 4 (.gcTracing [.own 2])),
          m.rt.lostCycleWorklist = [1, 1] ∧ ¬ Separate m.rt := by
      decide +kernel
    exact ⟨m, Runs.of_execute hm, hlost, hno⟩

end Syli.Collector
