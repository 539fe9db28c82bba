import Syli.Collector.Collection
import Syli.Collector.Separation
import Syli.Collector.Progress

/-! The reclaiming of lost cycles frees exactly what the owners do not reach. -/
namespace Syli.Collector

open Foundation Syli.Runtime

variable {s s' u : SyliState} {m₀ : Owned} {a b c x y : Addr} {o o' : GCObject}
variable {roots : List ObjPtr} {rest claims claims' cs pending : List Addr}

/-- During the reclaiming the counts of the unreachable objects fall. The `claims` are the owners
and what remains of the references that are being given up; the objects without counts wait in the
worklist, those in `pending` apart. -/
structure ReclaimPhase (m₀ : Owned) (s : SyliState) (claims pending : List Addr) : Prop where
  ledger : Ledger s claims s.outRefs
  owners : ∀ a ∈ m₀.owners, a ∈ claims
  reclaiming : s.tracingState = .reclaimingCyclicCandidates
  releasing : s.releasingWaitlist = [] ∧ s.releasingWorklist = []
  next : s.next = m₀.rt.next
  cells : ∀ a o, s.heap a = some o → ∃ o₀ refcount mark childrenReleased,
    m₀.rt.heap a = some o₀ ∧ o = { o₀ with
      refcount := refcount, mark := mark, childrenReleased := childrenReleased }
  marked : ∀ a, Marked s a → OwnedReach m₀ m₀.owners a
  kept : ∀ a, OwnedReach m₀ m₀.owners a → ∃ o, s.heap a = some o ∧
    o.childrenReleased = false ∧ o.mark = s.tracingCurrentBitMark
  zero : ∀ a o, s.heap a = some o → o.refcount = 0 → a ∈ pending ++ s.lostCycleWorklist

/-- Giving up a count of an object that is not queued for tracing. -/
theorem giveUp_self (hg : GiveUp .cycles s a o s') (ht : o.tracing = false) :
    (s'.heap a = none ∨ ∃ n, s'.heap a = some { o with refcount := n } ∧
      (n = 0 → a ∈ s'.lostCycleWorklist)) ∧
        (∀ b ∈ s.lostCycleWorklist, b ∈ s'.lostCycleWorklist) ∧
          s'.releasingWaitlist = s.releasingWaitlist ∧
            s'.releasingWorklist = s.releasingWorklist := by
  cases hg with
  | keep hone =>
    refine ⟨Or.inr ⟨o.refcount - 1, by simp, fun hz => ?_⟩, fun _ => id, rfl, rfl⟩
    omega
  | queue _ _ hq _ => exact absurd hq id
  | enqueue _ _ =>
    refine ⟨Or.inr ⟨0, by simp, fun _ => List.mem_cons_self⟩, ?_, rfl, rfl⟩
    exact fun b hb => List.mem_cons_of_mem a hb
  | remove _ _ _ hr =>
    cases hr with
    | drop _ _ _ _ => exact ⟨Or.inl (by simp), fun _ => id, rfl, rfl⟩
    | wait _ _ htr => exact absurd (ht.symm.trans htr) Bool.false_ne_true

namespace ReclaimPhase

variable (h₀ : IdleHeap m₀)

theorem quiet (h : ReclaimPhase m₀ s claims pending) (ho : s.heap a = some o) :
    o.waitingRemove = false ∧ o.tracing = false :=
  h.ledger.not_waiting (not_inTrace_of_reclaiming h.reclaiming) ho

include h₀ in
theorem mem_outRefs (h : ReclaimPhase m₀ s claims pending) (ho : s.heap a = some o)
    (hcr : o.childrenReleased = false) : b ∈ s.outRefs a ↔ Refers m₀ a b := by
  obtain ⟨o₀, refcount, mark, released, ho₀, rfl⟩ := h.cells a o ho
  rw [outRefs_of_heap ho, countedRefs_of_intact (h.quiet ho).1 hcr, Refers, h₀.outRefs ho₀]
  rfl

include h₀ in
/-- A reachable object has a count in every state that counts the references of `s`. -/
theorem counted (h : ReclaimPhase m₀ s claims pending) (hl : Ledger s' claims' s.outRefs)
    (howners : ∀ a ∈ m₀.owners, a ∈ claims') (hn : s'.next = s.next)
    (hreach : OwnedReach m₀ m₀.owners a) : Counted s' a := by
  rcases hreach.cases_last with ha | ⟨x, hx, hxa⟩
  · exact hl.exists_of_claim (howners a ha)
  · obtain ⟨o, ho, hcr, -⟩ := h.kept x hx
    refine hl.exists_of_edge ?_ ((h.mem_outRefs h₀ ho hcr).mpr hxa)
    rw [hn]
    exact h.ledger.lt_next ho

include h₀ in
theorem not_reach_of_zero (h : ReclaimPhase m₀ s claims pending) (ho : s.heap a = some o)
    (hz : o.refcount = 0) : ¬ OwnedReach m₀ m₀.owners a := by
  intro hreach
  obtain ⟨o', ho', hpos⟩ := h.counted h₀ h.ledger h.owners rfl hreach
  obtain rfl := Option.some.inj (ho.symm.trans ho')
  omega

include h₀ in
theorem giveUp (h : ReclaimPhase m₀ s (a :: claims) pending)
    (howners : ∀ a ∈ m₀.owners, a ∈ claims) (ho : s.heap a = some o)
    (hg : GiveUp .cycles s a o s') : ReclaimPhase m₀ s' claims pending := by
  have hl := h.ledger.giveUp ho (fun _ => h.reclaiming) hg
  have hout := h.ledger.outRefs_giveUp ho hg
  have hframe := hg.frame ho
  obtain ⟨hself, hlost, hwait, hwork⟩ := giveUp_self hg (h.quiet ho).2
  have hcases : ∀ b o', s'.heap b = some o' → ∃ o₁ n, s.heap b = some o₁ ∧
      o' = { o₁ with refcount := n } ∧ (n = 0 → b ∈ pending ++ s'.lostCycleWorklist) := by
    intro b o' ho'
    by_cases hb : b = a
    · subst hb
      rcases hself with hnone | ⟨n, hn, hzero⟩
      · simp [hnone] at ho'
      · obtain rfl := Option.some.inj (hn.symm.trans ho')
        exact ⟨o, n, ho, rfl, fun hz => List.mem_append_right _ (hzero hz)⟩
    · have hb' := (hg.heap_of_ne hb).symm.trans ho'
      refine ⟨o', o'.refcount, hb', rfl, fun hz => ?_⟩
      rcases List.mem_append.mp (h.zero b o' hb' hz) with hp | hl
      · exact List.mem_append_left _ hp
      · exact List.mem_append_right _ (hlost b hl)
  exact
    { ledger := by rw [hout]; exact hl
      owners := howners
      reclaiming := hframe.state.trans h.reclaiming
      releasing := ⟨hwait.trans h.releasing.1, hwork.trans h.releasing.2⟩
      next := hframe.next.trans h.next
      cells := by
        intro b o' ho'
        obtain ⟨o₁, n, ho₁, rfl, -⟩ := hcases b o' ho'
        obtain ⟨o₀, _, mark, released, ho₀, rfl⟩ := h.cells b o₁ ho₁
        exact ⟨o₀, n, mark, released, ho₀, rfl⟩
      marked := by
        rintro b ⟨o', ho', hmark⟩
        obtain ⟨o₁, n, ho₁, rfl, -⟩ := hcases b o' ho'
        exact h.marked b ⟨o₁, ho₁, hmark.trans hframe.bit⟩
      kept := by
        intro b hb
        obtain ⟨o', ho', -⟩ := h.counted h₀ hl howners hframe.next hb
        obtain ⟨o₁, n, ho₁, rfl, -⟩ := hcases b o' ho'
        obtain ⟨o₂, ho₂, hcr, hmark⟩ := h.kept b hb
        obtain rfl := Option.some.inj (ho₁.symm.trans ho₂)
        exact ⟨_, ho', hcr, hmark.trans hframe.bit.symm⟩
      zero := by
        intro b o' ho' hz
        obtain ⟨o₁, n, ho₁, rfl, hzero⟩ := hcases b o' ho'
        exact hzero hz }

include h₀ in
theorem giveUpAll (h : ReclaimPhase m₀ s (cs ++ m₀.owners) pending) (hg : GiveUpAll .cycles s cs s') :
    ReclaimPhase m₀ s' m₀.owners pending := by
  refine hg.invariant (P := fun cs u => ReclaimPhase m₀ u (cs ++ m₀.owners) pending) h ?_
  rintro u c cs o v hu hc hstep
  exact hu.giveUp h₀ (fun a ha => List.mem_append_right cs ha) hc hstep

/-- The object whose references are given up is not reachable. -/
theorem markReleased (h : ReclaimPhase m₀ s m₀.owners pending) (ho : s.heap a = some o)
    (hcr : o.childrenReleased = false) (hnot : ¬ OwnedReach m₀ m₀.owners a) (n : Int) :
    ReclaimPhase m₀ ((s.setObj a { o with childrenReleased := true }).chargeChecking n)
      (o.ownRefs ++ m₀.owners) pending := by
  have hl := h.ledger.markReleased h.reclaiming ho hcr n
  have hout : ((s.setObj a { o with childrenReleased := true }).chargeChecking n).outRefs =
      Function.update s.outRefs a [] := by
    refine (outRefs_setObj (o := { o with childrenReleased := true })).trans ?_
    simp [GCObject.countedRefs]
  have hcases : ∀ b o', ((s.setObj a { o with childrenReleased := true }).chargeChecking
      n).heap b = some o' → ∃ o₁ released, s.heap b = some o₁ ∧
        o' = { o₁ with childrenReleased := released } := by
    intro b o' ho'
    rcases heap_cases (s := s) rfl ho' with ⟨rfl, rfl⟩ | ⟨-, hb⟩
    · exact ⟨o, true, ho, rfl⟩
    · exact ⟨o', o'.childrenReleased, hb, rfl⟩
  exact
    { ledger := by rw [hout]; exact hl
      owners := fun b hb => List.mem_append_right _ hb
      reclaiming := h.reclaiming
      releasing := h.releasing
      next := h.next
      cells := by
        intro b o' ho'
        obtain ⟨o₁, released, ho₁, rfl⟩ := hcases b o' ho'
        obtain ⟨o₀, refcount, mark, _, ho₀, rfl⟩ := h.cells b o₁ ho₁
        exact ⟨o₀, refcount, mark, released, ho₀, rfl⟩
      marked := by
        rintro b ⟨o', ho', hmark⟩
        obtain ⟨o₁, released, ho₁, rfl⟩ := hcases b o' ho'
        exact h.marked b ⟨o₁, ho₁, hmark⟩
      kept := by
        intro b hb
        obtain ⟨o', ho', hkept⟩ := h.kept b hb
        have hba : b ≠ a := by
          rintro rfl
          exact hnot hb
        exact ⟨o', by simp [hba, ho'], hkept⟩
      zero := by
        intro b o' ho' hz
        obtain ⟨o₁, released, ho₁, rfl⟩ := hcases b o' ho'
        exact h.zero b o₁ ho₁ hz }

include h₀ in
theorem releaseOnce (h : ReclaimPhase m₀ s m₀.owners pending)
    (hnot : ¬ OwnedReach m₀ m₀.owners a) (hr : releaseChildrenOnce s a = .ok s') :
    ReclaimPhase m₀ s' m₀.owners pending := by
  obtain ⟨o, ho, ⟨-, rfl⟩ | ⟨hcr, n, hg⟩⟩ := releaseChildrenOnce_effect hr
  · exact h
  · exact (h.markReleased ho hcr hnot n).giveUpAll h₀ hg

/-- The popped object is freed. -/
theorem removed (h : ReclaimPhase m₀ s m₀.owners [a]) (ho : s.heap a = some o)
    (hz : o.refcount = 0) (hcr : o.childrenReleased = true)
    (hnot : ¬ OwnedReach m₀ m₀.owners a) (hr : Removed s a o s') :
    ReclaimPhase m₀ s' m₀.owners [] ∧ s'.heap a = none := by
  have htr := (h.quiet ho).2
  have hl := h.ledger.removed ho hz (fun hflag => absurd (htr.symm.trans hflag) (by simp)) hr
  have hout : s'.outRefs = s.outRefs :=
    hr.outRefs.trans (update_outRefs_of_eq ho (by simp [GCObject.countedRefs, hcr]))
  cases hr with
  | wait _ _ hflag => exact absurd (htr.symm.trans hflag) (by simp)
  | drop candidates index g _ =>
    have hcases : ∀ b o', (((s.setRegistry candidates index).setGauges g).dropObj a).heap b =
        some o' → b ≠ a ∧ s.heap b = some o' :=
      fun b o' ho' => heap_drop_cases (s := s) rfl ho'
    refine ⟨?_, by simp⟩
    exact
      { ledger := by rw [hout]; exact hl
        owners := h.owners
        reclaiming := h.reclaiming
        releasing := h.releasing
        next := h.next
        cells := fun b o' ho' => h.cells b o' (hcases b o' ho').2
        marked := by
          rintro b ⟨o', ho', hmark⟩
          exact h.marked b ⟨o', (hcases b o' ho').2, hmark⟩
        kept := by
          intro b hb
          obtain ⟨o', ho', hkept⟩ := h.kept b hb
          have hba : b ≠ a := by
            rintro rfl
            exact hnot hb
          exact ⟨o', by simp [hba, ho'], hkept⟩
        zero := by
          intro b o' ho' hz'
          obtain ⟨hba, hb⟩ := hcases b o' ho'
          simpa [hba] using h.zero b o' hb hz' }

end ReclaimPhase

theorem checkIndex_removed (h : Removed s a o s') :
    s'.currentCandidateCheckIndex = s.currentCandidateCheckIndex := by
  cases h <;> rfl

theorem checkIndex_releaseOnce (h : releaseChildrenOnce s a = .ok s') :
    s'.currentCandidateCheckIndex = s.currentCandidateCheckIndex := by
  obtain ⟨o, -, ⟨-, rfl⟩ | ⟨-, n, hg⟩⟩ := releaseChildrenOnce_effect h
  · rfl
  · refine hg.invariant
      (P := fun _ u => u.currentCandidateCheckIndex = s.currentCandidateCheckIndex) rfl ?_
    rintro u c cs oc v hu - hstep
    cases hstep with
    | remove _ _ _ hr => exact (checkIndex_removed hr).trans hu
    | _ => exact hu

theorem released_of_releaseOnce (h : releaseChildrenOnce s a = .ok s') (ho' : s'.heap b = some o') :
    ∃ o, s.heap b = some o ∧ (o.childrenReleased = true → o'.childrenReleased = true) := by
  obtain ⟨o, ho, -, -, -, hcr, -⟩ := releaseChildrenOnce_obj h ho'
  refine ⟨o, ho, fun hreleased => ?_⟩
  by_cases hb : b = a
  · subst hb
    exact releaseChildrenOnce_released h ho'
  · exact (hcr hb).trans hreleased

/-- A scanned candidate that is left unmarked has counts of other objects, or was released. -/
def ScansOthers (s : SyliState) : Prop :=
  ∀ a ∈ nextCandidate s, ∀ o ∈ s.heap a, o.mark ≠ s.tracingCurrentBitMark →
    o.childrenReleased = false → o.ownRefs.count a < o.refcount

instance (s : SyliState) : Decidable (ScansOthers s) :=
  inferInstanceAs (Decidable (∀ a ∈ nextCandidate s, ∀ o ∈ s.heap a,
    o.mark ≠ s.tracingCurrentBitMark → o.childrenReleased = false →
      o.ownRefs.count a < o.refcount))

/-- The invariant of the reclaiming: the candidates from the index on are reachable or released. -/
structure Reclaiming (m₀ : Owned) (s : SyliState) : Prop where
  phase : ReclaimPhase m₀ s m₀.owners []
  separate : Separate s
  registered : Registered s
  freed : Freed s
  scanned : ∀ i a, s.cyclicCandidates[i]? = some a → s.currentCandidateCheckIndex ≤ i →
    OwnedReach m₀ m₀.owners a ∨ ∃ o, s.heap a = some o ∧ o.childrenReleased = true

namespace Reclaiming

variable (h₀ : IdleHeap m₀)

theorem counted (h : Reclaiming m₀ s) (hlost : s.lostCycleWorklist = []) (ho : s.heap a = some o) :
    0 < o.refcount := by
  apply Nat.pos_of_ne_zero
  intro hz
  simpa [hlost] using h.phase.zero a o ho hz

theorem scansCounted (h : Reclaiming m₀ s) (hok : ScansOthers s) :
    ∀ a ∈ nextCandidate s, ∀ o ∈ s.heap a, o.mark ≠ s.tracingCurrentBitMark →
      0 < o.refcount ∧ (o.childrenReleased = false → o.ownRefs.count a < o.refcount) := by
  intro a ha o ho hmark
  have hlost : s.lostCycleWorklist = [] := by
    unfold nextCandidate at ha
    split at ha
    · rename_i hc
      exact hc.2.2
    · simp at ha
  exact ⟨h.counted hlost ho, hok a ha o ho hmark⟩

/-- What was scanned and is still registered was found reachable, or is released. -/
theorem scanned_kept (h : Reclaiming m₀ s) (hreg : Registered s')
    (hobj : ∀ {b o'}, s'.heap b = some o' →
      ∃ o, s.heap b = some o ∧ (o.childrenReleased = true → o'.childrenReleased = true))
    {i j : Nat} (ha : s'.cyclicCandidates[i]? = some a)
    (hj : s.cyclicCandidates[j]? = some a) (hle : s.currentCandidateCheckIndex ≤ j) :
    OwnedReach m₀ m₀.owners a ∨ ∃ o, s'.heap a = some o ∧ o.childrenReleased = true := by
  rcases h.scanned j a hj hle with hreach | ⟨o, ho, hcr⟩
  · exact Or.inl hreach
  · obtain ⟨-, o', ho', -⟩ := hreg.entry i a ha
    obtain ⟨o₁, ho₁, hkeep⟩ := hobj ho'
    obtain rfl := Option.some.inj (ho.symm.trans ho₁)
    exact Or.inr ⟨o', ho', hkeep hcr⟩

include h₀ in
theorem reclaimFree (h : Reclaiming m₀ s) {l : List Addr} {b : Budgets}
    (hlost : s.lostCycleWorklist = a :: l)
    (hu : releaseChildrenOnce ((s.setBudgets b).setLostCycleWorklist l) a = .ok u)
    (hf : freeReleasedObject u a = .ok s') :
    ReclaimPhase m₀ s' m₀.owners [] ∧
      s'.currentCandidateCheckIndex = s.currentCandidateCheckIndex ∧
        ∀ {b o'}, s'.heap b = some o' →
          ∃ o, s.heap b = some o ∧ (o.childrenReleased = true → o'.childrenReleased = true) := by
  obtain ⟨o, ho, hz, -⟩ := h.separate.alive a (by simp [releaseQueues, hlost])
  have hnot := h.phase.not_reach_of_zero h₀ ho hz
  have hpop := h.phase.ledger.popLost (l := l) fun c hc => hlost ▸ List.mem_cons_of_mem a hc
  have hbase : ReclaimPhase m₀ ((s.setBudgets b).setLostCycleWorklist l) m₀.owners [a] :=
    { h.phase with
      ledger := { hpop with }
      zero := by
        intro c oc hoc hzc
        have hmem := h.phase.zero c oc hoc hzc
        rw [hlost] at hmem
        exact hmem }
  have hphase := hbase.releaseOnce h₀ hnot hu
  obtain ⟨o₁, ho₁, -, hself⟩ := releaseChildrenOnce_frame hu
  obtain rfl := Option.some.inj (ho.symm.trans ho₁)
  obtain ⟨o₂, ho₂, hr⟩ := freeReleasedObject_effect hf
  obtain rfl := Option.some.inj ((hself hz).symm.trans ho₂)
  obtain ⟨hphase', hnone⟩ := hphase.removed ho₂ hz rfl hnot hr
  have hindex := checkIndex_releaseOnce hu
  refine ⟨hphase', (checkIndex_removed hr).trans hindex, ?_⟩
  intro c oc hoc
  have hca : c ≠ a := by
    rintro rfl
    simp [hnone] at hoc
  rw [hr.heap_of_ne hca] at hoc
  obtain ⟨o₃, ho₃, hkeep⟩ := released_of_releaseOnce hu hoc
  exact ⟨o₃, ho₃, hkeep⟩

include h₀ in
/-- An iteration of the reclaiming keeps the invariant, or ends the collection. -/
theorem step (h : Reclaiming m₀ s) (hb : 0 < s.budgets.tracing) (hok : ScansOthers s)
    (hs : ReclaimStep s s') (hreg : Registered s') (hd : Descends s s') :
    Reclaiming m₀ s' ∨ s.lostCycleWorklist = [] ∧ s.currentCandidateCheckIndex = 0 ∧
      ∃ b, s' = (s.setBudgets b).setTracingState .idle := by
  have hseparate := h.separate.reclaimStep h.phase.ledger hb (h.scansCounted hok) hs
  have hfreed := h.freed.reclaimStep hs
  cases hs with
  | @reclaimFree u _ a rest b hst hlost hu hf =>
    obtain ⟨hphase, hindex, hobj⟩ := h.reclaimFree h₀ hlost hu hf
    refine Or.inl ⟨hphase, hseparate, hreg, hfreed, ?_⟩
    intro i c hc hle
    obtain ⟨j, hij, hj⟩ := hd i c hc
    rw [hindex] at hle
    exact h.scanned_kept hreg hobj hc hj (Nat.le_trans hle hij)
  | reclaimDone b _ hlost hzero => exact Or.inr ⟨hlost, hzero, b, rfl⟩
  | scanIdle b hst hlost hzero =>
    refine Or.inl ⟨{ h.phase with ledger := { h.phase.ledger with } }, hseparate, hreg, hfreed, ?_⟩
    intro i c hc _
    rcases hzero with hz | hnil
    · exact h.scanned i c hc (by omega)
    · have hsome : s.cyclicCandidates[i]? = some c := hc
      simp [hnil] at hsome
  | @scanMarked a o i b hst hlost hmin ha ho hmark =>
    refine Or.inl ⟨{ h.phase with ledger := { h.phase.ledger with } }, hseparate, hreg, hfreed, ?_⟩
    intro j c hc hle
    by_cases hji : j = i
    · subst hji
      obtain rfl := Option.some.inj (ha.symm.trans hc)
      exact Or.inl (h.phase.marked _ ⟨o, ho, hmark⟩)
    · have hlt : j < s.cyclicCandidates.length := (List.getElem?_eq_some_iff.mp hc).1
      have hij : i ≤ j := hle
      exact h.scanned j c hc (by omega)
  | @scanRelease u _ a o o' i b hst hlost hmin ha ho hmark hu ho' hs' =>
    have hnot : ¬ OwnedReach m₀ m₀.owners a := by
      intro hreach
      obtain ⟨o₁, ho₁, -, hm⟩ := h.phase.kept a hreach
      obtain rfl := Option.some.inj (ho.symm.trans ho₁)
      exact hmark hm
    have hnext := Separate.nextCandidate_eq hst hb hlost hmin ha
    obtain ⟨hpos, hself⟩ := h.scansCounted hok a hnext o ho hmark
    have hcount := Separate.count_of_scan hu ho hpos hself ho'
    obtain rfl : s' = u := by
      rcases hs' with ⟨hz, -⟩ | ⟨-, rfl⟩
      · omega
      · rfl
    have hbase : ReclaimPhase m₀ ((s.setBudgets b).setCheckIndex i) m₀.owners [] :=
      { h.phase with ledger := { h.phase.ledger with } }
    refine Or.inl ⟨hbase.releaseOnce h₀ hnot hu, hseparate, hreg, hfreed, ?_⟩
    intro j c hc hle
    rw [checkIndex_releaseOnce hu] at hle
    obtain ⟨k, hjk, hk⟩ := hd j c hc
    have hik : i ≤ k := Nat.le_trans hle hjk
    by_cases hki : k = i
    · subst hki
      obtain rfl := Option.some.inj (ha.symm.trans hk)
      exact Or.inr ⟨o', ho', releaseChildrenOnce_released hu ho'⟩
    · have hlt : k < s.cyclicCandidates.length := (List.getElem?_eq_some_iff.mp hk).1
      refine h.scanned_kept hreg (fun hb => ?_) hc hk (by omega)
      obtain ⟨ob, hob, hkeep⟩ := released_of_releaseOnce hu hb
      exact ⟨ob, hob, hkeep⟩

include h₀ in
/-- Once every candidate was scanned and nothing waits, an unreachable object would lie on or
behind a cycle without a candidate. -/
theorem allocated_reach (h : Reclaiming m₀ s) (hlost : s.lostCycleWorklist = [])
    (hindex : s.currentCandidateCheckIndex = 0) (ho : s.heap a = some o) :
    OwnedReach m₀ m₀.owners a := by
  by_contra hnot
  have hfin : {a | (∃ o, s.heap a = some o) ∧ ¬ OwnedReach m₀ m₀.owners a}.Finite := by
    refine (Set.finite_lt_nat s.next).subset ?_
    rintro b ⟨⟨ob, hob⟩, -⟩
    exact h.phase.ledger.lt_next hob
  obtain ⟨b, -, hb⟩ := exists_cycle_of_predecessors
    (fun x y => Refers m₀ x y ∧ x ∉ m₀.rt.cyclicCandidates) hfin ⟨a, ⟨o, ho⟩, hnot⟩ (by
      rintro b ⟨⟨ob, hob⟩, hnb⟩
      have hpos : 0 < s.refcountOf b := by
        rw [refcountOf_of_heap hob]
        exact h.counted hlost hob
      rcases h.phase.ledger.balanced.owner_of_count_pos hpos with hc | ⟨x, -, hx⟩
      · exact absurd (Reach.root hc) hnb
      · obtain ⟨ox, hox⟩ : ∃ ox, s.heap x = some ox := by
          by_contra hno
          rw [outRefs_of_none (Option.eq_none_iff_forall_ne_some.mpr fun ox hox =>
            hno ⟨ox, hox⟩)] at hx
          simp at hx
        have hcr : ox.childrenReleased = false := by
          by_contra hcr
          rw [outRefs_of_heap hox, GCObject.countedRefs, if_pos (by simp [hcr])] at hx
          simp at hx
        have hedge := (h.phase.mem_outRefs h₀ hox hcr).mp hx
        have hnx : ¬ OwnedReach m₀ m₀.owners x := fun hreach => hnb (hreach.step hedge)
        refine ⟨x, ⟨⟨ox, hox⟩, hnx⟩, hedge, ?_⟩
        -- a registered candidate would have been scanned, and would be released
        intro hmem
        obtain ⟨o₀, ho₀, hflag, -⟩ := h₀.registered.flagged hmem
        obtain ⟨o₁, refcount, mark, released, ho₁, rfl⟩ := h.phase.cells x ox hox
        obtain rfl := Option.some.inj (ho₀.symm.trans ho₁)
        obtain ⟨i, hi⟩ := List.mem_iff_getElem?.mp (h.registered.listed x _ hox hflag)
        rcases h.scanned i x hi (by omega) with hreach | ⟨ox', hox', hcr'⟩
        · exact hnx hreach
        · obtain rfl := Option.some.inj (hox.symm.trans hox')
          exact absurd (hcr.symm.trans hcr') Bool.false_ne_true)
  exact h₀.cycles b (Relation.TransGen.mono (fun _ _ h => h.2.2) b b hb)

end Reclaiming

/-- What a full collection leaves: what the owners of the heap `m₀` do not reach was freed once,
the rest is unfreed, keeps its references and has as many counts as owners, and the registry holds
the candidates that are left. -/
structure Collected (m₀ : Owned) (s : SyliState) : Prop where
  freed : ∀ a o, m₀.rt.heap a = some o → (a ∈ s.freed ↔ ¬ OwnedReach m₀ m₀.owners a)
  freed_nodup : s.freed.Nodup
  survivor : ∀ a, OwnedReach m₀ m₀.owners a → ∃ o ∈ s.heap a, o.childrenReleased = false ∧
    o.refcount = m₀.owners.count a + inDegree (Finset.range s.next) s.outRefs a
  nothing_new : ∀ a, m₀.rt.heap a = none → s.heap a = none
  candidates_nodup : s.cyclicCandidates.Nodup
  candidates : ∀ a, a ∈ s.cyclicCandidates ↔
    a ∈ m₀.rt.cyclicCandidates ∧ OwnedReach m₀ m₀.owners a

theorem Registered.nodup (h : Registered s) : s.cyclicCandidates.Nodup := by
  rw [List.nodup_iff_getElem?_ne_getElem?]
  intro i j hij hj heq
  obtain ⟨a, ha⟩ : ∃ a, s.cyclicCandidates[j]? = some a := ⟨_, List.getElem?_eq_getElem hj⟩
  have hi := (h.entry i a (heq.trans ha)).1
  have hj := (h.entry j a ha).1
  omega

namespace Reclaiming

variable (h₀ : IdleHeap m₀)

include h₀ in
theorem collected (h : Reclaiming m₀ s) (hlost : s.lostCycleWorklist = [])
    (hindex : s.currentCandidateCheckIndex = 0) : Collected m₀ s where
  freed a o ho := by
    obtain ⟨hpos, hlt⟩ := h₀.freed.live a o ho
    rw [h.freed.freed a, h.phase.next]
    constructor
    · rintro ⟨-, -, hnone⟩ hreach
      obtain ⟨o', ho', -⟩ := h.phase.kept a hreach
      simp [hnone] at ho'
    · intro hnot
      refine ⟨hpos, hlt, Option.eq_none_iff_forall_ne_some.mpr fun o' ho' => ?_⟩
      exact hnot (h.allocated_reach h₀ hlost hindex ho')
  freed_nodup := h.freed.freed_nodup
  survivor a hreach := by
    obtain ⟨o, ho, hcr, -⟩ := h.phase.kept a hreach
    have hcount := h.phase.ledger.balanced a
    rw [refcountOf_of_heap ho] at hcount
    exact ⟨o, ho, hcr, hcount⟩
  nothing_new a hnone := by
    refine Option.eq_none_iff_forall_ne_some.mpr fun o ho => ?_
    obtain ⟨o₀, _, _, _, ho₀, -⟩ := h.phase.cells a o ho
    simp [hnone] at ho₀
  candidates_nodup := h.registered.nodup
  candidates a := by
    constructor
    · intro ha
      obtain ⟨o, ho, hflag, -⟩ := h.registered.flagged ha
      obtain ⟨o₀, refcount, mark, released, ho₀, rfl⟩ := h.phase.cells a o ho
      exact ⟨h₀.registered.listed a o₀ ho₀ hflag, h.allocated_reach h₀ hlost hindex ho⟩
    · rintro ⟨ha, hreach⟩
      obtain ⟨o₀, ho₀, hflag, -⟩ := h₀.registered.flagged ha
      obtain ⟨o, ho, -⟩ := h.phase.kept a hreach
      obtain ⟨o₁, refcount, mark, released, ho₁, rfl⟩ := h.phase.cells a o ho
      obtain rfl := Option.some.inj (ho₀.symm.trans ho₁)
      exact h.registered.listed a _ ho hflag

end Reclaiming

end Syli.Collector
