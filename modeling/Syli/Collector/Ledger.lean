import Syli.Foundation.Ledger
import Syli.Runtime.Frames

/-! Exact reference counts: every count is owed to a reference of the mutator or to a slot. -/
namespace Syli.Collector

open Foundation Syli.Runtime

variable {s s' u : SyliState} {claims claims' cs : List Addr} {out : Addr → List Addr}
variable {a b x : Addr} {o o' : GCObject} {p : Pipeline}

@[simp] theorem refcountOf_setObj :
    (s.setObj a o).refcountOf = Function.update s.refcountOf a o.refcount := by
  funext b
  by_cases hb : b = a
  · subst hb
    simp [SyliState.refcountOf]
  · simp [SyliState.refcountOf, hb]

@[simp] theorem refcountOf_dropObj :
    (s.dropObj a).refcountOf = Function.update s.refcountOf a 0 := by
  funext b
  by_cases hb : b = a
  · subst hb
    simp [SyliState.refcountOf]
  · simp [SyliState.refcountOf, hb]

@[simp] theorem refcountOf_queueTracing (new : List Addr) :
    (s.queueTracing new).refcountOf = s.refcountOf := by
  funext a
  by_cases ha : a ∈ new
  · cases ho : s.heap a <;> simp [SyliState.refcountOf, flagTracing_of_mem ha, ho]
  · simp [SyliState.refcountOf, flagTracing_of_not_mem ha]

/-- Unfreed, with a count. -/
def Counted (s : SyliState) (a : Addr) : Prop := ∃ o, s.heap a = some o ∧ 0 < o.refcount

/-- The counts are those of the `claims` held outside the heap and of the references `out` that
the objects still count; what waits to be released or removed has no counts. -/
structure Ledger (s : SyliState) (claims : List Addr) (out : Addr → List Addr) : Prop where
  balanced : Balanced (Finset.range s.next) s.refcountOf claims out
  fresh : ∀ a, s.next ≤ a → s.heap a = none
  wellFormed : ∀ a o, s.heap a = some o → o.header.WellFormed
  bounded : ∀ a ∈ s.releasingWaitlist ++ s.releasingWorklist ++ s.lostCycleWorklist, a < s.next
  releasing_nodup : (s.releasingWaitlist ++ s.releasingWorklist).Nodup
  releasing : ∀ a ∈ s.releasingWaitlist ++ s.releasingWorklist, ∀ o, s.heap a = some o →
    o.refcount = 0 ∧ o.waitingRemove = false
  lost : ∀ a ∈ s.lostCycleWorklist, ∀ o, s.heap a = some o → o.refcount = 0
  waiting : ∀ a o, s.heap a = some o → o.waitingRemove = true →
    o.tracing = true ∧ o.refcount = 0
  flagged : ∀ a o, s.heap a = some o → o.tracing = true → a ∈ s.tracingWorklist
  quiet : ¬ InTrace s.tracingState → s.tracingWorklist = [] ∧ s.tracingMutationsWorklist = []
  lost_nil : s.tracingState ≠ .reclaimingCyclicCandidates → s.lostCycleWorklist = []

namespace Ledger

theorem perm (h : Ledger s claims out) (hp : claims.Perm claims') : Ledger s claims' out :=
  { h with balanced := h.balanced.perm hp }

theorem lt_next (h : Ledger s claims out) (ho : s.heap a = some o) : a < s.next := by
  by_contra hge
  simp [h.fresh a (Nat.le_of_not_lt hge)] at ho

/-- What is claimed is alive, and counted. -/
theorem exists_of_claim (h : Ledger s claims out) (ha : a ∈ claims) : Counted s a := by
  have hpos := h.balanced.count_pos_of_claim ha
  obtain ⟨o, ho⟩ := exists_heap_of_refcountOf_pos hpos
  exact ⟨o, ho, by rwa [refcountOf_of_heap ho] at hpos⟩

theorem exists_of_edge (h : Ledger s claims out) (hx : x < s.next) (ha : a ∈ out x) :
    Counted s a := by
  have hpos := h.balanced.count_pos_of_edge (Finset.mem_range.mpr hx) ha
  obtain ⟨o, ho⟩ := exists_heap_of_refcountOf_pos hpos
  exact ⟨o, ho, by rwa [refcountOf_of_heap ho] at hpos⟩

theorem not_mem_releasing (h : Ledger s claims out) (ho : s.heap a = some o)
    (hpos : 0 < o.refcount) : a ∉ s.releasingWaitlist ++ s.releasingWorklist := by
  intro ha
  have := (h.releasing a ha o ho).1
  omega

/-- Replacing an object by one that meets what the lists and the flags require of it. -/
theorem update {w : GCObject} (h : Ledger s claims out) (ho : s.heap a = some o)
    (hheader : w.header = o.header)
    (hb : Balanced (Finset.range s.next) (Function.update s.refcountOf a w.refcount) claims' out)
    (hreleasing : a ∈ s.releasingWaitlist ++ s.releasingWorklist →
      w.refcount = 0 ∧ w.waitingRemove = false)
    (hlost : a ∈ s.lostCycleWorklist → w.refcount = 0)
    (hwaiting : w.waitingRemove = true → w.tracing = true ∧ w.refcount = 0)
    (hflagged : w.tracing = true → a ∈ s.tracingWorklist) :
    Ledger (s.setObj a w) claims' out := by
  have hcases : ∀ b ob, (s.setObj a w).heap b = some ob →
      b = a ∧ ob = w ∨ s.heap b = some ob := by
    intro b ob hob
    by_cases hba : b = a
    · subst hba
      exact Or.inl ⟨rfl, by simpa [eq_comm] using hob⟩
    · exact Or.inr (by simpa [hba] using hob)
  refine { h with
    balanced := by rwa [refcountOf_setObj]
    fresh := ?_
    wellFormed := ?_
    releasing := ?_
    lost := ?_
    waiting := ?_
    flagged := ?_ }
  · intro b hb
    have hba : b ≠ a := fun hba => absurd (h.lt_next ho) (by subst hba; exact Nat.not_lt.mpr hb)
    simpa [hba] using h.fresh b hb
  · intro b ob hob
    rcases hcases b ob hob with ⟨rfl, rfl⟩ | hob
    · exact hheader ▸ h.wellFormed b o ho
    · exact h.wellFormed b ob hob
  · intro b hb ob hob
    rcases hcases b ob hob with ⟨rfl, rfl⟩ | hob
    · exact hreleasing hb
    · exact h.releasing b hb ob hob
  · intro b hb ob hob
    rcases hcases b ob hob with ⟨rfl, rfl⟩ | hob
    · exact hlost hb
    · exact h.lost b hb ob hob
  · intro b ob hob hw
    rcases hcases b ob hob with ⟨rfl, rfl⟩ | hob
    · exact hwaiting hw
    · exact h.waiting b ob hob hw
  · intro b ob hob ht
    rcases hcases b ob hob with ⟨rfl, rfl⟩ | hob
    · exact hflagged ht
    · exact h.flagged b ob hob ht

/-- Replacing an object with counts by one with the same tracing flags. -/
theorem set {w : GCObject} (h : Ledger s claims out) (ho : s.heap a = some o) (hpos : 0 < o.refcount)
    (hheader : w.header = o.header) (htracing : w.tracing = o.tracing)
    (hwaiting : w.waitingRemove = o.waitingRemove)
    (hb : Balanced (Finset.range s.next) (Function.update s.refcountOf a w.refcount) claims' out) :
    Ledger (s.setObj a w) claims' out := by
  refine h.update ho hheader hb ?_ ?_ ?_ ?_
  · exact fun ha => absurd ha (h.not_mem_releasing ho hpos)
  · intro ha
    have := h.lost a ha o ho
    omega
  · intro hw
    have := (h.waiting a o ho (hwaiting.symm.trans hw)).2
    omega
  · exact fun ht => h.flagged a o ho (htracing.symm.trans ht)

/-- Replacing an object by one with the same count and the same tracing flags. -/
theorem restate {w : GCObject} (h : Ledger s claims out) (ho : s.heap a = some o)
    (hheader : w.header = o.header) (hcount : w.refcount = o.refcount)
    (htracing : w.tracing = o.tracing) (hwaiting : w.waitingRemove = o.waitingRemove) :
    Ledger (s.setObj a w) claims out := by
  refine h.update ho hheader ?_ ?_ ?_ ?_ ?_
  · rw [hcount, ← refcountOf_of_heap ho, Function.update_eq_self]
    exact h.balanced
  · rw [hcount, hwaiting]
    exact fun ha => h.releasing a ha o ho
  · rw [hcount]
    exact fun ha => h.lost a ha o ho
  · rw [hcount, htracing, hwaiting]
    exact h.waiting a o ho
  · rw [htracing]
    exact h.flagged a o ho

theorem drop (h : Ledger s claims out) (ho : s.heap a = some o)
    (hb : Balanced (Finset.range s.next) (Function.update s.refcountOf a 0) claims' out) :
    Ledger (s.dropObj a) claims' out := by
  have hold : ∀ b ob, (s.dropObj a).heap b = some ob → s.heap b = some ob := by
    intro b ob hob
    by_cases hba : b = a
    · subst hba
      simp at hob
    · simpa [hba] using hob
  refine { h with
    balanced := by rwa [refcountOf_dropObj]
    fresh := ?_
    wellFormed := fun b ob hob => h.wellFormed b ob (hold b ob hob)
    releasing := fun b hb ob hob => h.releasing b hb ob (hold b ob hob)
    lost := fun b hb ob hob => h.lost b hb ob (hold b ob hob)
    waiting := fun b ob hob => h.waiting b ob (hold b ob hob)
    flagged := fun b ob hob => h.flagged b ob (hold b ob hob) }
  intro b hb
  have hba : b ≠ a := fun hba => absurd (h.lt_next ho) (by subst hba; exact Nat.not_lt.mpr hb)
  simpa [hba] using h.fresh b hb

theorem removed (h : Ledger s claims out) (ho : s.heap a = some o) (hz : o.refcount = 0)
    (hnot : o.tracing = true → a ∉ s.releasingWaitlist ++ s.releasingWorklist)
    (hr : Removed s a o s') :
    Ledger s' claims out := by
  have hcount := h.balanced.update_of_zero ((refcountOf_of_heap ho).trans hz)
  cases hr with
  | drop candidates index g _ => exact { h.drop ho hcount with }
  | wait candidates index ht =>
    have hs := h.update (w := { o with cyclicCandidate := false, waitingRemove := true }) ho rfl
      (hz ▸ hcount) (fun ha => absurd ha (hnot ht)) (fun _ => hz) (fun _ => ⟨ht, hz⟩)
      (fun _ => h.flagged a o ho ht)
    exact { hs with }

theorem giveUp (h : Ledger s (a :: claims) out) (ho : s.heap a = some o)
    (hstate : p = .cycles → s.tracingState = .reclaimingCyclicCandidates)
    (hg : GiveUp p s a o s') : Ledger s' claims out := by
  have hb := h.balanced.giveUp
  rw [refcountOf_of_heap ho] at hb
  have hlt := h.lt_next ho
  cases hg with
  | keep hone =>
    exact h.set ho (by omega) rfl rfl rfl hb
  | queue mark hone _ _ =>
    rw [hone] at hb
    have hnot := h.not_mem_releasing ho (by omega)
    have hs := h.set (w := { o with refcount := 0, mark := mark }) ho (by omega) rfl rfl rfl hb
    have hwait : o.waitingRemove = false := by
      by_contra hw
      have := (h.waiting a o ho (by simpa using hw)).2
      omega
    refine { hs with
      bounded := ?_
      releasing_nodup := ?_
      releasing := ?_ }
    · intro b hb
      simp only [SyliState.setReleasing_releasingWaitlist, SyliState.setReleasing_releasingWorklist,
        List.cons_append, List.mem_cons] at hb
      rcases hb with rfl | hb
      · exact hlt
      · exact h.bounded b hb
    · exact List.nodup_cons.mpr ⟨hnot, h.releasing_nodup⟩
    · intro b hb ob hob
      rcases List.mem_cons.mp hb with rfl | hb
      · obtain rfl : { o with refcount := 0, mark := mark } = ob := by simpa using hob
        exact ⟨rfl, hwait⟩
      · exact hs.releasing b hb ob hob
  | enqueue hone _ =>
    rw [hone] at hb
    have hs := h.set (w := { o with refcount := 0 }) ho (by omega) rfl rfl rfl hb
    refine { hs with
      bounded := ?_
      lost := ?_
      lost_nil := fun hne => absurd (hstate rfl) hne }
    · intro b hb
      simp only [SyliState.setLostCycleWorklist_lostCycleWorklist, List.mem_append,
        List.mem_cons] at hb
      rcases hb with hb | rfl | hb
      · exact h.bounded b (List.mem_append_left _ (List.mem_append.mpr hb))
      · exact hlt
      · exact h.bounded b (List.mem_append_right _ hb)
    · intro b hb ob hob
      rcases List.mem_cons.mp hb with rfl | hb
      · obtain rfl : { o with refcount := 0 } = ob := by simpa using hob
        rfl
      · exact hs.lost b hb ob hob
  | freeImm hone _ =>
    rw [hone] at hb
    exact h.drop ho hb
  | remove _ hone _ hr =>
    rw [hone] at hb
    have hnot := h.not_mem_releasing ho (by omega)
    have hs := h.set (w := { o with refcount := 0 }) ho (by omega) rfl rfl rfl hb
    exact hs.removed (by simp) rfl (fun _ => hnot) hr

theorem outRefs_giveUp (h : Ledger s claims out) (ho : s.heap a = some o)
    (hg : GiveUp p s a o s') : s'.outRefs = s.outRefs :=
  hg.outRefs ho (h.wellFormed a o ho)

theorem giveUpAll (h : Ledger s (cs ++ claims) out)
    (hstate : p = .cycles → s.tracingState = .reclaimingCyclicCandidates)
    (hg : GiveUpAll p s cs s') : Ledger s' claims out ∧ s'.outRefs = s.outRefs := by
  induction hg with
  | nil => exact ⟨h, rfl⟩
  | cons hc hu _ ih =>
    obtain ⟨hl, ho⟩ := ih (h.giveUp hc hstate hu) fun hp => (hu.frame hc).state.trans (hstate hp)
    exact ⟨hl, ho.trans (h.outRefs_giveUp hc hu)⟩

theorem gain (h : Ledger s claims out) (ho : s.heap a = some o) (hpos : 0 < o.refcount) :
    Ledger (s.setObj a { o with refcount := o.refcount + 1 }) (a :: claims) out := by
  have hb := h.balanced.gain a
  rw [refcountOf_of_heap ho] at hb
  exact h.set ho hpos rfl rfl rfl hb

end Ledger

end Syli.Collector
