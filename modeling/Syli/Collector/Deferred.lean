import Syli.Collector.Exact
import Syli.Collector.Freed

/-! The deferred free: an object stays allocated as long as a worklist of the tracer holds it. -/
namespace Syli.Collector

open Foundation Syli.Runtime

variable {s s' u : SyliState} {m m' : Machine} {a b c x y : Addr} {o o' : GCObject} {act : Action}
variable {p : Pipeline} {cs rest new : List Addr} {env : Env} {globals : Nat}

/-- The tracing worklist holds exactly the flagged objects, once each; the mutations worklist holds
allocated objects that do not wait for their removal. -/
structure Deferred (s : SyliState) : Prop where
  worklist_nodup : s.tracingWorklist.Nodup
  flagged : ∀ a, a ∈ s.tracingWorklist ↔ ∃ o, s.heap a = some o ∧ o.tracing = true
  mutations : ∀ p ∈ s.tracingMutationsWorklist, ∃ a o, p = ObjPtr.own a ∧ s.heap a = some o ∧
    o.waitingRemove = false
  waiting : ∀ a o, s.heap a = some o → o.waitingRemove = true → o.tracing = true
  quiet : ¬ InTrace s.tracingState → s.tracingWorklist = [] ∧ s.tracingMutationsWorklist = []

namespace Deferred

/-- An object that waits for its removal is not in the mutations worklist. -/
theorem not_mem_mutations (h : Deferred s) (ho : s.heap a = some o)
    (hw : o.waitingRemove = true) : ObjPtr.own a ∉ s.tracingMutationsWorklist := by
  intro hmem
  obtain ⟨b, ob, hb, hob, hno⟩ := h.mutations _ hmem
  obtain rfl : a = b := by simpa using hb
  obtain rfl := Option.some.inj (ho.symm.trans hob)
  simp [hw] at hno

/-- A change to an object that keeps its flag. -/
theorem update {w : GCObject} (h : Deferred s) (ho : s.heap a = some o)
    (ht : w.tracing = o.tracing) (hw : w.waitingRemove = true → o.tracing = true)
    (hm : w.waitingRemove = true → ObjPtr.own a ∉ s.tracingMutationsWorklist) :
    Deferred (s.setObj a w) := by
  refine { h with
    flagged := ?_
    mutations := ?_
    waiting := ?_ }
  · intro b
    rw [SyliState.setObj_tracingWorklist, h.flagged b]
    by_cases hb : b = a
    · subst hb
      simp [ho, ht]
    · simp [hb]
  · intro q hq
    obtain ⟨b, ob, rfl, hob, hno⟩ := h.mutations q hq
    by_cases hb : b = a
    · subst hb
      refine ⟨b, w, rfl, by simp, ?_⟩
      by_contra hwait
      exact hm (by simpa using hwait) hq
    · exact ⟨b, ob, rfl, by simp [hb, hob], hno⟩
  · intro b ob hob hwait
    rcases heap_cases rfl hob with ⟨rfl, rfl⟩ | ⟨-, hb⟩
    · exact ht.trans (hw hwait)
    · exact h.waiting b ob hb hwait

theorem set {w : GCObject} (h : Deferred s) (ho : s.heap a = some o) (ht : w.tracing = o.tracing)
    (hw : w.waitingRemove = o.waitingRemove) : Deferred (s.setObj a w) := by
  apply h.update ho ht
  · intro hwait
    exact h.waiting a o ho (hw.symm.trans hwait)
  · intro hwait
    exact h.not_mem_mutations ho (hw.symm.trans hwait)

/-- An object that neither worklist holds can be freed. -/
theorem drop (h : Deferred s) (ho : s.heap a = some o) (ht : o.tracing = false)
    (hm : ObjPtr.own a ∉ s.tracingMutationsWorklist) : Deferred (s.dropObj a) := by
  refine { h with
    flagged := ?_
    mutations := ?_
    waiting := ?_ }
  · intro b
    rw [SyliState.dropObj_tracingWorklist, h.flagged b]
    by_cases hb : b = a
    · subst hb
      simp [ho, ht]
    · simp [hb]
  · intro q hq
    obtain ⟨b, ob, rfl, hob, hno⟩ := h.mutations q hq
    have hb : b ≠ a := by
      rintro rfl
      exact hm hq
    exact ⟨b, ob, rfl, by simp [hb, hob], hno⟩
  · intro b ob hob
    exact h.waiting b ob (heap_drop_cases rfl hob).2

theorem removed (h : Deferred s) (ho : s.heap a = some o)
    (hm : ObjPtr.own a ∉ s.tracingMutationsWorklist) (hr : Removed s a o s') : Deferred s' := by
  cases hr with
  | drop candidates index g ht => exact { h.drop ho ht hm with }
  | wait candidates index ht =>
    exact { h.update ho rfl (fun _ => ht) (fun _ => hm)
      (w := { o with cyclicCandidate := false, waitingRemove := true }) with }

/-- Giving up a count frees the object only where `hm` and `ht` speak of it. -/
theorem giveUp (h : Deferred s) (ho : s.heap a = some o) (hg : GiveUp p s a o s')
    (hm : o.refcount = 1 → p = .dropping ∧ o.header.isMonoImm = true ∨
      p ≠ .dropping ∧ o.header.hasPointers = false →
        ObjPtr.own a ∉ s.tracingMutationsWorklist)
    (ht : p = .dropping → o.refcount = 1 → o.header.isMonoImm = true → o.tracing = false) :
    Deferred s' := by
  cases hg with
  | keep _ => exact h.set ho rfl rfl
  | queue mark _ _ _ => exact { h.set ho rfl rfl (w := { o with refcount := 0, mark := mark }) with }
  | enqueue _ _ => exact { h.set ho rfl rfl (w := { o with refcount := 0 }) with }
  | freeImm hone himm => exact h.drop ho (ht rfl hone himm) (hm hone (Or.inl ⟨rfl, himm⟩))
  | remove hp hone hleaf hr =>
    have hs := h.set ho rfl rfl (w := { o with refcount := 0 })
    exact hs.removed (by simp) (hm hone (Or.inr ⟨hp, hleaf⟩)) hr

/-- The release of children, where none that is freed is in the mutations worklist. -/
theorem giveUpAll (h : Deferred s) (hp : p ≠ .dropping) (hg : GiveUpAll p s cs s')
    (hm : ∀ c ∈ cs, ∀ o, s.heap c = some o → o.header.hasPointers = false →
      o.refcount ≤ cs.count c → ObjPtr.own c ∉ s.tracingMutationsWorklist) : Deferred s' := by
  induction hg with
  | nil => exact h
  | @cons s u s' c cs o hc hu _ ih =>
    have hstep : Deferred u := by
      apply h.giveUp hc hu
      · rintro hone (⟨hd, -⟩ | ⟨-, hleaf⟩)
        · exact absurd hd hp
        · apply hm c List.mem_cons_self o hc hleaf
          rw [List.count_cons_self]
          omega
      · exact fun hd => absurd hd hp
    apply ih hstep
    intro b hb ob hob hleaf hle
    rw [(hu.frame hc).mutations]
    by_cases hbc : b = c
    · subst hbc
      obtain ⟨hheader, hcount⟩ := hu.refcount_le hob
      apply hm b List.mem_cons_self o hc (hheader ▸ hleaf)
      rw [List.count_cons_self]
      omega
    · rw [hu.heap_of_ne hbc] at hob
      apply hm b (List.mem_cons_of_mem c hb) ob hob hleaf
      rwa [List.count_cons_of_ne (Ne.symm hbc)]

theorem queue {refs : List Addr} (h : Deferred s) (hq : Queued s refs new)
    (hst : InTrace s.tracingState) : Deferred (s.queueTracing new) := by
  have hobj : ∀ {b : Addr} {ob : GCObject}, s.heap b = some ob → ∃ tracing,
      (s.queueTracing new).heap b = some { ob with tracing := tracing } :=
    fun hob => flagTracing_of_heap hob new
  refine
    { worklist_nodup := ?_
      flagged := ?_
      mutations := ?_
      waiting := ?_
      quiet := fun hn => absurd hst hn }
  · apply List.Nodup.append hq.nodup h.worklist_nodup
    intro b hb hmem
    obtain ⟨-, o, ho, hno⟩ := hq.unflagged b hb
    obtain ⟨o₁, ho₁, ht⟩ := (h.flagged b).mp hmem
    obtain rfl := Option.some.inj (ho.symm.trans ho₁)
    simp [hno] at ht
  · intro b
    rw [SyliState.queueTracing_tracingWorklist, List.mem_append, h.flagged b]
    constructor
    · rintro (hb | ⟨o, ho, ht⟩)
      · obtain ⟨-, o, ho, -⟩ := hq.unflagged b hb
        exact ⟨{ o with tracing := true }, by simp [flagTracing_of_mem hb, ho], rfl⟩
      · by_cases hb : b ∈ new
        · exact ⟨{ o with tracing := true }, by simp [flagTracing_of_mem hb, ho], rfl⟩
        · exact ⟨o, by simp [flagTracing_of_not_mem hb, ho], ht⟩
    · rintro ⟨o', ho', ht⟩
      obtain ⟨o, ho, ⟨-, rfl⟩ | ⟨hb, -⟩⟩ := flagTracing_eq_some (s := s) ho'
      · exact Or.inr ⟨_, ho, ht⟩
      · exact Or.inl hb
  · intro q hq'
    obtain ⟨b, ob, rfl, hob, hno⟩ := h.mutations q hq'
    obtain ⟨tracing, hb⟩ := hobj hob
    exact ⟨b, _, rfl, hb, hno⟩
  · intro b ob hob hw
    obtain ⟨o, ho, ⟨-, rfl⟩ | ⟨-, rfl⟩⟩ := flagTracing_eq_some (s := s) hob
    · exact h.waiting b _ ho hw
    · rfl

theorem setState (h : Deferred s) {t : TracingState}
    (hquiet : ¬ InTrace t → s.tracingWorklist = [] ∧ s.tracingMutationsWorklist = []) :
    Deferred (s.setTracingState t) :=
  { h with quiet := hquiet }

theorem popMutation (h : Deferred s) {l : List ObjPtr} (hst : InTrace s.tracingState)
    (hl : ∀ p ∈ l, p ∈ s.tracingMutationsWorklist) : Deferred (s.setMutations l) :=
  { h with
    mutations := fun q hq => h.mutations q (hl q hq)
    quiet := fun hn => absurd hst hn }

/-- The popped object loses its flag. -/
theorem pop {w : GCObject} (h : Deferred s) (hwl : s.tracingWorklist = a :: rest)
    (ho : s.heap a = some o) (hst : InTrace s.tracingState) (ht : w.tracing = false)
    (hw : w.waitingRemove = false) : Deferred ((s.setObj a w).setTracingWorklist rest) := by
  have hnodup := h.worklist_nodup
  rw [hwl, List.nodup_cons] at hnodup
  have hobj : ∀ {b : Addr}, b ≠ a → (s.setObj a w).heap b = s.heap b := fun hb => by simp [hb]
  refine
    { worklist_nodup := hnodup.2
      flagged := ?_
      mutations := ?_
      waiting := ?_
      quiet := fun hn => absurd hst hn }
  · intro b
    have hb := h.flagged b
    rw [hwl, List.mem_cons] at hb
    by_cases hba : b = a
    · subst hba
      simp [hnodup.1, ht]
    · simpa [hba] using hb
  · intro q hq
    obtain ⟨b, ob, rfl, hob, hno⟩ := h.mutations q hq
    by_cases hba : b = a
    · subst hba
      exact ⟨b, w, rfl, by simp, hw⟩
    · exact ⟨b, ob, rfl, (hobj hba).trans hob, hno⟩
  · intro b ob hob hwait
    rcases heap_cases rfl hob with ⟨rfl, rfl⟩ | ⟨-, hb⟩
    · simp [hw] at hwait
    · exact h.waiting b ob hb hwait

theorem markStep (h : Deferred s) (hs : MarkStep s s') : Deferred s' := by
  cases hs with
  | @popWaiting a rest o t g hst hwl ho hw ht =>
    have hm := h.not_mem_mutations ho hw
    have hp := h.pop (w := { o with tracing := false, waitingRemove := false }) hwl ho (Or.inl hst)
      rfl rfl
    have hd := hp.drop (o := { o with tracing := false, waitingRemove := false }) (by simp) rfl hm
    have heq : ((s.setObj a { o with tracing := false, waitingRemove := false }).setTracingWorklist
        rest).dropObj a = (s.setTracingWorklist rest).dropObj a := by
      simp [SyliState.setObj, SyliState.dropObj, SyliState.setTracingWorklist]
    rw [heq] at hd
    exact { hd.setState (t := t) (fun hn => Ledger.afterTracing_quiet (ht ▸ hn)) with }
  | @popSkip a rest o t hst hwl ho hw _ ht =>
    have hp := h.pop (w := { o with tracing := false }) hwl ho (Or.inl hst) rfl hw
    exact hp.setState (t := t) fun hn => Ledger.afterTracing_quiet (ht ▸ hn)
  | @popMark u a rest new o t b hst hwl ho hw _ _ hu hq ht =>
    have hp := h.pop (w := { o with tracing := false, mark := s.tracingCurrentBitMark }) hwl ho
      (Or.inl hst) rfl hw
    have hu' : Deferred u := hu ▸ { hp with }
    refine (hu'.queue hq (hu ▸ Or.inl hst)).setState (t := t) fun hn => ?_
    have hquiet := Ledger.afterTracing_quiet (ht ▸ hn)
    simpa [hu] using hquiet
  | @mutationsDone t hst hm ht =>
    apply h.setState
    intro hn
    by_contra hne
    rw [ht] at hn
    split at hn
    · exact hne ⟨‹_›, hm⟩
    · simp [InTrace] at hn
  | @mutationWaiting a rest o hst hm ho hw =>
    exact absurd (hm ▸ List.mem_cons_self) (h.not_mem_mutations ho hw)
  | @mutationScan a rest o new b hst hm ho hw hq =>
    have hp := h.popMutation (l := rest) (Or.inr hst) fun q hq => hm ▸ List.mem_cons_of_mem _ hq
    have hc : Deferred ((s.setMutations rest).setBudgets b) := { hp with }
    exact hc.queue hq (Or.inr hst)

theorem start {roots : List ObjPtr} (h : Deferred s) (hidle : s.tracingState = .idle)
    (hs : TracingStep roots s s') : Deferred s' := by
  obtain ⟨new, t, hq, ht, rfl⟩ := hs.of_idle hidle
  have hstart : Deferred (tracingStart s) :=
    { h with quiet := fun _ => h.quiet (by simp [hidle, InTrace]) }
  refine (hstart.queue hq (Or.inl rfl)).setState (t := t) fun hn => ?_
  rw [SyliState.queueTracing_tracingWorklist, SyliState.queueTracing_tracingMutationsWorklist,
    tracingStart_tracingWorklist, tracingStart_tracingMutationsWorklist]
  by_contra hne
  rw [ht, if_neg hne] at hn
  exact hn (Or.inl rfl)

/-- The reclaiming steps run with empty worklists. -/
theorem reclaimStep (h : Deferred s) (hs : ReclaimStep s s') : Deferred s' := by
  obtain ⟨hwl, hmut⟩ := h.quiet (not_inTrace_of_reclaiming hs.reclaiming)
  have hrelease : ∀ {r u : SyliState} {a : Addr}, Deferred r → r.tracingMutationsWorklist = [] →
      releaseChildrenOnce r a = .ok u → Deferred u ∧ u.tracingMutationsWorklist = [] := by
    intro r u a hr hm hu
    refine ⟨?_, (releaseChildrenOnce_lists hu).2.1.trans hm⟩
    obtain ⟨o, ho, ⟨-, rfl⟩ | ⟨-, n, hg⟩⟩ := releaseChildrenOnce_effect hu
    · exact hr
    · have hset := hr.set ho (w := { o with childrenReleased := true }) rfl rfl
      have hcharged : Deferred ((r.setObj a { o with childrenReleased := true }).chargeChecking n) :=
        { hset with }
      apply hcharged.giveUpAll (by simp) hg
      intro c _ oc _ _ _
      simp [hm]
  cases hs with
  | @reclaimFree u _ a rest b _ _ hu hf =>
    have hbase : Deferred ((s.setBudgets b).setLostCycleWorklist rest) := { h with }
    obtain ⟨hd, hm⟩ := hrelease hbase hmut hu
    obtain ⟨o, ho, hr⟩ := freeReleasedObject_effect hf
    exact hd.removed ho (by simp [hm]) hr
  | reclaimDone _ _ _ _ => exact { h.setState (t := .idle) (fun _ => ⟨hwl, hmut⟩) with }
  | scanIdle _ _ _ _ => exact { h with }
  | scanMarked _ _ _ _ _ _ _ => exact { h with }
  | @scanRelease u _ a o o' i b _ _ _ _ _ _ hu _ hs' =>
    have hbase : Deferred ((s.setBudgets b).setCheckIndex i) := { h with }
    obtain ⟨hd, -⟩ := hrelease hbase hmut hu
    rcases hs' with ⟨-, rfl⟩ | ⟨-, rfl⟩
    · exact { hd with }
    · exact hd

end Deferred

/-- Giving up the last count of an object without reference fields frees it at once. -/
def DropsSafely (s : SyliState) (a : Addr) : Prop :=
  ∀ o ∈ s.heap a, o.refcount = 1 → o.header.isMonoImm = true →
    o.tracing = false ∧ ObjPtr.own a ∉ s.tracingMutationsWorklist

/-- The object is not in the mutations worklist, and neither is a leaf of which it holds all the
counts. -/
def ReleasesSafely (s : SyliState) (a : Addr) : Prop :=
  ObjPtr.own a ∉ s.tracingMutationsWorklist ∧ ∀ o ∈ s.heap a, ∀ c ∈ o.ownRefs, ∀ oc ∈ s.heap c,
    oc.header.hasPointers = false → oc.refcount ≤ o.ownRefs.count c →
      ObjPtr.own c ∉ s.tracingMutationsWorklist

def NotWaiting (s : SyliState) (a : Addr) : Prop := ∀ o ∈ s.heap a, o.waitingRemove = false

instance (s : SyliState) (a : Addr) : Decidable (DropsSafely s a) :=
  inferInstanceAs (Decidable (∀ o ∈ s.heap a, o.refcount = 1 → o.header.isMonoImm = true →
    o.tracing = false ∧ ObjPtr.own a ∉ s.tracingMutationsWorklist))

instance (s : SyliState) (a : Addr) : Decidable (ReleasesSafely s a) :=
  inferInstanceAs (Decidable (ObjPtr.own a ∉ s.tracingMutationsWorklist ∧ ∀ o ∈ s.heap a,
    ∀ c ∈ o.ownRefs, ∀ oc ∈ s.heap c, oc.header.hasPointers = false →
      oc.refcount ≤ o.ownRefs.count c → ObjPtr.own c ∉ s.tracingMutationsWorklist))

instance (s : SyliState) (a : Addr) : Decidable (NotWaiting s a) :=
  inferInstanceAs (Decidable (∀ o ∈ s.heap a, o.waitingRemove = false))

/-- No step frees an object that the tracer still queues, or queues one that waits for its
removal. -/
def Deferrable (m : Machine) : Action → Prop
  | .drop x => DropsSafely m.rt x
  | .store _ x slot y => (∀ c ∈ m.loaded x slot, DropsSafely m.rt c) ∧ NotWaiting m.rt y
  | .notify _ _ y => NotWaiting m.rt y
  | .gcReleasing => m.rt.releasingState = .releasing →
    ∀ a ∈ m.rt.releasingWorklist.head?, ReleasesSafely m.rt a
  | .alloc _ | .load _ _ | .share _ | .storeGlobal _ _ | .gcCycle _ _ _ | .gcTracing _ => True

instance (m : Machine) : (act : Action) → Decidable (Deferrable m act)
  | .drop x => inferInstanceAs (Decidable (DropsSafely m.rt x))
  | .store _ x slot y => inferInstanceAs (Decidable ((∀ c ∈ m.loaded x slot,
      DropsSafely m.rt c) ∧ NotWaiting m.rt y))
  | .notify _ _ y => inferInstanceAs (Decidable (NotWaiting m.rt y))
  | .gcReleasing => inferInstanceAs (Decidable (m.rt.releasingState = .releasing →
      ∀ a ∈ m.rt.releasingWorklist.head?, ReleasesSafely m.rt a))
  | .alloc _ | .load _ _ | .share _ | .storeGlobal _ _ | .gcCycle _ _ _
  | .gcTracing _ => isTrue trivial

namespace Deferred

theorem dropped (h : Deferred s) (ho : s.heap a = some o) (hs : DropsSafely s a)
    (hg : GiveUp .dropping s a o s') : Deferred s' := by
  apply h.giveUp ho hg
  · rintro hone (⟨-, himm⟩ | ⟨hne, -⟩)
    · exact (hs o ho hone himm).2
    · exact absurd rfl hne
  · exact fun _ hone himm => (hs o ho hone himm).1

theorem alloc (h : Deferred s) (hfreed : Freed s) (header : ObjectHeader) (candidate : Bool) :
    Deferred ((s.setObj s.next (freshObject s header candidate)).bumpNext) := by
  have hnone : s.heap s.next = none := by
    by_contra hne
    obtain ⟨o, ho⟩ := Option.ne_none_iff_exists'.mp hne
    exact absurd (hfreed.live s.next o ho).2 (Nat.lt_irrefl _)
  have hobj : ∀ {b : Addr}, b ≠ s.next →
      ((s.setObj s.next (freshObject s header candidate)).bumpNext).heap b = s.heap b :=
    fun hb => by simp [hb]
  refine { h with
    flagged := ?_
    mutations := ?_
    waiting := ?_ }
  · intro b
    by_cases hb : b = s.next
    · subst hb
      have hno := (not_congr (h.flagged s.next)).mpr (by simp [hnone])
      simp [freshObject, hno]
    · rw [hobj hb]
      exact h.flagged b
  · intro q hq
    obtain ⟨b, ob, rfl, hob, hno⟩ := h.mutations q hq
    have hb : b ≠ s.next := by
      rintro rfl
      simp [hnone] at hob
    exact ⟨b, ob, rfl, (hobj hb).trans hob, hno⟩
  · intro b ob hob hw
    rcases heap_cases (s := s) rfl hob with ⟨-, rfl⟩ | ⟨-, hb⟩
    · simp [freshObject] at hw
    · exact h.waiting b ob hb hw

theorem notified {operand : Operand} (h : Deferred s) (hy : NotWaiting s y)
    (hn : Notified operand x y s s') : Deferred s' := by
  cases hn with
  | quiet _ => exact h
  | @barrier o t hst _ _ _ _ ht _ =>
    have hs := h.set (w := { t with mark := s.tracingCurrentBitMark }) ht rfl rfl
    refine { hs with
      mutations := ?_
      quiet := fun hq => absurd hst hq }
    intro q hq
    rcases List.mem_cons.mp hq with rfl | hq
    · exact ⟨y, { t with mark := s.tracingCurrentBitMark }, rfl, by simp, hy t ht⟩
    · exact hs.mutations q hq

theorem stored {operand : Operand} {slot : Nat} (h : Deferred s)
    (hdrop : ∀ o ∈ s.heap x, ∀ c, o.value.getD slot .null = .own c → DropsSafely s c)
    (hy : NotWaiting s y) (hs : Stored operand x slot y s s') : Deferred s' := by
  obtain @⟨u, o, o₁, ho, -, -, hold, ho₁, hn⟩ := hs
  have hu : Deferred u ∧ NotWaiting u y := by
    rcases hold with ⟨rfl, -⟩ | ⟨c, oc, hval, hc, hg⟩
    · exact ⟨h, hy⟩
    · refine ⟨h.dropped hc (hdrop o ho c hval) hg, ?_⟩
      intro o' ho'
      obtain ⟨o₂, ho₂, heq⟩ := hg.waiting_of_dropping hc ho'
      exact heq.trans (hy o₂ ho₂)
  have hset := hu.1.set ho₁ (w := { o₁ with value := o₁.value.set slot (.own y) }) rfl rfl
  apply hset.notified ?_ hn
  intro o' ho'
  rcases heap_cases rfl ho' with ⟨rfl, rfl⟩ | ⟨-, hb⟩
  · exact hu.2 o₁ ho₁
  · exact hu.2 o' hb

theorem releasingStep (h : Deferred s) (hs : ReleasingStep s s')
    (hok : s.releasingState = .releasing → ∀ a ∈ s.releasingWorklist.head?, ReleasesSafely s a) :
    Deferred s' := by
  cases hs with
  | start _ => exact { h with }
  | @release v w _ a rest o o' n hst hwl ho hg ho' _ hr hs' =>
    obtain ⟨hm, hleaf⟩ := hok hst a (by simp [hwl])
    have hbase : Deferred ((s.setReleasing rest s.releasingWaitlist).chargeReleasing n) :=
      { h with }
    have hv := hbase.giveUpAll (by simp) hg fun c hc oc hoc => hleaf o ho c hc oc hoc
    have hw := hv.removed ho' (by rw [hg.frame.mutations]; exact hm) hr
    subst hs'
    exact { hw with }

end Deferred

theorem deferred_move (h : Deferred m.rt) (hfreed : Freed m.rt) (hok : Deferrable m act)
    (hm : Move m act m') : Deferred m'.rt := by
  have hset : ∀ {a : Addr} {o w : GCObject}, m.rt.heap a = some o → w.tracing = o.tracing →
      w.waitingRemove = o.waitingRemove → Deferred (m.rt.setObj a w) := fun ho => h.set ho
  cases hm with
  | alloc candidate candidates index g _ _ => exact { h.alloc hfreed _ candidate with }
  | load _ _ _ _ hoc _ => exact hset hoc rfl rfl
  | share _ _ ho => exact hset ho rfl rfl
  | drop _ _ ho hg => exact h.dropped ho hok hg
  | @store operand x y slot s _ _ _ hs =>
    apply h.stored ?_ hok.2 hs
    intro o ho c hval
    apply hok.1
    simp only [Machine.loaded, Option.mem_def.mp ho, Option.bind_some, hval]
    rfl
  | notify _ _ _ hn => exact h.notified hok hn
  | storeGlobal _ _ _ => exact h
  | gcCycle b _ => exact { h with }
  | releasing _ hs => exact h.releasingStep hs hok
  | releasingDone _ => exact h
  | tracing _ _ hs =>
    cases hs with
    | start hstart hq ht => exact h.start hstart.1 (.start hstart hq ht)
    | mark hs => exact h.markStep hs
    | reclaim hs => exact h.reclaimStep hs
  | tracingDone _ => exact h

theorem deferred_init (env : Env) (globals : Nat) : Deferred (Machine.init env globals).rt := by
  constructor <;> simp [Machine.init, syliStateInit]

theorem deferred_of_runs (h : Runs Machine.step Deferrable (Machine.init env globals) m) :
    Deferred m.rt ∧ Freed m.rt := by
  refine h.invariant (P := fun m => Deferred m.rt ∧ Freed m.rt)
    ⟨deferred_init env globals, freed_init env globals⟩ ?_
  rintro m act m' ⟨hd, hf⟩ hok hstep
  have hm := step_move hstep
  exact ⟨deferred_move hd hf hok hm, freed_move hf hm⟩

/-- Only being freed ends the wait for the removal. -/
theorem waiting_move (h : Freed m.rt) (hm : Move m act m') (ho : m.rt.heap a = some o)
    (hw : o.waitingRemove = true) (ho' : m'.rt.heap a = some o') : o'.waitingRemove = true := by
  have hrelease : ReleaseFrame m.rt m'.rt → o'.waitingRemove = true := by
    intro hf
    obtain ⟨o₁, ho₁, hobj⟩ := hf.obj a o' ho'
    obtain rfl := Option.some.inj (ho.symm.trans ho₁)
    exact hobj.waiting hw
  have hset : ∀ {b : Addr} {ob : GCObject} {n : Nat}, m.rt.heap b = some ob →
      m'.rt.heap = (m.rt.setObj b { ob with refcount := n }).heap → o'.waitingRemove = true := by
    intro b ob n hob heq
    rcases heap_cases (heq.trans rfl) ho' with ⟨rfl, rfl⟩ | ⟨-, hb⟩
    · obtain rfl := Option.some.inj (ho.symm.trans hob)
      exact hw
    · obtain rfl := Option.some.inj (ho.symm.trans hb)
      exact hw
  cases hm with
  | alloc _ _ _ _ _ _ =>
    rcases heap_cases (s := m.rt) rfl ho' with ⟨rfl, -⟩ | ⟨-, hb⟩
    · exact absurd (h.live _ o ho).2 (Nat.lt_irrefl _)
    · obtain rfl := Option.some.inj (ho.symm.trans hb)
      exact hw
  | load _ _ _ _ hoc _ => exact hset hoc rfl
  | share _ _ hx => exact hset hx rfl
  | drop _ _ hx hg => exact hrelease (hg.frame hx)
  | store _ _ _ hs =>
    obtain ⟨o₁, ho₁, heq⟩ := hs.waiting ho'
    obtain rfl := Option.some.inj (ho.symm.trans ho₁)
    exact heq.trans hw
  | notify _ _ _ hn =>
    obtain ⟨o₁, ho₁, heq⟩ := hn.waiting ho'
    obtain rfl := Option.some.inj (ho.symm.trans ho₁)
    exact heq.trans hw
  | releasing _ hs => exact hrelease hs.frame
  | tracing _ _ hs =>
    cases hs with
    | start _ _ _ =>
      obtain ⟨o₁, ho₁, ⟨-, rfl⟩ | ⟨-, rfl⟩⟩ := flagTracing_eq_some (s := m.rt) ho'
      · obtain rfl := Option.some.inj (ho.symm.trans ho₁)
        exact hw
      · obtain rfl := Option.some.inj (ho.symm.trans ho₁)
        exact hw
    | mark hs =>
      obtain ⟨o₁, mark, tracing, ho₁, rfl⟩ := hs.obj ho'
      obtain rfl := Option.some.inj (ho.symm.trans ho₁)
      exact hw
    | reclaim hs =>
      obtain ⟨o₁, ho₁, hf⟩ := hs.obj ho'
      obtain rfl := Option.some.inj (ho.symm.trans ho₁)
      exact hf.waiting hw
  | gcCycle b _ => exact hrelease ((ReleaseFrame.refl m.rt).lists rfl rfl rfl rfl rfl rfl)
  | storeGlobal _ _ _ | releasingDone _ | tracingDone _ => exact hrelease (.refl m.rt)

def QueuedAllocated (s : SyliState) : Prop :=
  (∀ a ∈ s.tracingWorklist, s.heap a ≠ none) ∧
    ∀ p ∈ s.tracingMutationsWorklist, ∃ a, p = ObjPtr.own a ∧ s.heap a ≠ none

/-- An object whose removal waits is queued; it stays so, or its last entry is popped and it is
freed. -/
def RemovesWaiting (s s' : SyliState) : Prop :=
  ∀ a o, s.heap a = some o → o.waitingRemove = true → a ∈ s.tracingWorklist ∧
    ((∃ o', s'.heap a = some o' ∧ o'.waitingRemove = true ∧ a ∈ s'.tracingWorklist) ∨
      a ∈ s'.freed ∧ a ∉ s'.tracingWorklist ∧ ObjPtr.own a ∉ s'.tracingMutationsWorklist)

namespace Deferred

theorem queuedAllocated (h : Deferred s) : QueuedAllocated s := by
  constructor
  · intro a ha
    obtain ⟨o, ho, -⟩ := (h.flagged a).mp ha
    simp [ho]
  · intro q hq
    obtain ⟨a, o, rfl, ho, -⟩ := h.mutations q hq
    exact ⟨a, rfl, by simp [ho]⟩

theorem not_mem_of_none (h : Deferred s) (hnone : s.heap a = none) :
    a ∉ s.tracingWorklist ∧ ObjPtr.own a ∉ s.tracingMutationsWorklist := by
  constructor
  · intro hmem
    exact h.queuedAllocated.1 a hmem hnone
  · intro hmem
    obtain ⟨b, heq, hb⟩ := h.queuedAllocated.2 _ hmem
    obtain rfl : a = b := by simpa using heq
    exact hb hnone

end Deferred

theorem removesWaiting_move (h : Deferred m.rt) (hfreed : Freed m.rt) (hok : Deferrable m act)
    (hm : Move m act m') : RemovesWaiting m.rt m'.rt := by
  have h' := deferred_move h hfreed hok hm
  intro a o ho hw
  refine ⟨(h.flagged a).mpr ⟨o, ho, h.waiting a o ho hw⟩, ?_⟩
  cases hb : m'.rt.heap a with
  | some o' =>
    have hw' := waiting_move hfreed hm ho hw hb
    exact Or.inl ⟨o', rfl, hw', (h'.flagged a).mpr ⟨o', hb, h'.waiting a o' hb hw'⟩⟩
  | none =>
    obtain ⟨hpos, hlt⟩ := hfreed.live a o ho
    have hmem := ((freed_move hfreed hm).freed a).mpr ⟨hpos, Nat.lt_of_lt_of_le hlt hm.next_le, hb⟩
    exact Or.inr ⟨hmem, h'.not_mem_of_none hb⟩

instance (s : SyliState) : Decidable (QueuedAllocated s) :=
  decidable_of_iff ((∀ a ∈ s.tracingWorklist, (s.heap a).isSome = true) ∧
      ∀ p ∈ s.tracingMutationsWorklist, ∃ a ∈ p.ownRef?, (s.heap a).isSome = true) <| by
    have hown : ∀ (p : ObjPtr) (a : Addr), p.ownRef? = some a ↔ p = .own a := by
      intro p a
      cases p <;> simp [ObjPtr.ownRef?]
    simp [QueuedAllocated, hown, Option.isSome_iff_ne_none]

/-- The trace scans `1` and stops while `2` is still queued. -/
def queuedSecond (header : ObjectHeader) : List Action :=
  [.alloc (mutableCell 1), .alloc header, .gcCycle 1 0 1, .gcReleasing,
    .gcTracing [.own 2, .own 1], .gcTracing [.own 2, .own 1], .gcTracing [.own 2, .own 1], .drop 2]

/-- An object without reference fields, whose count is not looked at by the tracer. -/
def leafCell : ObjectHeader := makeHeader false .monoImm 0 3 1

/-- A dropped leaf is freed although it is queued for tracing, and the reference counting frees an
object that the write barrier has queued. -/
theorem queued_objects_freed_by_drop_and_by_release :
    (∃ m, Runs Machine.step (fun _ _ => True) (Machine.init testEnv 0) m ∧
      2 ∈ m.rt.tracingWorklist ∧ m.rt.heap 2 = none ∧ ¬ QueuedAllocated m.rt) ∧
      ∃ m, Runs Machine.step (fun _ _ => True) (Machine.init testEnv 0) m ∧
        ObjPtr.own 2 ∈ m.rt.tracingMutationsWorklist ∧ m.rt.heap 2 = none ∧
          ¬ QueuedAllocated m.rt := by
  constructor
  · obtain ⟨m, hm, hqueued, hnone, hno⟩ :
        ∃ m ∈ execute Machine.step (fun _ _ => True) (Machine.init testEnv 0)
          (queuedSecond leafCell),
          2 ∈ m.rt.tracingWorklist ∧ (m.rt.heap 2).isSome = false ∧ ¬ QueuedAllocated m.rt := by
      decide +kernel
    exact ⟨m, Runs.of_execute hm, hqueued, by simpa using hnone, hno⟩
  · obtain ⟨m, hm, hqueued, hnone, hno⟩ :
        ∃ m ∈ execute Machine.step (fun _ _ => True) (Machine.init testEnv 0)
          (chainTrace ++ [.load 1 0, .store .own 3 0 2, .store .own 1 0 3,
            .alloc (mutableCell 1), .store .own 3 0 5, .gcCycle 0 100 0, .gcReleasing,
            .gcReleasing]),
          ObjPtr.own 2 ∈ m.rt.tracingMutationsWorklist ∧ (m.rt.heap 2).isSome = false ∧
            ¬ QueuedAllocated m.rt := by
      decide +kernel
    exact ⟨m, Runs.of_execute hm, hqueued, by simpa using hnone, hno⟩

end Syli.Collector
