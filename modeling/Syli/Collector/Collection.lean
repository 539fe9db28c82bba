import Syli.Collector.Marking
import Syli.Collector.Deferred
import Syli.Collector.Release

/-! One full collection of lost cycles, without a mutator: the trace marks what the owners reach,
and the reclaiming frees the rest. -/
namespace Syli.Collector

open Foundation Syli.Runtime

variable {s s' u : SyliState} {m₀ : Owned} {a b c x y : Addr} {o o' : GCObject}
variable {roots : List ObjPtr} {rest new : List Addr}

/-- The budgets are set before each slice; an `iterate` is one iteration of the loop of
`syli_state_gc_tracing`. -/
inductive CollectAction where
  | budgets (b : Budgets)
  | iterate

def collectStep (roots : List ObjPtr) (s : SyliState) : CollectAction → Result SyliState
  | .budgets b => .ok (s.setBudgets b)
  | .iterate => do
    match ← syliStateGcTracing s roots with
    | some s => return s
    | none => return s

/-- A heap between two traces: the counts are exact, the worklists are empty, every object carries
the current mark, and every cycle holds a registered candidate. -/
structure IdleHeap (m : Owned) : Prop where
  ledger : Ledger m.rt m.owners m.rt.outRefs
  registered : Registered m.rt
  freed : Freed m.rt
  idle : m.rt.tracingState = .idle
  releasing : m.rt.releasingWaitlist = [] ∧ m.rt.releasingWorklist = []
  counted : ∀ a o, m.rt.heap a = some o → 0 < o.refcount
  intact : ∀ a o, m.rt.heap a = some o → o.childrenReleased = false
  current : ∀ a o, m.rt.heap a = some o → o.mark = m.rt.tracingCurrentBitMark
  cycles : ∀ a, ¬ Relation.TransGen (fun x y => Refers m x y ∧ x ∉ m.rt.cyclicCandidates) a a

namespace IdleHeap

theorem quiet (h : IdleHeap m₀) (ho : m₀.rt.heap a = some o) :
    o.waitingRemove = false ∧ o.tracing = false :=
  h.ledger.not_waiting (by simp [h.idle, InTrace]) ho

theorem lists (h : IdleHeap m₀) : m₀.rt.tracingWorklist = [] ∧
    m₀.rt.tracingMutationsWorklist = [] ∧ m₀.rt.lostCycleWorklist = [] := by
  obtain ⟨hwl, hmut⟩ := h.ledger.quiet (by simp [h.idle, InTrace])
  exact ⟨hwl, hmut, h.ledger.lost_nil (by simp [h.idle])⟩

theorem outRefs (h : IdleHeap m₀) (ho : m₀.rt.heap a = some o) : m₀.rt.outRefs a = o.ownRefs := by
  rw [outRefs_of_heap ho, countedRefs_of_intact (h.quiet ho).1 (h.intact a o ho)]

theorem deferred (h : IdleHeap m₀) : Deferred m₀.rt := by
  obtain ⟨hwl, hmut, -⟩ := h.lists
  constructor
  · simp [hwl]
  · intro a
    rw [hwl]
    constructor
    · simp
    · rintro ⟨o, ho, ht⟩
      simp [(h.quiet ho).2] at ht
  · simp [hmut]
  · intro a o ho hw
    simp [(h.quiet ho).1] at hw
  · exact fun _ => ⟨hwl, hmut⟩

end IdleHeap

/-- During the trace only the marks and the tracing flags change; what is marked or queued is
reachable, and the references of the owners and of the marked objects are marked or queued. -/
structure MarkPhase (m₀ : Owned) (s : SyliState) : Prop where
  ledger : Ledger s m₀.owners s.outRefs
  deferred : Deferred s
  registered : Registered s
  freed : Freed s
  releasing : s.releasingWaitlist = [] ∧ s.releasingWorklist = []
  mutations : s.tracingMutationsWorklist = []
  lost : s.lostCycleWorklist = []
  next : s.next = m₀.rt.next
  index : s.currentCandidateCheckIndex = s.cyclicCandidates.length
  cells : ∀ a o, s.heap a = some o → ∃ o₀ mark tracing, m₀.rt.heap a = some o₀ ∧
    o = { o₀ with mark := mark, tracing := tracing }
  kept : ∀ a, s.heap a = none → m₀.rt.heap a = none
  marked_reach : ∀ a, Marked s a → OwnedReach m₀ m₀.owners a
  queued_reach : ∀ a ∈ s.tracingWorklist, OwnedReach m₀ m₀.owners a
  roots : ∀ a ∈ m₀.owners, Shaded s a
  covered : ∀ x y, Marked s x → Refers m₀ x y → Shaded s y

theorem marked_setState {t : TracingState} : Marked (s.setTracingState t) a ↔ Marked s a := Iff.rfl

theorem marked_queueTracing (new : List Addr) : Marked (s.queueTracing new) a ↔ Marked s a := by
  constructor
  · rintro ⟨o, ho, hm⟩
    obtain ⟨o₁, ho₁, ⟨-, rfl⟩ | ⟨-, rfl⟩⟩ := flagTracing_eq_some (s := s) ho
    · exact ⟨_, ho₁, hm⟩
    · exact ⟨o₁, ho₁, hm⟩
  · rintro ⟨o, ho, hm⟩
    obtain ⟨tracing, ho'⟩ := flagTracing_of_heap ho new
    exact ⟨_, ho', hm⟩

theorem marked_popMark {b : Budgets} {t : TracingState} :
    Marked (((((s.setObj a { o with tracing := false, mark := s.tracingCurrentBitMark
      }).setTracingWorklist rest).setBudgets b).queueTracing new).setTracingState t) x ↔
        x = a ∨ Marked s x := by
  rw [marked_setState, marked_queueTracing]
  by_cases hx : x = a
  · subst hx
    simp only [true_or, iff_true]
    exact ⟨{ o with tracing := false, mark := s.tracingCurrentBitMark }, by simp, rfl⟩
  · simp [Marked, hx]

namespace MarkPhase

variable (h₀ : IdleHeap m₀)

include h₀ in
theorem ownRefs (h : MarkPhase m₀ s) (ho : s.heap a = some o) (hb : b ∈ o.ownRefs) :
    Refers m₀ a b := by
  obtain ⟨o₀, mark, tracing, ho₀, rfl⟩ := h.cells a o ho
  rw [Refers, h₀.outRefs ho₀]
  exact hb

include h₀ in
/-- A step of the trace, read off the popped object: nothing that was marked or queued is lost. -/
theorem step (h : MarkPhase m₀ s) (hst : s.tracingState = .tracing) (hs : MarkStep s s') :
    MarkPhase m₀ s' := by
  have hbase : ∀ {a o}, s.heap a = some o → o.waitingRemove = false ∧ 0 < o.refcount := by
    intro a o ho
    obtain ⟨o₀, mark, tracing, ho₀, rfl⟩ := h.cells a o ho
    exact ⟨(h₀.quiet ho₀).1, h₀.counted a o₀ ho₀⟩
  have hcells : ∀ a o', s'.heap a = some o' → ∃ o₀ mark tracing, m₀.rt.heap a = some o₀ ∧
      o' = { o₀ with mark := mark, tracing := tracing } := by
    intro a o' ho'
    obtain ⟨o, mark, tracing, ho, rfl⟩ := hs.obj ho'
    obtain ⟨o₀, _, _, ho₀, rfl⟩ := h.cells a o ho
    exact ⟨o₀, mark, tracing, ho₀, rfl⟩
  have hkept : ∀ a, s'.heap a = none → m₀.rt.heap a = none := by
    intro a hnone
    apply h.kept
    by_contra hne
    obtain ⟨o, ho⟩ := Option.ne_none_iff_exists'.mp hne
    rcases hs.heap ho with ⟨mark, tracing, ho'⟩ | ⟨hw, -⟩
    · simp [hnone] at ho'
    · simp [(hbase ho).1] at hw
  have hcommon := And.intro (h.ledger.markStep hs) (And.intro (h.deferred.markStep hs)
    (And.intro (h.registered.markStep hs) (h.freed.markStep hs)))
  obtain ⟨hledger, hdeferred, hregistered, hfreed⟩ := hcommon
  cases hs with
  | popWaiting _ _ _ ho hw _ => simp [(hbase ho).1] at hw
  | @popSkip a rest o t _ hwl ho _ hskip ht =>
    have hmark : o.mark = s.tracingCurrentBitMark :=
      hskip.resolve_left (Nat.ne_of_gt (hbase ho).2)
    have hset : ∀ x, Marked (s.setObj a { o with tracing := false }) x ↔ Marked s x :=
      marked_setObj ho rfl
    have hmarked : ∀ {x}, Marked (((s.setObj a { o with tracing := false }).setTracingWorklist
        rest).setTracingState t) x ↔ Marked s x := fun {x} => hset x
    have hshaded : ∀ x, Shaded s x → Shaded (((s.setObj a { o with tracing := false
        }).setTracingWorklist rest).setTracingState t) x := by
      rintro x (hx | hx)
      · exact Or.inl (hmarked.mpr hx)
      · rw [hwl] at hx
        rcases List.mem_cons.mp hx with rfl | hx
        · exact Or.inl (hmarked.mpr ⟨o, ho, hmark⟩)
        · exact Or.inr hx
    exact
      { ledger := hledger, deferred := hdeferred, registered := hregistered, freed := hfreed
        releasing := h.releasing
        mutations := h.mutations
        lost := h.lost
        next := h.next
        index := h.index
        cells := hcells
        kept := hkept
        marked_reach := fun x hx => h.marked_reach x (hmarked.mp hx)
        queued_reach := fun x hx => h.queued_reach x (hwl ▸ List.mem_cons_of_mem a hx)
        roots := fun x hx => hshaded x (h.roots x hx)
        covered := fun x y hx hxy => hshaded y (h.covered x y (hmarked.mp hx) hxy) }
  | @popMark u a rest new o t b _ hwl ho _ _ hmark hu hq ht =>
    subst hu
    have hreach := h.queued_reach a (hwl ▸ List.mem_cons_self)
    have hu := h.deferred.pop (w := { o with tracing := false, mark := s.tracingCurrentBitMark })
      hwl ho (Or.inl hst) rfl (hbase ho).1
    have hmarked : ∀ {x}, Marked (((((s.setObj a { o with
        tracing := false, mark := s.tracingCurrentBitMark }).setTracingWorklist rest).setBudgets
          b).queueTracing new).setTracingState t) x ↔ x = a ∨ Marked s x := marked_popMark
    have hnew : ∀ y ∈ o.ownRefs, y ∈ new ++ rest := by
      intro y hy
      rcases hq.flagged y hy with hn | ⟨oy, hoy, hty⟩
      · exact List.mem_append_left _ hn
      · exact List.mem_append_right _ ((hu.flagged y).mpr ⟨oy, hoy, hty⟩)
    have hshaded : ∀ x, Shaded s x → Shaded (((((s.setObj a { o with
        tracing := false, mark := s.tracingCurrentBitMark }).setTracingWorklist rest).setBudgets
          b).queueTracing new).setTracingState t) x := by
      rintro x (hx | hx)
      · exact Or.inl (hmarked.mpr (Or.inr hx))
      · rw [hwl] at hx
        rcases List.mem_cons.mp hx with rfl | hx
        · exact Or.inl (hmarked.mpr (Or.inl rfl))
        · exact Or.inr (List.mem_append_right new hx)
    refine
      { ledger := hledger, deferred := hdeferred, registered := hregistered, freed := hfreed
        releasing := h.releasing
        mutations := h.mutations
        lost := h.lost
        next := h.next
        index := h.index
        cells := hcells
        kept := hkept
        marked_reach := ?_
        queued_reach := ?_
        roots := fun x hx => hshaded x (h.roots x hx)
        covered := ?_ }
    · intro x hx
      rcases hmarked.mp hx with rfl | hx
      · exact hreach
      · exact h.marked_reach x hx
    · intro x hx
      rcases List.mem_append.mp hx with hx | hx
      · exact hreach.step (h.ownRefs h₀ ho (hq.unflagged x hx).1)
      · exact h.queued_reach x (hwl ▸ List.mem_cons_of_mem a hx)
    · intro x y hx hxy
      rcases hmarked.mp hx with rfl | hx
      · obtain ⟨o₀, mark, tracing, ho₀, rfl⟩ := h.cells x o ho
        rw [Refers, h₀.outRefs ho₀] at hxy
        exact Or.inr (hnew y hxy)
      · exact hshaded y (h.covered x y hx hxy)
  | mutationsDone hst' _ _ => simp [hst] at hst'
  | mutationWaiting hst' _ _ _ => simp [hst] at hst'
  | mutationScan _ hst' _ _ _ _ => simp [hst] at hst'

include h₀ in
/-- The start of a trace flips the current mark, so nothing is marked, and queues the roots. -/
theorem start {b : Budgets} {t : TracingState}
    (hroots : ∀ a, a ∈ roots.filterMap ObjPtr.ownRef? ↔ a ∈ m₀.owners)
    (hstarts : TraceStarts (m₀.rt.setBudgets b))
    (hq : Queued (tracingStart (m₀.rt.setBudgets b)) (roots.filterMap ObjPtr.ownRef?) new)
    (ht : t = if new ++ m₀.rt.tracingWorklist = [] ∧ m₀.rt.tracingMutationsWorklist = []
      then .reclaimingCyclicCandidates else .tracing) :
    MarkPhase m₀ (((tracingStart (m₀.rt.setBudgets b)).queueTracing new).setTracingState t) := by
  obtain ⟨hwl, hmut, hlost⟩ := h₀.lists
  have hs : TracingStep roots (m₀.rt.setBudgets b)
      (((tracingStart (m₀.rt.setBudgets b)).queueTracing new).setTracingState t) :=
    .start hstarts hq ht
  have hledger : Ledger (m₀.rt.setBudgets b) m₀.owners (m₀.rt.setBudgets b).outRefs :=
    { h₀.ledger with }
  have hdeferred : Deferred (m₀.rt.setBudgets b) := { h₀.deferred with }
  have hfreed : Freed (m₀.rt.setBudgets b) := { h₀.freed with }
  have hregistered : Registered (tracingStart (m₀.rt.setBudgets b)) := { h₀.registered with }
  have hunmarked : ∀ a, ¬ Marked (((tracingStart (m₀.rt.setBudgets b)).queueTracing
      new).setTracingState t) a := by
    intro a hm
    obtain ⟨o, ho, hmark⟩ := marked_queueTracing new |>.mp (marked_setState.mp hm)
    rw [tracingStart_tracingCurrentBitMark] at hmark
    have hold := h₀.current a o ho
    simp [hold] at hmark
  have hqueued : ∀ a ∈ m₀.owners, a ∈ new := by
    intro a ha
    rcases hq.flagged a ((hroots a).mpr ha) with hn | ⟨o, ho, htr⟩
    · exact hn
    · simp [(h₀.quiet ho).2] at htr
  exact
    { ledger := hledger.tracingStep hs
      deferred := hdeferred.start h₀.idle hs
      registered := { hregistered.queueTracing new with }
      freed := hfreed.tracingStep hs
      releasing := h₀.releasing
      mutations := hmut
      lost := hlost
      next := rfl
      index := rfl
      cells := by
        intro a o ho
        obtain ⟨o₀, ho₀, ⟨-, rfl⟩ | ⟨-, rfl⟩⟩ :=
          flagTracing_eq_some (s := tracingStart (m₀.rt.setBudgets b)) ho
        · exact ⟨_, _, _, ho₀, rfl⟩
        · exact ⟨o₀, _, _, ho₀, rfl⟩
      kept := by
        intro a ha
        by_contra hne
        obtain ⟨o, ho⟩ := Option.ne_none_iff_exists'.mp hne
        obtain ⟨tracing, ho'⟩ :=
          @flagTracing_of_heap _ _ (tracingStart (m₀.rt.setBudgets b)).heap ho new
        have hsome : (((tracingStart (m₀.rt.setBudgets b)).queueTracing new).setTracingState
            t).heap a = some { o with tracing := tracing } := ho'
        cases ha.symm.trans hsome
      marked_reach := fun a ha => absurd ha (hunmarked a)
      queued_reach := by
        intro a ha
        rcases List.mem_append.mp ha with ha | ha
        · exact .root ((hroots a).mp (hq.unflagged a ha).1)
        · have hold : a ∈ m₀.rt.tracingWorklist := ha
          simp [hwl] at hold
      roots := fun a ha => Or.inr (List.mem_append_left _ (hqueued a ha))
      covered := fun x y hx _ => absurd hx (hunmarked x) }

/-- Where nothing is queued any more, the marked objects are those that the owners reach. -/
theorem marked_iff (h : MarkPhase m₀ s) (hwl : s.tracingWorklist = []) (a : Addr) :
    Marked s a ↔ OwnedReach m₀ m₀.owners a := by
  constructor
  · exact h.marked_reach a
  · have hshaded : ∀ {x}, Shaded s x → Marked s x := by
      rintro x (hx | hx)
      · exact hx
      · simp [hwl] at hx
    intro hreach
    refine hreach.closed (P := Marked s) (fun x hx => hshaded (h.roots x hx)) ?_
    exact fun x y _ hx hxy => hshaded (h.covered x y hx hxy)

end MarkPhase

end Syli.Collector
