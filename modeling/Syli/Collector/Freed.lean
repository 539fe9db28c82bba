import Syli.Collector.Ledger

/-! Every address that was handed out is allocated, or was freed once. -/
namespace Syli.Collector

open Foundation Syli.Runtime

variable {s s' u : SyliState} {m m' : Machine} {a x y : Addr} {o w : GCObject} {act : Action}
variable {p : Pipeline} {cs new : List Addr} {operand : Operand} {slot : Nat}
variable {env : Env} {globals : Nat}

structure Freed (s : SyliState) : Prop where
  freed_nodup : s.freed.Nodup
  freed : ∀ a, a ∈ s.freed ↔ 0 < a ∧ a < s.next ∧ s.heap a = none
  live : ∀ a o, s.heap a = some o → 0 < a ∧ a < s.next
  next_pos : 0 < s.next

namespace Freed

/-- The rule for the steps that neither allocate nor free. -/
theorem congr (h : Freed s) (hfreed : s'.freed = s.freed) (hnext : s'.next = s.next)
    (hheap : ∀ a, s'.heap a = none ↔ s.heap a = none) : Freed s' := by
  constructor
  · rw [hfreed]
    exact h.freed_nodup
  · intro a
    rw [hfreed, hnext, hheap a]
    exact h.freed a
  · intro a o ho
    rw [hnext]
    have hsome : s.heap a ≠ none := fun hno => by simp [(hheap a).mpr hno] at ho
    obtain ⟨o', ho'⟩ := Option.ne_none_iff_exists'.mp hsome
    exact h.live a o' ho'
  · rw [hnext]
    exact h.next_pos

theorem setObj (h : Freed s) (ho : s.heap a = some o) : Freed (s.setObj a w) := by
  refine h.congr rfl rfl fun b => ?_
  by_cases hb : b = a
  · subst hb
    simp [ho]
  · simp [hb]

theorem dropObj (h : Freed s) (ho : s.heap a = some o) : Freed (s.dropObj a) := by
  constructor
  · apply List.nodup_cons.mpr
    refine ⟨?_, h.freed_nodup⟩
    intro hmem
    simp [((h.freed a).mp hmem).2.2] at ho
  · intro b
    rw [SyliState.dropObj_freed, List.mem_cons, h.freed b]
    by_cases hb : b = a
    · subst hb
      simp [h.live b o ho]
    · simp [hb]
  · intro b ob hob
    exact h.live b ob (heap_drop_cases rfl hob).2
  · exact h.next_pos

theorem alloc (h : Freed s) (header : ObjectHeader) (candidate : Bool) :
    Freed ((s.setObj s.next (freshObject s header candidate)).bumpNext) := by
  have hobj : ∀ {b : Addr}, b ≠ s.next →
      ((s.setObj s.next (freshObject s header candidate)).bumpNext).heap b = s.heap b :=
    fun hb => by simp [hb]
  constructor
  · exact h.freed_nodup
  · intro b
    have hb := h.freed b
    simp only [SyliState.bumpNext_freed, SyliState.setObj_freed, hb, SyliState.bumpNext_next,
      SyliState.setObj_next]
    by_cases hbn : b = s.next
    · subst hbn
      simp
    · rw [hobj hbn]
      constructor
      · rintro ⟨hpos, hlt, hno⟩
        exact ⟨hpos, Nat.lt_succ_of_lt hlt, hno⟩
      · rintro ⟨hpos, hlt, hno⟩
        exact ⟨hpos, Nat.lt_of_le_of_ne (Nat.le_of_lt_succ hlt) hbn, hno⟩
  · intro b ob hob
    rcases heap_cases (s := s) rfl hob with ⟨rfl, -⟩ | ⟨-, hb⟩
    · exact ⟨h.next_pos, Nat.lt_succ_self _⟩
    · obtain ⟨hpos, hlt⟩ := h.live b ob hb
      exact ⟨hpos, Nat.lt_succ_of_lt hlt⟩
  · exact Nat.succ_pos _

theorem queueTracing (h : Freed s) (new : List Addr) : Freed (s.queueTracing new) := by
  refine h.congr rfl rfl fun b => ?_
  cases hb : s.heap b with
  | none => simp [flagTracing, hb]
  | some ob =>
    obtain ⟨tracing, hob⟩ := flagTracing_of_heap hb new
    have hne : (s.queueTracing new).heap b = some { ob with tracing := tracing } := hob
    simp only [hne, reduceCtorEq]

theorem removed (h : Freed s) (ho : s.heap a = some o) (hr : Removed s a o s') : Freed s' := by
  cases hr with
  | drop _ _ _ _ => exact { h.dropObj ho with }
  | wait _ _ _ => exact { h.setObj ho with }

theorem giveUp (h : Freed s) (ho : s.heap a = some o) (hg : GiveUp p s a o s') : Freed s' := by
  cases hg with
  | keep _ => exact h.setObj ho
  | queue mark _ _ _ => exact { h.setObj ho (w := { o with refcount := 0, mark := mark }) with }
  | enqueue _ _ => exact { h.setObj ho (w := { o with refcount := 0 }) with }
  | freeImm _ _ => exact h.dropObj ho
  | remove _ _ _ hr =>
    have hs := h.setObj ho (w := { o with refcount := 0 })
    exact hs.removed (by simp) hr

theorem giveUpAll (h : Freed s) (hg : GiveUpAll p s cs s') : Freed s' :=
  hg.invariant (P := fun _ u => Freed u) h fun _ _ _ _ _ hu hc hstep => hu.giveUp hc hstep

theorem releaseOnce (h : Freed s) (hr : releaseChildrenOnce s a = .ok s') : Freed s' := by
  obtain ⟨o, ho, ⟨-, rfl⟩ | ⟨-, n, hg⟩⟩ := releaseChildrenOnce_effect hr
  · exact h
  · have hset : Freed ((s.setObj a { o with childrenReleased := true }).chargeChecking n) :=
      { h.setObj ho (w := { o with childrenReleased := true }) with }
    exact hset.giveUpAll hg

theorem notified (h : Freed s) (hn : Notified operand x y s s') : Freed s' := by
  cases hn with
  | quiet _ => exact h
  | @barrier o t _ _ _ _ _ ht _ =>
    exact { h.setObj ht (w := { t with mark := s.tracingCurrentBitMark }) with }

theorem stored (h : Freed s) (hs : Stored operand x slot y s s') : Freed s' := by
  obtain @⟨u, o, o₁, -, -, -, hold, ho₁, hn⟩ := hs
  have hu : Freed u := by
    rcases hold with ⟨rfl, -⟩ | ⟨c, oc, -, hc, hg⟩
    · exact h
    · exact h.giveUp hc hg
  exact (hu.setObj ho₁).notified hn

theorem releasingStep (h : Freed s) (hs : ReleasingStep s s') : Freed s' := by
  cases hs with
  | start _ => exact { h with }
  | @release v w _ a rest o o' n _ _ _ hg ho' _ hr hs' =>
    have hbase : Freed ((s.setReleasing rest s.releasingWaitlist).chargeReleasing n) :=
      { h with }
    have hw := (hbase.giveUpAll hg).removed ho' hr
    subst hs'
    exact { hw with }

theorem markStep (h : Freed s) (hs : MarkStep s s') : Freed s' := by
  cases hs with
  | popWaiting g _ _ ho _ _ =>
    have hd := h.dropObj ho
    exact { hd with }
  | popSkip _ _ ho _ _ _ => exact { h.setObj ho with }
  | @popMark u a rest new o t b _ _ ho _ _ _ hu _ _ =>
    have hset := h.setObj ho
      (w := { o with tracing := false, mark := s.tracingCurrentBitMark })
    have hu' : Freed u := hu ▸ { hset with }
    exact { hu'.queueTracing new with }
  | mutationsDone _ _ _ => exact { h with }
  | mutationWaiting _ _ ho _ => exact { h.dropObj ho with }
  | @mutationScan a rest o new b _ _ _ _ _ =>
    have hbase : Freed ((s.setMutations rest).setBudgets b) := { h with }
    exact hbase.queueTracing new

theorem reclaimStep (h : Freed s) (hs : ReclaimStep s s') : Freed s' := by
  cases hs with
  | @reclaimFree u _ a rest b _ _ hu hf =>
    have hbase : Freed ((s.setBudgets b).setLostCycleWorklist rest) := { h with }
    obtain ⟨o, ho, hr⟩ := freeReleasedObject_effect hf
    exact (hbase.releaseOnce hu).removed ho hr
  | reclaimDone _ _ _ _ => exact { h with }
  | scanIdle _ _ _ _ => exact { h with }
  | scanMarked _ _ _ _ _ _ _ => exact { h with }
  | @scanRelease u _ a o o' i b _ _ _ _ _ _ hu _ hs' =>
    have hbase : Freed ((s.setBudgets b).setCheckIndex i) := { h with }
    have hu' := hbase.releaseOnce hu
    rcases hs' with ⟨-, rfl⟩ | ⟨-, rfl⟩
    · exact { hu' with }
    · exact hu'

theorem tracingStep {roots : List ObjPtr} (h : Freed s) (hs : TracingStep roots s s') :
    Freed s' := by
  cases hs with
  | @start new t _ _ _ =>
    have hstart : Freed (tracingStart s) := { h with }
    exact { hstart.queueTracing new with }
  | mark hs => exact h.markStep hs
  | reclaim hs => exact h.reclaimStep hs

end Freed

theorem freed_move (h : Freed m.rt) (hm : Move m act m') : Freed m'.rt := by
  cases hm with
  | alloc candidate candidates index g _ _ => exact { h.alloc _ candidate with }
  | load _ _ _ _ hoc _ => exact h.setObj hoc
  | share _ _ ho => exact h.setObj ho
  | drop _ _ ho hg => exact h.giveUp ho hg
  | store _ _ _ hs => exact h.stored hs
  | notify _ _ _ hn => exact h.notified hn
  | storeGlobal _ _ _ => exact h
  | gcCycle b _ => exact { h with }
  | releasing _ hs => exact h.releasingStep hs
  | releasingDone _ => exact h
  | tracing _ _ hs => exact h.tracingStep hs
  | tracingDone _ => exact h

theorem freed_init (env : Env) (globals : Nat) : Freed (Machine.init env globals).rt := by
  constructor <;> simp [Machine.init, syliStateInit]
  exact fun a ha => Nat.ne_of_gt ha

end Syli.Collector
