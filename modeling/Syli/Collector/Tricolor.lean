import Syli.Foundation.Reach
import Syli.Collector.Marking

/-! The marking invariant of the mutator: what it reaches is marked once a trace is over, and is
marked or still queued while the trace is under way. -/
namespace Syli.Collector

open Foundation Syli.Runtime

variable {s s' : SyliState} {m m' : Machine} {a x y : Addr} {act : Action}

/-- What the mutator reaches through references that are still counted. -/
def Live (m : Machine) : Addr → Prop := Reach (fun x y => y ∈ m.rt.outRefs x) (· ∈ m.held)

/-- The invariant of a trace under way. -/
structure Grey (m : Machine) : Prop where
  held : ∀ a ∈ m.held, Shaded m.rt a
  covered : Covered (Live m) m.rt

structure Tricolor (m : Machine) : Prop where
  intact : ∀ a, Live m a → Intact m a
  grey : InTrace m.rt.tracingState → Grey m
  settled : ¬ InTrace m.rt.tracingState → ∀ a, Live m a → Marked m.rt a

theorem Exact.live (h : Exact m) (ha : Live m a) : Counted m.rt a := by
  rcases ha.cases_last with hr | ⟨x, -, hxa⟩
  · exact h.exists_of_claim (List.mem_append_left _ hr)
  · exact Ledger.counted_of_outRefs h hxa

/-- A trace whose worklists are empty has marked everything the mutator reaches. -/
theorem Grey.settled (h : Grey m) (hwl : m.rt.tracingWorklist = [])
    (hm : m.rt.tracingMutationsWorklist = []) (ha : Live m a) : Marked m.rt a := by
  refine ha.closed ?_ fun x _ hx hmx hxy => h.covered.marked hwl hm hx hmx hxy
  intro b hb
  rcases h.held b hb with hmark | hmem
  · exact hmark
  · simp [hwl] at hmem

/-- What the mutator holds is shaded during a trace, and marked outside of one. -/
theorem Tricolor.shaded (ht : Tricolor m) (hx : x ∈ m.held) : Shaded m.rt x := by
  by_cases hst : InTrace m.rt.tracingState
  · exact (ht.grey hst).held x hx
  · exact Or.inl (ht.settled hst x (.root hx))

/-- A step that reaches nothing new, touches no child flag of what is reached, and takes hold only
of shaded objects. -/
structure Follows (m m' : Machine) : Prop where
  respects : Respects m.rt m'.rt
  live : ∀ a, Live m' a → Live m a
  intact : ∀ a, Live m' a → Intact m a → Intact m' a
  held : ∀ a ∈ m'.held, a ∈ m.held ∨ Shaded m'.rt a

theorem Respects.follows (hr : Respects m.rt m'.rt)
    (hheld : ∀ a ∈ m'.held, a ∈ m.held ∨ Live m a ∧ Shaded m'.rt a)
    (hout : ∀ x y, y ∈ m'.rt.outRefs x → y ∈ m.rt.outRefs x ∨ Live m y)
    (hcr : ∀ a, Live m a → Intact m a → Intact m' a) : Follows m m' := by
  have hlive : ∀ a, Live m' a → Live m a := fun a ha => ha.transfer
    (fun b hb => (hheld b hb).elim .root And.left)
    fun x y hx hxy => (hout x y hxy).elim (.step hx) id
  exact ⟨hr, hlive, fun a ha => hcr a (hlive a ha), fun a ha => (hheld a ha).imp_right And.right⟩

theorem Grey.step (h : Grey m) (h' : Exact m') (hf : Follows m m') : Grey m' where
  held a ha := by
    rcases hf.held a ha with hh | hs
    · exact hf.respects.shaded (h'.live (.root ha)) (h.held a hh)
    · exact hs
  covered := hf.respects.covered h' hf.live (fun _ => h'.live) h.covered

/-- The invariant survives a step that leaves a trace only with empty worklists. -/
theorem Tricolor.step (h : Tricolor m) (h' : Exact m') (hf : Follows m m')
    (hstate : InTrace m'.rt.tracingState → InTrace m.rt.tracingState) : Tricolor m' where
  intact a ha := hf.intact a ha (h.intact a (hf.live a ha))
  grey ht := (h.grey (hstate ht)).step h' hf
  settled hn a ha := by
    by_cases ht : InTrace m.rt.tracingState
    · obtain ⟨hwl, hm⟩ := h'.quiet hn
      exact ((h.grey ht).step h' hf).settled hwl hm ha
    · exact hf.respects.marked a (h'.live ha) (h.settled ht a (hf.live a ha))

theorem tricolor_alloc (h : Exact m) (ht : Tricolor m)
    (hs : Allocated m.rt m'.rt) (hheld : m'.held = m.rt.next :: m.held) : Tricolor m' := by
  have hfresh : m.rt.heap m.rt.next = none := h.fresh _ (Nat.le_refl _)
  have hlive : ∀ a, Live m' a → Live m a ∨ a = m.rt.next := by
    intro a ha
    refine Reach.closed (P := fun b => Live m b ∨ b = m.rt.next) ha ?_ ?_
    · intro b hb
      rw [hheld] at hb
      exact (List.mem_cons.mp hb).symm.imp_left .root
    · rintro x y - (hx | rfl) hxy
      · exact Or.inl (.step hx (hs.outRefs ▸ hxy))
      · rw [hs.outRefs, outRefs_of_none hfresh] at hxy
        simp at hxy
  have hnew : Marked m'.rt m.rt.next := by
    obtain ⟨o', ho'⟩ := hs.fresh
    rcases hs.obj ho' with ⟨-, -, hm⟩ | ⟨hne, -⟩
    · exact ⟨o', ho', hm.trans hs.bit.symm⟩
    · exact absurd rfl hne
  have hmarked : ∀ a, Marked m.rt a → Marked m'.rt a := fun a => hs.marked hfresh
  refine ⟨?_, fun hst => ⟨?_, ?_⟩, ?_⟩
  · intro a ha o ho
    rcases hs.obj ho with ⟨-, hcr, -⟩ | ⟨hne, ho⟩
    · exact hcr
    · exact ht.intact a ((hlive a ha).resolve_right hne) o ho
  · intro a ha
    rw [hheld] at ha
    rcases List.mem_cons.mp ha with rfl | ha
    · exact Or.inl hnew
    · exact ((ht.grey (hs.state ▸ hst)).held a ha).imp (hmarked a) (hs.worklist ▸ ·)
  · exact hs.covered h hlive (ht.grey (hs.state ▸ hst)).covered
  · intro hst a ha
    rcases hlive a ha with ha | rfl
    · exact hmarked a (ht.settled (hs.state ▸ hst) a ha)
    · exact hnew

/-- The start of a trace queues the references of the mutator. -/
theorem tricolor_start {roots : List ObjPtr} (h' : Exact { m with rt := s' }) (ht : Tricolor m)
    (hidle : m.rt.tracingState = .idle) (hs : TracingStep roots m.rt s')
    (hroots : ∀ a ∈ m.held, ObjPtr.own a ∈ roots) : Tricolor { m with rt := s' } := by
  have hst := started_of_idle hidle hs
  have hsettled := ht.settled (by simp [hidle, InTrace])
  have hlive : ∀ a, Live { m with rt := s' } a → Live m a :=
    fun a ha => ha.mono (fun _ => id) fun x y hxy => hst.outRefs_subset x hxy
  have hgrey : Grey { m with rt := s' } := by
    refine ⟨fun a ha => Or.inr (hst.queued h' (hroots a ha)), ?_⟩
    exact hst.covered fun a ha => hsettled a (hlive a ha)
  refine ⟨?_, fun _ => hgrey, ?_⟩
  · intro a ha o' ho'
    obtain ⟨o, ho, -, hcr, -⟩ := hst.obj ho'
    exact hcr.trans (ht.intact a (hlive a ha) o ho)
  · intro hn a ha
    obtain ⟨hwl, hm⟩ := hst.state hn
    exact hgrey.settled hwl hm ha

end Syli.Collector
