import Syli.Runtime.VectorRuns

/-! What the chunked vector keeps where an allocation fails. -/
namespace Syli.Runtime.ChunkVector

variable {T : Type} {v w : ChunkVector T} {xs : List T} {a : Allocations} {op : VectorOp T}

def IsPush : VectorOp T → Prop
  | .pushBack _ | .allocSlot _ => True
  | _ => False

/-- The growth that the operation needs calls an allocation that fails. -/
def Fails (a : Allocations) (v : ChunkVector T) : Prop :=
  chunkSize ≤ v.activeOffset ∧
    (v.chunkArrayCapacity ≤ v.activeChunk + 1 ∧ a.realloc = false ∨
      v.chunkCount ≤ v.activeChunk + 1 ∧ a.malloc = false)

/-- What the rest of the program can see of a run: its outcome, and what its vector then returns. -/
def observe (v : ChunkVector T) (steps : List (Allocations × VectorOp T)) (i : Nat) :
    Except VectorFault (Nat × Option SlotAddr × Option T) := do
  let w ← steps.foldlM (fun v s => v.step s.1 s.2) v
  let p ← w.vectorAt i
  return (w.size, p, p.bind w.load)

/-- The failed call stores nothing, and nothing shows that it was made. -/
def Intact (a : Allocations) (v : ChunkVector T) (op : VectorOp T) : Prop :=
  ∃ w, v.step a op = .ok w ∧ w.memory = v.memory ∧ w.size = v.size ∧
    w.chunkArrayCapacity = v.chunkArrayCapacity ∧ w.activeChunk = v.activeChunk ∧
    w.activeOffset = v.activeOffset ∧ ∀ steps i, w.observe steps i = v.observe steps i

/-- The call is one of `alloc_slot` that finds a free word in the pointer array. -/
def Recovers (v : ChunkVector T) (op : VectorOp T) : Prop :=
  (∃ value, op = .allocSlot value) ∧ v.activeChunk + 1 < v.chunkArrayCapacity

/-- The vectors of the runs in which the allocations that fail are those of calls that recover. -/
inductive Reached : ChunkVector T → Prop where
  | init {v w : ChunkVector T} : v.init = .ok w → Reached w
  | step {v w : ChunkVector T} {a : Allocations} {op : VectorOp T} : Reached v →
      (IsPush op → Fails a v → Recovers v op) → v.step a op = .ok w → Reached w

theorem Fails.malloc_of_realloc (h : Fails a v) (hrealloc : a.realloc = true) :
    a.malloc = false := by
  rcases h.2 with ⟨-, hno⟩ | ⟨-, hno⟩
  · rw [hrealloc] at hno
    cases hno
  · exact hno

theorem Fails.malloc_of_room (h : Fails a v) (hroom : v.activeChunk + 1 < v.chunkArrayCapacity) :
    v.chunkCount ≤ v.activeChunk + 1 ∧ a.malloc = false := by
  rcases h.2 with ⟨hno, -⟩ | hmalloc
  · omega
  · exact hmalloc

section Failing

variable (h : Holds v xs) (hfails : Fails a v)

include h hfails

theorem Holds.full_of_fails : v.activeOffset = chunkSize := by
  have := h.offset_le
  have := hfails.1
  omega

/-- Without a free word the cursor has moved and the capacity has changed by the time that
`alloc_slot` returns. -/
theorem Holds.allocSlot_no_room (hroom : ¬ v.activeChunk + 1 < v.chunkArrayCapacity)
    {r : Option SlotAddr} (hr : v.allocSlot a = .ok (r, w)) :
    w.chunkArrayCapacity = uint32 (v.chunkArrayCapacity * 2) := by
  have hge : v.activeOffset ≥ chunkSize := hfails.1
  obtain ⟨-, hchunk, hnextCount, hnextCap⟩ := h.nextChunk (h.full_of_fails hfails)
  have hcapge : v.nextChunk.activeChunk ≥ v.nextChunk.chunkArrayCapacity := by omega
  simp only [allocSlot, hge, if_true, hcapge] at hr
  by_cases hrealloc : a.realloc = true
  · have hmalloc := hfails.malloc_of_realloc hrealloc
    have hcount := h.count_le
    have hactive := h.active
    obtain ⟨hgrowChunk, hgrowCount⟩ := grown_cursor v.nextChunk
    have hcountge : v.nextChunk.doubleCapacity.reallocChunks.activeChunk ≥
        v.nextChunk.doubleCapacity.reallocChunks.chunkCount := by omega
    simp only [hrealloc, if_true, allocChunk, hcountge, mallocActive, hmalloc, setActive] at hr
    by_cases hlt : v.nextChunk.doubleCapacity.reallocChunks.activeChunk <
        v.nextChunk.doubleCapacity.reallocChunks.chunks.length
    · simp only [Bool.false_eq_true, if_false, hlt, if_true] at hr
      cases hr
      rfl
    · simp only [Bool.false_eq_true, if_false, hlt] at hr
      cases hr
  · simp only [hrealloc, Bool.false_eq_true, if_false, Except.ok.injEq, Prod.mk.injEq] at hr
    obtain ⟨-, rfl⟩ := hr
    rfl

/-- With a free word the failed call puts null into it, where no chunk was, and restores the
cursor. -/
theorem Holds.allocSlot_room (hroom : v.activeChunk + 1 < v.chunkArrayCapacity) :
    v.allocSlot a = .ok (none, v) := by
  have hge : v.activeOffset ≥ chunkSize := hfails.1
  have hfull := h.full_of_fails hfails
  have hcap := h.capacity_le
  have hcount := h.count_le
  have hactive := h.active
  have hlength := h.length
  obtain ⟨-, hchunk, hnextCount, hnextCap⟩ := h.nextChunk hfull
  have hcapge : ¬ v.nextChunk.activeChunk ≥ v.nextChunk.chunkArrayCapacity := by omega
  obtain ⟨hexists, hmalloc⟩ := hfails.malloc_of_room hroom
  have hcountge : v.nextChunk.activeChunk ≥ v.nextChunk.chunkCount := by omega
  have hlt : v.nextChunk.activeChunk < v.nextChunk.chunks.length := by
    change v.nextChunk.activeChunk < v.chunks.length
    omega
  have hset : v.nextChunk.chunks.set v.nextChunk.activeChunk none = v.chunks := by
    obtain ⟨hbound, hnone⟩ := List.getElem?_eq_some_iff.mp (h.unused _ hexists hroom)
    have hself := List.set_getElem_self hbound
    rw [hnone] at hself
    rw [hchunk]
    exact hself
  have hback : uint32 (v.nextChunk.activeChunk + 2 ^ 32 - 1) = v.activeChunk := by
    rw [hchunk, uint32_pred (by omega) (by omega), Nat.add_sub_cancel]
  simp only [allocSlot, hge, if_true, hcapge, if_false, allocChunk, hcountge, mallocActive, hmalloc,
    Bool.false_eq_true, setActive, hlt]
  simp only [bind, Except.bind, hset, hback, pure, Except.pure]
  cases v
  simp only at hfull
  simp only [ChunkVector.nextChunk, hfull]

omit h hfails in
/-- `push_back` goes on through the null that `malloc` has returned. -/
theorem pushChunk_malloc_fails {u : ChunkVector T} (hcount : u.activeChunk ≥ u.chunkCount)
    (hmalloc : a.malloc = false) (value : T) : u.pushChunk a value ≠ .ok w := by
  intro hw
  simp only [pushChunk, hcount, if_true, mallocActive, hmalloc, Bool.false_eq_true, if_false,
    setActive] at hw
  by_cases hlt : u.activeChunk < u.chunks.length
  · simp only [hlt, if_true] at hw
    simp [bind, Except.bind, putValue, slot, List.getElem?_set_self hlt] at hw
  · simp only [hlt, if_false] at hw
    cases hw

/-- `push_back` returns from a failed growth only where `realloc` has failed, with the capacity
changed. -/
theorem Holds.pushBack_fails {value : T} (hw : v.pushBack a value = .ok w) :
    w.chunkArrayCapacity = uint32 (v.chunkArrayCapacity * 2) := by
  have hge : v.activeOffset ≥ chunkSize := hfails.1
  have hcount := h.count_le
  obtain ⟨-, hchunk, hnextCount, hnextCap⟩ := h.nextChunk (h.full_of_fails hfails)
  simp only [pushBack, hge, if_true] at hw
  by_cases hroom : v.nextChunk.activeChunk ≥ v.nextChunk.chunkArrayCapacity
  · simp only [hroom, if_true] at hw
    by_cases hrealloc : a.realloc = true
    · rw [if_pos hrealloc] at hw
      refine absurd hw (pushChunk_malloc_fails ?_ (hfails.malloc_of_realloc hrealloc) value)
      change v.nextChunk.activeChunk ≥ v.chunkCount
      omega
    · simp only [hrealloc, Bool.false_eq_true, if_false, Except.ok.injEq] at hw
      rw [← hw]
      rfl
  · simp only [hroom, if_false] at hw
    obtain ⟨hexists, hmalloc⟩ := hfails.malloc_of_room (by omega)
    exact absurd hw (pushChunk_malloc_fails (by omega) hmalloc value)

end Failing

theorem Stores.double_ne (h : Stores v xs) :
    uint32 (v.chunkArrayCapacity * 2) ≠ v.chunkArrayCapacity := by
  have := h.capacity_pos
  have := h.capacity_le
  unfold uint32
  omega

/-- A failed growth leaves the vector intact where the call recovers, and nowhere else. -/
theorem Holds.intact_iff (h : Holds v xs) (hpush : IsPush op) (hfails : Fails a v) :
    Intact a v op ↔ Recovers v op := by
  constructor
  · rintro ⟨w, hstep, -, -, hcap, -⟩
    cases op with
    | pushBack value =>
      exact absurd ((h.pushBack_fails hfails hstep).symm.trans hcap) h.double_ne
    | allocSlot value =>
      refine ⟨⟨value, rfl⟩, ?_⟩
      by_contra hroom
      cases hslot : v.allocSlot a with
      | error e => simp [ChunkVector.step, hslot, bind, Except.bind] at hstep
      | ok r =>
        obtain ⟨p, u⟩ := r
        have hu := h.allocSlot_no_room hfails hroom hslot
        have hwu : w.chunkArrayCapacity = u.chunkArrayCapacity := by
          cases p with
          | none =>
            simp only [ChunkVector.step, hslot, bind, Except.bind, pure, Except.pure,
              Except.ok.injEq] at hstep
            rw [hstep]
          | some p =>
            simp only [ChunkVector.step, hslot, bind, Except.bind, pure, Except.pure,
              Except.ok.injEq] at hstep
            rw [← hstep]
            rfl
        exact h.double_ne (hu.symm.trans (hwu.symm.trans hcap))
    | init | popBack | clear | vectorAt _ | back => exact hpush.elim
  · rintro ⟨⟨value, rfl⟩, hroom⟩
    refine ⟨v, ?_, rfl, rfl, rfl, rfl, rfl, fun _ _ => rfl⟩
    simp only [ChunkVector.step, h.allocSlot_room hfails hroom]
    rfl

theorem pushChunk_congr (hmalloc : v.activeChunk ≥ v.chunkCount → a.malloc = true) (value : T) :
    v.pushChunk a value = v.pushChunk {} value := by
  unfold pushChunk
  split
  · rename_i hge
    simp only [mallocActive, hmalloc hge]
  · rfl

theorem allocChunk_congr (hmalloc : v.activeChunk ≥ v.chunkCount → a.malloc = true) :
    v.allocChunk a = v.allocChunk {} := by
  unfold allocChunk
  split
  · rename_i hge
    simp only [mallocActive, hmalloc hge]
  · rfl

/-- Where no allocation fails, it does not matter which ones would. -/
theorem Holds.step_of_not_fails (h : Holds v xs) (hfails : IsPush op → ¬ Fails a v) :
    v.step a op = v.step {} op := by
  have hactive := h.active
  have hcount := h.count_le
  have hcap := h.capacity_le
  have hchunk : v.nextChunk.activeChunk = v.activeChunk + 1 := uint32_of_lt (by omega)
  have hallocations : IsPush op → chunkSize ≤ v.activeOffset →
      (v.nextChunk.activeChunk ≥ v.chunkArrayCapacity → a.realloc = true) ∧
        (v.nextChunk.activeChunk ≥ v.chunkCount → a.malloc = true) := by
    intro hop hfull
    have hnot := hfails hop
    simp only [Fails, hfull, true_and, not_or, not_and, Bool.not_eq_false] at hnot
    rw [hchunk]
    exact hnot
  have hpush : IsPush op → ∀ value, v.pushBack a value = v.pushBack {} value := by
    intro hop value
    unfold pushBack
    split
    · rename_i hfull
      obtain ⟨hrealloc, hmalloc⟩ := hallocations hop hfull
      dsimp only
      split
      · rename_i hge
        rw [if_pos (hrealloc hge), if_pos rfl]
        exact pushChunk_congr (v := v.nextChunk.doubleCapacity.reallocChunks) hmalloc value
      · exact pushChunk_congr hmalloc value
    · rfl
  have halloc : IsPush op → v.allocSlot a = v.allocSlot {} := by
    intro hop
    unfold allocSlot
    split
    · rename_i hfull
      obtain ⟨hrealloc, hmalloc⟩ := hallocations hop hfull
      dsimp only
      split
      · rename_i hge
        rw [if_pos (hrealloc hge), if_pos rfl]
        exact allocChunk_congr (v := v.nextChunk.doubleCapacity.reallocChunks) hmalloc
      · exact allocChunk_congr hmalloc
    · rfl
  cases op with
  | init | popBack | clear | vectorAt _ | back => rfl
  | pushBack value => exact hpush trivial value
  | allocSlot value =>
    simp only [ChunkVector.step]
    rw [halloc trivial]

theorem Reached.holds (h : Reached v) : ∃ xs, Holds v xs := by
  induction h with
  | init hinit =>
    rename_i v w
    obtain ⟨w', hw', hholds⟩ := holds_init v
    obtain rfl := Except.ok.inj (hinit.symm.trans hw')
    exact ⟨[], hholds⟩
  | @step v w a op _ hrecovers hstep ih =>
    obtain ⟨xs, hv⟩ := ih
    by_cases hfails : IsPush op ∧ Fails a v
    · obtain ⟨⟨value, rfl⟩, hroom⟩ := hrecovers hfails.1 hfails.2
      simp only [ChunkVector.step, hv.allocSlot_room hfails.2 hroom] at hstep
      obtain rfl := Except.ok.inj hstep
      exact ⟨xs, hv⟩
    · rw [hv.step_of_not_fails fun hp hf => hfails ⟨hp, hf⟩] at hstep
      by_cases hfits : Fits xs op
      · obtain ⟨w', hw', hholds, -⟩ := hv.step hfits
        obtain rfl := Except.ok.inj (hstep.symm.trans hw')
        exact ⟨_, hholds⟩
      · rw [hv.step_of_not_fits hfits] at hstep
        cases hstep

theorem reached_of_run {ops : List (VectorOp T)} (hrun : run ops = .ok v) : Reached v := by
  induction ops using List.reverseRecOn generalizing v with
  | nil =>
    unfold run at hrun
    cases hinit : (start : ChunkVector T).init with
    | error e =>
      rw [hinit] at hrun
      cases hrun
    | ok w =>
      rw [hinit] at hrun
      cases hrun
      exact .init hinit
  | append_singleton pre op ih =>
    rw [run_append] at hrun
    cases hpre : run pre with
    | error e =>
      rw [hpre] at hrun
      cases hrun
    | ok w =>
      rw [hpre] at hrun
      refine .step (ih hpre) (fun _ hfails => ?_) hrun
      rcases hfails.2 with ⟨-, hno⟩ | ⟨-, hno⟩ <;> cases hno

/-- Pushes into the first chunk call no allocation. -/
theorem run_first_chunk {n : Nat} (hn : n ≤ chunkSize) :
    ∃ v : ChunkVector Nat, run (List.replicate n (.pushBack 0)) = .ok v ∧ v.activeChunk = 0 ∧
      v.chunkCount = 1 ∧ v.chunkArrayCapacity = initialChunkArrayCapacity ∧
      Holds v (List.replicate n 0) := by
  induction n with
  | zero => exact ⟨_, rfl, rfl, rfl, rfl, by
      obtain ⟨v, hinit, hv⟩ := holds_init (start : ChunkVector Nat)
      cases hinit
      exact hv⟩
  | succ n ih =>
    obtain ⟨v, hrun, hchunk, hcount, hcap, hv⟩ := ih (by omega)
    have hcursor := hv.cursor
    have hoffset : v.activeOffset < chunkSize := by
      rw [hchunk, List.length_replicate] at hcursor
      omega
    have hnot : ¬ v.activeOffset ≥ chunkSize := by omega
    obtain ⟨p, hslot, hw⟩ := hv.advance_store (x := 0) hoffset
    refine ⟨(v.store p 0).advance, ?_, hchunk, hcount, hcap, ?_⟩
    · rw [List.replicate_succ', run_append, hrun]
      change v.pushBack {} 0 = _
      simp only [pushBack, hnot, if_false, putValue, hslot]
      rfl
    · rwa [List.replicate_succ']

/-- A full first chunk, behind which a push has to allocate. -/
theorem exists_full : ∃ v : ChunkVector Nat, run (List.replicate chunkSize (.pushBack 0)) = .ok v ∧
    Holds v (List.replicate chunkSize 0) ∧ Fails ⟨false, true⟩ v ∧
    v.activeChunk + 1 < v.chunkArrayCapacity := by
  obtain ⟨v, hrun, hchunk, hcount, hcap, hv⟩ := run_first_chunk (Nat.le_refl chunkSize)
  have hcursor := hv.cursor
  rw [hchunk, List.length_replicate] at hcursor
  refine ⟨v, hrun, hv, ⟨by omega, Or.inr ⟨by omega, rfl⟩⟩, ?_⟩
  rw [hchunk, hcap]
  decide

/-- In every run whose failing allocations are those of calls that recover, a call with a failing
allocation leaves the vector intact exactly where it recovers. -/
theorem intact_iff_recovers (hv : Reached v) (hpush : IsPush op) (hfails : Fails a v) :
    Intact a v op ↔ Recovers v op := by
  obtain ⟨xs, h⟩ := hv.holds
  exact h.intact_iff hpush hfails

/-- A slot that cannot be allocated behind 512 elements leaves the vector intact. -/
theorem slot_recovers : ∃ v : ChunkVector Nat,
    run (List.replicate chunkSize (.pushBack 0)) = .ok v ∧
      Intact ⟨false, true⟩ v (.allocSlot 0) := by
  obtain ⟨v, hrun, -, hfails, hroom⟩ := exists_full
  have hpush : IsPush (VectorOp.allocSlot 0) := trivial
  exact ⟨v, hrun,
    (intact_iff_recovers (reached_of_run hrun) hpush hfails).mpr ⟨⟨0, rfl⟩, hroom⟩⟩

/-- The push behind 512 elements for which `malloc` returns null does not. -/
theorem push_not_intact : ∃ v : ChunkVector Nat,
    run (List.replicate chunkSize (.pushBack 0)) = .ok v ∧ Fails ⟨false, true⟩ v ∧
      ¬ Intact ⟨false, true⟩ v (.pushBack 0) := by
  obtain ⟨v, hrun, hv, hfails, -⟩ := exists_full
  refine ⟨v, hrun, hfails, fun hintact => ?_⟩
  have hpush : IsPush (VectorOp.pushBack 0) := trivial
  obtain ⟨⟨value, hop⟩, -⟩ := (hv.intact_iff hpush hfails).mp hintact
  cases hop

end Syli.Runtime.ChunkVector
