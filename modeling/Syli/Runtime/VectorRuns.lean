import Syli.Runtime.VectorLists
import Mathlib.Data.List.Induction

/-! Runs of the operations of the chunked vector against the operations of lists. -/
namespace Syli.Runtime.ChunkVector

variable {T : Type} {v w : ChunkVector T} {xs : List T} {x : T} {i : Nat} {op : VectorOp T}
variable {ops : List (VectorOp T)}

/-- What an operation does to the list of the elements. -/
def contents (xs : List T) : VectorOp T → List T
  | .init | .clear => []
  | .pushBack value | .allocSlot value => xs ++ [value]
  | .popBack => xs.dropLast
  | .vectorAt _ | .back => xs

/-- The position of the next element by the cursor. -/
def nextPosition (v : ChunkVector T) : Nat × Nat :=
  if v.activeOffset ≥ chunkSize then (v.activeChunk + 1, 0) else (v.activeChunk, v.activeOffset)

/-- The position of the last element by the cursor. -/
def lastPosition (v : ChunkVector T) : Nat × Nat :=
  if v.activeOffset > 0 then (v.activeChunk, v.activeOffset - 1)
  else (v.activeChunk - 1, chunkSize - 1)

/-- The vector behaves as the list. -/
structure Behaves (v : ChunkVector T) (xs : List T) : Prop where
  size : v.size = xs.length
  empty : v.empty = xs.isEmpty
  at_some : ∀ (i : Nat) (x : T), xs[i]? = some x →
    ∃ p, v.vectorAt i = .ok (some p) ∧ v.load p = some x
  at_none : ∀ i, v.vectorAt i = .ok none ↔ xs.length ≤ i
  back_some : ∀ x, xs.getLast? = some x → ∃ p, v.back = .ok (some p) ∧ v.load p = some x
  back_none : v.back = .ok none ↔ xs = []
  next : v.nextPosition = indexToChunk xs.length
  last : xs ≠ [] → v.lastPosition = indexToChunk (xs.length - 1)

theorem Holds.nextPosition (h : Holds v xs) : v.nextPosition = indexToChunk xs.length := by
  have := h.cursor
  have := h.offset_le
  have := h.active
  have := h.count_le
  have := h.capacity_le
  unfold ChunkVector.nextPosition indexToChunk uint32
  unfold chunkSize at *
  split
  · refine Prod.ext ?_ ?_ <;> simp only <;> omega
  · refine Prod.ext ?_ ?_ <;> simp only <;> omega

theorem Holds.lastPosition (h : Holds v xs) (hne : xs ≠ []) :
    v.lastPosition = indexToChunk (xs.length - 1) := by
  have := h.cursor
  have := h.offset_le
  have := h.active
  have := h.count_le
  have := h.capacity_le
  have := List.length_pos_iff.mpr hne
  unfold ChunkVector.lastPosition indexToChunk uint32
  unfold chunkSize at *
  split
  · refine Prod.ext ?_ ?_ <;> simp only <;> omega
  · refine Prod.ext ?_ ?_ <;> simp only <;> omega

theorem Holds.behaves (h : Holds v xs) : Behaves v xs where
  size := h.total
  empty := by
    have := h.total
    cases xs <;> simp_all [ChunkVector.empty]
  at_some i x hx := by
    rcases h.vectorAt i with ⟨x', p, hx', hat, hload⟩ | ⟨hle, -⟩
    · obtain rfl : x' = x := Option.some.inj (hx'.symm.trans hx)
      exact ⟨p, hat, hload⟩
    · rw [List.getElem?_eq_none hle] at hx
      cases hx
  at_none i := by
    rcases h.vectorAt i with ⟨x, p, hx, hat, -⟩ | ⟨hle, hat⟩
    · have hlt := (List.getElem?_eq_some_iff.mp hx).1
      simp only [hat, Except.ok.injEq, reduceCtorEq, false_iff]
      omega
    · simp [hat, hle]
  back_some x hx := by
    have hne : xs.length ≠ 0 := by
      rintro hzero
      obtain rfl := List.length_eq_zero_iff.mp hzero
      cases hx
    rw [h.back_eq, if_neg hne]
    rw [List.getLast?_eq_getElem?] at hx
    rcases h.vectorAt (xs.length - 1) with ⟨x', p, hx', hat, hload⟩ | ⟨hle, -⟩
    · obtain rfl : x' = x := Option.some.inj (hx'.symm.trans hx)
      exact ⟨p, hat, hload⟩
    · omega
  back_none := by
    rw [h.back_eq]
    by_cases hzero : xs.length = 0
    · simp [List.length_eq_zero_iff.mp hzero]
    · rw [if_neg hzero]
      have hne : xs ≠ [] := fun hnil => hzero (by simp [hnil])
      rcases h.vectorAt (xs.length - 1) with ⟨x, p, -, hat, -⟩ | ⟨hle, -⟩
      · simp [hat, hne]
      · omega
  next := h.nextPosition
  last := h.lastPosition

section Steps

theorem holds_init (v : ChunkVector T) : ∃ w, v.init = .ok w ∧ Holds w [] := by
  let u : ChunkVector T := { v with
    chunks := List.replicate initialChunkArrayCapacity none
    chunkArrayCapacity := initialChunkArrayCapacity
    chunkCount := 0
    activeChunk := 0
    activeOffset := 0
    totalElements := 0 }
  have hnone : ∀ i b : Nat, u.chunks[i]? ≠ some (some b) := by
    intro i b hb
    have hmem := List.mem_of_getElem? hb
    cases List.eq_of_mem_replicate hmem
  have hu : Stores u [] :=
    { total := rfl
      cursor := by simp [u]
      offset_le := by simp [u]
      capacity := ⟨0, Nat.zero_le _, (Nat.one_mul _).symm⟩
      length := List.length_replicate
      count_le := Nat.zero_le _
      block := fun i hi => absurd hi (Nat.not_lt_zero i)
      unused := fun i _ hi => by
        simp only [u, List.getElem?_replicate]
        rw [if_pos hi]
      distinct := fun i j b hi _ => absurd hi (hnone i b)
      elements := fun i x hx => by simp at hx }
  have hroom : 0 < initialChunkArrayCapacity := by decide
  obtain ⟨w, hmalloc, hholds, -, hcount, -⟩ := hu.malloc rfl hroom
  rw [hcount] at hholds
  refine ⟨{ w with chunkCount := 1 }, ?_, hholds⟩
  have hinit : v.init = (u.mallocActive {}).bind fun w => .ok { w with chunkCount := 1 } := rfl
  rw [hinit, hmalloc]
  rfl

theorem Holds.clear (h : Holds v xs) : Holds v.clear [] where
  total := rfl
  cursor := by simp [ChunkVector.clear]
  offset_le := by simp [ChunkVector.clear]
  capacity := h.capacity
  length := h.length
  count_le := h.count_le
  block := h.block
  unused := h.unused
  distinct := h.distinct
  elements i x hx := by simp at hx
  active := Nat.zero_lt_of_lt h.active

theorem Holds.popBack (h : Holds v xs) : Holds v.popBack xs.dropLast := by
  have htotal := h.total
  have hcursor := h.cursor
  have hactive := h.active
  have hoffset := h.offset_le
  have hcount := h.count_le
  have hcap := h.capacity_le
  have helements : ∀ (i : Nat) (x : T), xs.dropLast[i]? = some x → xs[i]? = some x := by
    intro i x hx
    rw [List.getElem?_dropLast] at hx
    split at hx
    · exact hx
    · cases hx
  unfold ChunkVector.popBack
  by_cases hzero : v.totalElements = 0
  · obtain rfl : xs = [] := List.length_eq_zero_iff.mp (by omega)
    rw [if_pos hzero]
    exact h
  · rw [if_neg hzero]
    by_cases hpos : v.activeOffset > 0
    · simp only [hpos, if_true]
      exact
        { total := by simp [htotal]
          cursor := by
            simp only [List.length_dropLast]
            omega
          offset_le := by
            simp only
            omega
          capacity := h.capacity
          length := h.length
          count_le := h.count_le
          block := h.block
          unused := h.unused
          distinct := h.distinct
          active := h.active
          elements := fun i x hx => h.elements i x (helements i x hx) }
    · simp only [hpos, if_false]
      unfold chunkSize at hcursor
      have hcursor' : (v.activeChunk - 1) * chunkSize + 511 = xs.dropLast.length := by
        obtain ⟨k, hk⟩ : ∃ k, v.activeChunk = k + 1 := ⟨v.activeChunk - 1, by omega⟩
        rw [hk, Nat.mul_comm] at hcursor
        rw [List.length_dropLast, hk, Nat.add_sub_cancel, Nat.mul_comm]
        unfold chunkSize
        omega
      have hle : 511 ≤ chunkSize := by decide
      have hchunk : v.activeChunk - 1 < v.chunkCount := by omega
      have hpred : uint32 (v.activeChunk + 2 ^ 32 - 1) = v.activeChunk - 1 :=
        uint32_pred (by omega) (by omega)
      have hlast : chunkSize - 1 = 511 := by decide
      rw [hpred, hlast]
      exact
        { total := by simp [htotal]
          cursor := hcursor'
          offset_le := hle
          capacity := h.capacity
          length := h.length
          count_le := h.count_le
          block := h.block
          unused := h.unused
          distinct := h.distinct
          active := hchunk
          elements := fun i x hx => h.elements i x (helements i x hx) }

/-- A growing operation finds room for one more element. -/
def Fits (xs : List T) : VectorOp T → Prop
  | .pushBack _ | .allocSlot _ => xs.length < maxElements
  | _ => True

/-- The elements that are there before and after keep their addresses. -/
def AddressesKept (v w : ChunkVector T) (n : Nat) : Prop := ∀ i < n, w.vectorAt i = v.vectorAt i

theorem Holds.addressesKept {ys : List T} (h : Holds v xs) (h' : Holds w ys)
    (hkept : ∀ i b : Nat, v.chunks[i]? = some (some b) → w.chunks[i]? = some (some b)) :
    AddressesKept v w (min xs.length ys.length) := by
  intro i hi
  obtain ⟨b, hb⟩ := h.exists_block (i := i) (by omega)
  rw [h.vectorAt_eq (by omega) hb, h'.vectorAt_eq (by omega) (hkept _ b hb)]

/-- Every operation that fits does to the vector what it does to the list. -/
theorem Holds.step (h : Holds v xs) (hfits : Fits xs op) :
    ∃ w, v.step {} op = .ok w ∧ Holds w (contents xs op) ∧
      (op ≠ .init → AddressesKept v w (min xs.length (contents xs op).length)) := by
  have hsame : ∀ {w : ChunkVector T} {ys : List T}, Holds w ys → w.chunks = v.chunks →
      AddressesKept v w (min xs.length ys.length) := by
    intro w ys hw hchunks
    exact h.addressesKept hw fun i b hb => hchunks ▸ hb
  cases op with
  | init =>
    obtain ⟨w, hinit, hw⟩ := holds_init v
    exact ⟨w, hinit, hw, fun hno => (hno rfl).elim⟩
  | pushBack value =>
    obtain ⟨v', hp⟩ := h.prepare hfits
    obtain ⟨p, hslot, hw⟩ := hp.holds.advance_store (x := value) hp.offset
    refine ⟨_, ?_, hw, fun _ => h.addressesKept hw hp.kept⟩
    simp only [ChunkVector.step, hp.pushBack, putValue, hslot]
    rfl
  | allocSlot value =>
    obtain ⟨v', hp⟩ := h.prepare hfits
    obtain ⟨p, hslot, hw⟩ := hp.holds.advance_store (x := value) hp.offset
    refine ⟨_, ?_, hw, fun _ => h.addressesKept hw hp.kept⟩
    simp only [ChunkVector.step, hp.allocSlot, takeSlot, hslot]
    rfl
  | popBack =>
    refine ⟨v.popBack, rfl, h.popBack, fun _ => hsame h.popBack ?_⟩
    unfold ChunkVector.popBack
    split
    · rfl
    · dsimp only
      split <;> rfl
  | clear => exact ⟨v.clear, rfl, h.clear, fun _ => hsame h.clear rfl⟩
  | vectorAt index =>
    refine ⟨v, ?_, h, fun _ => hsame h rfl⟩
    rcases h.vectorAt index with ⟨x, p, -, hat, -⟩ | ⟨-, hat⟩ <;>
    · simp only [ChunkVector.step, hat]
      rfl
  | back =>
    refine ⟨v, ?_, h, fun _ => hsame h rfl⟩
    have hback : ∃ r, v.back = .ok r := by
      rw [h.back_eq]
      split
      · exact ⟨none, rfl⟩
      · rcases h.vectorAt (xs.length - 1) with ⟨x, p, -, hat, -⟩ | ⟨-, hat⟩
        · exact ⟨some p, hat⟩
        · exact ⟨none, hat⟩
    obtain ⟨r, hr⟩ := hback
    simp only [ChunkVector.step, hr]
    rfl

/-- Where an operation does not fit, the vector faults. -/
theorem Holds.step_full (h : Holds v xs) (hfull : xs.length = maxElements) (hfits : ¬ Fits xs op) :
    v.step {} op = .error .outOfRange := by
  obtain ⟨hpush, halloc⟩ := h.full hfull
  cases op with
  | pushBack value => exact hpush value
  | allocSlot value =>
    simp only [ChunkVector.step, halloc]
    rfl
  | init | popBack | clear | vectorAt _ | back => exact (hfits trivial).elim

theorem length_le_maxElements (h : Holds v xs) : xs.length ≤ maxElements := by
  have := h.cursor
  have := h.offset_le
  have := h.active
  have := h.count_le
  have := h.capacity_le
  unfold maxElements chunkSize at *
  omega

theorem Holds.step_of_not_fits (h : Holds v xs) (hfits : ¬ Fits xs op) :
    v.step {} op = .error .outOfRange := by
  have := length_le_maxElements h
  refine h.step_full ?_ hfits
  by_contra hne
  refine hfits ?_
  cases op <;> first | exact trivial | exact Nat.lt_of_le_of_ne this hne

end Steps

section Runs

/-- A run whose first operation is `init`, in which no allocation fails. -/
def run (ops : List (VectorOp T)) : Except VectorFault (ChunkVector T) :=
  (start : ChunkVector T).init >>= fun v => ops.foldlM (fun v op => v.step {} op) v

/-- The elements after the operations. -/
def listOf (ops : List (VectorOp T)) : List T := ops.foldl contents []

/-- No growing operation of the run finds the largest number of elements. -/
def RunFits (ops : List (VectorOp T)) : Prop :=
  ∀ pre op post, ops = pre ++ op :: post → Fits (listOf pre) op

theorem run_append (pre : List (VectorOp T)) (op : VectorOp T) :
    run (pre ++ [op]) = run pre >>= fun v => v.step {} op := by
  unfold run
  cases (start : ChunkVector T).init with
  | error e => rfl
  | ok v =>
    change (pre ++ [op]).foldlM _ v = pre.foldlM _ v >>= _
    rw [List.foldlM_append]
    cases pre.foldlM (fun v op => v.step {} op) v with
    | error e => rfl
    | ok w =>
      change [op].foldlM _ w = w.step {} op
      rw [List.foldlM_cons]
      cases w.step {} op <;> rfl

theorem listOf_append (pre : List (VectorOp T)) (op : VectorOp T) :
    listOf (pre ++ [op]) = contents (listOf pre) op := by
  simp [listOf]

/-- A run that fits ends with a vector that holds the elements. -/
theorem holds_run (ops : List (VectorOp T)) (hfits : RunFits ops) :
    ∃ v, run ops = .ok v ∧ Holds v (listOf ops) := by
  induction ops using List.reverseRecOn with
  | nil =>
    obtain ⟨v, hinit, hv⟩ := holds_init (start : ChunkVector T)
    refine ⟨v, ?_, hv⟩
    unfold run
    rw [hinit]
    rfl
  | append_singleton pre op ih =>
    obtain ⟨v, hrun, hv⟩ := ih fun pre' op' post heq =>
      hfits pre' op' (post ++ [op]) (by rw [heq]; simp)
    obtain ⟨w, hstep, hw, -⟩ := hv.step (hfits pre op [] (by simp))
    refine ⟨w, ?_, by rw [listOf_append]; exact hw⟩
    rw [run_append, hrun]
    exact hstep

/-- A run faults at the first growing operation that does not fit. -/
theorem run_of_not_fits {pre : List (VectorOp T)} (hpre : RunFits pre)
    (hop : ¬ Fits (listOf pre) op) : run (pre ++ [op]) = .error .outOfRange := by
  obtain ⟨v, hrun, hv⟩ := holds_run pre hpre
  rw [run_append, hrun]
  exact hv.step_of_not_fits hop

/-- The run behaves as the run of the list: after each of its operations, and with the elements
where they were. -/
def BehavesAsList (ops : List (VectorOp T)) : Prop :=
  ∀ pre, pre <+: ops → ∃ v, run pre = .ok v ∧ Behaves v (listOf pre) ∧
    ∀ op, pre ++ [op] <+: ops → op ≠ .init → ∃ w, run (pre ++ [op]) = .ok w ∧
      AddressesKept v w (min (listOf pre).length (listOf (pre ++ [op])).length)

theorem RunFits.of_prefix {pre : List (VectorOp T)} (h : RunFits ops) (hp : pre <+: ops) :
    RunFits pre := by
  obtain ⟨rest, rfl⟩ := hp
  intro pre' op post heq
  exact h pre' op (post ++ rest) (by rw [heq]; simp)

/-- The vector is a list in the runs in which no push finds it with 2^40 elements, and in no other. -/
theorem behavesAsList_iff (ops : List (VectorOp T)) : BehavesAsList ops ↔ RunFits ops := by
  constructor
  · intro h pre op post heq
    induction hn : pre.length using Nat.strong_induction_on generalizing pre op post with
    | _ n ih =>
      have hpre : RunFits pre := by
        intro pre' op' post' heq'
        have hlt : pre'.length < n := by
          rw [← hn, heq']
          simp
        exact ih pre'.length hlt pre' op' (post' ++ op :: post) (by rw [heq, heq']; simp) rfl
      by_contra hnot
      obtain ⟨w, hw, -⟩ := h (pre ++ [op]) ⟨post, by rw [heq]; simp⟩
      rw [run_of_not_fits hpre hnot] at hw
      cases hw
  · intro hfits pre hp
    obtain ⟨v, hrun, hv⟩ := holds_run pre (hfits.of_prefix hp)
    refine ⟨v, hrun, hv.behaves, fun op hop hne => ?_⟩
    have hop' : Fits (listOf pre) op := hfits.of_prefix hop pre op [] (by simp)
    obtain ⟨w, hstep, -, haddr⟩ := hv.step hop'
    rw [listOf_append]
    refine ⟨w, ?_, haddr hne⟩
    rw [run_append, hrun]
    exact hstep

theorem listOf_replicate (n : Nat) (x : T) :
    listOf (List.replicate n (VectorOp.pushBack x)) = List.replicate n x := by
  induction n with
  | zero => rfl
  | succ n ih => rw [List.replicate_succ', listOf_append, ih, List.replicate_succ', contents]

theorem runFits_replicate {n : Nat} (hn : n ≤ maxElements) (x : T) :
    RunFits (List.replicate n (VectorOp.pushBack x)) := by
  intro pre op post heq
  obtain ⟨hlength, hpre, hrest⟩ := List.replicate_eq_append_iff.mp heq
  have hop : op = VectorOp.pushBack x :=
    List.eq_of_mem_replicate (n := post.length + 1)
      (by rw [← List.length_cons (a := op), ← hrest]; simp)
  rw [hpre, listOf_replicate, hop]
  simp only [Fits, List.length_replicate]
  simp only [List.length_cons] at hlength
  omega

/-- One push more than 2^40 writes beyond a pointer array of no words. -/
theorem push_overflows : ¬ BehavesAsList (List.replicate (maxElements + 1) (VectorOp.pushBack 0)) := by
  intro h
  have hfull : ¬ Fits (listOf (List.replicate maxElements (VectorOp.pushBack 0)))
      (.pushBack 0) := by
    rw [listOf_replicate]
    simp only [Fits, List.length_replicate, lt_irrefl, not_false_eq_true]
  obtain ⟨v, hrun, -⟩ := h _ List.prefix_rfl
  rw [List.replicate_succ', run_of_not_fits (runFits_replicate (Nat.le_refl _) 0) hfull] at hrun
  cases hrun

end Runs

end Syli.Runtime.ChunkVector
