import Syli.Runtime.ChunkVector
import Mathlib.Tactic.Ring

/-! The chunked vector holds a list, up to the number of elements at which its 32-bit capacity wraps
around. -/
namespace Syli.Runtime.ChunkVector

variable {T : Type} {v w : ChunkVector T} {xs : List T} {x : T} {i j b : Nat} {p : SlotAddr}
variable {a : Allocations}

theorem uint32_of_lt {n : Nat} (h : n < 2 ^ 32) : uint32 n = n := Nat.mod_eq_of_lt h

theorem uint32_pred {n : Nat} (hpos : 0 < n) (h : n < 2 ^ 32) :
    uint32 (n + 2 ^ 32 - 1) = n - 1 := by
  unfold uint32
  omega

/-- The chunks hold the elements, and the cursor stands behind the last one. -/
structure Stores (v : ChunkVector T) (xs : List T) : Prop where
  total : v.totalElements = xs.length
  cursor : v.activeChunk * chunkSize + v.activeOffset = xs.length
  offset_le : v.activeOffset ≤ chunkSize
  capacity : ∃ k ≤ 25, v.chunkArrayCapacity = 2 ^ k * initialChunkArrayCapacity
  length : v.chunks.length = v.chunkArrayCapacity
  count_le : v.chunkCount ≤ v.chunkArrayCapacity
  block : ∀ i < v.chunkCount, ∃ b < v.blocks, v.chunks[i]? = some (some b)
  unused : ∀ i : Nat, v.chunkCount ≤ i → i < v.chunkArrayCapacity → v.chunks[i]? = some none
  distinct : ∀ i j b : Nat, v.chunks[i]? = some (some b) → v.chunks[j]? = some (some b) → i = j
  elements : ∀ (i : Nat) (x : T), xs[i]? = some x →
    ∃ b, v.chunks[i / chunkSize]? = some (some b) ∧ v.memory (b, i % chunkSize) = some x

/-- The vector between two operations: the chunk of the cursor exists. -/
structure Holds (v : ChunkVector T) (xs : List T) : Prop extends Stores v xs where
  active : v.activeChunk < v.chunkCount

namespace Stores

variable (h : Stores v xs)

include h

theorem capacity_le : v.chunkArrayCapacity ≤ 2 ^ 31 := by
  obtain ⟨k, hk, hcap⟩ := h.capacity
  have hpow : 2 ^ k ≤ 2 ^ 25 := Nat.pow_le_pow_right (by omega) hk
  unfold initialChunkArrayCapacity at hcap
  omega

theorem capacity_pos : 0 < v.chunkArrayCapacity := by
  obtain ⟨k, -, hcap⟩ := h.capacity
  have hpow : 0 < 2 ^ k := Nat.two_pow_pos k
  unfold initialChunkArrayCapacity at hcap
  omega

theorem lt_count (hb : v.chunks[i]? = some (some b)) : i < v.chunkCount := by
  by_contra hge
  have hlt : i < v.chunks.length := (List.getElem?_eq_some_iff.mp hb).1
  rw [h.length] at hlt
  rw [h.unused i (by omega) hlt] at hb
  cases hb

theorem lt_blocks (hb : v.chunks[i]? = some (some b)) : b < v.blocks := by
  obtain ⟨b', hb', heq⟩ := h.block i (h.lt_count hb)
  rw [heq] at hb
  cases hb
  exact hb'

end Stores

theorem slot_eq (hb : v.chunks[i]? = some (some b)) (hj : j < chunkSize) :
    v.slot i j = .ok (b, j) := by
  simp [slot, hb, hj]

theorem mod_lt_chunkSize (i : Nat) : i % chunkSize < chunkSize := Nat.mod_lt i (by decide)

section Reads

variable (h : Holds v xs)

include h

theorem Holds.exists_block (hi : i < xs.length) :
    ∃ b, v.chunks[i / chunkSize]? = some (some b) := by
  obtain ⟨b, hb, -⟩ := h.elements i xs[i] (List.getElem?_eq_getElem hi)
  exact ⟨b, hb⟩

theorem Holds.vectorAt_eq (hi : i < xs.length) (hb : v.chunks[i / chunkSize]? = some (some b)) :
    v.vectorAt i = .ok (some (b, i % chunkSize)) := by
  have hcount := h.lt_count hb
  have := h.count_le
  have := h.capacity_le
  have htotal := h.total
  rw [vectorAt, if_neg (by omega)]
  simp only [indexToChunk]
  rw [uint32_of_lt (by omega), slot_eq hb (mod_lt_chunkSize i)]
  rfl

/-- `at` returns the element, and null exactly beyond the end. -/
theorem Holds.vectorAt (i : Nat) :
    (∃ x p, xs[i]? = some x ∧ v.vectorAt i = .ok (some p) ∧ v.load p = some x) ∨
      xs.length ≤ i ∧ v.vectorAt i = .ok none := by
  by_cases hi : i < xs.length
  · obtain ⟨b, hb, hmem⟩ := h.elements i xs[i] (List.getElem?_eq_getElem hi)
    exact Or.inl ⟨xs[i], _, List.getElem?_eq_getElem hi, h.vectorAt_eq hi hb, hmem⟩
  · have htotal := h.total
    refine Or.inr ⟨by omega, ?_⟩
    rw [ChunkVector.vectorAt, if_pos (by omega)]

/-- `back` resolves the boundary of the chunks as `at` does for the last index. -/
theorem Holds.back_eq :
    v.back = if xs.length = 0 then .ok none else v.vectorAt (xs.length - 1) := by
  have htotal := h.total
  have hcursor := h.cursor
  have hoffset := h.offset_le
  have hactive := h.active
  have := h.count_le
  have := h.capacity_le
  unfold chunkSize at hcursor hoffset
  unfold back
  rw [htotal]
  split
  · rfl
  · rename_i hne
    have hlt : ¬ xs.length - 1 ≥ v.totalElements := by omega
    rw [ChunkVector.vectorAt, if_neg hlt]
    simp only [indexToChunk]
    by_cases hpos : v.activeOffset > 0
    · have hdiv : (xs.length - 1) / chunkSize = v.activeChunk := by
        unfold chunkSize
        omega
      have hmod : (xs.length - 1) % chunkSize = v.activeOffset - 1 := by
        unfold chunkSize
        omega
      rw [if_pos hpos, hdiv, hmod, uint32_of_lt (by omega)]
    · have hdiv : (xs.length - 1) / chunkSize = v.activeChunk - 1 := by
        unfold chunkSize
        omega
      have hmod : (xs.length - 1) % chunkSize = chunkSize - 1 := by
        unfold chunkSize
        omega
      rw [if_neg hpos, hdiv, hmod, uint32_pred (by omega) (by omega), uint32_of_lt (by omega)]

end Reads

section Writes

/-- What `push_back` and `alloc_slot` do where the cursor stands in a chunk. -/
theorem Holds.advance_store (h : Holds v xs) (hoffset : v.activeOffset < chunkSize) :
    ∃ p, v.slot v.activeChunk v.activeOffset = .ok p ∧
      Holds (v.store p x).advance (xs ++ [x]) := by
  obtain ⟨b, -, hb⟩ := h.block v.activeChunk h.active
  refine ⟨(b, v.activeOffset), slot_eq hb hoffset, ?_⟩
  have htotal := h.total
  have hcursor := h.cursor
  have hdiv : xs.length / chunkSize = v.activeChunk := by
    unfold chunkSize at *
    omega
  have hmod : xs.length % chunkSize = v.activeOffset := by
    unfold chunkSize at *
    omega
  exact
    { total := by simp [advance, store, htotal]
      cursor := by
        simp only [advance, store, List.length_append, List.length_singleton]
        omega
      offset_le := hoffset
      capacity := h.capacity
      length := h.length
      count_le := h.count_le
      block := h.block
      unused := h.unused
      distinct := h.distinct
      active := h.active
      elements := by
        intro i y hy
        rcases Nat.lt_trichotomy i xs.length with hi | rfl | hi
        · rw [List.getElem?_append_left hi] at hy
          obtain ⟨b', hb', hmem⟩ := h.elements i y hy
          refine ⟨b', hb', ?_⟩
          have hne : (b', i % chunkSize) ≠ (b, v.activeOffset) := by
            intro heq
            obtain ⟨rfl, hoff⟩ := Prod.mk.inj heq
            have hchunk := h.distinct _ _ _ hb' hb
            have hi' := Nat.div_add_mod i chunkSize
            rw [hchunk, hoff] at hi'
            rw [Nat.mul_comm] at hcursor
            omega
          simpa [advance, store, Function.update_of_ne hne] using hmem
        · rw [List.getElem?_append_right (Nat.le_refl _)] at hy
          obtain rfl : x = y := by simpa using hy
          refine ⟨b, by rw [hdiv]; exact hb, ?_⟩
          rw [hmod]
          simp [advance, store]
        · rw [List.getElem?_eq_none (by simp; omega)] at hy
          cases hy }

/-- A new chunk behind the chunks that exist. -/
theorem Stores.malloc (h : Stores w xs) (hnext : w.activeChunk = w.chunkCount)
    (hroom : w.chunkCount < w.chunkArrayCapacity) :
    ∃ w', w.mallocActive {} = .ok w' ∧
      Holds { w' with chunkCount := uint32 (w'.chunkCount + 1) } xs ∧
      w'.activeOffset = w.activeOffset ∧ w'.chunkCount = w.chunkCount ∧
      ∀ i b : Nat, w.chunks[i]? = some (some b) → w'.chunks[i]? = some (some b) := by
  have hlength := h.length
  have hcap := h.capacity_le
  have hcount : uint32 (w.chunkCount + 1) = w.chunkCount + 1 := uint32_of_lt (by omega)
  have hold : ∀ i b : Nat, w.chunks[i]? = some (some b) →
      (w.chunks.set w.activeChunk (some w.blocks))[i]? = some (some b) := by
    intro i b hb
    have hlt := h.lt_count hb
    rw [List.getElem?_set_ne (by omega)]
    exact hb
  have hnew : (w.chunks.set w.activeChunk (some w.blocks))[w.chunkCount]? =
      some (some w.blocks) := by
    rw [hnext]
    exact List.getElem?_set_self (by omega)
  refine ⟨{ w with blocks := w.blocks + 1, chunks := w.chunks.set w.activeChunk (some w.blocks) },
    ?_, ?_, rfl, rfl, hold⟩
  · simp only [mallocActive, setActive, if_true]
    rw [if_pos (by omega)]
  · exact
      { total := h.total
        cursor := h.cursor
        offset_le := h.offset_le
        capacity := h.capacity
        length := by simpa using hlength
        count_le := by
          simp only [hcount]
          omega
        active := by
          simp only [hcount]
          omega
        block := by
          intro i hi
          simp only [hcount] at hi
          by_cases hlt : i < w.chunkCount
          · obtain ⟨b, hb, heq⟩ := h.block i hlt
            exact ⟨b, Nat.lt_succ_of_lt hb, hold i b heq⟩
          · obtain rfl : i = w.chunkCount := by omega
            exact ⟨w.blocks, Nat.lt_succ_self _, hnew⟩
        unused := by
          intro i hge hlt
          simp only [hcount] at hge
          simp only
          rw [List.getElem?_set_ne (by omega)]
          exact h.unused i (by omega) hlt
        distinct := by
          intro i j b hi hj
          simp only [List.getElem?_set] at hi hj
          split at hi <;> split at hj
          · omega
          · split at hi
            · cases hi
              exact absurd (h.lt_blocks hj) (Nat.lt_irrefl _)
            · cases hi
          · split at hj
            · cases hj
              exact absurd (h.lt_blocks hi) (Nat.lt_irrefl _)
            · cases hj
          · exact h.distinct i j b hi hj
        elements := by
          intro i x hx
          obtain ⟨b, hb, hmem⟩ := h.elements i x hx
          exact ⟨b, hold _ b hb, hmem⟩ }

theorem length_resize (chunks : List (Option Nat)) (n : Nat) : (resize chunks n).length = n := by
  unfold resize
  simp only [List.length_append, List.length_take, List.length_replicate]
  omega

theorem getElem?_resize_of_lt {chunks : List (Option Nat)} {n : Nat} (hi : i < chunks.length)
    (hn : i < n) : (resize chunks n)[i]? = chunks[i]? := by
  unfold resize
  rw [List.getElem?_append_left (by simp; omega), List.getElem?_take_of_lt hn]

theorem getElem?_resize_of_le {chunks : List (Option Nat)} {n : Nat} (hi : chunks.length ≤ i)
    (hn : i < n) : (resize chunks n)[i]? = some none := by
  unfold resize
  rw [List.getElem?_append_right (by simp; omega), List.getElem?_replicate, if_pos]
  simp only [List.length_take]
  omega

/-- An array that becomes no shorter keeps its chunks and gets no other. -/
theorem getElem?_resize_block {chunks : List (Option Nat)} {n : Nat} (hn : chunks.length ≤ n) :
    (resize chunks n)[i]? = some (some b) ↔ chunks[i]? = some (some b) := by
  by_cases hi : i < chunks.length
  · rw [getElem?_resize_of_lt hi (by omega)]
  · have hold : chunks[i]? = none := List.getElem?_eq_none (by omega)
    have hnew : (resize chunks n)[i]? ≠ some (some b) := by
      by_cases hlt : i < n
      · rw [getElem?_resize_of_le (Nat.le_of_not_lt hi) hlt]
        simp
      · rw [List.getElem?_eq_none (by rw [length_resize]; omega)]
        simp
    simp [hold, hnew]

/-- The pointer array is doubled where all its words hold a chunk. -/
theorem Stores.grow (h : Stores w xs) (hroom : w.chunkArrayCapacity < 2 ^ 31) :
    Stores w.doubleCapacity.reallocChunks xs ∧
      w.doubleCapacity.reallocChunks.chunkArrayCapacity = 2 * w.chunkArrayCapacity ∧
      ∀ i b : Nat, w.chunks[i]? = some (some b) →
        w.doubleCapacity.reallocChunks.chunks[i]? = some (some b) := by
  have hlength := h.length
  have hcap : uint32 (w.chunkArrayCapacity * 2) = 2 * w.chunkArrayCapacity := by
    rw [uint32_of_lt (by omega), Nat.mul_comm]
  have hblock : ∀ {i b : Nat}, (resize w.chunks (2 * w.chunkArrayCapacity))[i]? = some (some b) ↔
      w.chunks[i]? = some (some b) := getElem?_resize_block (by omega)
  simp only [reallocChunks, doubleCapacity, hcap]
  refine ⟨?_, trivial, fun i b => hblock.mpr⟩
  exact
    { total := h.total
      cursor := h.cursor
      offset_le := h.offset_le
      capacity := by
        obtain ⟨k, hk, heq⟩ := h.capacity
        refine ⟨k + 1, ?_, by simp only [heq]; ring⟩
        by_contra hlt
        obtain rfl : k = 25 := by omega
        unfold initialChunkArrayCapacity at heq
        omega
      length := length_resize _ _
      count_le := by
        have := h.count_le
        simp only
        omega
      block := fun i hi => by
        obtain ⟨b, hb, heq⟩ := h.block i hi
        exact ⟨b, hb, hblock.mpr heq⟩
      unused := by
        intro i hge hlt
        simp only
        by_cases hi : i < w.chunkArrayCapacity
        · rw [getElem?_resize_of_lt (by omega) hlt]
          exact h.unused i hge hi
        · exact getElem?_resize_of_le (by omega) hlt
      distinct := fun i j b hi hj => h.distinct i j b (hblock.mp hi) (hblock.mp hj)
      elements := by
        intro i x hx
        obtain ⟨b, hb, hmem⟩ := h.elements i x hx
        exact ⟨b, hblock.mpr hb, hmem⟩ }

/-- A push goes on from a vector whose cursor stands in a chunk, with all chunks where they were. -/
structure Prepares (v v' : ChunkVector T) (xs : List T) : Prop where
  holds : Holds v' xs
  offset : v'.activeOffset < chunkSize
  kept : ∀ i b : Nat, v.chunks[i]? = some (some b) → v'.chunks[i]? = some (some b)
  pushBack : ∀ value, v.pushBack {} value = v'.putValue value
  allocSlot : v.allocSlot {} = v'.takeSlot

/-- The number of elements at which the doubled capacity wraps around to 0. -/
def maxElements : Nat := 2 ^ 31 * chunkSize

/-- The cursor moves to the next chunk where the active one is full. -/
theorem Holds.nextChunk (h : Holds v xs) (hfull : v.activeOffset = chunkSize) :
    Stores v.nextChunk xs ∧ v.nextChunk.activeChunk = v.activeChunk + 1 ∧
      v.nextChunk.chunkCount = v.chunkCount ∧
      v.nextChunk.chunkArrayCapacity = v.chunkArrayCapacity := by
  have := h.active
  have := h.count_le
  have := h.capacity_le
  have hactive : uint32 (v.activeChunk + 1) = v.activeChunk + 1 := uint32_of_lt (by omega)
  have hcursor := h.cursor
  unfold ChunkVector.nextChunk
  rw [hactive]
  refine ⟨{ h.toStores with cursor := ?_, offset_le := Nat.zero_le _ }, rfl, rfl, rfl⟩
  simp only [Nat.add_mul]
  omega

/-- Growing the pointer array moves no cursor and makes no chunk. -/
theorem grown_cursor (v : ChunkVector T) :
    v.doubleCapacity.reallocChunks.activeChunk = v.activeChunk ∧
      v.doubleCapacity.reallocChunks.chunkCount = v.chunkCount := ⟨rfl, rfl⟩

theorem Holds.prepare (h : Holds v xs) (hfits : xs.length < maxElements) :
    ∃ v', Prepares v v' xs := by
  by_cases hoffset : v.activeOffset < chunkSize
  · have hle : ¬ v.activeOffset ≥ chunkSize := by omega
    refine ⟨v, h, hoffset, fun _ _ => id, fun value => ?_, ?_⟩
    · simp [ChunkVector.pushBack, hle]
    · simp [ChunkVector.allocSlot, hle]
  · have hoffset_le := h.offset_le
    have hfull : v.activeOffset = chunkSize := by omega
    have hactive := h.active
    have hcount := h.count_le
    have hcap := h.capacity_le
    have hcursor := h.cursor
    obtain ⟨hnext, hchunk, hnextCount, hnextCap⟩ := h.nextChunk hfull
    have hge : v.activeOffset ≥ chunkSize := by omega
    have hzero : 0 < chunkSize := by decide
    by_cases hexists : v.activeChunk + 1 < v.chunkCount
    · have hcapge : ¬ v.nextChunk.activeChunk ≥ v.nextChunk.chunkArrayCapacity := by omega
      have hcountge : ¬ v.nextChunk.activeChunk ≥ v.nextChunk.chunkCount := by omega
      refine ⟨v.nextChunk, { hnext with active := by omega }, hzero, fun _ _ => id,
        fun value => ?_, ?_⟩
      · simp only [ChunkVector.pushBack, hge, if_true, hcapge, if_false, pushChunk, hcountge]
      · simp only [ChunkVector.allocSlot, hge, if_true, hcapge, if_false, allocChunk, hcountge]
    · by_cases hroom : v.activeChunk + 1 < v.chunkArrayCapacity
      · have hcapge : ¬ v.nextChunk.activeChunk ≥ v.nextChunk.chunkArrayCapacity := by omega
        have hcountge : v.nextChunk.activeChunk ≥ v.nextChunk.chunkCount := by omega
        obtain ⟨w, hmalloc, hholds, hoff, -, hkept⟩ := hnext.malloc (by omega) (by omega)
        refine ⟨_, hholds, ?_, hkept, fun value => ?_, ?_⟩
        · exact hoff ▸ hzero
        · simp only [ChunkVector.pushBack, hge, if_true, hcapge, if_false, pushChunk, hcountge,
            hmalloc]
          rfl
        · simp only [ChunkVector.allocSlot, hge, if_true, hcapge, if_false, allocChunk, hcountge,
            hmalloc]
          rfl
      · have hcapge : v.nextChunk.activeChunk ≥ v.nextChunk.chunkArrayCapacity := by omega
        have hsmall : v.nextChunk.chunkArrayCapacity < 2 ^ 31 := by
          unfold maxElements chunkSize at *
          omega
        obtain ⟨hgrow, hdouble, hkept⟩ := hnext.grow hsmall
        obtain ⟨hgrowChunk, hgrowCount⟩ := grown_cursor v.nextChunk
        have hcountge : v.nextChunk.doubleCapacity.reallocChunks.activeChunk ≥
            v.nextChunk.doubleCapacity.reallocChunks.chunkCount := by omega
        obtain ⟨w, hmalloc, hholds, hoff, -, hkept'⟩ := hgrow.malloc (by omega) (by omega)
        refine ⟨_, hholds, ?_, fun i b hb => hkept' i b (hkept i b hb), fun value => ?_, ?_⟩
        · exact hoff ▸ hzero
        · simp only [ChunkVector.pushBack, hge, if_true, hcapge, pushChunk, hcountge, hmalloc]
          rfl
        · simp only [ChunkVector.allocSlot, hge, if_true, hcapge, allocChunk, hcountge, hmalloc]
          rfl

/-- Behind the last element that fits, the pointer array is cut to no words at all. -/
theorem Holds.full (h : Holds v xs) (hfull : xs.length = maxElements) :
    (∀ value, v.pushBack {} value = .error .outOfRange) ∧
      v.allocSlot {} = .error .outOfRange := by
  have hactive := h.active
  have hcount := h.count_le
  have hcap := h.capacity_le
  have hcursor := h.cursor
  have hoffset := h.offset_le
  have heq : v.activeChunk = 2 ^ 31 - 1 ∧ v.activeOffset = chunkSize := by
    unfold maxElements chunkSize at *
    omega
  have hcapEq : v.chunkArrayCapacity = 2 ^ 31 := by omega
  obtain ⟨-, hchunk, hnextCount, hnextCap⟩ := h.nextChunk heq.2
  have hge : v.activeOffset ≥ chunkSize := by omega
  have hcapge : v.nextChunk.activeChunk ≥ v.nextChunk.chunkArrayCapacity := by omega
  obtain ⟨hgrowChunk, hgrowCount⟩ := grown_cursor v.nextChunk
  have hcountge : v.nextChunk.doubleCapacity.reallocChunks.activeChunk ≥
      v.nextChunk.doubleCapacity.reallocChunks.chunkCount := by omega
  have hzero : v.nextChunk.doubleCapacity.reallocChunks.chunks = [] := by
    have hwrap : uint32 (v.chunkArrayCapacity * 2) = 0 := by
      rw [hcapEq]
      decide
    simp only [reallocChunks, doubleCapacity, hnextCap, hwrap]
    exact List.eq_nil_of_length_eq_zero (length_resize _ 0)
  have hfault : ∀ b, ¬ ({ v.nextChunk.doubleCapacity.reallocChunks with
      blocks := b } : ChunkVector T).activeChunk < ({ v.nextChunk.doubleCapacity.reallocChunks with
      blocks := b } : ChunkVector T).chunks.length := by
    intro b
    simp only [hzero]
    simp
  have hmalloc : v.nextChunk.doubleCapacity.reallocChunks.mallocActive {} =
      .error .outOfRange := by
    simp only [mallocActive, if_true, setActive]
    rw [if_neg (hfault _)]
  refine ⟨fun value => ?_, ?_⟩
  · simp only [ChunkVector.pushBack, hge, if_true, hcapge, pushChunk, hcountge, hmalloc]
    rfl
  · simp only [ChunkVector.allocSlot, hge, if_true, hcapge, allocChunk, hcountge, hmalloc]
    rfl

end Writes

end Syli.Runtime.ChunkVector
