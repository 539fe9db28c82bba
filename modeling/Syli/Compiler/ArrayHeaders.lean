import Syli.Compiler.ArrayCreation
import Syli.Compiler.HeaderAgreement

/-! For which sizes the header of an array survives that its length is added to it. -/
namespace Syli.Compiler

open Syli.Runtime

variable {ctx : ArrayContext} {code : ArrayCode} {st st' : ArrayState} {run : ArrayRun}
variable {element : IrType} {prop : CyclicProp} {n x : BitVec 64} {k m : Nat}

/-- The header decodes to the size with the other fields of the base, the block has room for the
cells, and exactly these are written. -/
structure Survives (base : ObjectHeader) (shift : Nat) (size : Int) (block : ArrayBlock)
    (st : ArrayState) : Prop where
  created : st.block = some block
  length : (block.header.objectLength : Int) = size
  zone : block.header.zone = base.zone
  cyclic : block.header.isCyclic = base.isCyclic
  cyclicMutable : block.header.isCyclicMutable = base.isCyclicMutable
  type : block.header.objectType = base.objectType
  hasPointers : block.header.hasPointers = base.hasPointers
  traceable : block.header.isTraceable = base.isTraceable
  tag : block.header.variantTag = base.variantTag
  unitShift : block.header.unitShift = base.unitShift ∧ base.unitShift = shift
  room : 16 + size * 2 ^ shift ≤ block.bytes
  written : st.cells.map Prod.fst = (List.range size.toNat).map (BitVec.ofNat 64)

/-- The run ends without a block. -/
def Refused (ctx : ArrayContext) (creation : ArrayCreation) : Prop :=
  ∃ rounds st, (ctx.step creation.code)^[rounds] creation.start = .finished st ∧ st.block = none

/-- The run ends with an array whose header survives. -/
def Creates (ctx : ArrayContext) (shift : Nat) (creation : ArrayCreation) : Prop :=
  ∃ rounds st block, (ctx.step creation.code)^[rounds] creation.start = .finished st ∧
    Survives ctx.base shift creation.size block st

section Runs

def Final (run : ArrayRun) : Prop := ∀ label st, run ≠ .running label st

theorem step_final (h : Final run) : ctx.step code run = run := by
  cases run with
  | running label st => exact (h label st rfl).elim
  | crashed => rfl
  | finished st => rfl

/-- A run ends in one way. -/
theorem final_unique {start run' : ArrayRun} (h : (ctx.step code)^[k] start = run) (hf : Final run)
    (h' : (ctx.step code)^[m] start = run') (hf' : Final run') : run = run' := by
  have hk : (ctx.step code)^[m] run = run := Function.iterate_fixed (step_final hf) m
  have hm : (ctx.step code)^[k] run' = run' := Function.iterate_fixed (step_final hf') k
  rw [← h, ← Function.iterate_add_apply] at hk
  rw [← h', ← Function.iterate_add_apply, Nat.add_comm, hk] at hm
  rw [← h, ← h', hm]

theorem toInt_ofNat (hk : k < 2 ^ 63) : (BitVec.ofNat 64 k).toInt = k := by
  rw [BitVec.toInt_eq_toNat_cond, BitVec.toNat_ofNat, Nat.mod_eq_of_lt (by omega)]
  split <;> omega

theorem toInt_lt (n : BitVec 64) : n.toInt.toNat < 2 ^ 63 := by
  have := n.isLt
  rw [BitVec.toInt_eq_toNat_cond]
  split <;> omega

/-- The loop writes the cells that are left, in their order. -/
theorem loop_finishes (ctx : ArrayContext) (m k : Nat) (st : ArrayState)
    (hsize : st.env .size = n) (hi : st.env .i = BitVec.ofNat 64 k)
    (hk : k + m = n.toInt.toNat ∨ m = 0 ∧ n.toInt < 0 ∧ k = 0) :
    ∃ rounds st', (ctx.step lowerArrayAlloc)^[rounds] (.running .header st) = .finished st' ∧
      st'.block = st.block ∧
      st'.cells.map Prod.fst = st.cells.map Prod.fst ++ (List.range' k m).map (BitVec.ofNat 64) := by
  have hbound := toInt_lt n
  have hlt : (BitVec.ofNat 64 k).slt n = decide (0 < m) := by
    rw [BitVec.slt, toInt_ofNat (by omega)]
    congr 1
    apply propext
    omega
  induction m generalizing k st with
  | zero =>
    refine ⟨2, st.set .cond 0, ?_, rfl, by simp [ArrayState.set]⟩
    simp [ArrayContext.step, lowerArrayAlloc, ArrayContext.exec, ArrayContext.execStatement,
      ArrayState.value, ArrayState.set, hsize, hi, hlt]
  | succ m ih =>
    let written : ArrayState :=
      { ((((st.set .cond 1).set .v (ctx.init (st.env .i))).set .next (st.env .i + 1)).set .i
        (st.env .i + 1)) with cells := st.cells ++ [(st.env .i, ctx.init (st.env .i))] }
    have hsucc : BitVec.ofNat 64 k + 1#64 = BitVec.ofNat 64 (k + 1) := by
      simp [BitVec.ofNat_add]
    have htwo :
        (ctx.step lowerArrayAlloc)^[2] (.running .header st) = .running .header written := by
      simp [ArrayContext.step, lowerArrayAlloc, ArrayContext.exec, ArrayContext.execStatement,
        ArrayState.value, ArrayState.set, hsize, hi, hlt, written]
    have hnext : k + 1 + m = n.toInt.toNat := by omega
    obtain ⟨rounds, st', hrun, hblock, hcells⟩ := ih (k + 1) written
      (by simpa [written, ArrayState.set] using hsize)
      (by simp [written, ArrayState.set, hi, hsucc]) (Or.inl hnext) (by
        rw [BitVec.slt, toInt_ofNat (by omega)]
        congr 1
        apply propext
        omega)
    refine ⟨rounds + 2, st', ?_, hblock, ?_⟩
    · rw [Function.iterate_add_apply, htwo, hrun]
    · rw [hcells, List.range'_succ]
      simp [written, hi]

theorem exec_sets (ctx : ArrayContext) (values : List (BitVec 64)) (k : Nat) (st : ArrayState) :
    ∃ st', ctx.exec st (values.mapIdx fun i v =>
        .objectSet .arr (.int (BitVec.ofNat 64 (k + i))) (.int v)) = some st' ∧
      st'.block = st.block ∧ st'.cells.map Prod.fst =
        st.cells.map Prod.fst ++ (List.range' k values.length).map (BitVec.ofNat 64) := by
  induction values generalizing k st with
  | nil => exact ⟨st, rfl, rfl, by simp⟩
  | cons v values ih =>
    obtain ⟨st', hexec, hblock, hcells⟩ := ih (k + 1)
      { st with cells := st.cells ++ [(BitVec.ofNat 64 k, v)] }
    have hshift : (fun (i : Nat) (v : BitVec 64) => ArrayStatement.objectSet .arr
          (.int (BitVec.ofNat 64 (k + (i + 1)))) (.int v)) =
        fun i v => .objectSet .arr (.int (BitVec.ofNat 64 (k + 1 + i))) (.int v) := by
      funext i v
      rw [Nat.add_assoc, Nat.add_comm 1 i]
    refine ⟨st', ?_, hblock, ?_⟩
    · rw [List.mapIdx_cons, hshift, ArrayContext.exec]
      exact hexec
    · rw [hcells, List.length_cons, List.range'_succ]
      simp

/-- A creation that is granted writes the cells from 0 on. -/
theorem creation_finishes (ctx : ArrayContext) (creation : ArrayCreation)
    (hgranted : ctx.malloc (requestBytes (ctx.base + creation.length) creation.length) = true) :
    ∃ rounds st', (ctx.step creation.code)^[rounds] creation.start = .finished st' ∧
      st'.block = some ⟨ctx.base + creation.length,
        (requestBytes (ctx.base + creation.length) creation.length).toNat⟩ ∧
      st'.cells.map Prod.fst = (List.range creation.size.toNat).map (BitVec.ofNat 64) := by
  have halloc : objectAlloc ctx.malloc (ctx.base + creation.length) creation.length =
      some ⟨ctx.base + creation.length,
        (requestBytes (ctx.base + creation.length) creation.length).toNat⟩ := if_pos hgranted
  cases creation with
  | alloc n =>
    simp only [ArrayCreation.length] at halloc
    let entered : ArrayState := ArrayState.set ⟨fun _ => n, some ⟨ctx.base + n,
      (requestBytes (ctx.base + n) n).toNat⟩, []⟩ .i 0
    have hentry : ctx.step lowerArrayAlloc (ArrayCreation.start (.alloc n)) =
        .running .header entered := by
      simp [ArrayContext.step, ArrayCreation.start, lowerArrayAlloc, ArrayContext.exec,
        ArrayContext.execStatement, ArrayState.value, ArrayCreation.length, halloc, entered]
    obtain ⟨rounds, st', hrun, hblock, hcells⟩ := loop_finishes (n := n) ctx n.toInt.toNat
      0 entered (by simp [entered, ArrayState.set])
      (by simp [entered, ArrayState.set]) (by omega)
    refine ⟨rounds + 1, st', ?_, hblock, ?_⟩
    · rw [Function.iterate_add_apply]
      exact (congrArg _ hentry).trans hrun
    · rw [hcells, List.range_eq_range']
      rfl
  | literal elements =>
    simp only [ArrayCreation.length] at halloc
    obtain ⟨st', hexec, hblock, hcells⟩ := exec_sets ctx elements 0
      ⟨fun _ => BitVec.ofNat 64 elements.length, some ⟨ctx.base +
        BitVec.ofNat 64 elements.length, (requestBytes (ctx.base +
          BitVec.ofNat 64 elements.length) (BitVec.ofNat 64 elements.length)).toNat⟩, []⟩
    simp only [Nat.zero_add] at hexec
    refine ⟨2, st', ?_, hblock, ?_⟩
    · simp [ArrayContext.step, ArrayCreation.start, ArrayCreation.code, lowerArrayLit,
        ArrayContext.exec, ArrayContext.execStatement, ArrayState.value, ArrayCreation.length,
        halloc, hexec]
    · rw [hcells, List.range_eq_range']
      rfl

theorem creation_crashes (ctx : ArrayContext) (creation : ArrayCreation)
    (hrefused : ctx.malloc (requestBytes (ctx.base + creation.length) creation.length) = false) :
    (ctx.step creation.code)^[1] creation.start = .crashed := by
  have halloc : objectAlloc ctx.malloc (ctx.base + creation.length) creation.length = none :=
    if_neg (by simp [hrefused])
  cases creation with
  | alloc n =>
    simp only [ArrayCreation.length] at halloc
    simp [ArrayContext.step, ArrayCreation.start, ArrayCreation.code, lowerArrayAlloc,
      ArrayContext.exec, ArrayContext.execStatement, ArrayState.value, ArrayCreation.length, halloc]
  | literal elements =>
    simp only [ArrayCreation.length] at halloc
    simp [ArrayContext.step, ArrayCreation.start, ArrayCreation.code, lowerArrayLit,
      ArrayContext.exec, ArrayContext.execStatement, ArrayState.value, ArrayCreation.length, halloc]

end Runs

section Headers

def arrayType (element : IrType) : ObjectType := if isRefTy element then .monoRef else .monoImm

/-- The header of an array of the given length. -/
def arrayHeader (element : IrType) (prop : CyclicProp) (n : BitVec 64) : ObjectHeader :=
  headerOf (cyclicBitOfProp prop == 1) (cyclicMutableBitOfProp prop == 1)
    (typeCode (arrayType element)) (isRefTy element) (traceableBitOfProp prop == 1) 0
    (cellShiftOfIrType element) n

theorem headerOperandOfObj_array (element : IrType) (prop : CyclicProp) :
    headerOperandOfObj (.array element) prop = some (arrayHeader element prop 0) := by
  cases prop <;> cases element <;> decide

/-- A length of 32 bits takes the place of the empty payload. -/
theorem arrayHeader_add (hn : n.toNat < 2 ^ 32) :
    arrayHeader element prop 0 + n = arrayHeader element prop n := by
  have hzero : arrayHeader element prop 0 &&& n = 0#64 := by
    refine BitVec.eq_of_getLsbD_eq fun i hi => ?_
    rw [BitVec.getLsbD_and, arrayHeader, getLsbD_headerOf hi]
    by_cases h32 : i < 32
    · have h : ¬ 59 ≤ i ∧ ¬ 48 ≤ i ∧ ¬ 43 ≤ i ∧ i ≠ 61 ∧ i ≠ 47 ∧ i ≠ 57 ∧ i ≠ 56 := by omega
      simp [h]
    · rw [getLsbD_eq_false hn (by omega)]
      simp
  rw [BitVec.add_eq_or_of_and_eq_zero _ _ hzero]
  refine BitVec.eq_of_getLsbD_eq fun i hi => ?_
  rw [BitVec.getLsbD_or, arrayHeader, arrayHeader, getLsbD_headerOf hi, getLsbD_headerOf hi]
  by_cases h32 : i < 32
  · simp [h32]
  · rw [getLsbD_eq_false hn (by omega)]
    simp

theorem objectLength_lt (h : ObjectHeader) : h.objectLength < 2 ^ 32 := by
  have hpayload := h.payload.isLt
  have hmask : ∀ x y : BitVec 32, (x &&& y).toNat ≤ y.toNat := by
    intro x y
    rw [BitVec.toNat_and]
    exact Nat.and_le_right
  have hptr := hmask h.payload 0xFFFF#32
  have himm := hmask (h.payload >>> 16) 0xFFFF#32
  have hbitmap := hmask h.payload 0x1F#32
  unfold ObjectHeader.objectLength ObjectHeader.orderPtrCount ObjectHeader.orderImmCount
    ObjectHeader.bitmapLength
  have : (0xFFFF#32).toNat = 65535 ∧ (0x1F#32).toNat = 31 := by decide
  split <;> omega

theorem typeCode_lt (type : ObjectType) : (typeCode type).toNat < 2 ^ 2 := by
  cases type <;> decide

theorem objectType_arrayHeader : (arrayHeader element prop n).objectType = arrayType element :=
  objectType_headerOf (by decide) (typeCode_lt _) rfl

theorem objectLength_arrayHeader (hn : n.toNat < 2 ^ 32) :
    (arrayHeader element prop n).objectLength = n.toNat := by
  have hpayload : (arrayHeader element prop n).payload.toNat = n.toNat := by
    rw [arrayHeader, payload_headerOf, BitVec.toNat_setWidth, Nat.mod_eq_of_lt hn]
  rw [ObjectHeader.objectLength, objectType_arrayHeader, arrayType]
  cases isRefTy element <;> exact hpayload

theorem unitShift_arrayHeader :
    (arrayHeader element prop n).unitShift = cellShiftOfIrType element :=
  unitShift_headerOf (by have := cellShiftOfIrType_le element; omega)

/-- The request for a length of 32 bits does not wrap. -/
theorem toNat_requestBytes (element : IrType) (prop : CyclicProp) (hn : n.toNat < 2 ^ 32) :
    16 + n.toNat * 2 ^ cellShiftOfIrType element ≤
      (requestBytes (arrayHeader element prop n) n).toNat := by
  have hshift := cellShiftOfIrType_le element
  have hpow : 2 ^ cellShiftOfIrType element ≤ 2 ^ 3 := Nat.pow_le_pow_right (by omega) hshift
  have hmul : n.toNat * 2 ^ cellShiftOfIrType element ≤ n.toNat * 2 ^ 3 :=
    Nat.mul_le_mul_left _ hpow
  have hextra : ((if (arrayHeader element prop n).isCyclicMutable then (1 : BitVec 64) else 0) *
      8).toNat ≤ 8 := by
    split <;> decide
  rw [requestBytes, unitShift_arrayHeader, BitVec.toNat_add, BitVec.toNat_add,
    BitVec.toNat_shiftLeft, Nat.shiftLeft_eq]
  have h16 : (16 : BitVec 64).toNat = 16 := rfl
  omega

theorem survives_of_lt {creation : ArrayCreation} (hsize : creation.size = n.toNat)
    (hn : n.toNat < 2 ^ 32)
    (hblock : st.block = some ⟨arrayHeader element prop n,
      (requestBytes (arrayHeader element prop n) n).toNat⟩)
    (hcells : st.cells.map Prod.fst = (List.range creation.size.toNat).map (BitVec.ofNat 64)) :
    Survives (arrayHeader element prop 0) (cellShiftOfIrType element) creation.size
      ⟨arrayHeader element prop n, (requestBytes (arrayHeader element prop n) n).toNat⟩ st where
  created := hblock
  length := by rw [hsize, objectLength_arrayHeader hn]
  zone := (zone_headerOf (by decide) (typeCode_lt _)).trans
    (zone_headerOf (by decide) (typeCode_lt _)).symm
  cyclic := (isCyclic_headerOf (by decide) (typeCode_lt _)).trans
    (isCyclic_headerOf (by decide) (typeCode_lt _)).symm
  cyclicMutable := isCyclicMutable_headerOf.trans isCyclicMutable_headerOf.symm
  type := objectType_arrayHeader.trans objectType_arrayHeader.symm
  hasPointers := (hasPointers_headerOf (by decide)).trans (hasPointers_headerOf (by decide)).symm
  traceable := (isTraceable_headerOf (by decide)).trans (isTraceable_headerOf (by decide)).symm
  tag := (variantTag_headerOf (by decide)).trans (variantTag_headerOf (by decide)).symm
  unitShift := ⟨unitShift_arrayHeader.trans unitShift_arrayHeader.symm, unitShift_arrayHeader⟩
  room := by
    have h := toNat_requestBytes element prop hn
    rw [hsize]
    exact_mod_cast h
  written := hcells

end Headers

/-- The length of a creation whose size has 32 bits. -/
theorem size_eq {creation : ArrayCreation} (h : 0 ≤ creation.size ∧ creation.size < 2 ^ 32) :
    creation.size = creation.length.toNat ∧ creation.length.toNat < 2 ^ 32 := by
  cases creation with
  | alloc n =>
    simp only [ArrayCreation.size, ArrayCreation.length] at h ⊢
    rw [BitVec.toInt_eq_toNat_cond] at h ⊢
    split at h <;> rename_i hlt
    · rw [if_pos hlt]
      exact ⟨rfl, by omega⟩
    · have := n.isLt
      omega
  | literal elements =>
    simp only [ArrayCreation.size, ArrayCreation.length, BitVec.toNat_ofNat] at h ⊢
    omega

/-- An array creation is refused or its header survives exactly where `malloc` grants it and its size
has 32 bits. -/
theorem array_header_survives_iff (element : IrType) (prop : CyclicProp)
    (malloc : BitVec 64 → Bool) (init : BitVec 64 → BitVec 64) (creation : ArrayCreation) :
    ∃ base, headerOperandOfObj (.array element) prop = some base ∧
      (Refused ⟨base, malloc, init⟩ creation ∨
          Creates ⟨base, malloc, init⟩ (cellShiftOfIrType element) creation ↔
        malloc (requestBytes (base + creation.length) creation.length) = true ∧
          0 ≤ creation.size ∧ creation.size < 2 ^ 32) := by
  refine ⟨_, headerOperandOfObj_array element prop, ?_⟩
  let ctx : ArrayContext := ⟨arrayHeader element prop 0, malloc, init⟩
  cases hmalloc : malloc (requestBytes (arrayHeader element prop 0 + creation.length)
    creation.length) with
  | false =>
    have hcrash := creation_crashes ctx creation hmalloc
    have hnot : ∀ {rounds st}, (ctx.step creation.code)^[rounds] creation.start ≠ .finished st :=
      fun hrun => absurd (final_unique hcrash (fun _ _ => by simp) hrun fun _ _ => by simp) (by simp)
    constructor
    · rintro (⟨rounds, st, hrun, -⟩ | ⟨rounds, st, block, hrun, -⟩) <;> exact (hnot hrun).elim
    · rintro ⟨hgranted, -⟩
      cases hgranted
  | true =>
    obtain ⟨rounds, st, hrun, hblock, hcells⟩ := creation_finishes ctx creation hmalloc
    have hfinished : Final (.finished st) := fun _ _ => by simp
    constructor
    · rintro (⟨rounds', st', hrun', hnone⟩ | ⟨rounds', st', block, hrun', hsurvives⟩)
      · obtain rfl := ArrayRun.finished.inj (final_unique hrun hfinished hrun' fun _ _ => by simp)
        rw [hblock] at hnone
        cases hnone
      · refine ⟨rfl, ?_⟩
        rw [← hsurvives.length]
        have := objectLength_lt block.header
        omega
    · rintro ⟨-, h⟩
      obtain ⟨hsize, hlt⟩ := size_eq h
      simp only [ctx, arrayHeader_add hlt] at hblock
      exact Or.inr ⟨rounds, st, _, hrun, survives_of_lt hsize hlt hblock hcells⟩

/-- The size -1: the header of an array of 64-bit integers decodes to 2 ^ 32 - 1 cells of 32 bits,
and the block has 12 bytes. -/
theorem array_header_borrows : ¬ ∃ base,
    headerOperandOfObj (.array .i64) .acyclic = some base ∧
      (Refused ⟨base, fun _ => true, id⟩ (.alloc (-1)) ∨
        Creates ⟨base, fun _ => true, id⟩ (cellShiftOfIrType .i64) (.alloc (-1))) := by
  rintro ⟨base, -, ⟨rounds, st, hrun, hnone⟩ | ⟨rounds, st, block, -, hsurvives⟩⟩
  · obtain ⟨rounds', st', hrun', hblock, -⟩ :=
      creation_finishes ⟨base, fun _ => true, id⟩ (.alloc (-1)) rfl
    obtain rfl := ArrayRun.finished.inj
      (final_unique hrun (fun _ _ => by simp) hrun' fun _ _ => by simp)
    rw [hblock] at hnone
    cases hnone
  · have hlength := hsurvives.length
    have hsize : (ArrayCreation.alloc (-1)).size = -1 := by decide
    omega

end Syli.Compiler
