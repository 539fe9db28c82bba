import Syli.Compiler.LowerOirToRir
import Syli.Runtime.HeaderLayout

/-! When the runtime reads back from a header what the compiler put into it. -/
namespace Syli.Compiler

open Syli.Runtime

def bit (b : Bool) : BitVec 64 := if b then 1 else 0

theorem getLsbD_bit (b : Bool) (i : Nat) : (bit b).getLsbD i = (decide (i = 0) && b) := by
  cases b <;> simp [bit]

theorem getLsbD_mask (n : Nat) {i : Nat} (hi : i < 64) :
    (BitVec.ofNat 64 (2 ^ n - 1)).getLsbD i = decide (i < n) := by
  rw [BitVec.getLsbD_ofNat, Nat.testBit_two_pow_sub_one]
  simp [hi]

def typeCode : ObjectType → BitVec 64
  | .monoImm => 0
  | .monoRef => 1
  | .mixedOrder => 2
  | .mixedBitmap => 3

section Bits

variable {cyclic mutable ptrs traceable : Bool} {objType payload : BitVec 64} {tag shift i : Nat}

/-- A header whose one-bit fields are given as Booleans. -/
def headerOf (cyclic mutable : Bool) (objType : BitVec 64) (ptrs traceable : Bool)
    (tag shift : Nat) (payload : BitVec 64) : BitVec 64 :=
  makeHeader 0 (bit cyclic) (bit mutable) objType ptrs (bit traceable) (variantTagRaw tag) shift
    payload

theorem getLsbD_headerOf (hi : i < 64) :
    (headerOf cyclic mutable objType ptrs traceable tag shift payload).getLsbD i =
      ((decide (i = 61) && cyclic) || (decide (i = 47) && mutable) ||
        (decide (59 ≤ i) && objType.getLsbD (i - 59)) || (decide (i = 57) && ptrs) ||
        (decide (i = 56) && traceable) || (decide (48 ≤ i) && tag.testBit (i - 48)) ||
        (decide (43 ≤ i ∧ i < 47) && shift.testBit (i - 43)) ||
        (decide (i < 32) && payload.getLsbD i)) := by
  have hzone : ((0 : BitVec 64) <<< 62).getLsbD i = false := by simp
  have hbit : ∀ (b : Bool) (n : Nat), n < 64 →
      (bit b <<< n).getLsbD i = (decide (i = n) && b) := by
    intro b n hn
    rw [BitVec.getLsbD_shiftLeft, getLsbD_bit]
    by_cases hlt : i < n
    · have hne : i ≠ n := by omega
      simp [hlt, hne]
    · have heq : i - n = 0 ↔ i = n := by omega
      simp [hi, hlt, heq]
  have htype : (objType <<< 59).getLsbD i = (decide (59 ≤ i) && objType.getLsbD (i - 59)) := by
    rw [BitVec.getLsbD_shiftLeft]
    grind
  have hptrs : (if ptrs then 1#64 <<< 57 else 0#64).getLsbD i = (decide (i = 57) && ptrs) := by
    have hsame : (if ptrs then 1#64 <<< 57 else 0#64) = bit ptrs <<< 57 := by
      cases ptrs <;> rfl
    rw [hsame]
    exact hbit ptrs 57 (by omega)
  have htag : (variantTagRaw tag).getLsbD i = (decide (48 ≤ i) && tag.testBit (i - 48)) := by
    have hlt : i - 48 < 64 := by omega
    rw [variantTagRaw, BitVec.getLsbD_shiftLeft, BitVec.getLsbD_ofNat]
    grind
  have hshift : ((BitVec.ofNat 64 shift &&& 0xF#64) <<< 43).getLsbD i =
      (decide (43 ≤ i ∧ i < 47) && shift.testBit (i - 43)) := by
    have hlt : i - 43 < 64 := by omega
    have hmask : (0xF#64).getLsbD (i - 43) = decide (i - 43 < 4) := getLsbD_mask 4 hlt
    have hrange : decide (43 ≤ i ∧ i < 47) = (!decide (i < 43) && decide (i - 43 < 4)) := by
      grind
    rw [BitVec.getLsbD_shiftLeft, BitVec.getLsbD_and, hmask, hrange]
    simp only [hi, decide_true, BitVec.getLsbD_ofNat, hlt]
    grind
  have hpayload : (payload &&& 0xFFFFFFFF#64).getLsbD i =
      (decide (i < 32) && payload.getLsbD i) := by
    have hmask : (0xFFFFFFFF#64).getLsbD i = decide (i < 32) := getLsbD_mask 32 hi
    rw [BitVec.getLsbD_and, hmask, Bool.and_comm]
  simp only [headerOf, makeHeader, BitVec.getLsbD_or, hzone, hbit _ 61 (by omega),
    hbit _ 47 (by omega), hbit _ 56 (by omega), htype, hptrs, htag, hshift, hpayload,
    Bool.false_or]

theorem testBit_eq_false {k : Nat} (hk : i < 2 ^ k) {j : Nat} (hj : k ≤ j) : i.testBit j = false :=
  Nat.testBit_lt_two_pow (lt_of_lt_of_le hk (Nat.pow_le_pow_right (by omega) hj))

/-- A field of `k` bits is read by a shift and a mask. -/
theorem toNat_field {h : BitVec 64} {n k v : Nat} (hv : v < 2 ^ k) (hk : n + k ≤ 64)
    (hbits : ∀ i < k, h.getLsbD (n + i) = v.testBit i) :
    ((h >>> n) &&& BitVec.ofNat 64 (2 ^ k - 1)).toNat = v := by
  apply Nat.eq_of_testBit_eq
  intro i
  rw [BitVec.testBit_toNat, BitVec.getLsbD_and, BitVec.getLsbD_ushiftRight]
  by_cases hi : i < k
  · rw [getLsbD_mask k (by omega), hbits i hi]
    simp [hi]
  · rw [testBit_eq_false hv (by omega)]
    by_cases h64 : i < 64
    · rw [getLsbD_mask k h64]
      simp [hi]
    · rw [BitVec.getLsbD_of_ge _ i (by omega), Bool.and_false]

theorem getLsbD_eq_false {x : BitVec 64} {k : Nat} (hx : x.toNat < 2 ^ k) (hi : k ≤ i) :
    x.getLsbD i = false := by
  rw [← BitVec.testBit_toNat]
  exact testBit_eq_false hx hi

variable (ht : tag < 2 ^ 8)

include ht

/-- A tag of 8 bits does not reach into the fields above it. -/
theorem getLsbD_headerOf_high (hi : 56 ≤ i) (hi' : i < 64) :
    (headerOf cyclic mutable objType ptrs traceable tag shift payload).getLsbD i =
      ((decide (i = 61) && cyclic) || (decide (59 ≤ i) && objType.getLsbD (i - 59)) ||
        (decide (i = 57) && ptrs) || (decide (i = 56) && traceable)) := by
  have htag : tag.testBit (i - 48) = false := testBit_eq_false ht (by omega)
  rw [getLsbD_headerOf hi', htag]
  grind

theorem hasPointers_headerOf :
    ObjectHeader.hasPointers
      (headerOf cyclic mutable objType ptrs traceable tag shift payload) = ptrs := by
  rw [ObjectHeader.hasPointers, getLsbD_headerOf_high ht (by omega) (by omega)]
  simp

theorem isTraceable_headerOf :
    ObjectHeader.isTraceable
      (headerOf cyclic mutable objType ptrs traceable tag shift payload) = traceable := by
  rw [ObjectHeader.isTraceable, getLsbD_headerOf_high ht (by omega) (by omega)]
  simp

theorem variantTag_headerOf :
    ObjectHeader.variantTag
      (headerOf cyclic mutable objType ptrs traceable tag shift payload) = tag := by
  refine toNat_field (n := 48) (k := 8) ht (by omega) fun i hi => ?_
  rw [getLsbD_headerOf (by omega)]
  grind

omit ht in
theorem isCyclicMutable_headerOf :
    ObjectHeader.isCyclicMutable
      (headerOf cyclic mutable objType ptrs traceable tag shift payload) = mutable := by
  rw [ObjectHeader.isCyclicMutable, getLsbD_headerOf (by omega)]
  simp

omit ht in
theorem unitShift_headerOf (hs : shift < 2 ^ 4) :
    ObjectHeader.unitShift
      (headerOf cyclic mutable objType ptrs traceable tag shift payload) = shift := by
  refine toNat_field (n := 43) (k := 4) hs (by omega) fun i hi => ?_
  rw [getLsbD_headerOf (by omega)]
  grind

omit ht in
theorem payload_headerOf :
    ObjectHeader.payload
      (headerOf cyclic mutable objType ptrs traceable tag shift payload) =
        payload.setWidth 32 := by
  refine BitVec.eq_of_getLsbD_eq fun i hi => ?_
  rw [ObjectHeader.payload, BitVec.getLsbD_setWidth, BitVec.getLsbD_setWidth,
    getLsbD_headerOf (by omega)]
  grind

variable (htype : objType.toNat < 2 ^ 2)

include htype

theorem zone_headerOf :
    ObjectHeader.zone (headerOf cyclic mutable objType ptrs traceable tag shift payload) = 0 := by
  refine toNat_field (n := 62) (k := 2) (by omega) (by omega) fun i hi => ?_
  rw [getLsbD_headerOf_high ht (by omega) (by omega),
    getLsbD_eq_false htype (by omega), Nat.zero_testBit]
  grind

theorem isCyclic_headerOf :
    ObjectHeader.isCyclic
      (headerOf cyclic mutable objType ptrs traceable tag shift payload) = cyclic := by
  rw [ObjectHeader.isCyclic, getLsbD_headerOf_high ht (by omega) (by omega),
    getLsbD_eq_false htype (by omega)]
  simp

theorem objectType_headerOf {type : ObjectType} (hcode : objType = typeCode type) :
    ObjectHeader.objectType
      (headerOf cyclic mutable objType ptrs traceable tag shift payload) = type := by
  have hfield : ((headerOf cyclic mutable objType ptrs traceable tag shift payload >>> 59) &&&
      3#64).toNat = objType.toNat := by
    refine toNat_field (n := 59) (k := 2) htype (by omega) fun i hi => ?_
    rw [getLsbD_headerOf_high ht (by omega) (by omega), BitVec.testBit_toNat]
    grind
  rw [ObjectHeader.objectType, hfield, hcode]
  cases type <;> rfl

end Bits
section Fields

variable {fields : List IrType} {kind : ObjKind} {prop : CyclicProp} {h : BitVec 64}

theorem isReferenceTy_lowerIrType (ty : IrType) : isReferenceTy (lowerIrType ty) = isRefTy ty := by
  cases ty <;> rfl

/-- The type bits that a field list is classified as. -/
def classOf (fields : List IrType) : ObjectType :=
  if fields.all (!isRefTy ·) then .monoImm
  else if fields.all isRefTy then .monoRef
  else if fieldsAreOrdered (fields.map lowerIrType) then .mixedOrder
  else .mixedBitmap

/-- The payload of a field list. -/
def payloadOf (fields : List IrType) : Payload :=
  match classOf fields with
  | .monoImm | .monoRef => .monoLen fields.length
  | .mixedOrder => .orderArity (fields.countP isRefTy) (fields.countP (!isRefTy ·))
  | .mixedBitmap => .bitmapInfo fields.length (bitmapOfFieldTypes (fields.map lowerIrType))

theorem foldl_ptrAndImmCounts (l : List IrType) (p m : Nat) :
    (l.map lowerIrType).foldl
      (fun counts fieldTy =>
        if isReferenceTy fieldTy then (counts.1 + 1, counts.2) else (counts.1, counts.2 + 1))
      (p, m) = (p + l.countP isRefTy, m + l.countP (!isRefTy ·)) := by
  induction l generalizing p m with
  | nil => simp
  | cons ty l ih =>
    rw [List.map_cons, List.foldl_cons, isReferenceTy_lowerIrType]
    cases hty : isRefTy ty
    · rw [if_neg (by simp), ih]
      simp [hty, Nat.add_assoc, Nat.add_comm 1]
    · rw [if_pos rfl, ih]
      simp [hty, Nat.add_assoc, Nat.add_comm 1]

theorem ptrAndImmCounts_map (fields : List IrType) :
    ptrAndImmCounts (fields.map lowerIrType) =
      (fields.countP isRefTy, fields.countP (!isRefTy ·)) := by
  rw [ptrAndImmCounts, foldl_ptrAndImmCounts, Nat.zero_add, Nat.zero_add]

theorem classifyMonoFields_map (fields : List IrType) :
    classifyMonoFields (fields.map lowerIrType) =
      if fields.all (!isRefTy ·) then some (0, .monoLen fields.length)
      else if fields.all isRefTy then some (1, .monoLen fields.length)
      else none := by
  cases fields with
  | nil => rfl
  | cons ty rest =>
    rw [List.map_cons, classifyMonoFields]
    cases hty : isRefTy ty <;>
      simp [hty, isReferenceTy_lowerIrType, monoTypeOfIrType, List.all_map, Function.comp_def]

theorem classifyFields_map (fields : List IrType) :
    classifyFields (fields.map lowerIrType) = (typeCode (classOf fields), payloadOf fields) := by
  rw [classifyFields, classifyMonoFields_map, payloadOf, classOf]
  by_cases himm : fields.all (!isRefTy ·)
  · simp only [if_pos himm, typeCode]
  by_cases href : fields.all isRefTy
  · simp only [if_neg himm, if_pos href, typeCode]
  by_cases hord : fieldsAreOrdered (fields.map lowerIrType)
  · simp only [if_neg himm, if_neg href, if_pos hord, classifyOrderedFields, ptrAndImmCounts_map,
      typeCode]
  · simp only [if_neg himm, if_neg href, if_neg hord, classifyBitmapFields, List.length_map,
      typeCode]

/-- A bit of the bitmap is set for each reference among the first 63 fields. -/
theorem getLsbD_bitmap_go (l : List IrType) (index : Nat) (acc : BitVec 63) (i : Nat) :
    (bitmapOfFieldTypes.go index acc (l.map lowerIrType)).getLsbD i =
      (acc.getLsbD i || (decide (index ≤ i ∧ i < 63) && l[i - index]?.any isRefTy)) := by
  induction l generalizing index acc with
  | nil => simp [bitmapOfFieldTypes.go]
  | cons ty l ih =>
    have hacc : (if isRefTy ty then acc ||| (1#63 <<< index) else acc).getLsbD i =
        (acc.getLsbD i || (decide (i = index ∧ i < 63) && isRefTy ty)) := by
      cases isRefTy ty
      · simp
      · have hone : (1#63 <<< index).getLsbD i = decide (i = index ∧ i < 63) := by
          rw [BitVec.getLsbD_shiftLeft, BitVec.getLsbD_one]
          grind
        rw [if_pos rfl, BitVec.getLsbD_or, hone, Bool.and_true]
    have htail : ∀ (h : index + 1 ≤ i), (ty :: l)[i - index]? = l[i - (index + 1)]? := by
      intro h
      have heq : i - index = (i - (index + 1)) + 1 := by omega
      rw [heq, List.getElem?_cons_succ]
    rw [List.map_cons, bitmapOfFieldTypes.go, ih, isReferenceTy_lowerIrType, hacc]
    rcases Nat.lt_trichotomy i index with hlt | rfl | hgt
    · have h₁ : ¬ index ≤ i := by omega
      have h₂ : ¬ index + 1 ≤ i := by omega
      have h₃ : i ≠ index := by omega
      simp [h₁, h₂, h₃]
    · simp
    · have h₁ : index ≤ i := by omega
      have h₃ : i ≠ index := by omega
      simp [h₁, h₃, htail hgt, hgt]

theorem getLsbD_bitmap (fields : List IrType) {i : Nat} (hi : i < 63) :
    (bitmapOfFieldTypes (fields.map lowerIrType)).getLsbD i = fields[i]?.any isRefTy := by
  rw [bitmapOfFieldTypes, getLsbD_bitmap_go]
  simp [hi]

/-- Once another field was seen, no reference may follow. -/
theorem foldl_ordered_seen (l : List IrType) (ordered : Bool) :
    ((l.map lowerIrType).foldl
      (fun state f => if isReferenceTy f then (state.1 && !state.2, state.2) else (state.1, true))
      (ordered, true)).1 = (ordered && l.all (!isRefTy ·)) := by
  induction l generalizing ordered with
  | nil => simp
  | cons ty l ih =>
    rw [List.map_cons, List.foldl_cons, isReferenceTy_lowerIrType]
    cases hty : isRefTy ty
    · rw [if_neg (by simp), ih]
      simp [hty]
    · rw [if_pos rfl, ih]
      simp [hty]

theorem foldl_ordered (l : List IrType)
    (h : ((l.map lowerIrType).foldl
      (fun state f => if isReferenceTy f then (state.1 && !state.2, state.2) else (state.1, true))
      (true, false)).1 = true) (i : Nat) :
    (l[i]?.any isRefTy) = decide (i < l.countP isRefTy) := by
  induction l generalizing i with
  | nil => simp
  | cons ty l ih =>
    rw [List.map_cons, List.foldl_cons, isReferenceTy_lowerIrType] at h
    cases hty : isRefTy ty
    · rw [hty, if_neg (by simp), foldl_ordered_seen, Bool.true_and, List.all_eq_true] at h
      have hnone : l.countP isRefTy = 0 := by
        rw [List.countP_eq_zero]
        intro ty' hmem
        simpa using h ty' hmem
      rw [List.countP_cons_of_neg (by simp [hty]), hnone]
      cases i with
      | zero => simp [hty]
      | succ i =>
        rw [List.getElem?_cons_succ]
        cases hi : l[i]? with
        | none => simp
        | some ty' => simpa using h ty' (List.mem_of_getElem? hi)
    · rw [hty, if_pos rfl] at h
      rw [List.countP_cons_of_pos hty]
      cases i with
      | zero => simp [hty]
      | succ i =>
        rw [List.getElem?_cons_succ, ih h i]
        simp

theorem any_eq_of_ordered (h : fieldsAreOrdered (fields.map lowerIrType) = true) (i : Nat) :
    fields[i]?.any isRefTy = decide (i < fields.countP isRefTy) :=
  foldl_ordered fields h i

theorem foldl_max_le {l : List Nat} {a n : Nat} (ha : a ≤ n) (hl : ∀ x ∈ l, x ≤ n) :
    l.foldl (fun acc x => if x > acc then x else acc) a ≤ n := by
  induction l generalizing a with
  | nil => exact ha
  | cons x l ih =>
    have hx := hl x (by simp)
    refine ih ?_ fun y hy => hl y (by simp [hy])
    dsimp only
    split <;> assumption

theorem cellShiftOfIrType_le (ty : IrType) : cellShiftOfIrType ty ≤ 3 := by
  cases ty <;> decide

theorem maxCellShiftOfFields_le (fields : List IrType) : maxCellShiftOfFields fields ≤ 3 := by
  cases fields with
  | nil => decide
  | cons ty rest =>
    refine foldl_max_le (cellShiftOfIrType_le ty) fun x hx => ?_
    obtain ⟨ty', -, rfl⟩ := List.mem_map.mp hx
    exact cellShiftOfIrType_le ty'

theorem le_foldl_max (l : List Nat) (a : Nat) :
    a ≤ l.foldl (fun acc x => if x > acc then x else acc) a ∧
      ∀ x ∈ l, x ≤ l.foldl (fun acc x => if x > acc then x else acc) a := by
  induction l generalizing a with
  | nil => simp
  | cons x l ih =>
    obtain ⟨hstart, hall⟩ := ih (if x > a then x else a)
    have hmax : a ≤ (if x > a then x else a) ∧ x ≤ (if x > a then x else a) := by
      split <;> omega
    rw [List.foldl_cons]
    exact ⟨hmax.1.trans hstart, List.forall_mem_cons.mpr ⟨hmax.2.trans hstart, hall⟩⟩

/-- The first field of a closure is a function pointer, so that all its cells have 8 bytes. -/
theorem maxCellShiftOfFields_closure (rest : List IrType) :
    maxCellShiftOfFields (.fnPtr :: rest) = defaultShift :=
  le_antisymm (maxCellShiftOfFields_le _)
    (le_foldl_max (rest.map cellShiftOfIrType) (cellShiftOfIrType .fnPtr)).1

end Fields

/-- The fields and the constructor tag of a record, tuple or closure, or of a single constructor. -/
def layoutOf : ObjKind → Option (List IrType × Nat)
  | .record fields => some (fields, 0)
  | .variant [c] => some (c.fields, c.tag)
  | _ => none

theorem layoutOf_cases {kind : ObjKind} {fields : List IrType} {tag : Nat}
    (hl : layoutOf kind = some (fields, tag)) :
    (kind = .record fields ∧ tag = 0) ∨
      ∃ c : VariantCtorLayout, kind = .variant [c] ∧ c.fields = fields ∧ c.tag = tag := by
  cases kind with
  | record fields' =>
    obtain ⟨rfl, rfl⟩ := Prod.mk.inj (Option.some.inj hl)
    exact Or.inl ⟨rfl, rfl⟩
  | array element => cases hl
  | variant constructors =>
    match constructors with
    | [] => cases hl
    | [c] =>
      obtain ⟨hfields, htag⟩ := Prod.mk.inj (Option.some.inj hl)
      exact Or.inr ⟨c, rfl, hfields, htag⟩
    | _ :: _ :: _ => cases hl

/-- How compiled code reaches a field of the object: through its own type, a closure also through
a pointer of unknown type, and a constructor through the variant it belongs to. -/
inductive Accesses (kind : ObjKind) : Option ObjKind → Projection → Prop where
  | own (fieldIdx : Nat) : Accesses kind (some kind) (.field fieldIdx)
  | closure (captured : List IrType) (fieldIdx : Nat) : kind = .record (.fnPtr :: captured) →
      Accesses kind none (.field fieldIdx)
  | variant (constructors : List VariantCtorLayout) (c c' : VariantCtorLayout) (fieldIdx : Nat) :
      kind = .variant [c] → constructors.find? (·.tag == c.tag) = some c' →
      c'.fields.map cellShiftOfIrType = c.fields.map cellShiftOfIrType →
      Accesses kind (some (.variant constructors)) (.variant c.tag fieldIdx)

/-- The runtime reads the type back from the header. -/
structure HeaderAgrees (kind : ObjKind) (fields : List IrType) (tag : Nat) (prop : CyclicProp)
    (h : ObjectHeader) : Prop where
  zone : h.zone = 0
  cyclic : h.isCyclic = (cyclicBitOfProp prop == 1)
  cyclicMutable : h.isCyclicMutable = (cyclicMutableBitOfProp prop == 1)
  traceable : h.isTraceable = (traceableBitOfProp prop == 1)
  hasPointers : h.hasPointers = fields.any isRefTy
  tag : h.variantTag = tag
  shift : ∀ obj p, Accesses kind obj p → cellShiftOfProjection obj p = some h.unitShift
  length : h.objectLength = fields.length
  index : h.isCyclicMutable = true →
    h.candidateIndexOffset = 16 + (fields.length <<< h.unitShift) ∧
      h.candidateIndexOffset + 8 ≤ h.allocBytes fields.length
  refs : ∀ i, i ∈ h.refSlots ↔ ∃ ty, fields[i]? = some ty ∧ isRefTy ty = true

/-- The payload has room for the field list. -/
def FitsPayload (fields : List IrType) : Prop :=
  match classOf fields with
  | .monoImm | .monoRef => fields.length < 2 ^ 32
  | .mixedOrder => fields.countP isRefTy < 2 ^ 16 ∧ fields.countP (!isRefTy ·) < 2 ^ 16
  | .mixedBitmap => fields.length < 2 ^ 5 ∧ ∀ ty ∈ fields.drop 27, isRefTy ty = false

/-- The header has room for the type. -/
structure Fits (fields : List IrType) (tag : Nat) (prop : CyclicProp) : Prop where
  tag : tag < 2 ^ 8
  payload : FitsPayload fields
  index : prop = .mutableCyclicTrackable → maxCellShiftOfFields fields = 3

/-- The header of a type by its fields, its constructor tag and its cyclic property. -/
def headerFor (fields : List IrType) (tag : Nat) (prop : CyclicProp) : ObjectHeader :=
  headerOf (cyclicBitOfProp prop == 1) (cyclicMutableBitOfProp prop == 1)
    (typeCode (classOf fields)) (fields.any isRefTy) (traceableBitOfProp prop == 1) tag
    (maxCellShiftOfFields fields) (encodePayload (payloadOf fields))

theorem headerOperandOfObj_eq {kind : ObjKind} {prop : CyclicProp} {fields : List IrType}
    {tag : Nat} (hl : layoutOf kind = some (fields, tag)) :
    headerOperandOfObj kind prop = some (headerFor fields tag prop) := by
  have hbits : bit (cyclicBitOfProp prop == 1) = cyclicBitOfProp prop ∧
      bit (cyclicMutableBitOfProp prop == 1) = cyclicMutableBitOfProp prop ∧
      bit (traceableBitOfProp prop == 1) = traceableBitOfProp prop := by
    cases prop <;> decide
  have hptrs : hasPointerFields (fields.map lowerIrType) = fields.any isRefTy := by
    simp only [hasPointerFields, List.any_map, Function.comp_def, isReferenceTy_lowerIrType]
  rw [headerFor, headerOf, hbits.1, hbits.2.1, hbits.2.2]
  obtain ⟨rfl, rfl⟩ | ⟨c, rfl, rfl, rfl⟩ := layoutOf_cases hl
  · simp only [headerOperandOfObj, ctorFieldsAndTag, cellShiftOfObjKind, classifyFields_map, hptrs,
      Option.bind_eq_bind, Option.bind_some, Option.pure_def]
  · simp only [headerOperandOfObj, ctorFieldsAndTag, cellShiftOfObjKind, classifyFields_map, hptrs,
      Option.bind_eq_bind, Option.bind_some, Option.pure_def]

section Payloads

theorem toNat_monoLen (n : Nat) : ((encodePayload (.monoLen n)).setWidth 32).toNat = n % 2 ^ 32 := by
  simp only [encodePayload, BitVec.toNat_setWidth, BitVec.toNat_ofNat]
  omega

theorem getLsbD_orderArity (p m : Nat) {i : Nat} (hi : i < 32) :
    ((encodePayload (.orderArity p m)).setWidth 32).getLsbD i =
      (p.testBit i || (decide (16 ≤ i) && m.testBit (i - 16))) := by
  rw [encodePayload, BitVec.getLsbD_setWidth, BitVec.getLsbD_or, BitVec.getLsbD_shiftLeft,
    BitVec.getLsbD_ofNat, BitVec.getLsbD_ofNat]
  grind

theorem getLsbD_bitmapInfo (n : Nat) (bitmap : BitVec 63) {i : Nat} (hi : i < 32) :
    ((encodePayload (.bitmapInfo n bitmap)).setWidth 32).getLsbD i =
      (n.testBit i || (decide (5 ≤ i) && bitmap.getLsbD (i - 5))) := by
  rw [encodePayload, BitVec.getLsbD_setWidth, BitVec.getLsbD_or, BitVec.getLsbD_shiftLeft,
    BitVec.getLsbD_ofNat, BitVec.getLsbD_signExtend]
  grind

variable {h : ObjectHeader} {p m n : Nat} {bitmap : BitVec 63}

theorem toNat_mask {x : BitVec 32} (k : Nat) {v : Nat} (hk : k ≤ 32)
    (hbits : ∀ i < k, x.getLsbD i = v.testBit i) :
    (x &&& BitVec.ofNat 32 (2 ^ k - 1)).toNat = v % 2 ^ k := by
  apply Nat.eq_of_testBit_eq
  intro i
  rw [BitVec.testBit_toNat, BitVec.getLsbD_and, BitVec.getLsbD_ofNat, Nat.testBit_two_pow_sub_one,
    Nat.testBit_mod_two_pow]
  by_cases hi : i < k
  · rw [hbits i hi]
    have h32 : i < 32 := by omega
    simp [hi, h32]
  · simp [hi]

theorem orderPtrCount_eq (hp : h.payload = (encodePayload (.orderArity p m)).setWidth 32) :
    h.orderPtrCount = p % 2 ^ 16 := by
  rw [ObjectHeader.orderPtrCount, hp]
  refine toNat_mask 16 (by omega) fun i hi => ?_
  rw [getLsbD_orderArity p m (by omega)]
  grind

theorem orderImmCount_eq (hp : h.payload = (encodePayload (.orderArity p m)).setWidth 32)
    (hlt : p < 2 ^ 16) : h.orderImmCount = m % 2 ^ 16 := by
  rw [ObjectHeader.orderImmCount, hp]
  refine toNat_mask 16 (by omega) fun i hi => ?_
  rw [BitVec.getLsbD_ushiftRight, getLsbD_orderArity p m (by omega),
    testBit_eq_false hlt (by omega)]
  simp

theorem bitmapLength_eq (hp : h.payload = (encodePayload (.bitmapInfo n bitmap)).setWidth 32) :
    h.bitmapLength = n % 2 ^ 5 := by
  rw [ObjectHeader.bitmapLength, hp]
  refine toNat_mask 5 (by omega) fun i hi => ?_
  rw [getLsbD_bitmapInfo n bitmap (by omega)]
  grind

theorem bitmapIsRef_eq (hp : h.payload = (encodePayload (.bitmapInfo n bitmap)).setWidth 32)
    (hlt : n < 2 ^ 5) (i : Nat) : h.bitmapIsRef i = (decide (i < 27) && bitmap.getLsbD i) := by
  rw [ObjectHeader.bitmapIsRef, ObjectHeader.bitmapBits, hp, BitVec.getLsbD_ushiftRight]
  by_cases hi : i < 27
  · rw [getLsbD_bitmapInfo n bitmap (by omega), testBit_eq_false hlt (by omega)]
    simp [hi]
  · rw [BitVec.getLsbD_of_ge _ _ (by omega)]
    simp [hi]

variable {fields : List IrType}

/-- The reference slots of a header that carries the payload of the field list. -/
def RefsAgree (fields : List IrType) (h : ObjectHeader) : Prop :=
  ∀ i, i ∈ h.refSlots ↔ ∃ ty, fields[i]? = some ty ∧ isRefTy ty = true

theorem mem_refs_iff {i : Nat} :
    (∃ ty, fields[i]? = some ty ∧ isRefTy ty = true) ↔ fields[i]?.any isRefTy = true := by
  cases fields[i]? <;> simp

theorem mono_agrees_iff {type : ObjectType} (hclass : classOf fields = type)
    (hmono : type = .monoImm ∨ type = .monoRef) (ht : h.objectType = type)
    (hp : h.payload = (encodePayload (payloadOf fields)).setWidth 32) :
    h.objectLength = fields.length ∧ RefsAgree fields h ↔ fields.length < 2 ^ 32 := by
  have hlen : h.objectLength = fields.length % 2 ^ 32 := by
    have hpay : payloadOf fields = .monoLen fields.length := by
      rcases hmono with rfl | rfl <;> simp only [payloadOf, hclass]
    rw [← toNat_monoLen, ← hpay, ← hp, ObjectHeader.objectLength, ht]
    rcases hmono with rfl | rfl <;> rfl
  refine ⟨fun hagree => ?_, fun hlt => ?_⟩
  · have := hagree.1
    omega
  have hlen : h.objectLength = fields.length := by
    rw [hlen]
    exact Nat.mod_eq_of_lt hlt
  refine ⟨hlen, fun i => ?_⟩
  rcases hmono with rfl | rfl
  · have hall : fields.all (!isRefTy ·) = true := by
      unfold classOf at hclass
      split_ifs at hclass
      assumption
    rw [List.all_eq_true] at hall
    simp only [ObjectHeader.refSlots, ht, List.not_mem_nil, false_iff]
    rintro ⟨ty, hty, href⟩
    simpa [href] using hall ty (List.mem_of_getElem? hty)
  · have hall : fields.all isRefTy = true := by
      unfold classOf at hclass
      split_ifs at hclass
      assumption
    rw [List.all_eq_true] at hall
    simp only [ObjectHeader.refSlots, ht, List.mem_range, hlen]
    constructor
    · intro hi
      exact ⟨fields[i], List.getElem?_eq_getElem hi, hall _ (List.getElem_mem hi)⟩
    · rintro ⟨ty, hty, -⟩
      exact (List.getElem?_eq_some_iff.mp hty).1

theorem order_agrees_iff (hclass : classOf fields = .mixedOrder) (ht : h.objectType = .mixedOrder)
    (hp : h.payload = (encodePayload (payloadOf fields)).setWidth 32) :
    h.objectLength = fields.length ∧ RefsAgree fields h ↔
      fields.countP isRefTy < 2 ^ 16 ∧ fields.countP (!isRefTy ·) < 2 ^ 16 := by
  have hord : fieldsAreOrdered (fields.map lowerIrType) = true := by
    unfold classOf at hclass
    split_ifs at hclass
    assumption
  simp only [payloadOf, hclass] at hp
  have hptr := orderPtrCount_eq hp
  have hcount : fields.countP isRefTy + fields.countP (!isRefTy ·) = fields.length := by
    rw [List.length_eq_countP_add_countP isRefTy (l := fields)]
    simp
  have hrefs : RefsAgree fields h ↔ h.orderPtrCount = fields.countP isRefTy := by
    simp only [RefsAgree, ObjectHeader.refSlots, ht, List.mem_range, mem_refs_iff,
      any_eq_of_ordered hord, decide_eq_true_eq]
    constructor
    · intro hall
      have := hall h.orderPtrCount
      have := hall (fields.countP isRefTy)
      omega
    · intro heq i
      rw [heq]
  rw [hrefs]
  have hlen : h.objectLength = h.orderPtrCount + h.orderImmCount := by
    simp only [ObjectHeader.objectLength, ht]
  constructor
  · rintro ⟨hlength, hpc⟩
    have hlt : fields.countP isRefTy < 2 ^ 16 := by omega
    have himm := orderImmCount_eq hp hlt
    omega
  · rintro ⟨hlt, hlt'⟩
    have himm := orderImmCount_eq hp hlt
    omega

theorem bitmap_agrees_iff (hclass : classOf fields = .mixedBitmap)
    (ht : h.objectType = .mixedBitmap)
    (hp : h.payload = (encodePayload (payloadOf fields)).setWidth 32) :
    h.objectLength = fields.length ∧ RefsAgree fields h ↔
      fields.length < 2 ^ 5 ∧ ∀ ty ∈ fields.drop 27, isRefTy ty = false := by
  simp only [payloadOf, hclass] at hp
  have hlen : h.objectLength = h.bitmapLength := by
    simp only [ObjectHeader.objectLength, ht]
  have hlength := bitmapLength_eq hp
  have hmod : h.objectLength = fields.length ↔ fields.length < 2 ^ 5 := by omega
  rw [hmod, and_congr_right_iff]
  intro hlt
  have hslots : ∀ i, i ∈ h.refSlots ↔ i < 27 ∧ fields[i]?.any isRefTy = true := by
    intro i
    have hbit : ∀ (hi : i < 27), (bitmapOfFieldTypes (fields.map lowerIrType)).getLsbD i =
      fields[i]?.any isRefTy := fun hi => getLsbD_bitmap fields (by omega)
    simp only [ObjectHeader.refSlots, ht, List.mem_filter, List.mem_range, bitmapIsRef_eq hp hlt,
      hlength, Nat.mod_eq_of_lt hlt, Bool.and_eq_true, decide_eq_true_eq]
    constructor
    · rintro ⟨-, hi, href⟩
      exact ⟨hi, (hbit hi).symm.trans href⟩
    · rintro ⟨hi, href⟩
      obtain ⟨ty, hty, -⟩ := mem_refs_iff.mpr href
      exact ⟨(List.getElem?_eq_some_iff.mp hty).1, hi, (hbit hi).trans href⟩
  constructor
  · intro hagree ty hmem
    obtain ⟨i, hi⟩ := List.mem_iff_getElem?.mp hmem
    rw [List.getElem?_drop] at hi
    by_contra href
    have hslot := (hagree (27 + i)).mpr ⟨ty, hi, by simpa using href⟩
    have := ((hslots _).mp hslot).1
    omega
  · intro hdrop i
    rw [hslots, mem_refs_iff, and_iff_right_iff_imp]
    intro href
    by_contra hi
    obtain ⟨ty, hty, href⟩ := mem_refs_iff.mpr href
    have hmem : ty ∈ fields.drop 27 := by
      refine List.mem_iff_getElem?.mpr ⟨i - 27, ?_⟩
      rw [List.getElem?_drop, ← hty]
      congr 1
      omega
    simp [hdrop ty hmem] at href

theorem payload_agrees_iff (ht : h.objectType = classOf fields)
    (hp : h.payload = (encodePayload (payloadOf fields)).setWidth 32) :
    h.objectLength = fields.length ∧ RefsAgree fields h ↔ FitsPayload fields := by
  unfold FitsPayload
  split
  · exact mono_agrees_iff ‹_› (Or.inl rfl) (ht.trans ‹_›) hp
  · exact mono_agrees_iff ‹_› (Or.inr rfl) (ht.trans ‹_›) hp
  · exact order_agrees_iff ‹_› (ht.trans ‹_›) hp
  · exact bitmap_agrees_iff ‹_› (ht.trans ‹_›) hp

end Payloads

variable {fields : List IrType} {kind : ObjKind} {prop : CyclicProp} {tag : Nat} {h : ObjectHeader}

/-- Every access uses the widest cell of the object's fields. -/
theorem cellShift_of_accesses {obj : Option ObjKind} {p : Projection}
    (hl : layoutOf kind = some (fields, tag)) (ha : Accesses kind obj p) :
    cellShiftOfProjection obj p = some (maxCellShiftOfFields fields) := by
  cases ha with
  | own fieldIdx =>
    obtain ⟨rfl, rfl⟩ | ⟨c, rfl, rfl, rfl⟩ := layoutOf_cases hl
    · rfl
    · rfl
  | closure captured fieldIdx hkind =>
    subst hkind
    obtain ⟨rfl, rfl⟩ := Prod.mk.inj (Option.some.inj hl)
    rw [maxCellShiftOfFields_closure]
    rfl
  | variant constructors c c' fieldIdx hkind hfind hcells =>
    subst hkind
    obtain ⟨rfl, rfl⟩ := Prod.mk.inj (Option.some.inj hl)
    simp only [cellShiftOfProjection, cellShiftOfVariant, hfind, maxCellShiftOfFields, hcells]

theorem variantTag_lt (h : ObjectHeader) : h.variantTag < 2 ^ 8 := by
  rw [ObjectHeader.variantTag, BitVec.toNat_and]
  exact lt_of_le_of_lt Nat.and_le_right (by decide)

/-- The index slot lies just behind the fields exactly when the cells have 8 bytes. -/
theorem index_agrees_iff (hlen : h.objectLength = fields.length)
    (hshift : h.unitShift = maxCellShiftOfFields fields) :
    (h.candidateIndexOffset = 16 + (fields.length <<< h.unitShift)) ↔
      maxCellShiftOfFields fields = 3 := by
  have hle := maxCellShiftOfFields_le fields
  rw [ObjectHeader.candidateIndexOffset, hlen, hshift, Nat.shiftLeft_eq]
  constructor
  · intro heq
    cases fields with
    | nil => rfl
    | cons ty rest =>
      rw [List.length_cons] at heq
      interval_cases maxCellShiftOfFields (ty :: rest) <;> omega
  · intro heq
    rw [heq]
    omega

/-- For every object type but an array, the runtime reads it back from the header that the compiler
emits exactly when the fields of the header have room for it. -/
theorem header_agrees_iff (hl : layoutOf kind = some (fields, tag))
    (hh : headerOperandOfObj kind prop = some h) :
    HeaderAgrees kind fields tag prop h ↔ Fits fields tag prop := by
  obtain rfl := Option.some.inj ((headerOperandOfObj_eq hl).symm.trans hh)
  have hmut : (cyclicMutableBitOfProp prop == 1) = true ↔ prop = .mutableCyclicTrackable := by
    cases prop <;> decide
  have htype : (typeCode (classOf fields)).toNat < 2 ^ 2 := by
    cases classOf fields <;> decide
  have hshift4 : maxCellShiftOfFields fields < 2 ^ 4 := by
    have := maxCellShiftOfFields_le fields
    omega
  have hiff : tag < 2 ^ 8 → ((headerFor fields tag prop).objectLength = fields.length ∧
      RefsAgree fields (headerFor fields tag prop) ↔ FitsPayload fields) :=
    fun ht => payload_agrees_iff (objectType_headerOf ht htype rfl) payload_headerOf
  have hshift : (headerFor fields tag prop).unitShift = maxCellShiftOfFields fields :=
    unitShift_headerOf hshift4
  constructor
  · intro hagree
    have ht : tag < 2 ^ 8 := hagree.tag ▸ variantTag_lt _
    have hpayload := (hiff ht).mp ⟨hagree.length, hagree.refs⟩
    refine ⟨ht, hpayload, fun hprop => ?_⟩
    have hindex := (hagree.index (isCyclicMutable_headerOf.trans (hmut.mpr hprop))).1
    exact (index_agrees_iff hagree.length hshift).mp hindex
  · intro hfits
    have ht := hfits.tag
    have hpayload := (hiff ht).mpr hfits.payload
    refine ⟨zone_headerOf ht htype, isCyclic_headerOf ht htype, isCyclicMutable_headerOf,
      isTraceable_headerOf ht, hasPointers_headerOf ht, variantTag_headerOf ht, ?_, hpayload.1, ?_,
      hpayload.2⟩
    · intro obj p ha
      rw [hshift]
      exact cellShift_of_accesses hl ha
    · intro hcyclic
      have hthree := hfits.index (hmut.mp (isCyclicMutable_headerOf.symm.trans hcyclic))
      have hoffset := (index_agrees_iff hpayload.1 hshift).mpr hthree
      refine ⟨hoffset, ?_⟩
      rw [hoffset, ObjectHeader.allocBytes, if_pos hcyclic]

/-- A node that refers to two others around a number. -/
theorem header_agrees_node :
    ∃ h, headerOperandOfObj (.variant [⟨1, [.objPtr, .i64, .objPtr]⟩]) .mutableCyclicTrackable =
        some h ∧
      HeaderAgrees (.variant [⟨1, [.objPtr, .i64, .objPtr]⟩]) [.objPtr, .i64, .objPtr] 1
        .mutableCyclicTrackable h := by
  refine ⟨_, rfl, (header_agrees_iff rfl rfl).mpr ⟨by decide, ?_, fun _ => rfl⟩⟩
  have hclass : classOf [.objPtr, .i64, .objPtr] = .mixedBitmap := by decide
  rw [FitsPayload, hclass]
  exact ⟨by decide, by simp⟩

/-- The object behind 27 numbers has no bit in the bitmap, so that no traversal visits it. -/
theorem last_reference_unvisited :
    ∃ h, headerOperandOfObj (.record (List.replicate 27 .i64 ++ [.obj])) .acyclic = some h ∧
      ¬ HeaderAgrees (.record (List.replicate 27 .i64 ++ [.obj]))
        (List.replicate 27 .i64 ++ [.obj]) 0 .acyclic h := by
  refine ⟨_, rfl, fun hagree => ?_⟩
  have hslot := (hagree.refs 27).mpr ⟨.obj, rfl, rfl⟩
  revert hslot
  decide +kernel

end Syli.Compiler
