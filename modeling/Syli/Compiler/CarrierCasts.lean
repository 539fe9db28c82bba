import Syli.Compiler.GenLlvm
import Syli.Compiler.HeaderAgreement

/-! `lower_cir_to_oir.ml` and `gen_closure_helpers.ml`: values that pass through the `i64` carrier
of closures. -/
namespace Syli.Compiler.GenLlvm

open Foundation

def oirIsPtr : IrType → Bool
  | .obj | .objPtr | .string | .fnPtr => true
  | _ => false

def rirCastNode (srcIsPtr : Bool) (toTy : IrType) : CastOp :=
  match srcIsPtr, oirIsPtr toTy with
  | false, true => .intToPtr
  | true, false => .ptrToInt
  | _, _ => .bitCast

def lltypeOf (ty : IrType) : Lltype := lltypeOfIrType (lowerIrType ty)

/-- The cast of a value of the type `srcTy` that is assigned at the type `toTy`. -/
def runCast (srcTy toTy : IrType) (v : Value) : Option Value :=
  runCastAssign (rirCastNode (oirIsPtr srcTy) toTy) v (lltypeOf toTy)

/-- An argument of an application, cast to the carrier. -/
def castApplyArg (argTy : IrType) (v : Value) : Option Value :=
  match argTy with
  | .i64 => some v
  | _ => runCast argTy .i64 v

/-- The type of the input of a wrapper for its parameter at the index. -/
def wrapperInputTy (nMakeClosureLoads i : Nat) (paramTy : IrType) : IrType :=
  if i < nMakeClosureLoads ∧ isRefTy paramTy then .objPtr else .i64

def prepareArg (inTy paramTy : IrType) (v : Value) : Option Value :=
  if inTy = paramTy then some v else runCast inTy paramTy v

/-- The result of a wrapper at its return type. -/
def wrapperResult (isGeneric : Bool) (speRetTy retTy : IrType) (v : Value) : Option Value :=
  if isGeneric ∧ speRetTy ≠ retTy then runCast speRetTy retTy v else some v

/-- The result of an application at the type of its destination. -/
def applyResult (isGeneric : Bool) (dstTy : IrType) (v : Value) : Option Value :=
  if dstTy ≠ .void ∧ isGeneric ∧ dstTy ≠ .i64 then runCast .i64 dstTy v else some v

/-- The type at which a stored slot of a closure is loaded. -/
def storedSlotTy (ty : IrType) : IrType := if isRefTy ty then .objPtr else .i64

/-- A closure is a record of its function and its stored values. -/
def closureObjTy (storedTys : List IrType) : ObjKind := .record (.fnPtr :: storedTys)

/-- An argument from the application to the callee. -/
def passArg (ty : IrType) (nMakeClosureLoads i : Nat) (v : Value) : Option Value := do
  prepareArg (wrapperInputTy nMakeClosureLoads i ty) ty (← castApplyArg ty v)

/-- A generic result from the callee to the destination of the application. -/
def passResult (ty : IrType) (v : Value) : Option Value := do
  applyResult true ty (← wrapperResult true ty .i64 v)

/-- A stored value from the closure's creation to the callee. The slot is written at the cell width
of the closure's type and read through an untyped pointer. -/
def passStored (storedTys : List IrType) (ty : IrType) (i : Nat) (mem : ByteMemory) (obj : Nat)
    (v : Value) : Option Value := do
  let storeShift ← cellShiftOfObjOperand (some (closureObjTy storedTys))
  let loadShift ← cellShiftOfObjOperand none
  let mem := storeSlot mem obj (1 + i) storeShift v
  let loaded := loadSlot mem obj (1 + i) loadShift (lltypeOf (storedSlotTy ty))
  prepareArg (wrapperInputTy storedTys.length i ty) ty loaded

/-- The types of the values that are no references. -/
def IsValueTy (ty : IrType) : Prop :=
  ty ∈ [.bool, .char, .i64, .i32, .i16, .i8, .u64, .u32, .u16, .u8, .f32, .f64]

/-- The value comes through on every way, with legal casts only. -/
structure Lossless (ty : IrType) (v : Value) : Prop where
  arg : ∀ n i, passArg ty n i v = some v
  result : passResult ty v = some v
  stored : ∀ storedTys i mem obj, storedTys[i]? = some ty →
    passStored storedTys ty i mem obj v = some v

variable {ty : IrType} {v : Value}

/-- A closure has slots of a word, whatever it stores. -/
theorem closure_cellShift (storedTys : List IrType) :
    cellShiftOfObjOperand (some (closureObjTy storedTys)) = some defaultShift :=
  congrArg some (maxCellShiftOfFields_closure storedTys)

theorem not_ref_of_isValueTy (h : IsValueTy ty) : isRefTy ty = false ∧ oirIsPtr ty = false := by
  simp only [IsValueTy, List.mem_cons, List.not_mem_nil, or_false] at h
  rcases h with rfl | rfl | rfl | rfl | rfl | rfl | rfl | rfl | rfl | rfl | rfl | rfl <;> decide

/-- A word is read from a slot as it was written. -/
theorem loadSlot_storeSlot (mem : ByteMemory) (obj fieldIdx cellShift : Nat) (v : Value) :
    loadSlot (storeSlot mem obj fieldIdx cellShift v) obj fieldIdx cellShift v.ty = v := by
  simp only [loadSlot, storeSlot, ByteMemory.load_store]

/-- What a value of a word's width is as a word. -/
def asWord (bits : BitVec 64) : Value := { ty := .i64, bits }

theorem loadSlot_word (mem : ByteMemory) (obj fieldIdx cellShift : Nat) (bits : BitVec 64) :
    loadSlot (storeSlot mem obj fieldIdx cellShift { ty := .double, bits }) obj fieldIdx cellShift
      .i64 = asWord bits :=
  loadSlot_storeSlot mem obj fieldIdx cellShift (asWord bits)

theorem evalCast_word (bits : BitVec 64) :
    evalCast .bitCast (asWord bits) .double = some { ty := .double, bits } := by
  have hlegal : CastOp.bitCast.Legal .i64 .double := by decide
  simp only [evalCast, asWord, hlegal, if_true]
  exact congrArg (fun b => some (Value.mk .double b)) (BitVec.setWidth_eq bits)

theorem evalCast_double (bits : BitVec 64) :
    evalCast .bitCast { ty := .double, bits } .i64 = some (asWord bits) := by
  have hlegal : CastOp.bitCast.Legal .double .i64 := by decide
  simp only [evalCast, hlegal, if_true]
  exact congrArg (fun b => some (asWord b)) (BitVec.setWidth_eq bits)

theorem passArg_eq (href : isRefTy ty = false) (n i : Nat) :
    passArg ty n i v = (castApplyArg ty v).bind (prepareArg .i64 ty) := by
  simp [passArg, wrapperInputTy, href]

/-- A stored value that is no reference is read as a word. -/
theorem passStored_eq (href : isRefTy ty = false) (storedTys : List IrType) (i : Nat)
    (mem : ByteMemory) (obj : Nat) :
    passStored storedTys ty i mem obj v = prepareArg .i64 ty
      (loadSlot (storeSlot mem obj (1 + i) defaultShift v) obj (1 + i) defaultShift .i64) := by
  unfold passStored
  rw [closure_cellShift]
  simp [cellShiftOfObjOperand, wrapperInputTy, storedSlotTy, href, lltypeOf, lltypeOfIrType,
    lowerIrType]

/-- Integers of a word are carried as they are. -/
theorem lossless_word (hty : ty = .i64 ∨ ty = .u64) (bits : BitVec 64) :
    Lossless ty (asWord bits) := by
  have hcast : castApplyArg ty (asWord bits) = some (asWord bits) ∧
      prepareArg .i64 ty (asWord bits) = some (asWord bits) := by
    rcases hty with rfl | rfl
    · exact ⟨rfl, rfl⟩
    · exact ⟨rfl, rfl⟩
  have href : isRefTy ty = false := by
    rcases hty with rfl | rfl
    · rfl
    · rfl
  refine ⟨fun n i => ?_, ?_, fun storedTys i mem obj _ => ?_⟩
  · rw [passArg_eq href, hcast.1]
    exact hcast.2
  · rcases hty with rfl | rfl
    · rfl
    · rfl
  · rw [passStored_eq href]
    have hload := loadSlot_storeSlot mem obj (1 + i) defaultShift (asWord bits)
    exact (congrArg (prepareArg .i64 ty) hload).trans hcast.2

/-- A double is carried with its bits. -/
theorem lossless_double (bits : BitVec 64) : Lossless .f64 { ty := .double, bits } := by
  refine ⟨fun n i => ?_, ?_, fun storedTys i mem obj _ => ?_⟩
  · rw [passArg_eq rfl]
    exact (congrArg (fun o => o.bind (prepareArg .i64 .f64)) (evalCast_double bits)).trans
      (evalCast_word bits)
  · exact (congrArg (fun o => o.bind (applyResult true .f64)) (evalCast_double bits)).trans
      (evalCast_word bits)
  · rw [passStored_eq rfl, loadSlot_word]
    exact evalCast_word bits

/-- No cast to the carrier is legal for a value of another width. -/
theorem castApplyArg_narrow (hty : IsValueTy ty) (hwidth : (lltypeOf ty).width ≠ 64)
    (bits : BitVec (lltypeOf ty).width) : castApplyArg ty { ty := lltypeOf ty, bits } = none := by
  have hillegal : ¬ CastOp.bitCast.Legal (lltypeOf ty) .i64 := fun h => hwidth h.2.1
  have hne : lltypeOf ty ≠ .i64 := by
    intro heq
    rw [heq] at hwidth
    exact hwidth rfl
  have hnot : ty ≠ .i64 := by
    rintro rfl
    exact hne rfl
  have hrun : castApplyArg ty { ty := lltypeOf ty, bits } =
      runCast ty .i64 { ty := lltypeOf ty, bits } := by
    unfold castApplyArg
    split
    · exact absurd rfl hnot
    · rfl
  have hop : rirCastNode (oirIsPtr ty) .i64 = .bitCast := by
    rw [(not_ref_of_isValueTy hty).2]
    rfl
  have hto : lltypeOf .i64 = .i64 := rfl
  rw [hrun, runCast, hop, hto, runCastAssign, lowerCastAssign, if_neg hne]
  simp only [evalCast, if_neg hillegal]

/-- The carrier is lossless exactly for the values of a word. -/
theorem carrier_lossless_iff (ty : IrType) (hty : IsValueTy ty)
    (bits : BitVec (lltypeOf ty).width) :
    Lossless ty { ty := lltypeOf ty, bits } ↔ (lltypeOf ty).width = 64 := by
  constructor
  · intro h
    by_contra hwidth
    have harg := h.arg 0 0
    rw [passArg_eq (not_ref_of_isValueTy hty).1, castApplyArg_narrow hty hwidth] at harg
    simp at harg
  · intro hwidth
    simp only [IsValueTy, List.mem_cons, List.not_mem_nil, or_false] at hty
    rcases hty with rfl | rfl | rfl | rfl | rfl | rfl | rfl | rfl | rfl | rfl | rfl | rfl
    · exact absurd hwidth (by decide)
    · exact absurd hwidth (by decide)
    · exact lossless_word (Or.inl rfl) bits
    · exact absurd hwidth (by decide)
    · exact absurd hwidth (by decide)
    · exact absurd hwidth (by decide)
    · exact lossless_word (Or.inr rfl) bits
    · exact absurd hwidth (by decide)
    · exact absurd hwidth (by decide)
    · exact absurd hwidth (by decide)
    · exact absurd hwidth (by decide)
    · exact lossless_double bits

theorem carrier_lossless_double : Lossless .f64 { ty := lltypeOf .f64, bits := 1#64 } ↔
    (lltypeOf .f64).width = 64 :=
  carrier_lossless_iff .f64 (by simp [IsValueTy]) 1#64

/-- An integer of 32 bits is cast to the carrier by an instruction that is not legal. -/
theorem carrier_loses_i32 : IsValueTy .i32 ∧
    ¬ Lossless .i32 { ty := lltypeOf .i32, bits := 7#32 } ∧
    passArg .i32 0 0 { ty := lltypeOf .i32, bits := 7#32 } = none := by
  have hnone : passArg .i32 0 0 { ty := lltypeOf .i32, bits := 7#32 } = none := rfl
  refine ⟨by simp [IsValueTy], fun h => ?_, hnone⟩
  rw [h.arg 0 0] at hnone
  simp at hnone

end Syli.Compiler.GenLlvm
