import Syli.Compiler.Oir
import Syli.Compiler.TypeLowering

/-! `lower_oir_to_rir.ml`: the header words of the objects that compiled code allocates. -/
namespace Syli.Compiler

/-- The types of the runtime representation; an object pointer's property is not read here. -/
inductive RirType where
  | bool | i64 | i32 | i16 | i8 | u64 | u32 | u16 | u8 | float | double
  | fnPtr
  | objPtr
  | char
  | string
  | void
deriving DecidableEq, Repr

def lowerIrType : IrType → RirType
  | .bool => .bool
  | .i64 => .i64
  | .i32 => .i32
  | .i16 => .i16
  | .i8 => .i8
  | .u64 => .u64
  | .u32 => .u32
  | .u16 => .u16
  | .u8 => .u8
  | .f32 => .float
  | .f64 => .double
  | .fnPtr => .fnPtr
  | .obj => .objPtr
  | .objPtr => .objPtr
  | .char => .char
  | .string => .string
  | .void => .void

def isReferenceTy : RirType → Bool
  | .objPtr | .string => true
  | _ => false

/-- A field's index is its position in the list. -/
structure VariantCtorLayout where
  tag : Nat
  fields : List IrType
deriving DecidableEq

inductive ObjKind where
  | record (fields : List IrType)
  | array (element : IrType)
  | variant (constructors : List VariantCtorLayout)
deriving DecidableEq

inductive Payload where
  | monoLen (length : Nat)
  | orderArity (ptrCount immCount : Nat)
  | bitmapInfo (length : Nat) (bitmap : BitVec 63)
deriving DecidableEq

/-- A native integer has 63 bits. The source leaves `1 lsl index` open from `index = 63` on. -/
def bitmapOfFieldTypes (fieldTypes : List RirType) : BitVec 63 :=
  go 0 0 fieldTypes
where
  go (index : Nat) (acc : BitVec 63) : List RirType → BitVec 63
    | [] => acc
    | fieldTy :: rest =>
      let acc' := if isReferenceTy fieldTy then acc ||| (1#63 <<< index) else acc
      go (index + 1) acc' rest

def ptrAndImmCounts (fieldTypes : List RirType) : Nat × Nat :=
  fieldTypes.foldl
    (fun counts fieldTy =>
      if isReferenceTy fieldTy then (counts.1 + 1, counts.2) else (counts.1, counts.2 + 1))
    (0, 0)

def makeHeader (zone cyclic cyclicMutable objType : BitVec 64) (hasPointers : Bool)
    (traceable variantTag : BitVec 64) (unitShift : Nat) (payload : BitVec 64) : BitVec 64 :=
  let zoneBits := zone <<< 62
  let cyclicBits := cyclic <<< 61
  let cyclicMutableBits := cyclicMutable <<< 47
  let typeBits := objType <<< 59
  let hasPointersBit := if hasPointers then 1#64 <<< 57 else 0#64
  let traceableBit := traceable <<< 56
  let unitBits := (BitVec.ofNat 64 unitShift &&& 0xF#64) <<< 43
  let payloadBits := payload &&& 0xFFFFFFFF#64
  zoneBits ||| cyclicBits ||| cyclicMutableBits ||| typeBits ||| hasPointersBit |||
    traceableBit ||| variantTag ||| unitBits ||| payloadBits

def monoTypeOfIrType (ty : RirType) : BitVec 64 := if isReferenceTy ty then 1 else 0

def variantTagRaw (tag : Nat) : BitVec 64 := BitVec.ofNat 64 tag <<< 48

/-- All fields are references, or none is. -/
def classifyMonoFields : List RirType → Option (BitVec 64 × Payload)
  | [] => some (0, .monoLen 0)
  | first :: rest =>
    if rest.all fun f => isReferenceTy f == isReferenceTy first then
      some (monoTypeOfIrType first, .monoLen (first :: rest).length)
    else none

def classifyOrderedFields (fieldTypes : List RirType) : BitVec 64 × Payload :=
  let (ptrCount, immCount) := ptrAndImmCounts fieldTypes
  (2, .orderArity ptrCount immCount)

def classifyBitmapFields (fieldTypes : List RirType) : BitVec 64 × Payload :=
  (3, .bitmapInfo fieldTypes.length (bitmapOfFieldTypes fieldTypes))

def encodePayload : Payload → BitVec 64
  | .monoLen length => BitVec.ofNat 64 length
  | .orderArity ptrCount immCount => BitVec.ofNat 64 ptrCount ||| BitVec.ofNat 64 immCount <<< 16
  | .bitmapInfo length bitmap => BitVec.ofNat 64 length ||| bitmap.signExtend 64 <<< 5

/-- All references come before any other field. -/
def fieldsAreOrdered (fieldTypes : List RirType) : Bool :=
  (fieldTypes.foldl
    (fun state f => if isReferenceTy f then (state.1 && !state.2, state.2) else (state.1, true))
    (true, false)).1

def hasPointerFields (fieldTypes : List RirType) : Bool := fieldTypes.any isReferenceTy

def cyclicBitOfProp : CyclicProp → BitVec 64
  | .mutableCyclicTrackable | .immutableCyclicTrackable | .unknownCyclicProp => 1
  | .acyclicTrackable | .acyclic => 0

def traceableBitOfProp : CyclicProp → BitVec 64
  | .mutableCyclicTrackable | .immutableCyclicTrackable | .unknownCyclicProp
  | .acyclicTrackable => 1
  | .acyclic => 0

def cyclicMutableBitOfProp : CyclicProp → BitVec 64
  | .mutableCyclicTrackable => 1
  | _ => 0

def defaultShift : Nat := 3

def cellShiftOfIrType : IrType → Nat
  | .i8 | .u8 | .char | .bool => 0
  | .i16 | .u16 => 1
  | .i32 | .u32 | .f32 => 2
  | _ => defaultShift

def maxCellShiftOfFields (fields : List IrType) : Nat :=
  match fields.map cellShiftOfIrType with
  | [] => defaultShift
  | s :: rest => rest.foldl (fun acc x => if x > acc then x else acc) s

/-- `none` where the source fails. -/
def cellShiftOfObjKind : ObjKind → Option Nat
  | .array element => some (cellShiftOfIrType element)
  | .record fields => some (maxCellShiftOfFields fields)
  | .variant [] => some defaultShift
  | .variant [c] => some (maxCellShiftOfFields c.fields)
  | .variant _ => none

/-- The object type of an operand: its kind, or `none` for another type. -/
def cellShiftOfVariant (ty : Option ObjKind) (tag : Nat) : Nat :=
  match ty with
  | some (.variant constructors) =>
    match constructors.find? (·.tag == tag) with
    | some c => maxCellShiftOfFields c.fields
    | none => defaultShift
  | _ => defaultShift

def cellShiftOfObjOperand : Option ObjKind → Option Nat
  | some kind => cellShiftOfObjKind kind
  | none => some defaultShift

def cellShiftOfProjection (obj : Option ObjKind) : Projection → Option Nat
  | .field _ => cellShiftOfObjOperand obj
  | .array _ => cellShiftOfObjOperand obj
  | .variant tag _ => some (cellShiftOfVariant obj tag)

/-- The fields of the object and its constructor tag. -/
def ctorFieldsAndTag : ObjKind → Option (List IrType × Nat)
  | .variant [c] => some (c.fields, c.tag)
  | .variant _ => none
  | _ => some ([], 0)

def classifyFields (fieldTypes : List RirType) : BitVec 64 × Payload :=
  match classifyMonoFields fieldTypes with
  | some (ty, p) => (ty, p)
  | none =>
    if fieldsAreOrdered fieldTypes then classifyOrderedFields fieldTypes
    else classifyBitmapFields fieldTypes

def headerOperandOfObj (objKind : ObjKind) (cyclicProp : CyclicProp) : Option (BitVec 64) := do
  let (ctorFields, ctorTag) ← ctorFieldsAndTag objKind
  let fieldTypes := match objKind with
    | .record fields => fields.map lowerIrType
    | .array element => [lowerIrType element]
    | .variant _ => ctorFields.map lowerIrType
  let hasPointers := hasPointerFields fieldTypes
  let (objType, payload) := classifyFields fieldTypes
  let payloadVal := match objKind with
    | .array _ => 0#64
    | _ => encodePayload payload
  let unitShift ← cellShiftOfObjKind objKind
  return makeHeader 0 (cyclicBitOfProp cyclicProp) (cyclicMutableBitOfProp cyclicProp) objType
    hasPointers (traceableBitOfProp cyclicProp) (variantTagRaw ctorTag) unitShift payloadVal

end Syli.Compiler
