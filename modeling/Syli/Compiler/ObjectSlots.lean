import Syli.Compiler.CarrierCasts
import Syli.Compiler.HeaderAgreement
import Syli.Compiler.TypedHeap

/-! `lower_core_to_cir.ml`, `lower_cir_to_oir.ml` and `lower_oir_to_rir.ml`: the bytes of an object
that its stores write and its loads read. -/
namespace Syli.Compiler.GenLlvm

open Foundation TypedHeap Syli.Runtime

def oirOfConstant : ConstantTy → IrType
  | .int64 => .i64
  | .int32 => .i32
  | .int16 => .i16
  | .int8 => .i8
  | .uint64 => .u64
  | .uint32 => .u32
  | .uint16 => .u16
  | .uint8 => .u8
  | .unit => .void
  | .bool => .bool
  | .f32 => .f32
  | .f64 => .f64
  | .string => .string
  | .char => .char

/-- `lower_ir_type` of `lower_cir_to_oir.ml`; a generic type is an error. -/
def oirOfCir : Cir.IrType → Option IrType
  | .constant c => some (oirOfConstant c)
  | .genericTyp _ => none
  | .arrow _ _ => some .objPtr
  | .objPtr => some .objPtr
  | .record _ _ _ | .array _ _ | .variant _ _ _ => some .obj

def lowerObjKind : Cir.IrType → Option ObjKind
  | .record _ fields _ => do return .record (← fields.mapM oirOfCir)
  | .array element _ => do return .array (← oirOfCir element)
  | .variant _ constructors _ => do
    return .variant (← constructors.mapM fun c => do
      return { tag := c.1, fields := ← c.2.mapM oirOfCir })
  | _ => none

/-- The type of the object that a constructor makes. -/
def variantConstructorTy (defs : StringMap TypeEntry) (fuel : Nat) (variantName : String)
    (c : ConstructorDecl) : Option Cir.IrType := do
  let fields ← (ctorFields c.arg).mapM fun f => mkIrTy defs fuel [] f.1
  return .variant variantName [(c.tag, fields)] (variantConstructorProp defs variantName c.tag)

/-- The objects that compiled code makes. -/
inductive ObjTy where
  /-- A record, a tuple or an array. -/
  | value (t : CTy)
  | ctor (name : String) (args : List CTy) (c : ConstructorDecl)
  | closure (storedTys : List IrType)

/-- The kind in the type of the variable that the object is created for. -/
def ObjTy.createdKind (defs : StringMap TypeEntry) (fuel : Nat) : ObjTy → Option ObjKind
  | .value t => do lowerObjKind (← mkIrTy defs fuel [] t)
  | .ctor name args c => do
    lowerObjKind (← variantConstructorTy defs fuel (materializedName name args) c)
  | .closure storedTys => some (closureObjTy storedTys)

def slotTy : ObjKind → Nat → Option IrType
  | .record fields, i => fields[i]?
  | .array element, _ => some element
  | .variant [c], i => c.fields[i]?
  | .variant _, _ => none

structure ByteRange where
  start : Nat
  size : Nat
deriving DecidableEq

def byteSize (ty : IrType) : Nat := ((lltypeOf ty).width + 7) / 8

/-- The bytes of a store or a load of a value of the type. -/
def slotRange (obj fieldIdx cellShift : Nat) (ty : IrType) : ByteRange :=
  { start := slotAddress obj fieldIdx cellShift, size := byteSize ty }

/-- The accesses through the type that the object was created with: the stores that initialise and
update it, and the loads of fields and elements. -/
inductive OwnAccess (kind : ObjKind) (obj : Nat) : Nat → ByteRange → Prop where
  | field {i shift : Nat} {ty : IrType} :
      (∀ element, kind ≠ .array element) → slotTy kind i = some ty →
      cellShiftOfProjection (some kind) (.field i) = some shift →
      OwnAccess kind obj i (slotRange obj i shift ty)
  | element {i shift : Nat} {index : Operand} {ty : IrType} :
      kind = .array ty → cellShiftOfProjection (some kind) (.array index) = some shift →
      OwnAccess kind obj i (slotRange obj i shift ty)

/-- The loads: of a field or an element, of a payload through the type of its variant, and of a
slot of a closure through an untyped pointer. -/
inductive Load (defs : StringMap TypeEntry) (obj : Nat) : ObjTy → Nat → ByteRange → Prop where
  | own {t : CTy} {fuel i : Nat} {kind : ObjKind} {r : ByteRange} :
      (ObjTy.value t).createdKind defs fuel = some kind → OwnAccess kind obj i r →
      Load defs obj (.value t) i r
  | payload {name : String} {args : List CTy} {c : ConstructorDecl} {t : CTy} {fuel fuel' : Nat}
      {constructors : List (Nat × List Cir.IrType)} {prop : CyclicProp} {kind : ObjKind}
      {i shift : Nat} {f : CTy × MutFlag} {ir : Cir.IrType} {ty : IrType} :
      mkIrTy defs fuel [] t = some (.variant (materializedName name args) constructors prop) →
      lowerObjKind (.variant (materializedName name args) constructors prop) = some kind →
      (ctorFields c.arg)[i]? = some f → mkIrTy defs fuel' [] f.1 = some ir →
      oirOfCir ir = some ty →
      cellShiftOfProjection (some kind) (.variant c.tag i) = some shift →
      Load defs obj (.ctor name args c) i (slotRange obj i shift ty)
  | function {storedTys : List IrType} {shift : Nat} :
      cellShiftOfProjection none (.field 0) = some shift →
      Load defs obj (.closure storedTys) 0 (slotRange obj 0 shift .fnPtr)
  | stored {storedTys : List IrType} {i shift : Nat} {ty : IrType} :
      storedTys[i]? = some ty → cellShiftOfProjection none (.field (1 + i)) = some shift →
      Load defs obj (.closure storedTys) (1 + i) (slotRange obj (1 + i) shift (storedSlotTy ty))

/-- The header with which the object is created; the length of an array is added to it. -/
def createdHeader (kind : ObjKind) (prop : CyclicProp) (length : Nat) : Option ObjectHeader := do
  let base ← headerOperandOfObj kind prop
  match kind with
  | .array _ => return base + BitVec.ofNat 64 length
  | _ => return base

/-- The number of slots with which the object is created. A record has those of its literal. -/
def ObjTy.CreatedWith (o : ObjTy) (length : Nat) : Prop :=
  match o with
  | .value (.tuple tys) => length = tys.length
  | .value _ => True
  | .ctor _ _ c => length = (ctorFields c.arg).length
  | .closure storedTys => length = 1 + storedTys.length

/-- Every load reads the bytes that were stored, which belong to one index and lie in the cells that
are allocated. -/
structure ReadWhereWritten (defs : StringMap TypeEntry) (o : ObjTy) (length : Nat) : Prop where
  same : ∀ fuel kind obj i w r, o.createdKind defs fuel = some kind → OwnAccess kind obj i w →
    Load defs obj o i r → r = w
  disjoint : ∀ fuel kind obj i j w w', o.createdKind defs fuel = some kind →
    OwnAccess kind obj i w → OwnAccess kind obj j w' → i < j → w.start + w.size ≤ w'.start
  inside : ∀ fuel kind prop h obj i w, o.createdKind defs fuel = some kind →
    createdHeader kind prop length = some h → OwnAccess kind obj i w →
    (∀ element, kind = .array element → i < length) →
    obj + 16 ≤ w.start ∧ w.start + w.size ≤ obj + 16 + (length <<< h.unitShift)

/-- The tags of a declaration are the positions of its constructors. -/
def TagsDistinct (typeDefs : StringMap TyDeclDesc) : Prop :=
  ∀ key ctors, typeDefs.findOpt key = some (.variant ctors) → (ctors.map (·.tag)).Nodup

/-- A constructor with a payload belongs to a declared variant. -/
def ObjTy.Declared (typeDefs : StringMap TyDeclDesc) : ObjTy → Prop
  | .ctor name args c => ∃ ctors,
      typeDefs.findOpt (materializedName name args) = some (.variant ctors) ∧ c ∈ ctors
  | _ => True

/-- The values that a closure stores are as wide as the carrier, and a record is created with the
slots of its fields; a field of the unit type takes no bytes. -/
def ObjTy.SlotsFit (defs : StringMap TypeEntry) (o : ObjTy) (length : Nat) : Prop :=
  match o with
  | .value t => ∀ fuel kind, (ObjTy.value t).createdKind defs fuel = some kind →
      (∀ element, kind ≠ .array element) →
        ∀ i ty, slotTy kind i = some ty → i < length ∨ ty = .void ∧ i ≤ length
  | .ctor _ _ _ => True
  | .closure storedTys => ∀ ty ∈ storedTys, byteSize ty = 8

/-- The length of an array does not reach into the fields above it in the header. -/
def ObjTy.LengthFits (defs : StringMap TypeEntry) (o : ObjTy) (length : Nat) : Prop :=
  ∀ fuel element, o.createdKind defs fuel = some (.array element) → length < 2 ^ 43

end Syli.Compiler.GenLlvm
