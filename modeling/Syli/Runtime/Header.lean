import Mathlib.Data.List.Basic
import Mathlib.Data.BitVec

/-! The 64-bit object header and its decoders. -/
namespace Syli.Runtime

abbrev ObjectHeader := BitVec 64

inductive ObjectType where
  | monoImm
  | monoRef
  | mixedOrder
  | mixedBitmap
deriving DecidableEq, Repr

def flagTraceable : BitVec 64 := 1#64 <<< 56
def flagHasPointers : BitVec 64 := 1#64 <<< 57
def cyclicMutableMask : BitVec 64 := 1#64 <<< 47

/-- `syli_object_make_header` in the local zone. -/
def makeHeader (cyclic : Bool) (type : ObjectType) (flags : BitVec 64) (unitShift : Nat)
    (payload : BitVec 32) : ObjectHeader :=
  let typeBits : BitVec 64 := match type with
    | .monoImm => 0#64
    | .monoRef => 1#64
    | .mixedOrder => 2#64
    | .mixedBitmap => 3#64
  (if cyclic then 1#64 <<< 61 else 0#64) ||| typeBits <<< 59 ||| flags |||
    (BitVec.ofNat 64 unitShift &&& 0xF#64) <<< 43 ||| payload.setWidth 64

/-- The header of a mutable cyclic object whose slots are all references. -/
def mutableCell (slots : BitVec 32) : ObjectHeader :=
  makeHeader true .monoRef (flagHasPointers ||| flagTraceable) 3 slots ||| cyclicMutableMask

namespace ObjectHeader

variable (h : ObjectHeader)

def objectType : ObjectType :=
  match ((h >>> 59) &&& 3#64).toNat with
  | 0 => .monoImm
  | 1 => .monoRef
  | 2 => .mixedOrder
  | _ => .mixedBitmap

def isMonoImm : Bool := h.objectType == .monoImm
def isCyclic : Bool := h.getLsbD 61
def hasPointers : Bool := h.getLsbD 57
def isTraceable : Bool := h.getLsbD 56
def isCyclicMutable : Bool := h.getLsbD 47
def unitShift : Nat := ((h >>> 43) &&& 0xF#64).toNat
def payload : BitVec 32 := h.setWidth 32
def orderPtrCount : Nat := (h.payload &&& 0xFFFF#32).toNat
def orderImmCount : Nat := ((h.payload >>> 16) &&& 0xFFFF#32).toNat
def bitmapLength : Nat := (h.payload &&& 0x1F#32).toNat
def bitmapBits : BitVec 32 := h.payload >>> 5
def bitmapIsRef (index : Nat) : Bool := h.bitmapBits.getLsbD index

def objectLength : Nat :=
  match h.objectType with
  | .monoImm | .monoRef => h.payload.toNat
  | .mixedOrder => h.orderPtrCount + h.orderImmCount
  | .mixedBitmap => h.bitmapLength

def sizeBytes : Nat := h.objectLength <<< h.unitShift

/-- Header, `meta_ref_count`, the fields and the candidate index of mutable cyclic objects. -/
def totalBytes : Nat := 16 + h.sizeBytes + if h.isCyclicMutable then 8 else 0

/-- The slots that the tracing and releasing loops visit. -/
def refSlots : List Nat :=
  match h.objectType with
  | .monoImm => []
  | .monoRef => List.range h.objectLength
  | .mixedOrder => List.range h.orderPtrCount
  | .mixedBitmap => (List.range h.bitmapLength).filter fun i => h.bitmapIsRef i

/-- What a loop over the fields charges to its budget. -/
def slotBudget : Int :=
  match h.objectType with
  | .monoImm => 0
  | .monoRef => h.objectLength
  | .mixedOrder => h.orderPtrCount
  | .mixedBitmap => h.bitmapLength

/-- `gc_one_step_prepare_tracing_mutations` charges nothing for a bitmap object. -/
def mutationBudget : Int :=
  match h.objectType with
  | .mixedBitmap => 0
  | _ => h.slotBudget

/-- What the compiler guarantees of the headers it emits: an object without pointers has no
reference slot, and a mutable cyclic object has pointers. -/
structure WellFormed : Prop where
  refSlots_of_no_pointers : h.hasPointers = false → h.refSlots = []
  hasPointers_of_cyclicMutable : h.isCyclicMutable = true → h.hasPointers = true
  not_monoImm_of_cyclicMutable : h.isCyclicMutable = true → h.isMonoImm = false

instance : Decidable h.WellFormed :=
  decidable_of_iff
    ((h.hasPointers = false → h.refSlots = []) ∧
      (h.isCyclicMutable = true → h.hasPointers = true) ∧
      (h.isCyclicMutable = true → h.isMonoImm = false))
    ⟨fun ⟨h₁, h₂, h₃⟩ => ⟨h₁, h₂, h₃⟩, fun ⟨h₁, h₂, h₃⟩ => ⟨h₁, h₂, h₃⟩⟩

theorem refSlots_of_isMonoImm (hi : h.isMonoImm = true) : h.refSlots = [] := by
  simp only [isMonoImm, beq_iff_eq] at hi
  simp [refSlots, hi]

theorem nodup_refSlots : h.refSlots.Nodup := by
  unfold refSlots
  split
  · exact List.nodup_nil
  · exact List.nodup_range
  · exact List.nodup_range
  · exact List.nodup_range.filter _

theorem lt_objectLength_of_mem_refSlots {i : Nat} (hi : i ∈ h.refSlots) : i < h.objectLength := by
  unfold refSlots at hi
  unfold objectLength at *
  split at hi <;> simp_all
  omega

end ObjectHeader

end Syli.Runtime
