import Syli.Runtime.Header

/-! The zone and the constructor tag in the header, and the bytes of an object in memory. -/
namespace Syli.Runtime

namespace ObjectHeader

variable (h : ObjectHeader)

/-- `syli_object_get_zone`: 0 is local, 1 shared, 2 static. -/
def zone : Nat := ((h >>> 62) &&& 3#64).toNat

/-- `syli_object_get_variant_tag` -/
def variantTag : Nat := ((h >>> 48) &&& 0xFF#64).toNat

/-- `value[syli_object_length(obj)]` counts 8-byte words, whatever the cells are. -/
def candidateIndexOffset : Nat := 16 + 8 * h.objectLength

/-- What `syli_object_alloc` asks of `malloc`. -/
def allocBytes (length : Nat) : Nat :=
  16 + (length <<< h.unitShift) + (if h.isCyclicMutable then 1 else 0) * 8

end ObjectHeader

end Syli.Runtime
