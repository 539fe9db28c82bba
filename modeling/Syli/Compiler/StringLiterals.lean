import Syli.Compiler.HeaderAgreement
import Syli.Compiler.LlvmStrings

/-! `gen_llvm.ml` and `syli_foreign_primitives.c`: the objects of string literals and the length that
the runtime reads from them. -/
namespace Syli.Compiler.Llvm

open Syli.Runtime

variable {s t : List Byte} {n : Nat}

def staticStringZone : BitVec 64 := 2#64 <<< 62

def stringWordCount (len : Nat) : Nat := (len + 8) / 8

def stringPaddedBytes (len : Nat) : Nat := stringWordCount len * 8

def staticStringHeader (len : Nat) : BitVec 64 :=
  staticStringZone ||| BitVec.ofNat 64 (stringWordCount len)

/-- The global of a literal: `arrayLength` is the length in the type of its bytes. -/
structure StringObject where
  header : BitVec 64
  refcount : BitVec 64
  arrayLength : Nat
  bytes : List Byte
deriving DecidableEq

/-- The bytes of the string, zeros, and in the last byte how many zeros precede it. -/
def stringObjectInit (s : List Byte) : StringObject :=
  let len := s.length
  let total := stringPaddedBytes len
  { header := staticStringHeader len
    refcount := 0
    arrayLength := total
    bytes := (s ++ List.replicate (total - len) 0).set (total - 1)
      (BitVec.ofNat 8 (total - 1 - len)) }

/-- The data of the object in memory, as LLVM reads the text that the compiler prints. -/
def StringObject.data (o : StringObject) : List Byte := unescape (escapeCString o.bytes)

/-- `syli_string_bytes_length`, with its assertions; the data pointer is behind the two words of
the header. -/
def syliStringBytesLength (header : ObjectHeader) (data : List Byte) : Option Nat :=
  if header.isMonoImm then
    let wordBytes := header.payload.toNat * 8
    if 0 < wordBytes then
      match data[wordBytes - 1]? with
      | some marker =>
        if marker.toNat < 8 then some (wordBytes - 1 - marker.toNat) else none
      | none => none
    else none
  else none

/-- The runtime reads the literal back, and no other literal has its object. -/
structure RoundTrips (s : List Byte) : Prop where
  ends : quote ∉ escapeCString (stringObjectInit s).bytes
  arrayLength : (stringObjectInit s).data.length = (stringObjectInit s).arrayLength
  length : syliStringBytesLength (stringObjectInit s).header (stringObjectInit s).data =
    some s.length
  bytes : (stringObjectInit s).data.take s.length = s
  distinct : ∀ t, stringObjectInit t = stringObjectInit s → t = s

theorem lt_stringPaddedBytes (n : Nat) : n < stringPaddedBytes n ∧ stringPaddedBytes n ≤ n + 8 := by
  unfold stringPaddedBytes stringWordCount
  omega

theorem length_bytes (s : List Byte) :
    (stringObjectInit s).bytes.length = stringPaddedBytes s.length := by
  have := lt_stringPaddedBytes s.length
  simp only [stringObjectInit, List.length_set, List.length_append, List.length_replicate]
  omega

theorem take_bytes (s : List Byte) : (stringObjectInit s).bytes.take s.length = s := by
  have := lt_stringPaddedBytes s.length
  simp only [stringObjectInit]
  rw [List.take_set_of_le (by omega), List.take_left]

theorem getLast_bytes (s : List Byte) :
    (stringObjectInit s).bytes[stringPaddedBytes s.length - 1]? =
      some (BitVec.ofNat 8 (stringPaddedBytes s.length - 1 - s.length)) := by
  have := lt_stringPaddedBytes s.length
  refine List.getElem?_set_self ?_
  simp only [List.length_append, List.length_replicate]
  omega

/-- The last byte tells how much of the array is the string. -/
theorem stringObjectInit_injective (h : stringObjectInit t = stringObjectInit s) : t = s := by
  have hs := lt_stringPaddedBytes s.length
  have ht := lt_stringPaddedBytes t.length
  have hbytes := congrArg StringObject.bytes h
  have htotal : stringPaddedBytes t.length = stringPaddedBytes s.length := by
    rw [← length_bytes, ← length_bytes, hbytes]
  have hlast := getLast_bytes t
  rw [hbytes, htotal, getLast_bytes s] at hlast
  have hmarker := congrArg BitVec.toNat (Option.some.inj hlast)
  simp only [BitVec.toNat_ofNat] at hmarker
  have hlength : t.length = s.length := by omega
  rw [← take_bytes t, ← take_bytes s, hbytes, hlength]

section Header

theorem payload_staticStringHeader (n : Nat) :
    ObjectHeader.payload (staticStringHeader n) = BitVec.ofNat 32 (stringWordCount n) := by
  refine BitVec.eq_of_getLsbD_eq fun i hi => ?_
  have hzone : staticStringZone.getLsbD i = false := by
    unfold staticStringZone
    rw [BitVec.getLsbD_shiftLeft]
    simp
    omega
  have h64 : i < 64 := by omega
  rw [ObjectHeader.payload, BitVec.getLsbD_setWidth, staticStringHeader, BitVec.getLsbD_or, hzone,
    BitVec.getLsbD_ofNat, BitVec.getLsbD_ofNat]
  simp [hi, h64]

theorem isMonoImm_staticStringHeader (hn : stringWordCount n < 2 ^ 32) :
    ObjectHeader.isMonoImm (staticStringHeader n) = true := by
  have hfield : ((staticStringHeader n >>> 59) &&& BitVec.ofNat 64 (2 ^ 2 - 1)).toNat = 0 := by
    refine toNat_field (by omega) (by omega) fun i hi => ?_
    have hcount : (stringWordCount n).testBit (59 + i) = false :=
      testBit_eq_false hn (by omega)
    have hzone : staticStringZone.getLsbD (59 + i) = false := by
      unfold staticStringZone
      rw [BitVec.getLsbD_shiftLeft]
      simp
      omega
    rw [staticStringHeader, BitVec.getLsbD_or, hzone, BitVec.getLsbD_ofNat, hcount]
    simp
  have htype : ObjectHeader.objectType (staticStringHeader n) = .monoImm := by
    unfold ObjectHeader.objectType
    rw [show (3#64) = BitVec.ofNat 64 (2 ^ 2 - 1) from rfl, hfield]
    rfl
  simp [ObjectHeader.isMonoImm, htype]

end Header

/-- The length that the runtime reads is below the range of the payload. -/
theorem syliStringBytesLength_lt {header : ObjectHeader} {data : List Byte}
    (h : syliStringBytesLength header data = some n) : n + 8 < 2 ^ 35 := by
  have hpayload := header.payload.isLt
  unfold syliStringBytesLength at h
  split at h
  · dsimp only at h
    split at h
    · split at h
      · split at h
        · cases h
          omega
        · cases h
      · cases h
    · cases h
  · cases h

theorem syliStringBytesLength_init (hs : s.length + 8 < 2 ^ 35) :
    syliStringBytesLength (stringObjectInit s).header (stringObjectInit s).bytes =
      some s.length := by
  have hpad := lt_stringPaddedBytes s.length
  have hcount : stringWordCount s.length < 2 ^ 32 := by
    unfold stringWordCount
    omega
  have hpayload : (ObjectHeader.payload (stringObjectInit s).header).toNat * 8 =
      stringPaddedBytes s.length := by
    change (ObjectHeader.payload (staticStringHeader s.length)).toNat * 8 = _
    rw [payload_staticStringHeader, BitVec.toNat_ofNat, Nat.mod_eq_of_lt hcount]
    rfl
  have hmono : ObjectHeader.isMonoImm (stringObjectInit s).header = true :=
    isMonoImm_staticStringHeader hcount
  have hmarker : (BitVec.ofNat 8 (stringPaddedBytes s.length - 1 - s.length)).toNat =
      stringPaddedBytes s.length - 1 - s.length := by
    rw [BitVec.toNat_ofNat]
    omega
  unfold syliStringBytesLength
  simp only [hmono, if_true, hpayload, getLast_bytes, hmarker]
  rw [if_pos (by omega), if_pos (by omega)]
  congr 1
  omega

/-- A literal round-trips exactly where the number of its words fits into the payload. -/
theorem roundTrips_iff (s : List Byte) : RoundTrips s ↔ s.length + 8 < 2 ^ 35 := by
  constructor
  · intro h
    exact syliStringBytesLength_lt h.length
  · intro hs
    have hdata : (stringObjectInit s).data = (stringObjectInit s).bytes :=
      unescape_escapeCString _
    exact
      { ends := quote_not_mem_escapeCString _
        arrayLength := by
          rw [hdata]
          exact length_bytes s
        length := by
          rw [hdata]
          exact syliStringBytesLength_init hs
        bytes := by
          rw [hdata]
          exact take_bytes s
        distinct := fun t => stringObjectInit_injective }

/-- A literal of 2^35 bytes is read back with another length. -/
theorem long_literal_lost : ¬ RoundTrips (List.replicate (2 ^ 35) 0x61) := by
  intro h
  have := syliStringBytesLength_lt h.length
  rw [List.length_replicate] at this
  omega

end Syli.Compiler.Llvm
