import Mathlib
import Syli.Foundation.LittleEndian

/-! `gc_roots.h` and `syli_state_gc_roots.c`: the stackmap section and the table of its records. -/
namespace Syli.Runtime

open Foundation

/-- The version 3 format of the section. -/
structure Location where
  kind : BitVec 8
  size : BitVec 16
  dwarfReg : BitVec 16
  offset : BitVec 32

structure LiveOut where
  dwarfReg : BitVec 16
  size : BitVec 8

structure StkMapRecord where
  patchpointId : BitVec 64
  instrOffset : BitVec 32
  flags : BitVec 16
  locations : List Location
  liveOuts : List LiveOut
  numLocations_lt : locations.length < 2 ^ 16
  numLiveOuts_lt : liveOuts.length < 2 ^ 16

structure StkSizeRecord where
  addr : BitVec 64
  stackSize : BitVec 64
  records : List StkMapRecord

structure StackMap where
  functions : List StkSizeRecord
  constants : List (BitVec 64)
  numFunctions_lt : functions.length < 2 ^ 32
  numConstants_lt : constants.length < 2 ^ 32
  numRecords_lt : (functions.flatMap fun f => f.records).length < 2 ^ 32

/-- The zeros that bring `n` bytes to a multiple of 8. -/
def padding (n : Nat) : Bytes := List.replicate ((8 - n % 8) % 8) 0

def Location.encode (l : Location) : Bytes :=
  littleEndian 1 l.kind.toNat ++ (littleEndian 1 0 ++ (littleEndian 2 l.size.toNat ++
    (littleEndian 2 l.dwarfReg.toNat ++ (littleEndian 2 0 ++ littleEndian 4 l.offset.toNat))))

def LiveOut.encode (l : LiveOut) : Bytes :=
  littleEndian 2 l.dwarfReg.toNat ++ (littleEndian 1 0 ++ littleEndian 1 l.size.toNat)

namespace StkMapRecord

/-- The fixed part of a record and its locations. -/
def front (r : StkMapRecord) : Bytes :=
  littleEndian 8 r.patchpointId.toNat ++ (littleEndian 4 r.instrOffset.toNat ++
    (littleEndian 2 r.flags.toNat ++ (littleEndian 2 r.locations.length ++
      r.locations.flatMap Location.encode)))

/-- The part of a record after the locations. -/
def back (r : StkMapRecord) : Bytes :=
  littleEndian 2 0 ++ (littleEndian 2 r.liveOuts.length ++ r.liveOuts.flatMap LiveOut.encode)

def encode (r : StkMapRecord) : Bytes :=
  (r.front ++ padding r.front.length) ++ (r.back ++ padding r.back.length)

end StkMapRecord

def StkSizeRecord.encode (f : StkSizeRecord) : Bytes :=
  littleEndian 8 f.addr.toNat ++ (littleEndian 8 f.stackSize.toNat ++
    littleEndian 8 f.records.length)

namespace StackMap

/-- The records of all functions, each with its function. -/
def records (m : StackMap) : List (StkSizeRecord × StkMapRecord) :=
  m.functions.flatMap fun f => f.records.map fun r => (f, r)

def header (m : StackMap) : Bytes :=
  littleEndian 1 3 ++ (littleEndian 1 0 ++ (littleEndian 2 0 ++
    (littleEndian 4 m.functions.length ++ (littleEndian 4 m.constants.length ++
      littleEndian 4 m.records.length))))

def encode (m : StackMap) : Bytes :=
  m.header ++ (m.functions.flatMap StkSizeRecord.encode ++
    (m.constants.flatMap (fun c => littleEndian 8 c.toNat) ++
      m.functions.flatMap fun f => f.records.flatMap StkMapRecord.encode))

end StackMap

/-- `SyliStackMap_Record_Entry`: the pointers are offsets in the section, or NULL. -/
structure RecordEntry where
  pc : BitVec 64
  record : Option Nat
  locations : Option Nat
deriving DecidableEq

/-- What the table holds in `syli_state`. -/
structure RecordTable where
  stackmapRecordEntry : Option (List RecordEntry)
  stackmapRecordEntryLen : Nat

/-- A read or a write outside what is allocated, a failed assertion, or the exit of the process. -/
inductive StackmapFault where
  | outside
  | assertion
  | exit

def read (bytes : Bytes) (a k : Nat) : Except StackmapFault Nat :=
  match readNat bytes a k with
  | some x => .ok x
  | none => .error .outside

def writeEntry (entries : List RecordEntry) (index : Nat) (entry : RecordEntry) :
    Except StackmapFault (List RecordEntry) :=
  if index < entries.length then .ok (entries.set index entry) else .error .outside

def advanceRecord (bytes : Bytes) (record : Nat) : Except StackmapFault Nat := do
  let numLocations ← read bytes (record + 14) 2
  let locations := record + 16
  let p := locations + numLocations * 12
  let p := if numLocations * 12 % 8 = 4 then p + 4 else p
  let p := p + 2
  let numLiveouts ← read bytes p 2
  let p := p + 2
  let p := p + 4 * numLiveouts
  return if (4 * numLiveouts + 4) % 8 = 4 then p + 4 else p

/-- The variables of the two loops that fill the table. -/
structure Fill where
  entries : List RecordEntry
  index : Nat
  currentRecord : Nat

/-- The inner loop, of which `n` rounds are left. -/
def recordLoop (bytes : Bytes) (function : Nat) : Nat → Fill → Except StackmapFault Fill
  | 0, st => .ok st
  | n + 1, st => do
    let addr ← read bytes function 8
    let instrOffset ← read bytes (st.currentRecord + 8) 4
    let entries ← writeEntry st.entries st.index
      ⟨BitVec.ofNat 64 (addr + instrOffset), some st.currentRecord, some (st.currentRecord + 16)⟩
    let next ← advanceRecord bytes st.currentRecord
    recordLoop bytes function n ⟨entries, st.index + 1, next⟩

/-- The outer loop, of which `n` rounds are left. -/
def functionLoop (bytes : Bytes) : Nat → Nat → Fill → Except StackmapFault Fill
  | 0, _, st => .ok st
  | n + 1, function, st => do
    let numRecords ← read bytes (function + 16) 8
    let st ← recordLoop bytes function numRecords st
    functionLoop bytes n (function + 24) st

/-- `calloc` tells whether it grants so many entries. -/
def buildStackmapRecordEntry (calloc : Nat → Bool) (bytes : Bytes) (table : RecordTable) :
    Except StackmapFault RecordTable :=
  if table.stackmapRecordEntry.isSome then .ok table
  else do
    let numFunctions ← read bytes 4 4
    let numConstants ← read bytes 8 4
    let numRecords ← read bytes 12 4
    if calloc numRecords then
      let st ← functionLoop bytes numFunctions 16
        ⟨List.replicate numRecords ⟨0, none, none⟩, 0, 16 + 24 * numFunctions + numConstants * 8⟩
      return ⟨some st.entries, numRecords⟩
    else .error .exit

/-- The entry for a pc without a record, at `INTPTR_MAX`. -/
def RecordEntry.missing : RecordEntry := ⟨2 ^ 63 - 1, none, none⟩

def searchLoop (entries : List RecordEntry) (pc : BitVec 64) (low high : Int) :
    Except StackmapFault RecordEntry :=
  if low < high then
    let mid := low + (high - low) / 2
    match entries[mid.toNat]? with
    | none => .error .outside
    | some entry =>
      if entry.pc = pc then .ok entry
      else if pc < entry.pc then searchLoop entries pc low mid
      else searchLoop entries pc (mid + 1) high
  else .ok .missing
termination_by (high - low).toNat
decreasing_by all_goals omega

/-- The length becomes an `int`. -/
def lookupRecordEntry (table : RecordTable) (pc : BitVec 64) : Except StackmapFault RecordEntry :=
  match table.stackmapRecordEntry with
  | none => .error .assertion
  | some entries => searchLoop entries pc 0 (BitVec.ofNat 32 table.stackmapRecordEntryLen).toInt

def readLocation (bytes : Bytes) (a : Nat) : Except StackmapFault Location := do
  let kind ← read bytes a 1
  let size ← read bytes (a + 2) 2
  let dwarfReg ← read bytes (a + 4) 2
  let offset ← read bytes (a + 8) 4
  return ⟨BitVec.ofNat 8 kind, BitVec.ofNat 16 size, BitVec.ofNat 16 dwarfReg,
    BitVec.ofNat 32 offset⟩

/-- The locations that `collect_frame` reads in the rounds of its loop from `i` on. -/
def locationLoop (bytes : Bytes) (locations : Nat) : Nat → Nat → Except StackmapFault (List Location)
  | 0, _ => .ok []
  | n + 1, i => do
    let loc ← readLocation bytes (locations + 12 * i)
    let rest ← locationLoop bytes locations n (i + 1)
    return loc :: rest

def entryLocations (bytes : Bytes) (entry : RecordEntry) : Except StackmapFault (List Location) :=
  match entry.locations, entry.record with
  | some locations, some record => do
    let numLocations ← read bytes (record + 14) 2
    locationLoop bytes locations numLocations 0
  | _, _ => .ok []

end Syli.Runtime
