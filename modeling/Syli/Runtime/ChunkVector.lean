import Mathlib

/-! `chunk_vector.h`: a growable vector whose elements stay in chunks of one size. -/
namespace Syli.Runtime

def chunkSize : Nat := 512

def initialChunkArrayCapacity : Nat := 64

/-- An element of a chunk: the block of the chunk and the offset in it. -/
abbrev SlotAddr := Nat × Nat

inductive VectorFault where
  | nullPointer
  | outOfRange
deriving DecidableEq, Repr

/-- Whether the calls of `malloc` and `realloc` that an operation makes succeed. -/
structure Allocations where
  malloc : Bool := true
  realloc : Bool := true
deriving DecidableEq

/-- `chunks` is the allocated pointer array, with `none` for a word that holds no chunk; `blocks`
counts the chunks that `malloc` has returned, and `memory` is what they hold. The fields of 32 bits
wrap around. -/
structure ChunkVector (T : Type) where
  chunks : List (Option Nat)
  chunkCount : Nat
  chunkArrayCapacity : Nat
  activeChunk : Nat
  activeOffset : Nat
  totalElements : Nat
  blocks : Nat
  memory : SlotAddr → Option T

def uint32 (n : Nat) : Nat := n % 2 ^ 32

/-- `realloc` keeps the words that fit. -/
def resize (chunks : List (Option Nat)) (n : Nat) : List (Option Nat) :=
  chunks.take n ++ List.replicate (n - chunks.length) none

/-- `vector_index_to_chunk` -/
def indexToChunk (index : Nat) : Nat × Nat := (uint32 (index / chunkSize), index % chunkSize)

namespace ChunkVector

variable {T : Type} (a : Allocations) (v : ChunkVector T)

/-- `&chunks[chunk][offset]` -/
def slot (chunk offset : Nat) : Except VectorFault SlotAddr :=
  match v.chunks[chunk]? with
  | none => .error .outOfRange
  | some none => .error .nullPointer
  | some (some block) => if offset < chunkSize then .ok (block, offset) else .error .outOfRange

def load (p : SlotAddr) : Option T := v.memory p

def store (p : SlotAddr) (value : T) : ChunkVector T :=
  { v with memory := Function.update v.memory p (some value) }

/-- `chunks[active_chunk] = p` -/
def setActive (p : Option Nat) : Except VectorFault (ChunkVector T) :=
  if v.activeChunk < v.chunks.length then
    .ok { v with chunks := v.chunks.set v.activeChunk p }
  else .error .outOfRange

/-- `chunks[active_chunk] = malloc(..)` -/
def mallocActive : Except VectorFault (ChunkVector T) :=
  if a.malloc then setActive { v with blocks := v.blocks + 1 } (some v.blocks)
  else setActive v none

/-- `active_chunk++; active_offset = 0` -/
def nextChunk : ChunkVector T :=
  { v with activeChunk := uint32 (v.activeChunk + 1), activeOffset := 0 }

/-- The field is doubled before `realloc` is called. -/
def doubleCapacity : ChunkVector T :=
  { v with chunkArrayCapacity := uint32 (v.chunkArrayCapacity * 2) }

def reallocChunks : ChunkVector T := { v with chunks := resize v.chunks v.chunkArrayCapacity }

/-- `active_offset++; total_elements++` -/
def advance : ChunkVector T :=
  { v with activeOffset := v.activeOffset + 1, totalElements := v.totalElements + 1 }

/-- The vector before any call is not read; only the heap around it is. -/
def init : Except VectorFault (ChunkVector T) := do
  let v ← mallocActive {} { v with
    chunks := List.replicate initialChunkArrayCapacity none
    chunkArrayCapacity := initialChunkArrayCapacity
    chunkCount := 0
    activeChunk := 0
    activeOffset := 0
    totalElements := 0 }
  return { v with chunkCount := 1 }

/-- The end of `vector_alloc_slot`. -/
def takeSlot : Except VectorFault (Option SlotAddr × ChunkVector T) := do
  let result ← v.slot v.activeChunk v.activeOffset
  return (some result, v.advance)

/-- `vector_alloc_slot` where the active chunk is beyond the chunks that exist. -/
def allocChunk : Except VectorFault (Option SlotAddr × ChunkVector T) :=
  if v.activeChunk ≥ v.chunkCount then do
    let v ← v.mallocActive a
    if a.malloc then takeSlot { v with chunkCount := uint32 (v.chunkCount + 1) }
    else return (none,
      { v with activeChunk := uint32 (v.activeChunk + 2 ^ 32 - 1), activeOffset := chunkSize })
  else v.takeSlot

def allocSlot : Except VectorFault (Option SlotAddr × ChunkVector T) :=
  if v.activeOffset ≥ chunkSize then
    let v := v.nextChunk
    if v.activeChunk ≥ v.chunkArrayCapacity then
      let v := v.doubleCapacity
      if a.realloc then v.reallocChunks.allocChunk a else .ok (none, v)
    else v.allocChunk a
  else v.takeSlot

/-- The end of `vector_push_back`. -/
def putValue (value : T) : Except VectorFault (ChunkVector T) := do
  let result ← v.slot v.activeChunk v.activeOffset
  return (v.store result value).advance

/-- `vector_push_back` counts the new chunk without a look at it. -/
def pushChunk (value : T) : Except VectorFault (ChunkVector T) :=
  if v.activeChunk ≥ v.chunkCount then do
    let v ← v.mallocActive a
    putValue { v with chunkCount := uint32 (v.chunkCount + 1) } value
  else v.putValue value

def pushBack (value : T) : Except VectorFault (ChunkVector T) :=
  if v.activeOffset ≥ chunkSize then
    let v := v.nextChunk
    if v.activeChunk ≥ v.chunkArrayCapacity then
      let v := v.doubleCapacity
      if a.realloc then v.reallocChunks.pushChunk a value else .ok v
    else v.pushChunk a value
  else v.putValue value

def popBack : ChunkVector T :=
  if v.totalElements = 0 then v
  else
    let v := { v with totalElements := v.totalElements - 1 }
    if v.activeOffset > 0 then { v with activeOffset := v.activeOffset - 1 }
    else { v with
      activeChunk := uint32 (v.activeChunk + 2 ^ 32 - 1)
      activeOffset := chunkSize - 1 }

/-- `vector_at`; `vector_at_const` has the same body. -/
def vectorAt (index : Nat) : Except VectorFault (Option SlotAddr) :=
  if index ≥ v.totalElements then .ok none
  else some <$> v.slot (indexToChunk index).1 (indexToChunk index).2

def back : Except VectorFault (Option SlotAddr) :=
  if v.totalElements = 0 then .ok none
  else if v.activeOffset > 0 then some <$> v.slot v.activeChunk (v.activeOffset - 1)
  else some <$> v.slot (uint32 (v.activeChunk + 2 ^ 32 - 1)) (chunkSize - 1)

def size : Nat := v.totalElements

def empty : Bool := v.totalElements == 0

def clear : ChunkVector T := { v with activeChunk := 0, activeOffset := 0, totalElements := 0 }

end ChunkVector

/-- The operations; the slot of `allocSlot` is written with the value where there is one. -/
inductive VectorOp (T : Type) where
  | init
  | pushBack (value : T)
  | allocSlot (value : T)
  | popBack
  | clear
  | vectorAt (index : Nat)
  | back

namespace ChunkVector

variable {T : Type}

def step (a : Allocations) (v : ChunkVector T) : VectorOp T → Except VectorFault (ChunkVector T)
  | .init => v.init
  | .pushBack value => v.pushBack a value
  | .allocSlot value => do
    match ← v.allocSlot a with
    | (some p, v) => return v.store p value
    | (none, v) => return v
  | .popBack => .ok v.popBack
  | .clear => .ok v.clear
  | .vectorAt index => do
    let _ ← v.vectorAt index
    return v
  | .back => do
    let _ ← v.back
    return v

/-- What is there before the first `init`. -/
def start : ChunkVector T := ⟨[], 0, 0, 0, 0, 0, 0, fun _ => none⟩

end ChunkVector

end Syli.Runtime
