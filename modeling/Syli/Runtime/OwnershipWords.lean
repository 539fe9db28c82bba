import Mathlib
import Syli.Runtime.Ownership
import Syli.Runtime.HeaderLayout
import Syli.Foundation.Runs
import Syli.Foundation.LowBits

/-! `object.h` and the ownership primitives of `syli.c` on the words that hold tagged pointers. -/
namespace Syli.Runtime

abbrev Word := BitVec 64

namespace Words

def untag (ptr : Word) : Word := ptr &&& ~~~3#64

def isOwnRef (ptr : Word) : Bool := ptr &&& 3#64 == 1#64

def isAlwaysBorrow (ptr : Word) : Bool := ptr &&& 3#64 == 2#64

def isImmediate (ptr : Word) : Bool := ptr &&& 3#64 == 3#64

def setOwn (ptr : Word) : Word := ptr ||| 1#64

end Words

/-- Where the objects of the heap and the immortal ones lie. Objects are aligned, so that the two
low bits of their addresses are free for the tag. -/
structure Placement where
  objectAt : Word → Option Addr
  immortal : Word → Option ObjectHeader
  objectAt_zero : objectAt 0 = none
  immortal_zero : immortal 0 = none
  aligned : ∀ w a, objectAt w = some a → w &&& 3#64 = 0
  immortal_aligned : ∀ w h, immortal w = some h → w &&& 3#64 = 0

namespace Placement

variable (place : Placement) (s : SyliState)

/-- The pointer that a word stands for: a word without a meaning points to no object. -/
def decode (w : Word) : Option ObjPtr :=
  match (w &&& 3#64).toNat with
  | 0 => if w = 0 then some .null else (place.objectAt w).map .borrow
  | 1 => (place.objectAt (Words.untag w)).map .own
  | 2 =>
    if (place.objectAt (Words.untag w)).isNone then some (.alwaysBorrow (w >>> 2).toNat) else none
  | _ => some (.immediate (w >>> 2).toNat)

def object (raw : Word) : Result Addr :=
  match place.objectAt raw with
  | some a => .ok a
  | none => .error .nullDeref

/-- The first word of the object at an address. -/
def headerWord (raw : Word) : Result ObjectHeader :=
  match place.objectAt raw, place.immortal raw with
  | some a, _ => do return (← s.deref a).header
  | none, some h => .ok h
  | none, none => .error .nullDeref

def pointer (w : Word) : Result ObjPtr :=
  match place.decode w with
  | some p => .ok p
  | none => .error .nullDeref

end Placement

namespace Words

variable (place : Placement) (s : SyliState) (ptr : Word)

/-- The two assertions that open every primitive. -/
def checkCounted : Result Unit := do
  check (isAlwaysBorrow ptr = false)
  check (isImmediate ptr = false)

def syliRtOwnershipIncr : Result SyliState := do
  checkCounted ptr
  check (isOwnRef ptr = true)
  let a ← place.object (untag ptr)
  syliRtObjectIncr wordCounts s a

def syliRtOwnershipDecr : Result SyliState := do
  checkCounted ptr
  check (isOwnRef ptr = true)
  let a ← place.object (untag ptr)
  syliRtObjectDecr wordCounts s a

def syliRtOwnershipShare : Result (Word × SyliState) := do
  checkCounted ptr
  let a ← place.object (untag ptr)
  let s ← syliRtObjectIncr wordCounts s a
  return (setOwn ptr, s)

def syliRtOwnershipOwn : Result (Word × SyliState) := do
  checkCounted ptr
  if isOwnRef ptr then return (ptr, s)
  let a ← place.object (untag ptr)
  let s ← syliRtObjectIncr wordCounts s a
  return (setOwn (untag ptr), s)

def syliRtOwnershipBorrow : Result Word := do
  checkCounted ptr
  return untag ptr

def syliRtOwnershipRelease : Result SyliState := do
  checkCounted ptr
  if isOwnRef ptr then
    let a ← place.object (untag ptr)
    syliRtObjectDecr wordCounts s a
  else return s

def syliRtOwnershipNotifyMutation (targetPtr : Word) : Result SyliState := do
  check (isImmediate ptr = false)
  if isOwnRef ptr then
    let obj ← place.object (untag ptr)
    if s.tracingState = .tracing ∨ s.tracingState = .mutationPrepare then
      let target ← place.object (untag targetPtr)
      syliRtObjectNotifyMutation s obj target (← place.pointer targetPtr)
    else return s
  else return s

/-- `syli_object_get_variant_tag` as a word. -/
def variantTag (h : ObjectHeader) : Word := (h >>> 48) &&& 0xFF#64

/-- The caller passes an object pointer: this primitive does not untag. -/
def syliRtGetObjectTag (obj : Word) : Result Word := do
  check (obj ≠ 0)
  return variantTag (← place.headerWord s obj)

end Words

open Foundation

variable {place : Placement} {s : SyliState} {w : Word} {p : ObjPtr} {a : Addr}

namespace Words

theorem untag_setOwn : untag (setOwn w) = untag w := or_one_clear

theorem untag_of_borrow (h : w &&& 3#64 = 0#64) : untag w = w := clear_of_aligned h

theorem setOwn_of_own (h : w &&& 3#64 = 1#64) : setOwn w = w :=
  or_one_of_odd (and_three_eq_one.mp h).1

end Words

namespace Placement

/-- What a word with a meaning looks like. -/
inductive Represents (place : Placement) : Word → ObjPtr → Prop where
  | null : Represents place 0 .null
  | borrow {w : Word} {a : Addr} (ha : place.objectAt w = some a) : Represents place w (.borrow a)
  | own {w : Word} {a : Addr} (ht : w &&& 3#64 = 1#64)
      (ha : place.objectAt (Words.untag w) = some a) : Represents place w (.own a)
  | alwaysBorrow {w : Word} (ht : w &&& 3#64 = 2#64)
      (hn : place.objectAt (Words.untag w) = none) :
      Represents place w (.alwaysBorrow (w >>> 2).toNat)
  | immediate {w : Word} (ht : w &&& 3#64 = 3#64) :
      Represents place w (.immediate (w >>> 2).toNat)

theorem decode_eq_some : place.decode w = some p ↔ Represents place w p := by
  constructor
  · intro h
    unfold decode at h
    rcases and_three_cases w with ht | ht | ht | ht <;> rw [ht] at h
    · by_cases hw : w = 0
      · subst hw
        cases h
        exact .null
      · change (if w = 0 then _ else _) = some p at h
        rw [if_neg hw] at h
        obtain ⟨a, ha, rfl⟩ := Option.map_eq_some_iff.mp h
        exact .borrow ha
    · obtain ⟨a, ha, rfl⟩ := Option.map_eq_some_iff.mp h
      exact .own ht ha
    · change (if _ then some _ else none) = some p at h
      split at h
      · cases h
        exact .alwaysBorrow ht (Option.isNone_iff_eq_none.mp ‹_›)
      · cases h
    · cases h
      exact .immediate ht
  · intro h
    unfold decode
    cases h with
    | null => rfl
    | @borrow _ a ha =>
      have hw : w ≠ 0 := fun h => by cases place.objectAt_zero.symm.trans (h ▸ ha)
      rw [place.aligned _ _ ha]
      change (if w = 0 then _ else _) = _
      rw [if_neg hw, ha]
      rfl
    | own ht ha =>
      rw [ht]
      simp [ha]
    | alwaysBorrow ht hn =>
      rw [ht]
      change (if _ then some _ else none) = _
      rw [hn]
      rfl
    | immediate ht =>
      rw [ht]
      rfl

theorem pointer_eq_ok (h : Represents place w p) : place.pointer w = .ok p := by
  rw [pointer, decode_eq_some.mpr h]

theorem object_eq_ok {raw : Word} (h : place.objectAt raw = some a) : place.object raw = .ok a := by
  rw [object, h]

theorem object_zero : place.object 0 = .error .nullDeref := by
  rw [object, place.objectAt_zero]

theorem headerWord_of_object {raw : Word} (h : place.objectAt raw = some a) :
    place.headerWord s raw = (s.deref a).map GCObject.header := by
  rw [headerWord, h]
  cases hderef : s.deref a with
  | error e => simp [hderef, bind, Except.bind, Except.map]
  | ok o => simp [hderef, bind, Except.bind, Except.map, pure, Except.pure]

namespace Represents

theorem setOwn_borrow (ha : place.objectAt w = some a) :
    Represents place (Words.setOwn w) (.own a) := by
  have ht := place.aligned _ _ ha
  refine .own (or_one_and_three (and_three_eq_zero.mp ht).2) ?_
  rwa [Words.untag_setOwn, Words.untag_of_borrow ht]

end Represents

end Placement

end Syli.Runtime
