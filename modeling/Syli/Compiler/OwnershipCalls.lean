import Mathlib
import Syli.Compiler.InlinedOwnership
import Syli.Foundation.Agreement

/-! Runs of ownership operations: emitted, left to the runtime, and on the pointers of the model. -/
namespace Syli.Compiler.Llvm

open Syli.Runtime Foundation

/-- `dst := op(args)` on numbered registers. -/
structure OwnershipCall where
  dst : Nat
  op : RuntimeOp
  args : List Nat
deriving DecidableEq, Repr

section Runs

variable {α : Type} (call : SyliState → RuntimeOp → List α → Result (α × SyliState))

def runCall (r : (Nat → α) × SyliState) (c : OwnershipCall) : Result ((Nat → α) × SyliState) := do
  let (v, s) ← call r.2 c.op (c.args.map r.1)
  return (Function.update r.1 c.dst v, s)

def runCalls (calls : List OwnershipCall) (env : Nat → α) (s : SyliState) :
    Result ((Nat → α) × SyliState) :=
  calls.foldlM (runCall call) (env, s)

end Runs

/-- The value of a register on the pointers of the model. -/
inductive PtrValue where
  | ptr (p : ObjPtr)
  | word (w : Word)
  | void
deriving DecidableEq, Repr

section Meaning

def onPtr {α : Type} (f : ObjPtr → Result α) : List PtrValue → Result α
  | [.ptr p] => f p
  | _ => .error .illegal

def onPtrs {α : Type} (f : ObjPtr → ObjPtr → Result α) : List PtrValue → Result α
  | [.ptr p, .ptr q] => f p q
  | _ => .error .illegal

/-- A pointer that is never counted. -/
def isInert : ObjPtr → Bool
  | .alwaysBorrow _ | .immediate _ => true
  | _ => false

def borrowed : ObjPtr → ObjPtr
  | .own a => .borrow a
  | p => p

variable (immortals : Nat → Option ObjectHeader) (s : SyliState)

/-- The tag of a constructor, in its pointer or in the header of its object. -/
def constructorTag : ObjPtr → Result Word
  | .own a | .borrow a => do return Words.variantTag (← s.deref a).header
  | .immediate n => .ok (BitVec.ofNat 64 n)
  | .alwaysBorrow n =>
    match immortals n with
    | some h => .ok (Words.variantTag h)
    | none => .error .nullDeref
  | .null => .error .nullDeref

/-- What the operations are for: the primitives of the model on the pointers that are counted, and
nothing on the others. -/
def meaning (op : RuntimeOp) (args : List PtrValue) : Result (PtrValue × SyliState) :=
  match op with
  | .objectBorrow => args |> onPtr fun p => .ok (.ptr (borrowed p), s)
  | .objectOwn => args |> onPtr fun p =>
    if isInert p then .ok (.ptr p, s)
    else (syliRtOwnershipOwn wordCounts s p).map fun r => (.ptr r.1, r.2)
  | .objectShare => args |> onPtr fun p =>
    if isInert p then .ok (.ptr p, s)
    else (syliRtOwnershipShare wordCounts s p).map fun r => (.ptr r.1, r.2)
  | .objectRelease => args |> onPtr fun p =>
    if isInert p then .ok (.void, s)
    else (syliRtOwnershipRelease wordCounts s p).map fun s => (.void, s)
  | .objectCheckMutation => args |> onPtrs fun p value =>
    if value.isImmediate then .ok (.void, s)
    else (syliRtOwnershipNotifyMutation s p value).map fun s => (.void, s)
  | .getObjectTag => args |> onPtr fun p =>
    (constructorTag immortals s p).map fun t => (.word t, s)
  | _ => .error .illegal

end Meaning

variable {place : Placement} {s : SyliState} {fuel : Nat} {w v : Word} {p q : ObjPtr}

/-- The headers of the immortal objects by the addresses in their pointers. -/
def immortalsOf (place : Placement) (n : Nat) : Option ObjectHeader :=
  place.immortal (BitVec.ofNat 64 n <<< 2)

inductive RepresentsValue (place : Placement) : Value → PtrValue → Prop where
  | ptr {w : Word} {p : ObjPtr} (h : place.Represents w p) : RepresentsValue place (.ptr w) (.ptr p)
  | word (w : Word) : RepresentsValue place (.i64 w) (.word w)
  | void : RepresentsValue place .void .void

def SameResult (place : Placement) (r : Value × SyliState) (t : PtrValue × SyliState) : Prop :=
  RepresentsValue place r.1 t.1 ∧ r.2 = t.2

/-- The emitted code and the model do the same: both stop, or both go on in the same state. -/
abbrev SameOutcome (place : Placement) (x : Result (Value × SyliState))
    (y : Result (PtrValue × SyliState)) : Prop :=
  Agree (SameResult place) x y

section Steps

open Placement

variable {α β : Type} {S : α → β → Prop} {args : List Value} {pargs : List PtrValue}

theorem onWord_agree {f : Word → Result α} {g : ObjPtr → Result β}
    (hargs : List.Forall₂ (RepresentsValue place) args pargs)
    (h : ∀ w p, place.Represents w p → Agree S (f w) (g p)) :
    Agree S (onWord f args) (onPtr g pargs) := by
  cases hargs with
  | nil => exact .error _ _
  | cons hv hrest =>
    cases hrest with
    | cons _ _ => cases hv <;> exact .error _ _
    | nil =>
      cases hv with
      | ptr hp => exact h _ _ hp
      | word w => exact .error _ _
      | void => exact .error _ _

theorem onWords_agree {f : Word → Word → Result α} {g : ObjPtr → ObjPtr → Result β}
    (hargs : List.Forall₂ (RepresentsValue place) args pargs)
    (h : ∀ w p v q, place.Represents w p → place.Represents v q → Agree S (f w v) (g p q)) :
    Agree S (onWords f args) (onPtrs g pargs) := by
  cases hargs with
  | nil => exact .error _ _
  | cons hv hrest =>
    cases hrest with
    | nil => cases hv <;> exact .error _ _
    | cons hv' hrest =>
      cases hrest with
      | cons _ _ => cases hv <;> cases hv' <;> exact .error _ _
      | nil =>
        cases hv with
        | word w => exact .error _ _
        | void => exact .error _ _
        | ptr hp =>
          cases hv' with
          | ptr hq => exact h _ _ _ _ hp hq
          | word w => exact .error _ _
          | void => exact .error _ _

/-- The second bit of a word says whether its pointer is counted. -/
theorem isInert_eq (h : place.Represents w p) : isInert p = w.getLsbD 1 := by
  cases h with
  | null => rfl
  | borrow ha => exact (and_three_eq_zero.mp (place.aligned _ _ ha)).2.symm
  | own ht ha => exact (and_three_eq_one.mp ht).2.symm
  | alwaysBorrow ht hn => exact (and_three_eq_two.mp ht).2.symm
  | immediate ht => exact (and_three_eq_three.mp ht).2.symm

theorem isImmediate_iff (h : place.Represents w p) :
    p.isImmediate = true ↔ w &&& 3#64 = 3#64 := by
  cases h with
  | null => simp [ObjPtr.isImmediate]
  | borrow ha => simp [ObjPtr.isImmediate, place.aligned _ _ ha]
  | own ht ha => simp [ObjPtr.isImmediate, ht]
  | alwaysBorrow ht hn => simp [ObjPtr.isImmediate, ht]
  | immediate ht => simp [ObjPtr.isImmediate, ht]

/-- Promoting a counted word shares its pointer. -/
theorem promote_agree (h : place.Represents w p) (hp : isInert p = false) :
    SameOutcome place
      ((Words.syliRtOwnershipIncr place s (Words.setOwn w)).map fun s => (.ptr (Words.setOwn w), s))
      ((syliRtOwnershipShare wordCounts s p).map fun r => (.ptr r.1, r.2)) := by
  have hcounted (a : Addr) (ha : place.objectAt (Words.untag w) = some a)
      (hset : place.Represents (Words.setOwn w) (.own a)) :
      SameOutcome place
        ((place.object (Words.untag w) >>= syliRtObjectIncr wordCounts s).map
          fun s => (.ptr (Words.setOwn w), s))
        ((syliRtObjectIncr wordCounts s a >>= fun s => pure (ObjPtr.own a, s)).map
          fun r => (.ptr r.1, r.2)) := by
    rw [object_eq_ok ha]
    change SameOutcome _ ((syliRtObjectIncr wordCounts s a).map _) _
    cases syliRtObjectIncr wordCounts s a with
    | error e => exact .error _ _
    | ok t => exact .ok ⟨.ptr hset, rfl⟩
  rw [syliRtOwnershipIncr_setOwn ((isInert_eq h).symm.trans hp)]
  cases h with
  | null =>
    have hnull : place.object (Words.untag 0) = .error .nullDeref := object_zero
    rw [hnull]
    exact .error _ _
  | @borrow w a ha =>
    have hw : Words.untag w = w := Words.untag_of_borrow (place.aligned _ _ ha)
    exact hcounted a (hw.symm ▸ ha) (.setOwn_borrow ha)
  | @own w a ht ha =>
    refine hcounted a ha ?_
    rw [Words.setOwn_of_own ht]
    exact .own ht ha
  | alwaysBorrow _ _ => cases hp
  | immediate _ => cases hp

theorem share_agree (h : place.Represents w p) :
    SameOutcome place (emittedCall place s (fuel + 2) .objectShare [.ptr w])
      (if isInert p then .ok (.ptr p, s)
        else (syliRtOwnershipShare wordCounts s p).map fun r => (.ptr r.1, r.2)) := by
  cases hp : isInert p with
  | true =>
    rw [emittedCall_high (by tauto) ((isInert_eq h).symm.trans hp)]
    exact .ok ⟨.ptr h, rfl⟩
  | false =>
    have hlow := and_two_eq_zero.mpr ((isInert_eq h).symm.trans hp)
    have hcall := (@callFunc_mkShareFn place s fuel w).trans (if_pos hlow)
    change SameOutcome _ (callFunc _ _ mkShareFn _ _) _
    rw [hcall]
    exact promote_agree h hp

theorem own_agree (h : place.Represents w p) :
    SameOutcome place (emittedCall place s (fuel + 2) .objectOwn [.ptr w])
      (if isInert p then .ok (.ptr p, s)
        else (syliRtOwnershipOwn wordCounts s p).map fun r => (.ptr r.1, r.2)) := by
  have hborrow (ht : w &&& 3#64 = 0#64) (hp : isInert p = false)
      (hown : syliRtOwnershipOwn wordCounts s p = syliRtOwnershipShare wordCounts s p) :
      SameOutcome place (emittedCall place s (fuel + 2) .objectOwn [.ptr w])
        ((syliRtOwnershipOwn wordCounts s p).map fun r => (.ptr r.1, r.2)) := by
    have hcall := (@callFunc_mkOwnFn place s fuel w).trans (if_pos ht)
    change SameOutcome _ (callFunc _ _ mkOwnFn _ _) _
    rw [hcall, hown]
    exact promote_agree h hp
  have hinert (hp : isInert p = true) : SameOutcome place
      (emittedCall place s (fuel + 2) .objectOwn [.ptr w]) (.ok (.ptr p, s)) := by
    rw [emittedCall_high (by tauto) ((isInert_eq h).symm.trans hp)]
    exact .ok ⟨.ptr h, rfl⟩
  cases h with
  | null => exact hborrow rfl rfl rfl
  | borrow ha => exact hborrow (place.aligned _ _ ha) rfl rfl
  | own ht ha =>
    have hne : w &&& 3#64 ≠ 0#64 := by rw [ht]; decide
    have hcall := (@callFunc_mkOwnFn place s fuel w).trans (if_neg hne)
    change SameOutcome _ (callFunc _ _ mkOwnFn _ _) _
    rw [hcall]
    exact .ok ⟨.ptr (.own ht ha), rfl⟩
  | alwaysBorrow _ _ => exact hinert rfl
  | immediate _ => exact hinert rfl

theorem borrow_agree (h : place.Represents w p) :
    SameOutcome place (emittedCall place s (fuel + 2) .objectBorrow [.ptr w])
      (.ok (.ptr (borrowed p), s)) := by
  have hlow (hw : w.getLsbD 1 = false) (hp : place.Represents (Words.untag w) (borrowed p)) :
      SameOutcome place (emittedCall place s (fuel + 2) .objectBorrow [.ptr w])
        (.ok (.ptr (borrowed p), s)) := by
    change SameOutcome _ (callFunc _ _ mkBorrowFn _ _) _
    rw [callFunc_mkBorrowFn, and_mask_of_low hw]
    exact .ok ⟨.ptr hp, rfl⟩
  have hinert (hw : w.getLsbD 1 = true) (hp : borrowed p = p) : SameOutcome place
      (emittedCall place s (fuel + 2) .objectBorrow [.ptr w]) (.ok (.ptr (borrowed p), s)) := by
    rw [emittedCall_high (by tauto) hw, hp]
    exact .ok ⟨.ptr h, rfl⟩
  have hw := (isInert_eq h).symm
  cases h with
  | null => exact hlow hw .null
  | borrow ha =>
    refine hlow hw ?_
    rw [Words.untag_of_borrow (place.aligned _ _ ha)]
    exact .borrow ha
  | own ht ha => exact hlow hw (.borrow ha)
  | alwaysBorrow _ _ => exact hinert hw rfl
  | immediate _ => exact hinert hw rfl

theorem release_agree (h : place.Represents w p) :
    SameOutcome place (emittedCall place s (fuel + 2) .objectRelease [.ptr w])
      (if isInert p then .ok (.void, s)
        else (syliRtOwnershipRelease wordCounts s p).map fun s => (.void, s)) := by
  have hidle (ht : w &&& 3#64 ≠ 1#64) : SameOutcome place
      (emittedCall place s (fuel + 2) .objectRelease [.ptr w]) (.ok (.void, s)) := by
    have hcall := (@callFunc_mkReleaseFn place s fuel w).trans (if_neg ht)
    change SameOutcome _ (callFunc _ _ mkReleaseFn _ _) _
    rw [hcall]
    exact .ok ⟨.void, rfl⟩
  cases h with
  | null => exact hidle (by decide)
  | borrow ha => exact hidle (by rw [place.aligned _ _ ha]; decide)
  | alwaysBorrow ht _ => exact hidle (by rw [ht]; decide)
  | immediate ht => exact hidle (by rw [ht]; decide)
  | @own w a ht ha =>
    have hlow := (and_three_eq_one.mp ht).2
    have hown : Words.isOwnRef w = true := by rw [Words.isOwnRef, ht]; rfl
    rw [emittedCall_objectRelease hlow]
    change SameOutcome _ (Except.bind (Words.syliRtOwnershipRelease place s w) _) _
    unfold Words.syliRtOwnershipRelease
    rw [checkCounted_of_low hlow, hown, object_eq_ok ha]
    change SameOutcome _ (Except.bind (syliRtObjectDecr wordCounts s a) _)
      ((syliRtObjectDecr wordCounts s a).map _)
    cases syliRtObjectDecr wordCounts s a with
    | error e => exact .error _ _
    | ok t => exact .ok ⟨.void, rfl⟩

/-- The barrier on words is the barrier on pointers, as long as no constant is stored. -/
theorem notifyMutation_agree (h : place.Represents w p) (hv : place.Represents v q)
    (hq : q.isImmediate = false) :
    Agree Eq (Words.syliRtOwnershipNotifyMutation place s w v)
      (syliRtOwnershipNotifyMutation s p q) := by
  unfold Words.syliRtOwnershipNotifyMutation syliRtOwnershipNotifyMutation
  have hidle (ht : w &&& 3#64 ≠ 3#64) (ho : w &&& 3#64 ≠ 1#64) :
      Words.isImmediate w = false ∧ Words.isOwnRef w = false := by
    simp [Words.isImmediate, Words.isOwnRef, ht, ho]
  cases h with
  | null => exact .refl _
  | borrow ha =>
    have ht := place.aligned _ _ ha
    obtain ⟨hi, ho⟩ := hidle (by rw [ht]; decide) (by rw [ht]; decide)
    rw [hi, ho]
    exact .refl _
  | alwaysBorrow ht _ =>
    obtain ⟨hi, ho⟩ := hidle (by rw [ht]; decide) (by rw [ht]; decide)
    rw [hi, ho]
    exact .refl _
  | immediate ht =>
    have hi : Words.isImmediate w = true := by rw [Words.isImmediate, ht]; rfl
    rw [hi]
    exact .error _ _
  | @own w a ht ha =>
    have hi : Words.isImmediate w = false := by rw [Words.isImmediate, ht]; rfl
    have ho : Words.isOwnRef w = true := by rw [Words.isOwnRef, ht]; rfl
    rw [hi, ho, object_eq_ok ha]
    change Agree Eq (if s.tracingState = .tracing ∨ s.tracingState = .mutationPrepare then _ else _)
      (if s.tracingState = .tracing ∨ s.tracingState = .mutationPrepare then _ else _)
    by_cases htracing : s.tracingState = .tracing ∨ s.tracingState = .mutationPrepare
    · rw [if_pos htracing, if_pos htracing, pointer_eq_ok hv]
      cases hv with
      | null =>
        have hnull : place.object (Words.untag 0) = .error .nullDeref := object_zero
        rw [hnull]
        exact .error _ _
      | borrow hb =>
        rw [Words.untag_of_borrow (place.aligned _ _ hb), object_eq_ok hb]
        exact .refl _
      | own _ hb =>
        rw [object_eq_ok hb]
        exact .refl _
      | alwaysBorrow _ hn =>
        have hnone : place.object (Words.untag v) = .error .nullDeref := by rw [object, hn]
        rw [hnone]
        exact .error _ _
      | immediate _ => cases hq
    · rw [if_neg htracing, if_neg htracing]
      exact .refl _

theorem checkMutation_agree (h : place.Represents w p) (hv : place.Represents v q) :
    SameOutcome place (emittedCall place s (fuel + 2) .objectCheckMutation [.ptr w, .ptr v])
      (if q.isImmediate then .ok (.void, s)
        else (syliRtOwnershipNotifyMutation s p q).map fun s => (.void, s)) := by
  change SameOutcome _ (callFunc _ _ mkNotifyMutationFn _ _) _
  rw [callFunc_mkNotifyMutationFn]
  cases hq : q.isImmediate with
  | true =>
    rw [if_pos ((isImmediate_iff hv).mp hq)]
    exact .ok ⟨.void, rfl⟩
  | false =>
    have hne : v &&& 3#64 ≠ 3#64 := fun ht => by
      rw [(isImmediate_iff hv).mpr ht] at hq
      cases hq
    rw [if_neg hne]
    exact (notifyMutation_agree h hv hq).map fun _ _ heq => ⟨.void, heq⟩

theorem getObjectTag_agree (h : place.Represents w p) :
    SameOutcome place (emittedCall place s (fuel + 2) .getObjectTag [.ptr w])
      ((constructorTag (immortalsOf place) s p).map fun t => (.word t, s)) := by
  change SameOutcome _ (callFunc _ _ mkGetObjectTagFn _ _) _
  rw [callFunc_mkGetObjectTagFn]
  have hheap (a : Addr) (ht : w &&& 3#64 ≠ 3#64) (ha : place.objectAt (Words.untag w) = some a)
      (hp : constructorTag (immortalsOf place) s p =
        (s.deref a).map fun o => Words.variantTag o.header) :
      SameOutcome place
        (if w &&& 3#64 = 3#64 then .ok (.i64 (w >>> 2), s)
          else (place.headerWord s (Words.untag w)).map fun h => (.i64 (Words.variantTag h), s))
        ((constructorTag (immortalsOf place) s p).map fun t => (.word t, s)) := by
    rw [if_neg ht, hp, headerWord_of_object ha]
    cases s.deref a with
    | error e => exact .error _ _
    | ok o => exact .ok ⟨.word _, rfl⟩
  cases h with
  | null =>
    have hload : place.headerWord s (Words.untag 0) = .error .nullDeref := by
      change place.headerWord s 0 = _
      rw [headerWord, place.objectAt_zero, place.immortal_zero]
    rw [hload]
    exact .error _ _
  | @borrow w a ha =>
    have ht := place.aligned _ _ ha
    refine hheap a (by rw [ht]; decide) ?_ ?_
    · rwa [Words.untag_of_borrow ht]
    · cases hderef : s.deref a <;> simp [constructorTag, hderef, bind, Except.bind, Except.map,
        pure, Except.pure]
  | @own w a ht ha =>
    refine hheap a (by rw [ht]; decide) ha ?_
    cases hderef : s.deref a <;> simp [constructorTag, hderef, bind, Except.bind, Except.map,
      pure, Except.pure]
  | alwaysBorrow ht hn =>
    have himm : immortalsOf place (w >>> 2).toNat = place.immortal (Words.untag w) := by
      rw [immortalsOf, BitVec.ofNat_toNat, BitVec.setWidth_eq, shiftLeft_ushiftRight_two]
      rfl
    rw [if_neg (by rw [ht]; decide), headerWord, hn, constructorTag, himm]
    cases place.immortal (Words.untag w) with
    | none => exact .error _ _
    | some h => exact .ok ⟨.word _, rfl⟩
  | immediate ht =>
    rw [if_pos ht, constructorTag, BitVec.ofNat_toNat, BitVec.setWidth_eq]
    exact .ok ⟨.word _, rfl⟩

end Steps

section Runs

variable {op : RuntimeOp} {args : List Value} {pargs : List PtrValue}
  {calls : List OwnershipCall} {env : Nat → Value} {ptrs : Nat → PtrValue}

/-- One emitted operation does what it is for. -/
theorem emittedCall_agree (hop : op ≠ .objectMakeAlwaysBorrow)
    (hargs : List.Forall₂ (RepresentsValue place) args pargs) :
    SameOutcome place (emittedCall place s (fuel + 2) op args)
      (meaning (immortalsOf place) s op pargs) := by
  cases op with
  | objectBorrow =>
    rw [emittedCall_onWord (by tauto)]
    exact onWord_agree hargs fun _ _ h => borrow_agree h
  | objectOwn =>
    rw [emittedCall_onWord (by tauto)]
    exact onWord_agree hargs fun _ _ h => own_agree h
  | objectShare =>
    rw [emittedCall_onWord (by tauto)]
    exact onWord_agree hargs fun _ _ h => share_agree h
  | objectRelease =>
    rw [emittedCall_onWord (by tauto)]
    exact onWord_agree hargs fun _ _ h => release_agree h
  | getObjectTag =>
    rw [emittedCall_onWord (by tauto)]
    exact onWord_agree hargs fun _ _ h => getObjectTag_agree h
  | objectCheckMutation =>
    change SameOutcome _ (callFunc _ _ mkNotifyMutationFn _ _) _
    rw [callFunc_onWords rfl]
    exact onWords_agree hargs fun _ _ _ _ h hv => checkMutation_agree h hv
  | objectMakeAlwaysBorrow => exact absurd rfl hop
  | getObjectLength => exact .error _ _
  | getObjectSize => exact .error _ _
  | gcCycle => exact .error _ _
  | objectAlloc => exact .error _ _
  | matchFailure => exact .error _ _

/-- The registers hold words of the model's pointers, and the states are the same. -/
def SameRegisters (place : Placement) (r : (Nat → Value) × SyliState)
    (t : (Nat → PtrValue) × SyliState) : Prop :=
  (∀ i, RepresentsValue place (r.1 i) (t.1 i)) ∧ r.2 = t.2

theorem runCall_agree {c : OwnershipCall} {r : (Nat → Value) × SyliState}
    {t : (Nat → PtrValue) × SyliState} (hop : c.op ≠ .objectMakeAlwaysBorrow)
    (h : SameRegisters place r t) :
    Agree (SameRegisters place) (runCall (emittedCall place · (fuel + 2)) r c)
      (runCall (meaning (immortalsOf place)) t c) := by
  obtain ⟨hregs, hstate⟩ := h
  have hargs : List.Forall₂ (RepresentsValue place) (c.args.map r.1) (c.args.map t.1) := by
    rw [List.forall₂_map_left_iff, List.forall₂_map_right_iff]
    exact List.forall₂_same.mpr fun i _ => hregs i
  unfold runCall
  rw [hstate]
  refine (emittedCall_agree hop hargs).bind fun a b hab => .ok ⟨fun i => ?_, hab.2⟩
  rcases eq_or_ne i c.dst with rfl | hi
  · simpa using hab.1
  · simpa [hi] using hregs i

end Runs

section Promotion

/-- One object, at the address 8. -/
def onePlace : Placement where
  objectAt w := if w = 8#64 then some 1 else none
  immortal _ := none
  objectAt_zero := rfl
  immortal_zero := rfl
  aligned w a h := by
    split at h
    · subst w
      rfl
    · cases h
  immortal_aligned _ _ h := by cases h

def oneObject : SyliState where
  env := testEnv
  next := 2
  heap a :=
    if a = 1 then some { header := mutableCell 0, refcount := 1, mark := false, value := [] }
    else none

/-- The borrow in register 0 is promoted, and the reference is released again. -/
def promoteAndRelease : List OwnershipCall := [⟨1, .objectOwn, [0]⟩, ⟨2, .objectRelease, [1]⟩]

end Promotion

end Syli.Compiler.Llvm
