import Mathlib
import Syli.Compiler.InlinableOwnership
import Syli.Runtime.OwnershipWords

/-! The compiled ownership operations do what the primitives of the runtime do. -/
namespace Syli.Compiler.Llvm

open Syli.Runtime Foundation

variable (place : Placement) (s : SyliState)

/-- The call of a function of one pointer. -/
def onWord {α : Type} (f : Word → Result α) : List Value → Result α
  | [.ptr w] => f w
  | _ => .error .illegal

/-- The call of a function of two pointers. -/
def onWords {α : Type} (f : Word → Word → Result α) : List Value → Result α
  | [.ptr w, .ptr v] => f w v
  | _ => .error .illegal

/-- The primitives of the runtime by their names. -/
def runtimeFunction (fn : String) (args : List Value) : Result (Value × SyliState) :=
  match fn with
  | "syli_rt_ownership_incr" => args |> onWord fun p => do
    return (.void, ← Words.syliRtOwnershipIncr place s p)
  | "syli_rt_ownership_decr" => args |> onWord fun p => do
    return (.void, ← Words.syliRtOwnershipDecr place s p)
  | "syli_rt_ownership_share" => args |> onWord fun p => do
    let (r, s) ← Words.syliRtOwnershipShare place s p
    return (.ptr r, s)
  | "syli_rt_ownership_own" => args |> onWord fun p => do
    let (r, s) ← Words.syliRtOwnershipOwn place s p
    return (.ptr r, s)
  | "syli_rt_ownership_borrow" => args |> onWord fun p => do
    return (.ptr (← Words.syliRtOwnershipBorrow p), s)
  | "syli_rt_ownership_release" => args |> onWord fun p => do
    return (.void, ← Words.syliRtOwnershipRelease place s p)
  | "syli_rt_ownership_notify_mutation" => args |> onWords fun p target => do
    return (.void, ← Words.syliRtOwnershipNotifyMutation place s p target)
  | "syli_rt_get_object_tag" => args |> onWord fun p => do
    return (.i64 (← Words.syliRtGetObjectTag place s p), s)
  | _ => .error .illegal

/-- The runtime as the compiled functions see it. -/
def runtimeMachine : Machine Fault SyliState where
  stuck := .illegal
  call fn args s := runtimeFunction place s fn args
  load w s := place.headerWord s w

/-- A call of a runtime operation as `gen_llvm.ml` emits it without inlining. -/
def plainCall (op : RuntimeOp) (args : List Value) : Result (Value × SyliState) :=
  runtimeFunction place s (runtimeOpNameToString op) args

/-- A call of a runtime operation as `gen_llvm.ml` emits it. -/
def emittedCall (fuel : Nat) (op : RuntimeOp) (args : List Value) : Result (Value × SyliState) :=
  match useIfInlinableRuntimeFunction op with
  | none => plainCall place s op args
  | some name =>
    match builtins.find? (·.name == name) with
    | some f => callFunc (runtimeMachine place) fuel f args s
    | none => .error .illegal

variable {place : Placement} {s : SyliState} {fuel : Nat} {w value : Word}

section Builtins

@[simp] theorem runtimeMachine_incr :
    (runtimeMachine place).call "syli_rt_ownership_incr" [.ptr w] s =
      (Words.syliRtOwnershipIncr place s w).map fun s => (.void, s) := by
  rfl

@[simp] theorem runtimeMachine_decr :
    (runtimeMachine place).call "syli_rt_ownership_decr" [.ptr w] s =
      (Words.syliRtOwnershipDecr place s w).map fun s => (.void, s) := by
  rfl

@[simp] theorem runtimeMachine_notifyMutation :
    (runtimeMachine place).call "syli_rt_ownership_notify_mutation" [.ptr w, .ptr value] s =
      (Words.syliRtOwnershipNotifyMutation place s w value).map fun s => (.void, s) := by
  rfl

@[simp] theorem runtimeMachine_load :
    (runtimeMachine place).load w s = place.headerWord s w := rfl

attribute [local simp] callFunc bindParams Machine.need Machine.check runBlock execInstructions
  execInstruction evalRhs evalOperand evalCast evalIBinop evalIcmp evalRet Option.filter
  ownershipCall ptrTy i64Ty bind Except.bind pure Except.pure

theorem callFunc_mkBorrowFn : callFunc (runtimeMachine place) (fuel + 2) mkBorrowFn [.ptr w] s =
    .ok (.ptr (w &&& (w >>> 1 &&& 1#64 ||| ~~~1#64)), s) := by
  simp [mkBorrowFn]

theorem callFunc_mkMakeAlwaysBorrowFn :
    callFunc (runtimeMachine place) (fuel + 2) mkMakeAlwaysBorrowFn [.ptr w] s =
      .ok (.ptr (w &&& ~~~3#64 ||| 2#64), s) := by
  simp [mkMakeAlwaysBorrowFn]

theorem callFunc_mkOwnFn : callFunc (runtimeMachine place) (fuel + 2) mkOwnFn [.ptr w] s =
    if w &&& 3#64 = 0#64 then
      (Words.syliRtOwnershipIncr place s (Words.setOwn w)).map fun s => (.ptr (Words.setOwn w), s)
    else .ok (.ptr w, s) := by
  by_cases h : w &&& 3#64 = 0#64
  · have hset : w ||| 1#64 = Words.setOwn w := rfl
    cases hcall : Words.syliRtOwnershipIncr place s (Words.setOwn w) with
    | error e => simp [mkOwnFn, h, hset, hcall, Except.map]
    | ok s' => simp [mkOwnFn, h, hset, hcall, Except.map]
  · simp [mkOwnFn, h]

theorem callFunc_mkShareFn : callFunc (runtimeMachine place) (fuel + 2) mkShareFn [.ptr w] s =
    if w &&& 2#64 = 0#64 then
      (Words.syliRtOwnershipIncr place s (Words.setOwn w)).map fun s => (.ptr (Words.setOwn w), s)
    else .ok (.ptr w, s) := by
  by_cases h : w &&& 2#64 = 0#64
  · have hset : w ||| 1#64 = Words.setOwn w := rfl
    cases hcall : Words.syliRtOwnershipIncr place s (Words.setOwn w) with
    | error e => simp [mkShareFn, h, hset, hcall, Except.map]
    | ok s' => simp [mkShareFn, h, hset, hcall, Except.map]
  · simp [mkShareFn, h]

theorem callFunc_mkReleaseFn : callFunc (runtimeMachine place) (fuel + 2) mkReleaseFn [.ptr w] s =
    if w &&& 3#64 = 1#64 then
      (Words.syliRtOwnershipDecr place s w).map fun s => (.void, s)
    else .ok (.void, s) := by
  by_cases h : w &&& 3#64 = 1#64
  · cases hcall : Words.syliRtOwnershipDecr place s w with
    | error e => simp [mkReleaseFn, h, hcall, Except.map]
    | ok s' => simp [mkReleaseFn, h, hcall, Except.map]
  · simp [mkReleaseFn, h]

theorem callFunc_mkGetObjectTagFn :
    callFunc (runtimeMachine place) (fuel + 2) mkGetObjectTagFn [.ptr w] s =
      if w &&& 3#64 = 3#64 then .ok (.i64 (w >>> 2), s)
      else (place.headerWord s (Words.untag w)).map fun h => (.i64 (Words.variantTag h), s) := by
  by_cases h : w &&& 3#64 = 3#64
  · simp [mkGetObjectTagFn, h]
  · have huntag : w &&& 18446744073709551612#64 = Words.untag w := rfl
    cases hload : place.headerWord s (Words.untag w) with
    | error e => simp [mkGetObjectTagFn, h, huntag, hload, Except.map]
    | ok header => simp [mkGetObjectTagFn, h, huntag, hload, Except.map, Words.variantTag]

theorem callFunc_mkNotifyMutationFn :
    callFunc (runtimeMachine place) (fuel + 2) mkNotifyMutationFn [.ptr w, .ptr value] s =
      if value &&& 3#64 = 3#64 then .ok (.void, s)
      else (Words.syliRtOwnershipNotifyMutation place s w value).map fun s => (.void, s) := by
  by_cases h : value &&& 3#64 = 3#64
  · simp [mkNotifyMutationFn, h]
  · cases hcall : Words.syliRtOwnershipNotifyMutation place s w value with
    | error e => simp [mkNotifyMutationFn, h, hcall, Except.map]
    | ok s' => simp [mkNotifyMutationFn, h, hcall, Except.map]

end Builtins

section Arguments

variable {α : Type} {f g : Word → Result α} {args : List Value}

theorem onWord_ok {r : α} (h : onWord f args = .ok r) : ∃ w, args = [.ptr w] ∧ f w = .ok r := by
  unfold onWord at h
  split at h
  · exact ⟨_, rfl, h⟩
  · cases h

theorem onWords_ok {f : Word → Word → Result α} {r : α} (h : onWords f args = .ok r) :
    ∃ w v, args = [.ptr w, .ptr v] ∧ f w v = .ok r := by
  unfold onWords at h
  split at h
  · exact ⟨_, _, rfl, h⟩
  · cases h

theorem callFunc_onWord {f : Func} (hparams : f.params = [(ptrTy, "p")]) (args : List Value) :
    callFunc (runtimeMachine place) fuel f args s =
      onWord (fun w => callFunc (runtimeMachine place) fuel f [.ptr w] s) args := by
  have hnone (h : bindParams [(ptrTy, "p")] args = none) :
      callFunc (runtimeMachine place) fuel f args s = .error .illegal := by
    unfold callFunc
    rw [hparams, h]
    rfl
  match args with
  | [] => exact hnone rfl
  | [.ptr w] => rfl
  | [.i1 _] | [.i64 _] | [.void] => exact hnone rfl
  | .ptr _ :: _ :: _ | .i1 _ :: _ :: _ | .i64 _ :: _ :: _ | .void :: _ :: _ => exact hnone rfl

theorem callFunc_onWords {f : Func} (hparams : f.params = [(ptrTy, "obj"), (ptrTy, "value")])
    (args : List Value) :
    callFunc (runtimeMachine place) fuel f args s =
      onWords (fun w v => callFunc (runtimeMachine place) fuel f [.ptr w, .ptr v] s) args := by
  have hnone (h : bindParams [(ptrTy, "obj"), (ptrTy, "value")] args = none) :
      callFunc (runtimeMachine place) fuel f args s = .error .illegal := by
    unfold callFunc
    rw [hparams, h]
    rfl
  match args with
  | [] => exact hnone rfl
  | [.ptr _] | [.i1 _] | [.i64 _] | [.void] => exact hnone rfl
  | [.ptr _, .ptr _] => rfl
  | [.ptr _, .i1 _] | [.ptr _, .i64 _] | [.ptr _, .void] => exact hnone rfl
  | .ptr _ :: .ptr _ :: _ :: _ | .ptr _ :: .i1 _ :: _ :: _ | .ptr _ :: .i64 _ :: _ :: _
  | .ptr _ :: .void :: _ :: _ => exact hnone rfl
  | .i1 _ :: _ :: _ | .i64 _ :: _ :: _ | .void :: _ :: _ => exact hnone rfl

end Arguments

section Calls

variable {op : RuntimeOp} {args : List Value} {r : Value × SyliState}

theorem plainCall_onWord (hop : op = .objectBorrow ∨ op = .objectOwn ∨ op = .objectShare ∨
    op = .objectRelease ∨ op = .getObjectTag) :
    plainCall place s op args = onWord (fun w => plainCall place s op [.ptr w]) args := by
  rcases hop with rfl | rfl | rfl | rfl | rfl <;> rfl

theorem checkCounted_of_low (h : w.getLsbD 1 = false) : Words.checkCounted w = .ok () := by
  unfold Words.checkCounted Words.isAlwaysBorrow Words.isImmediate
  rcases and_three_cases w with ht | ht | ht | ht
  · rw [ht]
    rfl
  · rw [ht]
    rfl
  · cases (and_three_eq_two.mp ht).2.symm.trans h
  · cases (and_three_eq_three.mp ht).2.symm.trans h

theorem checkCounted_of_high (h : w.getLsbD 1 = true) :
    Words.checkCounted w = .error .assertion := by
  unfold Words.checkCounted Words.isAlwaysBorrow Words.isImmediate
  rcases and_three_cases w with ht | ht | ht | ht
  · cases (and_three_eq_zero.mp ht).2.symm.trans h
  · cases (and_three_eq_one.mp ht).2.symm.trans h
  · rw [ht]
    rfl
  · rw [ht]
    rfl

/-- Counting the reference that is promoted counts its object. -/
theorem syliRtOwnershipIncr_setOwn (h : w.getLsbD 1 = false) :
    Words.syliRtOwnershipIncr place s (Words.setOwn w) =
      place.object (Words.untag w) >>= syliRtObjectIncr wordCounts s := by
  have ht : Words.setOwn w &&& 3#64 = 1#64 := or_one_and_three h
  have hc : Words.checkCounted (Words.setOwn w) = .ok () :=
    checkCounted_of_low (and_three_eq_one.mp ht).2
  unfold Words.syliRtOwnershipIncr
  rw [hc, Words.isOwnRef, ht, Words.untag_setOwn]
  rfl

theorem emittedCall_objectBorrow (h : w.getLsbD 1 = false) :
    emittedCall place s (fuel + 2) .objectBorrow [.ptr w] =
      plainCall place s .objectBorrow [.ptr w] := by
  have hc := checkCounted_of_low h
  change callFunc _ _ mkBorrowFn _ _ = Except.bind (Words.syliRtOwnershipBorrow w) _
  unfold Words.syliRtOwnershipBorrow
  rw [callFunc_mkBorrowFn, and_mask_of_low h, hc]
  rfl

theorem emittedCall_objectShare (h : w.getLsbD 1 = false) :
    emittedCall place s (fuel + 2) .objectShare [.ptr w] =
      plainCall place s .objectShare [.ptr w] := by
  change callFunc _ _ mkShareFn _ _ = Except.bind (Words.syliRtOwnershipShare place s w) _
  unfold Words.syliRtOwnershipShare
  rw [callFunc_mkShareFn, if_pos (and_two_eq_zero.mpr h), syliRtOwnershipIncr_setOwn h,
    checkCounted_of_low h]
  cases hobj : place.object (Words.untag w) with
  | error e => rfl
  | ok a =>
    cases hincr : syliRtObjectIncr wordCounts s a with
    | error e => simp [hincr, bind, Except.bind, Except.map]
    | ok t => simp [hincr, bind, Except.bind, Except.map, pure, Except.pure]

theorem emittedCall_objectOwn (h : w.getLsbD 1 = false) :
    emittedCall place s (fuel + 2) .objectOwn [.ptr w] = plainCall place s .objectOwn [.ptr w] := by
  change callFunc _ _ mkOwnFn _ _ = Except.bind (Words.syliRtOwnershipOwn place s w) _
  unfold Words.syliRtOwnershipOwn
  rw [callFunc_mkOwnFn, checkCounted_of_low h]
  by_cases ht : w &&& 3#64 = 0#64
  · have hown : Words.isOwnRef w = false := by rw [Words.isOwnRef, ht]; rfl
    rw [if_pos ht, syliRtOwnershipIncr_setOwn h, hown]
    cases hobj : place.object (Words.untag w) with
    | error e => rfl
    | ok a =>
      cases hincr : syliRtObjectIncr wordCounts s a with
      | error e => simp [hincr, bind, Except.bind, Except.map]
      | ok t =>
        simp [hincr, bind, Except.bind, Except.map, pure, Except.pure, Words.untag_of_borrow ht]
  · have ht : w &&& 3#64 = 1#64 := by
      rw [and_three_eq_zero] at ht
      rw [and_three_eq_one]
      grind
    have hown : Words.isOwnRef w = true := by rw [Words.isOwnRef, ht]; rfl
    rw [hown, ht]
    rfl

theorem emittedCall_objectRelease (h : w.getLsbD 1 = false) :
    emittedCall place s (fuel + 2) .objectRelease [.ptr w] =
      plainCall place s .objectRelease [.ptr w] := by
  change callFunc _ _ mkReleaseFn _ _ = Except.bind (Words.syliRtOwnershipRelease place s w) _
  unfold Words.syliRtOwnershipRelease
  rw [callFunc_mkReleaseFn]
  unfold Words.syliRtOwnershipDecr
  rw [checkCounted_of_low h]
  by_cases ht : w &&& 3#64 = 1#64
  · have hown : Words.isOwnRef w = true := by rw [Words.isOwnRef, ht]; rfl
    rw [if_pos ht, hown]
    cases hobj : place.object (Words.untag w) with
    | error e => rfl
    | ok a =>
      cases hdecr : syliRtObjectDecr wordCounts s a with
      | error e => simp [hdecr, check, bind, Except.bind, Except.map]
      | ok t => simp [hdecr, check, bind, Except.bind, Except.map, pure, Except.pure]
  · have hown : Words.isOwnRef w = false := by simpa [Words.isOwnRef] using ht
    rw [if_neg ht, hown]
    rfl

theorem emittedCall_objectCheckMutation (h : value &&& 3#64 ≠ 3#64) :
    emittedCall place s (fuel + 2) .objectCheckMutation [.ptr w, .ptr value] =
      plainCall place s .objectCheckMutation [.ptr w, .ptr value] := by
  change callFunc _ _ mkNotifyMutationFn _ _ = _
  rw [callFunc_mkNotifyMutationFn, if_neg h]
  change _ = Except.bind (Words.syliRtOwnershipNotifyMutation place s w value) _
  cases Words.syliRtOwnershipNotifyMutation place s w value <;> rfl

theorem emittedCall_getObjectTag (h : w &&& 3#64 ≠ 3#64) :
    emittedCall place s (fuel + 2) .getObjectTag [.ptr w] = .ok r ↔
      plainCall place s .getObjectTag [.ptr (Words.untag w)] = .ok r := by
  change callFunc _ _ mkGetObjectTagFn _ _ = _ ↔
    Except.bind (Words.syliRtGetObjectTag place s (Words.untag w)) _ = _
  rw [callFunc_mkGetObjectTagFn, if_neg h]
  unfold Words.syliRtGetObjectTag
  by_cases hw : Words.untag w = 0
  · have hload : place.headerWord s 0 = .error .nullDeref := by
      rw [Placement.headerWord, place.objectAt_zero, place.immortal_zero]
    rw [hw, hload]
    constructor <;> intro hr <;> cases hr
  · have hcheck : check (Words.untag w ≠ 0) = .ok () := if_pos hw
    rw [hcheck]
    cases place.headerWord s (Words.untag w) <;> rfl

/-- What a counting operation returns on a word that is not counted. -/
def untouched : RuntimeOp → Word → Value
  | .objectRelease, _ => .void
  | _, w => .ptr w

/-- What the emitted code does where a primitive of the runtime would stop: operations leave words
that are never counted as they are, and the tag of a constant constructor is in its word. -/
def Beyond (place : Placement) (s : SyliState) (op : RuntimeOp) (args : List Value)
    (r : Value × SyliState) : Prop :=
  match op with
  | .objectBorrow | .objectOwn | .objectShare | .objectRelease =>
    ∃ w, args = [.ptr w] ∧ w.getLsbD 1 = true ∧ r = (untouched op w, s)
  | .objectCheckMutation =>
    ∃ w value, args = [.ptr w, .ptr value] ∧ value &&& 3#64 = 3#64 ∧ r = (.void, s)
  | .getObjectTag =>
    ∃ w, args = [.ptr w] ∧ (w &&& 3#64 = 3#64 ∧ r = (.i64 (w >>> 2), s) ∨
      w &&& 3#64 ≠ 3#64 ∧ plainCall place s .getObjectTag [.ptr (Words.untag w)] = .ok r)
  | .objectMakeAlwaysBorrow => ∃ w, args = [.ptr w] ∧ r = (.ptr (Words.untag w ||| 2#64), s)
  | _ => False

/-- The store of a constant constructor: the primitive of the runtime would take it for an
address. -/
def StoresConstant (op : RuntimeOp) (args : List Value) : Prop :=
  op = .objectCheckMutation ∧ ∃ w value, args = [.ptr w, .ptr value] ∧ value &&& 3#64 = 3#64

theorem emittedCall_high
    (hop : op = .objectBorrow ∨ op = .objectOwn ∨ op = .objectShare ∨ op = .objectRelease)
    (h : w.getLsbD 1 = true) :
    emittedCall place s (fuel + 2) op [.ptr w] = .ok (untouched op w, s) := by
  have h₀ : w &&& 3#64 ≠ 0#64 := fun h' => by cases (and_three_eq_zero.mp h').2.symm.trans h
  have h₁ : w &&& 3#64 ≠ 1#64 := fun h' => by cases (and_three_eq_one.mp h').2.symm.trans h
  have h₂ : w &&& 2#64 ≠ 0#64 := fun h' => by cases (and_two_eq_zero.mp h').symm.trans h
  rcases hop with rfl | rfl | rfl | rfl
  · refine callFunc_mkBorrowFn.trans ?_
    rw [and_mask_of_high h]
    rfl
  · exact callFunc_mkOwnFn.trans (if_neg h₀)
  · exact callFunc_mkShareFn.trans (if_neg h₂)
  · exact callFunc_mkReleaseFn.trans (if_neg h₁)

theorem plainCall_high
    (hop : op = .objectBorrow ∨ op = .objectOwn ∨ op = .objectShare ∨ op = .objectRelease)
    (h : w.getLsbD 1 = true) :
    plainCall place s op [.ptr w] = .error .assertion := by
  have hc := checkCounted_of_high h
  rcases hop with rfl | rfl | rfl | rfl
  · change Except.bind (Words.syliRtOwnershipBorrow w) _ = _
    rw [Words.syliRtOwnershipBorrow, hc]
    rfl
  · change Except.bind (Words.syliRtOwnershipOwn place s w) _ = _
    rw [Words.syliRtOwnershipOwn, hc]
    rfl
  · change Except.bind (Words.syliRtOwnershipShare place s w) _ = _
    rw [Words.syliRtOwnershipShare, hc]
    rfl
  · change Except.bind (Words.syliRtOwnershipRelease place s w) _ = _
    rw [Words.syliRtOwnershipRelease, hc]
    rfl

theorem emittedCall_onWord (hop : op = .objectBorrow ∨ op = .objectOwn ∨ op = .objectShare ∨
    op = .objectRelease ∨ op = .getObjectTag ∨ op = .objectMakeAlwaysBorrow) :
    emittedCall place s fuel op args =
      onWord (fun w => emittedCall place s fuel op [.ptr w]) args := by
  rcases hop with rfl | rfl | rfl | rfl | rfl | rfl <;> exact callFunc_onWord rfl args

/-- The operations that count references: compiled and in the runtime they do the same, on the
words that are counted. -/
theorem emittedCall_counted
    (hop : op = .objectBorrow ∨ op = .objectOwn ∨ op = .objectShare ∨ op = .objectRelease)
    (h : w.getLsbD 1 = false) :
    emittedCall place s (fuel + 2) op [.ptr w] = plainCall place s op [.ptr w] := by
  rcases hop with rfl | rfl | rfl | rfl
  · exact emittedCall_objectBorrow h
  · exact emittedCall_objectOwn h
  · exact emittedCall_objectShare h
  · exact emittedCall_objectRelease h

theorem beyond_counted
    (hop : op = .objectBorrow ∨ op = .objectOwn ∨ op = .objectShare ∨ op = .objectRelease) :
    Beyond place s op args r ↔
      ∃ w, args = [.ptr w] ∧ w.getLsbD 1 = true ∧ r = (untouched op w, s) := by
  rcases hop with rfl | rfl | rfl | rfl <;> rfl

theorem emittedCall_counted_ok
    (hop : op = .objectBorrow ∨ op = .objectOwn ∨ op = .objectShare ∨ op = .objectRelease) :
    emittedCall place s (fuel + 2) op args = .ok r ↔
      plainCall place s op args = .ok r ∨ Beyond place s op args r := by
  rw [emittedCall_onWord (by tauto), plainCall_onWord (by tauto), beyond_counted hop]
  constructor
  · intro h
    obtain ⟨w, rfl, hr⟩ := onWord_ok h
    cases hw : w.getLsbD 1 with
    | false => exact Or.inl ((emittedCall_counted hop hw).symm.trans hr)
    | true =>
      rw [emittedCall_high hop hw] at hr
      exact Or.inr ⟨w, rfl, hw, (Except.ok.inj hr).symm⟩
  · rintro (h | ⟨w, rfl, hw, rfl⟩)
    · obtain ⟨w, rfl, hr⟩ := onWord_ok h
      cases hw : w.getLsbD 1 with
      | false => exact (emittedCall_counted hop hw).trans hr
      | true =>
        rw [plainCall_high hop hw] at hr
        cases hr
    · exact emittedCall_high hop hw

theorem emittedCall_checkMutation_ok :
    emittedCall place s (fuel + 2) .objectCheckMutation args = .ok r ↔
      plainCall place s .objectCheckMutation args = .ok r ∧
          ¬ StoresConstant .objectCheckMutation args ∨
        Beyond place s .objectCheckMutation args r := by
  have hemitted := @callFunc_onWords place s (fuel + 2) mkNotifyMutationFn rfl args
  constructor
  · intro h
    obtain ⟨w, value, rfl, hr⟩ := onWords_ok (hemitted.symm.trans h)
    by_cases ht : value &&& 3#64 = 3#64
    · rw [callFunc_mkNotifyMutationFn, if_pos ht] at hr
      exact Or.inr ⟨w, value, rfl, ht, (Except.ok.inj hr).symm⟩
    · refine Or.inl ⟨(emittedCall_objectCheckMutation ht).symm.trans hr, ?_⟩
      rintro ⟨-, w', value', heq, ht'⟩
      cases heq
      exact ht ht'
  · rintro (⟨h, hconstant⟩ | ⟨w, value, rfl, ht, rfl⟩)
    · obtain ⟨w, value, rfl, -⟩ := onWords_ok h
      have ht : value &&& 3#64 ≠ 3#64 := fun ht => hconstant ⟨rfl, w, value, rfl, ht⟩
      exact (emittedCall_objectCheckMutation ht).trans h
    · exact callFunc_mkNotifyMutationFn.trans (if_pos ht)

theorem aligned_of_headerWord {h : ObjectHeader} (hh : place.headerWord s w = .ok h) :
    w &&& 3#64 = 0#64 := by
  unfold Placement.headerWord at hh
  split at hh
  · exact place.aligned _ _ ‹_›
  · exact place.immortal_aligned _ _ ‹_›
  · cases hh

theorem plainCall_getObjectTag_aligned (h : plainCall place s .getObjectTag [.ptr w] = .ok r) :
    w &&& 3#64 = 0#64 := by
  obtain ⟨t, ht, -⟩ := bind_eq_ok.mp h
  obtain ⟨-, -, h⟩ := bind_eq_ok.mp ht
  obtain ⟨header, hheader, -⟩ := bind_eq_ok.mp h
  exact aligned_of_headerWord hheader

theorem emittedCall_getObjectTag_ok :
    emittedCall place s (fuel + 2) .getObjectTag args = .ok r ↔
      plainCall place s .getObjectTag args = .ok r ∨ Beyond place s .getObjectTag args r := by
  rw [emittedCall_onWord (by tauto)]
  constructor
  · intro h
    obtain ⟨w, rfl, hr⟩ := onWord_ok h
    refine Or.inr ⟨w, rfl, ?_⟩
    by_cases ht : w &&& 3#64 = 3#64
    · have himm := (@callFunc_mkGetObjectTagFn place s fuel w).trans
        (if_pos ht)
      exact Or.inl ⟨ht, (Except.ok.inj (himm.symm.trans hr)).symm⟩
    · exact Or.inr ⟨ht, (emittedCall_getObjectTag ht).mp hr⟩
  · rintro (h | ⟨w, rfl, ⟨ht, rfl⟩ | ⟨ht, hr⟩⟩)
    · obtain ⟨w, rfl, hr⟩ := onWord_ok h
      have ht := plainCall_getObjectTag_aligned h
      have h₃ : w &&& 3#64 ≠ 3#64 := by rw [ht]; decide
      refine (emittedCall_getObjectTag h₃).mpr ?_
      rwa [Words.untag_of_borrow ht]
    · exact callFunc_mkGetObjectTagFn.trans (if_pos ht)
    · exact (emittedCall_getObjectTag ht).mpr hr

theorem emittedCall_makeAlwaysBorrow_ok :
    emittedCall place s (fuel + 2) .objectMakeAlwaysBorrow args = .ok r ↔
      plainCall place s .objectMakeAlwaysBorrow args = .ok r ∨
        Beyond place s .objectMakeAlwaysBorrow args r := by
  rw [emittedCall_onWord (by tauto)]
  constructor
  · intro h
    obtain ⟨w, rfl, hr⟩ := onWord_ok h
    exact Or.inr ⟨w, rfl, (Except.ok.inj (callFunc_mkMakeAlwaysBorrowFn.symm.trans hr)).symm⟩
  · rintro (h | ⟨w, rfl, rfl⟩)
    · cases h
    · exact callFunc_mkMakeAlwaysBorrowFn

/-- An emitted operation does what the primitive of the runtime does, and where the primitive
would stop it leaves everything as it is or reads the tag behind the word. -/
theorem emittedCall_ok_iff : emittedCall place s (fuel + 2) op args = .ok r ↔
    plainCall place s op args = .ok r ∧ ¬ StoresConstant op args ∨ Beyond place s op args r := by
  have hstores (hop : op ≠ .objectCheckMutation)
      (h : emittedCall place s (fuel + 2) op args = .ok r ↔
        plainCall place s op args = .ok r ∨ Beyond place s op args r) :
      emittedCall place s (fuel + 2) op args = .ok r ↔
        plainCall place s op args = .ok r ∧ ¬ StoresConstant op args ∨
          Beyond place s op args r := by
    rw [h, and_iff_left fun hs => hop hs.1]
  have hplain (hno : useIfInlinableRuntimeFunction op = none)
      (hbeyond : ¬ Beyond place s op args r) :
      emittedCall place s (fuel + 2) op args = .ok r ↔
        plainCall place s op args = .ok r ∨ Beyond place s op args r := by
    rw [or_iff_left hbeyond, emittedCall, hno]
  cases op with
  | objectBorrow => exact hstores nofun (emittedCall_counted_ok (by tauto))
  | objectOwn => exact hstores nofun (emittedCall_counted_ok (by tauto))
  | objectShare => exact hstores nofun (emittedCall_counted_ok (by tauto))
  | objectRelease => exact hstores nofun (emittedCall_counted_ok (by tauto))
  | objectCheckMutation => exact emittedCall_checkMutation_ok
  | getObjectTag => exact hstores nofun emittedCall_getObjectTag_ok
  | objectMakeAlwaysBorrow => exact hstores nofun emittedCall_makeAlwaysBorrow_ok
  | getObjectLength => exact hstores nofun (hplain rfl fun h => h)
  | getObjectSize => exact hstores nofun (hplain rfl fun h => h)
  | gcCycle => exact hstores nofun (hplain rfl fun h => h)
  | objectAlloc => exact hstores nofun (hplain rfl fun h => h)
  | matchFailure => exact hstores nofun (hplain rfl fun h => h)

end Calls

end Syli.Compiler.Llvm
