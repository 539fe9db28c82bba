import Syli.Compiler.LlvmFunctions

/-! `inlinable_ownership.ml`: the ownership operations that are compiled into the program. -/
namespace Syli.Compiler.Llvm

open GenLlvm

/-- `runtime_op` of `rir.ml`. -/
inductive RuntimeOp where
  | getObjectLength
  | getObjectSize
  | getObjectTag
  | gcCycle
  | objectCheckMutation
  | objectBorrow
  | objectShare
  | objectOwn
  | objectRelease
  | objectAlloc
  | objectMakeAlwaysBorrow
  | matchFailure
deriving DecidableEq, Repr

def runtimeOpNameToString : RuntimeOp → String
  | .getObjectLength => "syli_rt_get_object_length"
  | .getObjectSize => "syli_rt_get_object_size"
  | .getObjectTag => "syli_rt_get_object_tag"
  | .gcCycle => "syli_rt_gc_cycle"
  | .objectCheckMutation => "syli_rt_ownership_notify_mutation"
  | .objectBorrow => "syli_rt_ownership_borrow"
  | .objectShare => "syli_rt_ownership_share"
  | .objectOwn => "syli_rt_ownership_own"
  | .objectRelease => "syli_rt_ownership_release"
  | .objectAlloc => "syli_rt_ownership_alloc_object"
  | .objectMakeAlwaysBorrow => "syli_rt_ownership_make_always_borrow"
  | .matchFailure => "syli_match_failure"

def i64Ty : Lltype := .i64

def ptrTy : Lltype := .ptrAs 1

def ownershipCall (dst fn : String) (args : List String) : Instruction :=
  ⟨dst, .void, .call ⟨fn, args.map fun _ => ptrTy, .void⟩ (args.map (.reg · ptrTy)) .void⟩

def mkUntagFn : Func where
  name := "syli_inlinable_ownership_untag"
  retType := ptrTy
  params := [(ptrTy, "p")]
  blocks := [
    { label := "bb0"
      instructions := [
        ⟨"i", i64Ty, .cast .ptrToInt (.reg "p" ptrTy) i64Ty⟩,
        ⟨"u", i64Ty, .iBinOp .bitAnd (.reg "i" i64Ty) (.constant (-4) i64Ty)⟩,
        ⟨"r", ptrTy, .cast .intToPtr (.reg "u" i64Ty) ptrTy⟩]
      terminator := .ret (some (.reg "r" ptrTy)) }]

def mkBorrowFn : Func where
  name := "syli_inlinable_ownership_borrow"
  retType := ptrTy
  params := [(ptrTy, "p")]
  blocks := [
    { label := "bb0"
      instructions := [
        ⟨"i", i64Ty, .cast .ptrToInt (.reg "p" ptrTy) i64Ty⟩,
        ⟨"b1", i64Ty, .iBinOp .lShr (.reg "i" i64Ty) (.constant 1 i64Ty)⟩,
        ⟨"b1m", i64Ty, .iBinOp .bitAnd (.reg "b1" i64Ty) (.constant 1 i64Ty)⟩,
        ⟨"m", i64Ty, .iBinOp .bitOr (.reg "b1m" i64Ty) (.constant (-2) i64Ty)⟩,
        ⟨"u", i64Ty, .iBinOp .bitAnd (.reg "i" i64Ty) (.reg "m" i64Ty)⟩,
        ⟨"r", ptrTy, .cast .intToPtr (.reg "u" i64Ty) ptrTy⟩]
      terminator := .ret (some (.reg "r" ptrTy)) }]

def mkReleaseFn : Func where
  name := "syli_inlinable_ownership_release"
  retType := .void
  params := [(ptrTy, "p")]
  blocks := [
    { label := "bb0"
      instructions := [
        ⟨"pi", i64Ty, .cast .ptrToInt (.reg "p" ptrTy) i64Ty⟩,
        ⟨"tag", i64Ty, .iBinOp .bitAnd (.reg "pi" i64Ty) (.constant 3 i64Ty)⟩,
        ⟨"is_own", .i1, .iCmp .eq (.reg "tag" i64Ty) (.constant 1 i64Ty)⟩]
      terminator := .condBr (.reg "is_own" .i1) "own" "done" },
    { label := "own"
      instructions := [ownershipCall "_r" "syli_rt_ownership_decr" ["p"]]
      terminator := .ret none },
    { label := "done", instructions := [], terminator := .ret none }]

def mkOwnFn : Func where
  name := "syli_inlinable_ownership_own"
  retType := ptrTy
  params := [(ptrTy, "p")]
  blocks := [
    { label := "bb0"
      instructions := [
        ⟨"pi", i64Ty, .cast .ptrToInt (.reg "p" ptrTy) i64Ty⟩,
        ⟨"tag", i64Ty, .iBinOp .bitAnd (.reg "pi" i64Ty) (.constant 3 i64Ty)⟩,
        ⟨"is_borrow", .i1, .iCmp .eq (.reg "tag" i64Ty) (.constant 0 i64Ty)⟩]
      terminator := .condBr (.reg "is_borrow" .i1) "promote" "done" },
    { label := "promote"
      instructions := [
        ⟨"r", i64Ty, .iBinOp .bitOr (.reg "pi" i64Ty) (.constant 1 i64Ty)⟩,
        ⟨"rp", ptrTy, .cast .intToPtr (.reg "r" i64Ty) ptrTy⟩,
        ownershipCall "_inc" "syli_rt_ownership_incr" ["rp"]]
      terminator := .ret (some (.reg "rp" ptrTy)) },
    { label := "done", instructions := [], terminator := .ret (some (.reg "p" ptrTy)) }]

def mkShareFn : Func where
  name := "syli_inlinable_ownership_share"
  retType := ptrTy
  params := [(ptrTy, "p")]
  blocks := [
    { label := "bb0"
      instructions := [
        ⟨"pi", i64Ty, .cast .ptrToInt (.reg "p" ptrTy) i64Ty⟩,
        ⟨"tag", i64Ty, .iBinOp .bitAnd (.reg "pi" i64Ty) (.constant 2 i64Ty)⟩,
        ⟨"is_always", .i1, .iCmp .ne (.reg "tag" i64Ty) (.constant 0 i64Ty)⟩]
      terminator := .condBr (.reg "is_always" .i1) "done" "promote" },
    { label := "promote"
      instructions := [
        ⟨"r", i64Ty, .iBinOp .bitOr (.reg "pi" i64Ty) (.constant 1 i64Ty)⟩,
        ⟨"rp", ptrTy, .cast .intToPtr (.reg "r" i64Ty) ptrTy⟩,
        ownershipCall "_inc" "syli_rt_ownership_incr" ["rp"]]
      terminator := .ret (some (.reg "rp" ptrTy)) },
    { label := "done", instructions := [], terminator := .ret (some (.reg "p" ptrTy)) }]

def mkMakeAlwaysBorrowFn : Func where
  name := "syli_inlinable_ownership_make_always_borrow"
  retType := ptrTy
  params := [(ptrTy, "p")]
  blocks := [
    { label := "bb0"
      instructions := [
        ⟨"i", i64Ty, .cast .ptrToInt (.reg "p" ptrTy) i64Ty⟩,
        ⟨"u", i64Ty, .iBinOp .bitAnd (.reg "i" i64Ty) (.constant (-4) i64Ty)⟩,
        ⟨"r", i64Ty, .iBinOp .bitOr (.reg "u" i64Ty) (.constant 2 i64Ty)⟩,
        ⟨"rp", ptrTy, .cast .intToPtr (.reg "r" i64Ty) ptrTy⟩]
      terminator := .ret (some (.reg "rp" ptrTy)) }]

def mkGetObjectTagFn : Func where
  name := "syli_inlinable_get_object_tag"
  retType := i64Ty
  params := [(ptrTy, "p")]
  blocks := [
    { label := "bb0"
      instructions := [
        ⟨"i", i64Ty, .cast .ptrToInt (.reg "p" ptrTy) i64Ty⟩,
        ⟨"own", i64Ty, .iBinOp .bitAnd (.reg "i" i64Ty) (.constant 3 i64Ty)⟩,
        ⟨"lo", .i1, .iCmp .eq (.reg "own" i64Ty) (.constant 3 i64Ty)⟩]
      terminator := .condBr (.reg "lo" .i1) "imm" "obj" },
    { label := "imm"
      instructions := [⟨"it", i64Ty, .iBinOp .lShr (.reg "i" i64Ty) (.constant 2 i64Ty)⟩]
      terminator := .ret (some (.reg "it" i64Ty)) },
    { label := "obj"
      instructions := [
        ⟨"u", i64Ty, .iBinOp .bitAnd (.reg "i" i64Ty) (.constant (-4) i64Ty)⟩,
        ⟨"up", ptrTy, .cast .intToPtr (.reg "u" i64Ty) ptrTy⟩,
        ⟨"h", i64Ty, .load (.reg "up" ptrTy) i64Ty⟩,
        ⟨"t", i64Ty, .iBinOp .lShr (.reg "h" i64Ty) (.constant 48 i64Ty)⟩,
        ⟨"r", i64Ty, .iBinOp .bitAnd (.reg "t" i64Ty) (.constant 255 i64Ty)⟩]
      terminator := .ret (some (.reg "r" i64Ty)) }]

def mkNotifyMutationFn : Func where
  name := "syli_inlinable_ownership_notify_mutation"
  retType := .void
  params := [(ptrTy, "obj"), (ptrTy, "value")]
  blocks := [
    { label := "bb0"
      instructions := [
        ⟨"vi", i64Ty, .cast .ptrToInt (.reg "value" ptrTy) i64Ty⟩,
        ⟨"tag", i64Ty, .iBinOp .bitAnd (.reg "vi" i64Ty) (.constant 3 i64Ty)⟩,
        ⟨"imm", .i1, .iCmp .eq (.reg "tag" i64Ty) (.constant 3 i64Ty)⟩]
      terminator := .condBr (.reg "imm" .i1) "done" "notify" },
    { label := "notify"
      instructions := [ownershipCall "_r" "syli_rt_ownership_notify_mutation" ["obj", "value"]]
      terminator := .ret none },
    { label := "done", instructions := [], terminator := .ret none }]

def builtins : List Func :=
  [mkUntagFn, mkBorrowFn, mkReleaseFn, mkOwnFn, mkShareFn, mkMakeAlwaysBorrowFn, mkGetObjectTagFn,
    mkNotifyMutationFn]

def inlinableRuntimeFunctions : List (String × String) :=
  [(runtimeOpNameToString .objectBorrow, "syli_inlinable_ownership_borrow"),
    (runtimeOpNameToString .objectOwn, "syli_inlinable_ownership_own"),
    (runtimeOpNameToString .objectShare, "syli_inlinable_ownership_share"),
    (runtimeOpNameToString .objectRelease, "syli_inlinable_ownership_release"),
    (runtimeOpNameToString .objectMakeAlwaysBorrow, "syli_inlinable_ownership_make_always_borrow"),
    (runtimeOpNameToString .getObjectTag, "syli_inlinable_get_object_tag"),
    (runtimeOpNameToString .objectCheckMutation, "syli_inlinable_ownership_notify_mutation")]

def useIfInlinableRuntimeFunction (op : RuntimeOp) : Option String :=
  inlinableRuntimeFunctions.lookup (runtimeOpNameToString op)

end Syli.Compiler.Llvm
