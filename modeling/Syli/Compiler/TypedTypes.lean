import Syli.Compiler.CoreAst
import Syli.Foundation.AssocMap

/-! `typed_ast.ml`, `subst.ml` and `ty.ml`: the types of the type checker and their unification. -/
namespace Syli.Compiler.Typing

open Foundation

inductive Ty where
  | var (v : Nat)
  | any
  | constant (c : ConstantTy)
  | arrow (arg ret : Ty)
  | tuple (elems : List Ty)
  | array (elem : Ty)
  | defined (name : String) (args : List Ty)

abbrev Subst := AssocMap Nat Ty

namespace Subst

def empty : Subst := []

def bind (v : Nat) (t : Ty) (s : Subst) : Subst := s.add v t

/-- The recursion of `apply` with a fuel for its depth. -/
def apply : Nat → Subst → Ty → Option Ty
  | 0, _, _ => none
  | n + 1, s, t =>
    match t with
    | .var v =>
      match s.findOpt v with
      | some t' => apply n s t'
      | none => some t
    | .arrow arg ret => do return .arrow (← apply n s arg) (← apply n s ret)
    | .tuple elems => do return .tuple (← elems.mapM (apply n s))
    | .array elem => do return .array (← apply n s elem)
    | .defined name args => do return .defined name (← args.mapM (apply n s))
    | .constant _ | .any => some t

/-- The bindings of `s1` are found before those of `s2`. -/
def compose (n : Nat) (s1 s2 : Subst) : Option Subst := do
  let s2' ← s2.mapM fun e => do return (e.1, ← apply n s1 e.2)
  return s1 ++ s2'

end Subst

mutual

def equalTy : Ty → Ty → Bool
  | .any, _ => true
  | _, .any => true
  | .var a, .var b => a = b
  | .constant a, .constant b => a = b
  | .arrow aArg aRet, .arrow bArg bRet => equalTy aArg bArg && equalTy aRet bRet
  | .tuple aElems, .tuple bElems => equalTys aElems bElems
  | .array aElem, .array bElem => equalTy aElem bElem
  | .defined aName aArgs, .defined bName bArgs => aName = bName && equalTys aArgs bArgs
  | _, _ => false

/-- Lists of different lengths are not equal. -/
def equalTys : List Ty → List Ty → Bool
  | [], [] => true
  | a :: as, b :: bs => equalTy a b && equalTys as bs
  | _, _ => false

end

mutual

def occurs (v : Nat) : Ty → Bool
  | .var v' => v = v'
  | .arrow arg ret => occurs v arg || occurs v ret
  | .tuple elems => occursAny v elems
  | .array elem => occurs v elem
  | .defined _ args => occursAny v args
  | .constant _ | .any => false

def occursAny (v : Nat) : List Ty → Bool
  | [] => false
  | t :: ts => occurs v t || occursAny v ts

end

/-- What the message of a type error shows. -/
inductive TypeError where
  | occursCheck (v : Nat) (t a b : Ty)
  | tupleArity (left right : Nat) (a b : Ty)
  | argumentArity (name : String) (left right : Nat)
  | mismatch (a b : Ty)

/-- `fold_left2` over lists of one length, where the function can raise. -/
def foldLeft2 (f : Subst → Ty → Ty → Option (Except TypeError Subst)) :
    Subst → List Ty → List Ty → Option (Except TypeError Subst)
  | s, x :: xs, y :: ys =>
    match f s x y with
    | some (.ok s) => foldLeft2 f s xs ys
    | result => result
  | s, _, _ => some (.ok s)

def bindVar (s : Subst) (v : Nat) (t a b : Ty) : Except TypeError Subst :=
  if occurs v t then .error (.occursCheck v t a b) else .ok (Subst.bind v t s)

/-- The cases of `unify` for types to which the substitution is applied. -/
def unifyApplied (unify : Subst → Ty → Ty → Option (Except TypeError Subst)) (s : Subst)
    (a b : Ty) : Option (Except TypeError Subst) :=
  match a, b with
  | .any, _ => some (.ok s)
  | _, .any => some (.ok s)
  | a, b =>
    if equalTy a b then some (.ok s)
    else
      match a, b with
      | .var v, _ => some (bindVar s v b a b)
      | _, .var v => some (bindVar s v a a b)
      | .constant ca, .constant cb =>
        if ca = cb then some (.ok s) else some (.error (.mismatch a b))
      | .arrow a1 r1, .arrow a2 r2 => foldLeft2 unify s [a1, r1] [a2, r2]
      | .tuple a1, .tuple a2 =>
        if a1.length ≠ a2.length then some (.error (.tupleArity a1.length a2.length a b))
        else foldLeft2 unify s a1 a2
      | .array x, .array y => unify s x y
      | .defined aName aArgs, .defined bName bArgs =>
        if aName = bName then
          if aArgs.length = bArgs.length then foldLeft2 unify s aArgs bArgs
          else some (.error (.argumentArity aName aArgs.length bArgs.length))
        else some (.error (.mismatch a b))
      | _, _ => some (.error (.mismatch a b))

/-- The recursion of `unify` with a fuel for its depth. -/
def unify : Nat → Subst → Ty → Ty → Option (Except TypeError Subst)
  | 0, _, _, _ => none
  | n + 1, s, a, b => do
    let a ← Subst.apply n s a
    let b ← Subst.apply n s b
    unifyApplied (unify n) s a b

/-- The substitution of the context after `unify_into`. -/
def unifyInto (n : Nat) (subst : Subst) (a b : Ty) : Option (Except TypeError Subst) := do
  match ← unify n subst a b with
  | .ok s => return .ok (← Subst.compose n s subst)
  | .error e => return .error e

end Syli.Compiler.Typing
