import Syli.Compiler.PatternSplit

/-! The values that patterns match, and what a decision tree makes of a value. -/
namespace Syli.Compiler.PatternMatching

open Foundation

variable {Ident Expr T L : Type}

variable (L) in
inductive Value where
  | unit
  | literal (l : L)
  | tuple (elements : List Value)
  | record (fields : List Value)
  | constructor (tag : Nat) (payload : Option Value)

inductive ValueTy (shape : T → Shape T) : Value L → T → Prop where
  | unit {t : T} : shape t = .unit → ValueTy shape .unit t
  | literal {t : T} {l : L} : shape t = .literal → ValueTy shape (.literal l) t
  | tuple {t : T} {vs : List (Value L)} {tys : List T} : shape t = .tuple tys →
      vs.length = tys.length →
      (∀ (i : Nat) (v : Value L) (ty : T), vs[i]? = some v → tys[i]? = some ty →
        ValueTy shape v ty) → ValueTy shape (.tuple vs) t
  | record {t : T} {vs : List (Value L)} {tys : List T} : shape t = .record tys →
      vs.length = tys.length →
      (∀ (i : Nat) (v : Value L) (ty : T), vs[i]? = some v → tys[i]? = some ty →
        ValueTy shape v ty) → ValueTy shape (.record vs) t
  | constant {t : T} {tag : Nat} {constructors : List (Nat × Option T)} :
      shape t = .variant constructors → constructors.lookup tag = some none →
      ValueTy shape (.constructor tag none) t
  | constructor {t ty : T} {tag : Nat} {v : Value L} {constructors : List (Nat × Option T)} :
      shape t = .variant constructors → constructors.lookup tag = some (some ty) →
      ValueTy shape v ty → ValueTy shape (.constructor tag (some v)) t

/-- Two sets of bindings together, if both are there. -/
def both {α : Type} (a b : Option (Set α)) : Option (Set α) :=
  a.bind fun x => b.map fun y => x ∪ y

section Both

variable {α : Type} (a b c : Option (Set α))

@[simp] theorem both_none : both a none = none := by
  cases a <;> rfl

@[simp] theorem none_both : both none b = none := rfl

@[simp] theorem empty_both : both (some ∅) b = b := by
  cases b <;> simp [both]

theorem both_some (x y : Set α) : both (some x) (some y) = some (x ∪ y) := rfl

@[simp] theorem both_empty : both a (some ∅) = a := by
  cases a <;> simp [both]

theorem both_comm : both a b = both b a := by
  cases a <;> cases b <;> simp [both, Set.union_comm]

theorem both_assoc : both (both a b) c = both a (both b c) := by
  cases a <;> cases b <;> cases c <;> simp [both, Set.union_assoc]

theorem both_left_comm : both a (both b c) = both b (both a c) := by
  rw [← both_assoc, both_comm a, both_assoc]

end Both

section Matching

variable [DecidableEq L] (den : Constant → L)

def matchesConstant (c : Constant) : Value L → Bool
  | .unit => c = .unit
  | .literal l => c ≠ .unit ∧ den c = l
  | _ => false

mutual

/-- The variables of a pattern with the values at their places, if the pattern matches. -/
def Pattern.bindings : Pattern Ident → Value L → Option (Set (Ident × Value L))
  | .any, _ => some ∅
  | .ident id, v => some {(id, v)}
  | .constant c, v => if matchesConstant den c v then some ∅ else none
  | .tuple elements, .tuple vs => Pattern.bindingsList elements vs
  | .record fields, .record vs => Pattern.bindingsFields fields vs
  | .constructor tag pattern, .constructor t payload =>
    if t = tag then Pattern.bindingsOption pattern payload else none
  | _, _ => none

def Pattern.bindingsList : List (Pattern Ident) → List (Value L) →
    Option (Set (Ident × Value L))
  | [], [] => some ∅
  | p :: ps, v :: vs => both (p.bindings v) (Pattern.bindingsList ps vs)
  | _, _ => none

def Pattern.bindingsFields : List (Nat × Option (Pattern Ident)) → List (Value L) →
    Option (Set (Ident × Value L))
  | [], _ => some ∅
  | f :: fs, vs => both (Pattern.bindingsField f vs) (Pattern.bindingsFields fs vs)

def Pattern.bindingsField : Nat × Option (Pattern Ident) → List (Value L) →
    Option (Set (Ident × Value L))
  | (idx, p), vs => Pattern.bindingsOption p vs[idx]?

def Pattern.bindingsOption : Option (Pattern Ident) → Option (Value L) →
    Option (Set (Ident × Value L))
  | none, _ => some ∅
  | some p, some v => p.bindings v
  | some _, none => none

end

variable (holds : Expr → Set (Ident × Value L) → Bool)

def guardHolds (guard : Option Expr) (b : Set (Ident × Value L)) : Bool :=
  match guard with
  | none => true
  | some g => holds g b

/-- The first entry that has bindings and whose guard holds of them. -/
def firstOf : List (Option (Set (Ident × Value L)) × Option Expr × Expr) →
    Option (Set (Ident × Value L) × Expr)
  | [] => none
  | (none, _, _) :: rest => firstOf rest
  | (some b, guard, body) :: rest =>
    if guardHolds holds guard b then some (b, body) else firstOf rest

/-- First-match semantics. -/
def firstMatch (cases : List (PatternCase Ident Expr)) (v : Value L) :
    Option (Set (Ident × Value L) × Expr) :=
  firstOf holds (cases.map fun c => (c.pattern.bindings den v, c.whenCondition, c.body))

def Occurrence.value (root : Value L) : Occurrence → Option (Value L)
  | .scrutinee => some root
  | .field occ idx =>
    match occ.value root with
    | some (.record vs) => vs[idx]?
    | _ => none
  | .tuple occ idx =>
    match occ.value root with
    | some (.tuple vs) => vs[idx]?
    | _ => none
  | .payload occ =>
    match occ.value root with
    | some (.constructor _ arg) => arg
    | _ => none

def testMatches : PatternTest → Value L → Bool
  | .constant c, v => matchesConstant den c v
  | .constructor tag _ _, .constructor t _ => t = tag
  | .constructor _ _ _, _ => false

def boundAt (root : Value L) (binds : ActionBinds Ident) : Set (Ident × Value L) :=
  {x | ∃ occ, (x.1, occ) ∈ binds ∧ occ.value root = some x.2}

def Defined (root : Value L) (binds : ActionBinds Ident) : Prop :=
  ∀ x ∈ binds, ∃ v, x.2.value root = some v

/-- Evaluation of a decision tree; `none` is the failure of the match. -/
inductive Eval (root : Value L) : DecisionTree Ident Expr →
    Option (Set (Ident × Value L) × Expr) → Prop where
  | fail : Eval root .fail none
  | leaf {binds : ActionBinds Ident} {body : Expr} : Defined root binds →
      Eval root (.leaf binds body) (some (boundAt root binds, body))
  | pass {binds : ActionBinds Ident} {condition : Expr} {onPass onFail : DecisionTree Ident Expr}
      {o : Option (Set (Ident × Value L) × Expr)} : Defined root binds →
      holds condition (boundAt root binds) = true → Eval root onPass o →
      Eval root (.guard binds condition onPass onFail) o
  | reject {binds : ActionBinds Ident} {condition : Expr}
      {onPass onFail : DecisionTree Ident Expr} {o : Option (Set (Ident × Value L) × Expr)} :
      Defined root binds → holds condition (boundAt root binds) = false → Eval root onFail o →
      Eval root (.guard binds condition onPass onFail) o
  | case {occ : Occurrence} {cases : List (PatternTest × DecisionTree Ident Expr)}
      {default : DecisionTree Ident Expr} {v : Value L} {c : PatternTest × DecisionTree Ident Expr}
      {o : Option (Set (Ident × Value L) × Expr)} : occ.value root = some v →
      cases.find? (fun c => testMatches den c.1 v) = some c → Eval root c.2 o →
      Eval root (.switch occ cases default) o
  | default {occ : Occurrence} {cases : List (PatternTest × DecisionTree Ident Expr)}
      {default : DecisionTree Ident Expr} {v : Value L}
      {o : Option (Set (Ident × Value L) × Expr)} : occ.value root = some v →
      cases.find? (fun c => testMatches den c.1 v) = none → Eval root default o →
      Eval root (.switch occ cases default) o

variable {den holds} {root : Value L} {o : Option (Set (Ident × Value L) × Expr)}

theorem eval_fail : Eval den holds root .fail o ↔ o = none := by
  constructor
  · intro h
    cases h
    rfl
  · rintro rfl
    exact .fail

theorem eval_leaf {binds : ActionBinds Ident} {body : Expr} (hd : Defined root binds) :
    Eval den holds root (.leaf binds body) o ↔ o = some (boundAt root binds, body) := by
  constructor
  · intro h
    cases h
    rfl
  · rintro rfl
    exact .leaf hd

/-- A guard and the leaf behind it: the leaf, or what follows the failed guard. -/
theorem eval_guard {binds : ActionBinds Ident} {condition body : Expr}
    {onFail : DecisionTree Ident Expr} (hd : Defined root binds) :
    Eval den holds root (.guard binds condition (.leaf binds body) onFail) o ↔
      if holds condition (boundAt root binds) then o = some (boundAt root binds, body)
      else Eval den holds root onFail o := by
  by_cases hh : holds condition (boundAt root binds) = true
  · rw [if_pos hh]
    constructor
    · intro h
      cases h with
      | pass _ _ h => exact (eval_leaf hd).mp h
      | reject _ hf _ => simp [hh] at hf
    · intro h
      exact .pass hd hh ((eval_leaf hd).mpr h)
  · rw [if_neg hh]
    have hh := Bool.eq_false_of_not_eq_true hh
    constructor
    · intro h
      cases h with
      | pass _ ht _ => simp [hh] at ht
      | reject _ _ h => exact h
    · exact .reject hd hh

section Switch

variable {occ : Occurrence} {cases : List (PatternTest × DecisionTree Ident Expr)}
  {default : DecisionTree Ident Expr} {v : Value L}

theorem eval_case {c : PatternTest × DecisionTree Ident Expr} (hv : occ.value root = some v)
    (hc : cases.find? (fun c => testMatches den c.1 v) = some c) :
    Eval den holds root (.switch occ cases default) o ↔ Eval den holds root c.2 o := by
  constructor
  · intro h
    cases h with
    | case hv' hc' h =>
      obtain rfl := Option.some.inj (hv.symm.trans hv')
      obtain rfl := Option.some.inj (hc.symm.trans hc')
      exact h
    | default hv' hc' _ =>
      obtain rfl := Option.some.inj (hv.symm.trans hv')
      cases hc.symm.trans hc'
  · exact .case hv hc

theorem eval_default (hv : occ.value root = some v)
    (hc : cases.find? (fun c => testMatches den c.1 v) = none) :
    Eval den holds root (.switch occ cases default) o ↔ Eval den holds root default o := by
  constructor
  · intro h
    cases h with
    | case hv' hc' _ =>
      obtain rfl := Option.some.inj (hv.symm.trans hv')
      cases hc.symm.trans hc'
    | default hv' _ h => exact h
  · exact .default hv hc

end Switch

end Matching

section Lists

variable [DecidableEq L] {den : Constant → L} {ps qs : List (Pattern Ident)}
  {vs ws : List (Value L)} {p : Pattern Ident} {v : Value L}

theorem bindingsList_cons : Pattern.bindingsList den (p :: ps) (v :: vs) =
    both (p.bindings den v) (Pattern.bindingsList den ps vs) := by
  rw [Pattern.bindingsList]

theorem bindingsList_append (hlen : ps.length = vs.length) :
    Pattern.bindingsList den (ps ++ qs) (vs ++ ws) =
      both (Pattern.bindingsList den ps vs) (Pattern.bindingsList den qs ws) := by
  induction ps generalizing vs with
  | nil =>
    obtain rfl := List.length_eq_zero_iff.mp hlen.symm
    simp [Pattern.bindingsList]
  | cons p ps ih =>
    cases vs with
    | nil => simp at hlen
    | cons v vs =>
      simp only [List.cons_append, bindingsList_cons, ih (Nat.succ.inj hlen), both_assoc]

/-- One column of a row can be matched before the others. -/
theorem bindingsList_eraseIdx {i : Nat} (hp : ps[i]? = some p) (hv : vs[i]? = some v) :
    Pattern.bindingsList den ps vs =
      both (p.bindings den v) (Pattern.bindingsList den (ps.eraseIdx i) (vs.eraseIdx i)) := by
  induction i generalizing ps vs with
  | zero =>
    cases ps with
    | nil => simp at hp
    | cons q ps =>
      cases vs with
      | nil => simp at hv
      | cons w vs =>
        obtain rfl := Option.some.inj hp
        obtain rfl := Option.some.inj hv
        exact bindingsList_cons
  | succ i ih =>
    cases ps with
    | nil => simp at hp
    | cons q ps =>
      cases vs with
      | nil => simp at hv
      | cons w vs =>
        have hrest : Pattern.bindingsList den ps vs = both (p.bindings den v)
            (Pattern.bindingsList den (ps.eraseIdx i) (vs.eraseIdx i)) := ih hp hv
        simp only [List.eraseIdx_cons_succ, bindingsList_cons]
        rw [hrest, both_left_comm]

theorem bindingsList_any {α : Type} {l : List α} (hlen : l.length = vs.length) :
    Pattern.bindingsList den (l.map fun _ => (.any : Pattern Ident)) vs = some ∅ := by
  induction l generalizing vs with
  | nil =>
    obtain rfl := List.length_eq_zero_iff.mp hlen.symm
    simp [Pattern.bindingsList]
  | cons a l ih =>
    cases vs with
    | nil => simp at hlen
    | cons v vs =>
      rw [List.map_cons, bindingsList_cons, ih (Nat.succ.inj hlen)]
      simp [Pattern.bindings]

end Lists

end Syli.Compiler.PatternMatching
