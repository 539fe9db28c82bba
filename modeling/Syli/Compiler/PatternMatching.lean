import Syli.Foundation.Runs
import Syli.Foundation.ComparatorSet
import Mathlib

/-! `pattern_matching.ml`: pattern matches are compiled into decision trees. -/
namespace Syli.Compiler.PatternMatching

open Foundation

/-- Constants by their spelling in the source text. -/
inductive Constant where
  | unit
  | boolLit (s : String)
  | intLit (s : String)
  | charLit (s : String)
  | stringLit (s : String)
  | floatLit (s : String)
deriving DecidableEq, Repr

inductive Payload where
  | none
  | one
deriving DecidableEq, Repr

inductive Occurrence where
  | scrutinee
  | field (occ : Occurrence) (idx : Nat)
  | tuple (occ : Occurrence) (idx : Nat)
  | payload (occ : Occurrence)
deriving DecidableEq, Repr

variable (Ident Expr : Type)

/-- `constant` stands for `Pat_Unit` and the five literals. A record field without a pattern is
matched by anything. -/
inductive Pattern where
  | any
  | ident (id : Ident)
  | constant (c : Constant)
  | tuple (elements : List Pattern)
  | record (fields : List (Nat × Option Pattern))
  | constructor (tag : Nat) (pattern : Option Pattern)

/-- The occurrence of the payload is the one of the switch below `payload`. -/
inductive PatternTest where
  | constant (c : Constant)
  | constructor (tag : Nat) (payload : Payload) (payloadOcc : Option Occurrence)
deriving DecidableEq

abbrev ActionBinds := List (Ident × Occurrence)

inductive DecisionTree where
  | fail
  | leaf (binds : ActionBinds Ident) (body : Expr)
  | guard (binds : ActionBinds Ident) (condition : Expr) (onPass onFail : DecisionTree)
  | switch (occ : Occurrence) (cases : List (PatternTest × DecisionTree))
      (default : DecisionTree)

structure Row where
  pats : List (Pattern Ident)
  binds : ActionBinds Ident := []
  guard : Option Expr
  body : Expr

/-- The occurrences of the columns, and the rows. -/
structure Matrix where
  occs : List Occurrence
  rows : List (Row Ident Expr)

/-- The heads that a switch tests for. -/
inductive Refutable where
  | constant (c : Constant)
  | variant (tag : Nat) (payload : Payload)
deriving DecidableEq, Repr

inductive Head where
  | default
  | refutable (h : Refutable)
  | unit
  | tuple (n : Nat)
  | record (fields : List (Nat × Option (Pattern Ident)))

inductive CompileError where
  | patternError (msg : String)
  | failure (msg : String)
  | invalidArgument (msg : String)
  | assertFalse
  | outOfFuel
deriving DecidableEq, Repr

variable {Ident Expr}

/-- `HeadSet`: the comparison returns 0 or 1. -/
abbrev HeadSet := ComparatorSet Refutable

def HeadSet.add (h : Refutable) (s : HeadSet) : HeadSet :=
  ComparatorSet.add ComparatorSet.compareEq h s

def constantOfLiteral : Pattern Ident → Option Constant
  | .constant c => some c
  | _ => none

def headOf : Pattern Ident → Head Ident
  | .any | .ident _ => .default
  | .constant .unit => .unit
  | .tuple elements => .tuple elements.length
  | .record fields => .record fields
  | .constructor tag pattern =>
    .refutable (.variant tag (if pattern.isNone then .none else .one))
  | .constant c => .refutable (.constant c)

def isDefaultPattern : Pattern Ident → Bool
  | .any | .ident _ => true
  | _ => false

def recordBind (p : Pattern Ident) (occ : Occurrence) (binds : ActionBinds Ident) :
    ActionBinds Ident :=
  match p with
  | .ident id => (id, occ) :: binds
  | _ => binds

abbrev CompileResult := Except CompileError

def hd {α : Type} : List α → CompileResult α
  | [] => .error (.failure "hd")
  | x :: _ => .ok x

/-- Drops column 0 for the patterns `subs`. -/
def expandHead (occs : List Occurrence) (r : Row Ident Expr) (subs : List (Pattern Ident)) :
    CompileResult (Row Ident Expr) :=
  match r.pats with
  | p :: rest => do
    let occ ← hd occs
    return { r with pats := subs ++ rest, binds := recordBind p occ r.binds }
  | [] => .ok r

def stripHead (occs : List Occurrence) (r : Row Ident Expr) : CompileResult (Row Ident Expr) :=
  expandHead occs r []

def findField (fields : List (Nat × Option (Pattern Ident))) (idx : Nat) :
    Option (Pattern Ident) :=
  match fields.find? fun x => x.1 == idx with
  | some (_, pattern) => pattern
  | none => none

def subsForIndices (indices : List Nat) (fields : List (Nat × Option (Pattern Ident))) :
    List (Pattern Ident) :=
  indices.map fun idx => (findField fields idx).getD .any

/-- `List.filter_map` with a function that may raise. -/
def filterRows (f : Row Ident Expr → CompileResult (Option (Row Ident Expr))) :
    List (Row Ident Expr) → CompileResult (List (Row Ident Expr))
  | [] => .ok []
  | r :: rest => do
    let r' ← f r
    let rest' ← filterRows f rest
    return r'.toList ++ rest'

def specializeConstant (occs : List Occurrence) (c : Constant) (rows : List (Row Ident Expr)) :
    CompileResult (List (Row Ident Expr)) :=
  filterRows (fun r =>
    match r.pats with
    | p :: _ =>
      match constantOfLiteral p with
      | some c' => if c' = c then some <$> stripHead occs r else .ok none
      | none =>
        if isDefaultPattern p then some <$> stripHead occs r
        else .error (.patternError "non-literal pattern in a literal column")
    | [] => .ok none) rows

def variantRow (occs subOccs : List Occurrence) (tag : Nat) (payload : Payload)
    (r : Row Ident Expr) : CompileResult (Option (Row Ident Expr)) :=
  match r.pats with
  | p :: _ =>
    match p with
    | .any | .ident _ => some <$> expandHead occs r (subOccs.map fun _ => .any)
    | .constructor t pattern =>
      if t = tag then
        some <$> expandHead occs r (match payload with
          | .none => []
          | .one => [pattern.getD .any])
      else .ok none
    | _ => .error (.patternError "non-constructor pattern in a variant column")
  | [] => .ok none

def specializeVariant (occs : List Occurrence) (occ : Occurrence) (tag : Nat) (payload : Payload)
    (rows : List (Row Ident Expr)) :
    CompileResult (List Occurrence × List (Row Ident Expr)) := do
  let subOccs := match payload with
    | .none => []
    | .one => [.payload occ]
  let rows' ← filterRows (variantRow occs subOccs tag payload) rows
  return (subOccs, rows')

def specializeUnit (occs : List Occurrence) (rows : List (Row Ident Expr)) :
    CompileResult (List (Row Ident Expr)) :=
  filterRows (fun r =>
    match r.pats with
    | p :: _ =>
      match p with
      | .constant .unit | .any | .ident _ => some <$> stripHead occs r
      | _ => .error (.patternError "non-unit pattern in a unit column")
    | [] => .ok (some r)) rows

def tupleRow (occs : List Occurrence) (n : Nat) (r : Row Ident Expr) :
    CompileResult (Option (Row Ident Expr)) :=
  match r.pats with
  | p :: _ =>
    match p with
    | .any | .ident _ => some <$> expandHead occs r (List.replicate n .any)
    | .tuple elements => some <$> expandHead occs r elements
    | _ => .error (.patternError "non-tuple pattern in a tuple column")
  | [] => .ok (some r)

def specializeTuple (occs : List Occurrence) (occ : Occurrence) (n : Nat)
    (rows : List (Row Ident Expr)) :
    CompileResult (List Occurrence × List (Row Ident Expr)) := do
  let subOccs := (List.range n).map fun i => .tuple occ i
  let rows' ← filterRows (tupleRow occs n) rows
  return (subOccs, rows')

/-- The fields that the records in column 0 name. -/
def recordFields : List (Row Ident Expr) → CompileResult (List Nat)
  | [] => .ok []
  | r :: rest =>
    match r.pats with
    | .record fields :: _ => do
      let indices ← recordFields rest
      return fields.map (·.1) ++ indices
    | .any :: _ | .ident _ :: _ | [] => recordFields rest
    | _ => .error (.patternError "non-record pattern in a record column")

/-- `List.sort_uniq` -/
def sortUniq (l : List Nat) : List Nat := l.dedup.insertionSort (· ≤ ·)

def recordRow (occs : List Occurrence) (indices : List Nat) (r : Row Ident Expr) :
    CompileResult (Option (Row Ident Expr)) :=
  match r.pats with
  | p :: _ =>
    match p with
    | .any | .ident _ => some <$> expandHead occs r (indices.map fun _ => .any)
    | .record fields => some <$> expandHead occs r (subsForIndices indices fields)
    | _ => .error (.patternError "non-record pattern in a record column")
  | [] => .ok (some r)

def specializeRecord (occs : List Occurrence) (occ : Occurrence) (rows : List (Row Ident Expr)) :
    CompileResult (List Occurrence × List (Row Ident Expr)) := do
  let fields ← recordFields rows
  let indices := sortUniq fields
  let subOccs := indices.map fun idx => .field occ idx
  let rows' ← filterRows (recordRow occs indices) rows
  return (subOccs, rows')

def chooseColumn : List (Row Ident Expr) → CompileResult Nat
  | row :: _ =>
    match row.pats.findIdx? fun x => !isDefaultPattern x with
    | none => .error .assertFalse
    | some x => .ok x
  | [] => .error .assertFalse

def pickN {α : Type} (n : Nat) (l : List α) : CompileResult (α × List α) :=
  match l[n]? with
  | some x => .ok (x, l.eraseIdx n)
  | none => .error (if n = 0 then .failure "hd" else .patternError "column out of range")

def reorderHead (col : Nat) (r : Row Ident Expr) : CompileResult (Row Ident Expr) := do
  let (p, rest) ← pickN col r.pats
  return { r with pats := p :: rest }

def reorderRows (col : Nat) (rows : List (Row Ident Expr)) :
    CompileResult (List (Row Ident Expr)) :=
  if col = 0 then .ok rows else rows.mapM (reorderHead col)

def swapI (col : Nat) (rows : List (Row Ident Expr)) (occs : List Occurrence) :
    CompileResult (List (Row Ident Expr) × Occurrence × List Occurrence) := do
  let rows ← reorderRows col rows
  let (occ, restOccs) ← pickN col occs
  return (rows, occ, restOccs)

/-- The refutable head of a row in column 0. -/
def refutableHead (r : Row Ident Expr) : Option Refutable :=
  match r.pats with
  | p :: _ =>
    match headOf p with
    | .refutable h => some h
    | _ => none
  | [] => none

def refutableGroup (rows : List (Row Ident Expr)) : HeadSet :=
  rows.foldl (fun acc row =>
    match refutableHead row with
    | some h => HeadSet.add h acc
    | none => acc) .empty

def defaultRows (rows : List (Row Ident Expr)) : List (Row Ident Expr) :=
  rows.filter fun r =>
    match r.pats with
    | p :: _ => isDefaultPattern p
    | [] => false

def testOf (occ : Occurrence) : Refutable → PatternTest
  | .constant c => .constant c
  | .variant tag payload => .constructor tag payload (match payload with
    | .none => none
    | .one => some (.payload occ))

/-- The matrix below the case of a head. -/
def specialize (occs : List Occurrence) (occ : Occurrence) (restOccs : List Occurrence)
    (rows : List (Row Ident Expr)) (h : Refutable) : CompileResult (Matrix Ident Expr) := do
  let (subOccs, rows') ← match h with
    | .constant c => do
      let rows' ← specializeConstant occs c rows
      pure ([], rows')
    | .variant tag payload => specializeVariant occs occ tag payload rows
  return ⟨subOccs ++ restOccs, rows'⟩

def bindVars (pats : List (Pattern Ident)) (occs : List Occurrence) :
    CompileResult (ActionBinds Ident) :=
  if pats.length = occs.length then
    .ok ((pats.zip occs).foldl (fun acc po => recordBind po.1 po.2 acc) [])
  else .error (.invalidArgument "List.combine")

variable (Ident Expr) in
/-- What one call of `compile` makes of its matrix, before the recursive calls. -/
inductive Split where
  | fail
  | leaf (binds : ActionBinds Ident) (body : Expr)
  | guard (binds : ActionBinds Ident) (condition body : Expr) (rest : Matrix Ident Expr)
  | switch (occ : Occurrence) (cases : List (PatternTest × Matrix Ident Expr))
      (default : Matrix Ident Expr)
  | expand (m : Matrix Ident Expr)

def splitRefutable (m : Matrix Ident Expr) (rows : List (Row Ident Expr)) (occ : Occurrence)
    (restOccs : List Occurrence) : CompileResult (Split Ident Expr) := do
  let cases ← (refutableGroup rows).fold (fun h acc => do
    let cases ← acc
    let m' ← specialize m.occs occ restOccs rows h
    return (testOf occ h, m') :: cases) (.ok [])
  let default ← (defaultRows rows).mapM (stripHead m.occs)
  return .switch occ cases ⟨restOccs, default⟩

def splitIrrefutable (m : Matrix Ident Expr) (rows : List (Row Ident Expr)) (occ : Occurrence)
    (restOccs : List Occurrence) : CompileResult (Split Ident Expr) := do
  let first ← hd rows
  match first.pats with
  | p :: _ =>
    match headOf p with
    | .unit => do
      let rows' ← specializeUnit m.occs rows
      return .expand ⟨restOccs, rows'⟩
    | .tuple n => do
      let (subOccs, rows') ← specializeTuple m.occs occ n rows
      return .expand ⟨subOccs ++ restOccs, rows'⟩
    | .record _ => do
      let (subOccs, rows') ← specializeRecord m.occs occ rows
      return .expand ⟨subOccs ++ restOccs, rows'⟩
    | _ => .error (.patternError "unreachable irrefutable split")
  | [] => .error (.patternError "unreachable empty row")

def split (m : Matrix Ident Expr) : CompileResult (Split Ident Expr) :=
  match m.rows with
  | [] => .ok .fail
  | r :: rest =>
    if r.pats.all isDefaultPattern then do
      let vars ← bindVars r.pats m.occs
      let binds := vars ++ r.binds
      match r.guard with
      | none => return .leaf binds r.body
      | some g => return .guard binds g r.body ⟨m.occs, rest⟩
    else do
      let col ← chooseColumn m.rows
      let (rows, occ, restOccs) ← swapI col m.rows m.occs
      if 0 < (refutableGroup rows).cardinal then splitRefutable m rows occ restOccs
      else splitIrrefutable m rows occ restOccs

/-- The recursion of the source is not on the syntax; `fuel` bounds its depth. -/
def compile : Nat → Matrix Ident Expr → CompileResult (DecisionTree Ident Expr)
  | 0, _ => .error .outOfFuel
  | fuel + 1, m => do
    match ← split m with
    | .fail => return .fail
    | .leaf binds body => return .leaf binds body
    | .guard binds condition body rest => do
      let onFail ← compile fuel rest
      return .guard binds condition (.leaf binds body) onFail
    | .switch occ cases default => do
      let cases' ← cases.mapM fun c => do
        let tree ← compile fuel c.2
        return (c.1, tree)
      let default' ← compile fuel default
      return .switch occ cases' default'
    | .expand m' => compile fuel m'

mutual

/-- The tests that a pattern can ask for. -/
def Pattern.size : Pattern Ident → Nat
  | .any | .ident _ => 0
  | .constant _ => 1
  | .tuple elements => 1 + Pattern.sizeList elements
  | .record fields => 1 + Pattern.sizeFields fields
  | .constructor _ pattern => 1 + Pattern.sizeOption pattern

def Pattern.sizeList : List (Pattern Ident) → Nat
  | [] => 0
  | p :: ps => p.size + Pattern.sizeList ps

def Pattern.sizeFields : List (Nat × Option (Pattern Ident)) → Nat
  | [] => 0
  | f :: fs => Pattern.sizeField f + Pattern.sizeFields fs

def Pattern.sizeField : Nat × Option (Pattern Ident) → Nat
  | (_, p) => Pattern.sizeOption p

def Pattern.sizeOption : Option (Pattern Ident) → Nat
  | none => 0
  | some p => p.size

end

def Row.size (r : Row Ident Expr) : Nat := 1 + Pattern.sizeList r.pats

/-- Each recursive call of `compile` has a smaller matrix. -/
def Matrix.size (m : Matrix Ident Expr) : Nat := (m.rows.map Row.size).sum

variable (Ident Expr) in
structure PatternCase where
  pattern : Pattern Ident
  whenCondition : Option Expr
  body : Expr

def matrixOf (cases : List (PatternCase Ident Expr)) : Matrix Ident Expr where
  occs := [.scrutinee]
  rows := cases.map fun c => { pats := [c.pattern], guard := c.whenCondition, body := c.body }

def compileMatch (cases : List (PatternCase Ident Expr)) :
    CompileResult (DecisionTree Ident Expr) :=
  compile ((matrixOf cases).size + 1) (matrixOf cases)

end Syli.Compiler.PatternMatching
