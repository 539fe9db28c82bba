import Syli.Compiler.CoreNames
import Syli.Foundation.Runs

/-! `typed_ast.ml`, `core_ast.ml` and `lower_ast_to_core.ml`: the names of the desugared program. -/
namespace Syli.Compiler.Desugar

structure Ident where
  name : Name
  id : Nat

/-- A tuple, a record (its fields that have a pattern) and a constructor are `compound`. -/
inductive Pattern where
  | unit (id : Nat)
  | any (id : Nat)
  | literal
  | ident (x : Ident)
  | compound (elements : List Pattern)

inductive CorePattern where
  | unit
  | any
  | literal
  | ident (name : String)
  | compound (elements : List CorePattern)

/-- The forms that desugar each operand in their own environment. -/
inductive Op where
  | record
  | variantConstructor
  | arrayLit
  | arrayAlloc
  | apply
  | fieldSet
  | field
  | cond
  | loop
  | breakOut
  | continueLoop
  | returnOut
deriving DecidableEq, Repr

mutual

/-- The operands of an operation stand in the order in which they are evaluated: the fields of a
record from the last to the first. -/
inductive Expr where
  | constant
  | ident (x : Ident) (isUnit : Bool)
  | tuple (elements : List Expr)
  | operation (op : Op) (operands : List Expr)
  | whileLoop (condition body : Expr)
  | lambda (params : List Pattern) (body : Expr)
  | letIn (isRec : Bool) (pattern : Pattern) (value : Expr)
  | seq (exprs : List Expr)
  | matchWith (scrutinee : Expr) (cases : List Case)

inductive Case where
  | mk (pattern : Pattern) (whenCondition : Option Expr) (body : Expr)

end

namespace Expr

def record (values : List Expr) : Expr := .operation .record values

def variantConstructor (arg : Option Expr) : Expr := .operation .variantConstructor arg.toList

def arrayLit (elements : List Expr) : Expr := .operation .arrayLit elements

def arrayAlloc (size init : Expr) : Expr := .operation .arrayAlloc [init, size]

def apply (closureFun : Expr) (args : List Expr) : Expr := .operation .apply (args ++ [closureFun])

def fieldSet (record value : Expr) : Expr := .operation .fieldSet [record, value]

def field (record : Expr) : Expr := .operation .field [record]

def cond (condition thenBranch : Expr) (elseBranch : Option Expr) : Expr :=
  .operation .cond (elseBranch.toList ++ [thenBranch, condition])

def loop (expr : Expr) : Expr := .operation .loop [expr]

def breakOut (expr : Option Expr) : Expr := .operation .breakOut expr.toList

def continueLoop : Expr := .operation .continueLoop []

def returnOut (expr : Option Expr) : Expr := .operation .returnOut expr.toList

end Expr

mutual

inductive CoreExpr where
  | constant
  | ident (name : String)
  | tuple (elements : List CoreExpr)
  | operation (op : Op) (operands : List CoreExpr)
  | lambda (params : List String) (body : CoreExpr)
  | letIn (isRec : Bool) (name : String) (value : CoreExpr)
  | seq (exprs : List CoreExpr)
  | matchWith (scrutinee : CoreExpr) (cases : List CoreCase)

inductive CoreCase where
  | mk (pattern : CorePattern) (whenCondition : Option CoreExpr) (body : CoreExpr)

end

inductive DesugarError where
  | nameNotFound (name : Name)
  | lambdaParameter
  | letPattern
  | toplevelPattern

/-- `bind_subst`, the newest entry first -/
abbrev Subst := List (Name × String)

def qualifyName (subst : Subst) (name : Name) : Except DesugarError String :=
  match subst.lookup name with
  | some qname => .ok qname
  | none => .error (.nameNotFound name)

mutual

/-- The counter is the last number that `fresh_id` returned. -/
def desugarPattern (subst : Subst) (n : Nat) : Pattern → CorePattern × Subst × Nat
  | .unit _ => (.unit, subst, n)
  | .any _ => (.any, subst, n)
  | .literal => (.literal, subst, n)
  | .ident x =>
    (.ident (rename (n + 1) x.name), (x.name, rename (n + 1) x.name) :: subst, n + 1)
  | .compound elements =>
    let r := desugarPatterns subst n elements
    (.compound r.1, r.2)

def desugarPatterns (subst : Subst) (n : Nat) : List Pattern → List CorePattern × Subst × Nat
  | [] => ([], subst, n)
  | p :: ps =>
    let r := desugarPattern subst n p
    let rs := desugarPatterns r.2.1 r.2.2 ps
    (r.1 :: rs.1, rs.2)

end

def lambdaParam : Pattern → Except DesugarError (String × Option (Name × String))
  | .ident x => .ok (x.name.text, some (x.name, x.name.text))
  | .unit _ => .ok ("()", none)
  | .any _ => .ok ("_", none)
  | _ => .error .lambdaParameter

def desugarLambdaParams (subst : Subst) (params : List Pattern) :
    Except DesugarError (List String × Subst) := do
  let bound ← params.mapM lambdaParam
  return (bound.map Prod.fst, (bound.filterMap Prod.snd).reverse ++ subst)

def unitPat : Name := ⟨"unit_pat", by decide⟩

def anyPat : Name := ⟨"any_pat", by decide⟩

/-- The identifier under which a let is bound. -/
def letIdent (onError : DesugarError) : Pattern → Except DesugarError Ident
  | .ident x => .ok x
  | .unit id => .ok ⟨unitPat, id⟩
  | .any id => .ok ⟨anyPat, id⟩
  | _ => .error onError

mutual

def desugarExpr (subst : Subst) (n : Nat) : Expr → Except DesugarError (CoreExpr × Subst × Nat)
  | .constant => return (.constant, subst, n)
  | .ident x isUnit =>
    if isUnit then return (.constant, subst, n)
    else do
      let qname ← qualifyName subst x.name
      return (.ident qname, subst, n)
  | .tuple elements => do
    let r ← desugarSeq subst n elements
    return (.tuple r.1, r.2)
  | .operation op operands => do
    let r ← desugarOperands subst n operands
    return (.operation op r.1, subst, r.2)
  | .whileLoop condition body => do
    let b ← desugarExpr subst n body
    let c ← desugarExpr subst b.2.2 condition
    let thenBranch := .seq [b.1, .operation .continueLoop []]
    let elseBranch := .operation .breakOut []
    return (.operation .loop [.operation .cond [elseBranch, thenBranch, c.1]], subst, c.2.2)
  | .lambda params body => do
    let ps ← desugarLambdaParams subst params
    let b ← desugarExpr ps.2 n body
    return (.lambda ps.1 b.1, subst, b.2.2)
  | .letIn isRec pattern value => do
    let x ← letIdent .letPattern pattern
    let qname := rename (n + 1) x.name
    let inner := (x.name, qname) :: subst
    let v ← desugarExpr (if isRec then inner else subst) (n + 1) value
    return (.letIn isRec qname v.1, inner, v.2.2)
  | .seq exprs => do
    let r ← desugarSeq subst n exprs
    return (.seq r.1, r.2)
  | .matchWith scrutinee cases => do
    let s ← desugarExpr subst n scrutinee
    let cs ← desugarCases subst s.2.2 cases
    return (.matchWith s.1 cs.1, subst, cs.2)

def desugarSeq (subst : Subst) (n : Nat) :
    List Expr → Except DesugarError (List CoreExpr × Subst × Nat)
  | [] => return ([], subst, n)
  | e :: es => do
    let r ← desugarExpr subst n e
    let rs ← desugarSeq r.2.1 r.2.2 es
    return (r.1 :: rs.1, rs.2)

def desugarOperands (subst : Subst) (n : Nat) :
    List Expr → Except DesugarError (List CoreExpr × Nat)
  | [] => return ([], n)
  | e :: es => do
    let r ← desugarExpr subst n e
    let rs ← desugarOperands subst r.2.2 es
    return (r.1 :: rs.1, rs.2)

def desugarCases (subst : Subst) (n : Nat) :
    List Case → Except DesugarError (List CoreCase × Nat)
  | [] => return ([], n)
  | .mk pattern none body :: cases => do
    let p := desugarPattern subst n pattern
    let b ← desugarExpr p.2.1 p.2.2 body
    let cs ← desugarCases subst b.2.2 cases
    return (.mk p.1 none b.1 :: cs.1, cs.2)
  | .mk pattern (some guard) body :: cases => do
    let p := desugarPattern subst n pattern
    let b ← desugarExpr p.2.1 p.2.2 body
    let w ← desugarExpr p.2.1 b.2.2 guard
    let cs ← desugarCases subst w.2.2 cases
    return (.mk p.1 (some w.1) b.1 :: cs.1, cs.2)

end

/-- The items of a structure: the first one and those after it. -/
inductive Items where
  | nil
  | letDef (isRec : Bool) (pattern : Pattern) (value : Expr) (items : Items)
  | external (fname : Ident) (items : Items)
  | typeDecl (items : Items)
  | moduleStructure (name : Name) (inner : Items) (items : Items)
  | moduleSignature (items : Items)

inductive CoreItem where
  | letDef (isRec : Bool) (name : String) (value : CoreExpr)
  | external (fname : String)
  | typeDecl

/-- `root` is the first part of `current_path` and `path` the nested modules below it. -/
structure Env where
  root : String
  path : List Name
  bindSubst : Subst
  toplevelLastIds : List Nat

namespace Env

variable (env : Env)

def toplevelName (name : String) : String := env.root ++ "." ++ dotted env.path name

def toplevelRename (n : Nat) (x : Ident) : String × Nat :=
  if x.id ∈ env.toplevelLastIds then (env.toplevelName x.name.text, n)
  else (env.toplevelName (rename (n + 1) x.name), n + 1)

def add (name : Name) (qname : String) : Env :=
  { env with bindSubst := (name, qname) :: env.bindSubst }

def enter (name : Name) : Env := { env with path := env.path ++ [name] }

end Env

def desugarizeStructureItems (env : Env) (n : Nat) :
    Items → Except DesugarError (List CoreItem × Nat)
  | .nil => return ([], n)
  | .letDef isRec pattern value items => do
    let x ← letIdent .toplevelPattern pattern
    let q := env.toplevelRename n x
    let inner := env.add x.name q.1
    let v ← desugarExpr (if isRec then inner else env).bindSubst q.2 value
    let rest ← desugarizeStructureItems inner v.2.2 items
    return (.letDef isRec q.1 v.1 :: rest.1, rest.2)
  | .external fname items => do
    let q := env.toplevelRename n fname
    let rest ← desugarizeStructureItems (env.add fname.name q.1) q.2 items
    return (.external q.1 :: rest.1, rest.2)
  | .typeDecl items => do
    let rest ← desugarizeStructureItems env n items
    return (.typeDecl :: rest.1, rest.2)
  | .moduleStructure name inner items => do
    let r ← desugarizeStructureItems (env.enter name) n inner
    let rest ← desugarizeStructureItems env r.2 items
    return (r.1 ++ rest.1, rest.2)
  | .moduleSignature items => desugarizeStructureItems env n items

def computeToplevelLastIds : Items → List Nat
  | .nil => []
  | .letDef _ (.ident x) _ items => x.id :: computeToplevelLastIds items
  | .letDef _ _ _ items => computeToplevelLastIds items
  | .moduleStructure _ inner items =>
    computeToplevelLastIds inner ++ computeToplevelLastIds items
  | .external fname items => fname.id :: computeToplevelLastIds items
  | .typeDecl items => computeToplevelLastIds items
  | .moduleSignature items => computeToplevelLastIds items

structure Program where
  name : String
  items : Items

/-- The counter starts where the last program left it. -/
def desugarizeAst (n : Nat) (program : Program) : Except DesugarError (List CoreItem × Nat) :=
  desugarizeStructureItems
    { root := "syli" ++ program.name
      path := []
      bindSubst := []
      toplevelLastIds := computeToplevelLastIds program.items } n program.items

end Syli.Compiler.Desugar
