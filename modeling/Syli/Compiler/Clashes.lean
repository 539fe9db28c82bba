import Syli.Compiler.CoreScopes

/-! The spellings in a source program that can clash with the names that desugaring generates. -/
namespace Syli.Compiler.Desugar

/-- How desugaring names a binder: a parameter keeps its spelling, a local binder gets a number, and
a top-level one is qualified, with or without a number. -/
inductive Kind where
  | param
  | numbered (k : Nat)
  | toplevel (path : List Name) (number : Option Nat)
deriving DecidableEq

/-- `key` is the name under which `bind_subst` holds the binder, which the user wrote if it is
`named`. -/
structure Binder where
  key : Name
  named : Bool
  kind : Kind
  named_of_param : kind = .param → named = true := by simp

namespace Binder

def Apart (b old : Binder) : Prop :=
  match b.kind, old.kind with
  | .param, .numbered k => b.key.text ≠ rename k old.key
  | .numbered k, .param => rename k b.key ≠ old.key.text
  | .toplevel p none, .toplevel p' none => p = p' → b.key ≠ old.key
  | .toplevel p none, .toplevel p' (some k) => p = p' → b.key.text ≠ rename k old.key
  | .toplevel p (some k), .toplevel p' none => p = p' → rename k b.key ≠ old.key.text
  | _, _ => True

def qualified (root : String) (b : Binder) : String :=
  match b.kind with
  | .param => b.key.text
  | .numbered k => rename k b.key
  | .toplevel path none => root ++ "." ++ dotted path b.key.text
  | .toplevel path (some k) => root ++ "." ++ dotted path (rename k b.key)

def binding (root : String) (b : Binder) : Binding :=
  ⟨if b.named then some b.key else none, b.qualified root, decide (b.kind = .param)⟩

/-- The entry of `bind_subst`. -/
def entry (root : String) (b : Binder) : Name × String := (b.key, b.qualified root)

def number? (b : Binder) : Option Nat :=
  match b.kind with
  | .param => none
  | .numbered k => some k
  | .toplevel _ number => number

end Binder

/-- The name under which a let is bound. -/
def Pattern.key : Pattern → Name
  | .ident x => x.name
  | .unit _ => unitPat
  | _ => anyPat

def Pattern.named : Pattern → Bool
  | .ident _ => true
  | _ => false

def Pattern.id : Pattern → Nat
  | .ident x => x.id
  | .unit id | .any id => id
  | _ => 0

mutual

def Pattern.vars : Pattern → List Name
  | .ident x => [x.name]
  | .compound ps => patternsVars ps
  | _ => []

def patternsVars : List Pattern → List Name
  | [] => []
  | p :: ps => p.vars ++ patternsVars ps

end

/-- The binders of a list of variables when `n` numbers were drawn before. -/
def numberedBinders (n : Nat) : List Name → List Binder
  | [] => []
  | x :: xs => { key := x, named := true, kind := .numbered (n + 1) } :: numberedBinders (n + 1) xs

def paramBinder : Pattern → Option Binder
  | .ident x => some { key := x.name, named := true, kind := .param }
  | _ => none

mutual

/-- How many numbers the desugaring of an expression draws. -/
def Expr.draws : Expr → Nat
  | .constant => 0
  | .ident _ _ => 0
  | .tuple es => exprsDraws es
  | .operation _ es => exprsDraws es
  | .whileLoop condition body => body.draws + condition.draws
  | .lambda _ body => body.draws
  | .letIn _ _ value => 1 + value.draws
  | .seq es => exprsDraws es
  | .matchWith scrutinee cases => scrutinee.draws + casesDraws cases

def exprsDraws : List Expr → Nat
  | [] => 0
  | e :: es => e.draws + exprsDraws es

def casesDraws : List Case → Nat
  | [] => 0
  | .mk p none body :: cases => p.vars.length + body.draws + casesDraws cases
  | .mk p (some guard) body :: cases =>
    p.vars.length + body.draws + guard.draws + casesDraws cases

end

def letBinder (n : Nat) (p : Pattern) : Binder where
  key := p.key
  named := p.named
  kind := .numbered (n + 1)

mutual

def Expr.binders (n : Nat) : Expr → List Binder
  | .letIn _ p _ => [letBinder n p]
  | .tuple es => exprsBinders n es
  | .seq es => exprsBinders n es
  | _ => []

def exprsBinders (n : Nat) : List Expr → List Binder
  | [] => []
  | e :: es => e.binders n ++ exprsBinders (n + e.draws) es

end

/-- No wildcard or unit let stands between an identifier spelled like its internal name and the
identifier's binder. -/
def NotCaptured (scope : List Binder) (x : Name) : Prop :=
  ∀ b, scope.find? (fun b => b.key = x) = some b → b.named = true

mutual

def Expr.ClashFree (n : Nat) (scope : List Binder) : Expr → Prop
  | .constant => scope.Pairwise Binder.Apart
  | .ident x isUnit => scope.Pairwise Binder.Apart ∧ (isUnit = false → NotCaptured scope x.name)
  | .tuple es => seqClashFree n scope es
  | .operation _ es => operandsClashFree n scope es
  | .whileLoop condition body =>
    body.ClashFree n scope ∧ condition.ClashFree (n + body.draws) scope
  | .lambda params body => body.ClashFree n ((params.filterMap paramBinder).reverse ++ scope)
  | .letIn isRec p value =>
    value.ClashFree (n + 1) (if isRec then letBinder n p :: scope else scope)
  | .seq es => seqClashFree n scope es
  | .matchWith scrutinee cases =>
    scrutinee.ClashFree n scope ∧ casesClashFree (n + scrutinee.draws) scope cases

def seqClashFree (n : Nat) (scope : List Binder) : List Expr → Prop
  | [] => scope.Pairwise Binder.Apart
  | e :: es => e.ClashFree n scope ∧
      seqClashFree (n + e.draws) ((e.binders n).reverse ++ scope) es

def operandsClashFree (n : Nat) (scope : List Binder) : List Expr → Prop
  | [] => scope.Pairwise Binder.Apart
  | e :: es => e.ClashFree n scope ∧ operandsClashFree (n + e.draws) scope es

def casesClashFree (n : Nat) (scope : List Binder) : List Case → Prop
  | [] => scope.Pairwise Binder.Apart
  | .mk p none body :: cases =>
    body.ClashFree (n + p.vars.length) ((numberedBinders n p.vars).reverse ++ scope) ∧
      casesClashFree (n + p.vars.length + body.draws) scope cases
  | .mk p (some guard) body :: cases =>
    body.ClashFree (n + p.vars.length) ((numberedBinders n p.vars).reverse ++ scope) ∧
      guard.ClashFree (n + p.vars.length + body.draws)
        ((numberedBinders n p.vars).reverse ++ scope) ∧
      casesClashFree (n + p.vars.length + body.draws + guard.draws) scope cases

end

section Items

variable (ids : List Nat)

/-- The binder of a top-level name, and the number drawn last. -/
def toplevelBinder (path : List Name) (n : Nat) (key : Name) (named : Bool) (id : Nat) :
    Binder × Nat :=
  if id ∈ ids then ({ key, named, kind := .toplevel path none }, n)
  else ({ key, named, kind := .toplevel path (some (n + 1)) }, n + 1)

def itemsDraws (n : Nat) : Items → Nat
  | .nil => n
  | .letDef _ p value items =>
    itemsDraws ((toplevelBinder ids [] n p.key p.named p.id).2 + value.draws) items
  | .external fname items =>
    itemsDraws (toplevelBinder ids [] n fname.name true fname.id).2 items
  | .typeDecl items => itemsDraws n items
  | .moduleStructure _ inner items => itemsDraws (itemsDraws n inner) items
  | .moduleSignature items => itemsDraws n items

/-- The top-level binders of a program, those of nested modules included. -/
def toplevelBinders (path : List Name) (n : Nat) : Items → List Binder
  | .nil => []
  | .letDef _ p value items =>
    let b := toplevelBinder ids path n p.key p.named p.id
    b.1 :: toplevelBinders path (b.2 + value.draws) items
  | .external fname items =>
    let b := toplevelBinder ids path n fname.name true fname.id
    b.1 :: toplevelBinders path b.2 items
  | .typeDecl items => toplevelBinders path n items
  | .moduleStructure name inner items =>
    toplevelBinders (path ++ [name]) n inner ++
      toplevelBinders path (itemsDraws ids n inner) items
  | .moduleSignature items => toplevelBinders path n items

def itemsClashFree (path : List Name) (n : Nat) (scope : List Binder) : Items → Prop
  | .nil => scope.Pairwise Binder.Apart
  | .letDef isRec p value items =>
    let b := toplevelBinder ids path n p.key p.named p.id
    value.ClashFree b.2 (if isRec then b.1 :: scope else scope) ∧
      itemsClashFree path (b.2 + value.draws) (b.1 :: scope) items
  | .external fname items =>
    let b := toplevelBinder ids path n fname.name true fname.id
    itemsClashFree path b.2 (b.1 :: scope) items
  | .typeDecl items => itemsClashFree path n scope items
  | .moduleStructure name inner items =>
    itemsClashFree (path ++ [name]) n scope inner ∧
      itemsClashFree path (itemsDraws ids n inner) scope items
  | .moduleSignature items => itemsClashFree path n scope items

end Items

/-- The condition on a source program under which desugaring is hygienic. -/
def ClashFree (n : Nat) (items : Items) : Prop :=
  (toplevelBinders (computeToplevelLastIds items) [] n items).Pairwise Binder.Apart ∧
    itemsClashFree (computeToplevelLastIds items) [] n [] items

end Syli.Compiler.Desugar
