import Syli.Compiler.LowerAstToCore

/-! The binders in scope at each point of a desugared program, and the names they have there. -/
namespace Syli.Compiler.Desugar

/-- A binder of the program: the name that the user wrote (none for a unit or wildcard pattern), the
name in the desugared program, and whether it is a lambda parameter. -/
structure Binding where
  source : Option Name
  core : String
  param : Bool

/-- Names of two binders differ, unless the newer one is a parameter that shadows the older one. -/
def Binding.Distinct (b old : Binding) : Prop :=
  b.core ≠ old.core ∨ (b.param = true ∧ b.source = old.source)

/-- The binders around a point of the program, the innermost first. -/
abbrev Scope := List Binding

/-- Lexical scoping takes the innermost binder of the name. -/
def Scope.Resolves (scope : Scope) (x : Name) (qname : String) : Prop :=
  ∃ b, scope.find? (fun b => b.source = some x) = some b ∧ b.core = qname

def Pattern.source : Pattern → Option Name
  | .ident x => some x.name
  | _ => none

mutual

def Pattern.binds : Pattern → CorePattern → List Binding
  | .ident x, .ident q => [⟨some x.name, q, false⟩]
  | .compound ps, .compound cs => patternsBind ps cs
  | _, _ => []

def patternsBind : List Pattern → List CorePattern → List Binding
  | p :: ps, c :: cs => p.binds c ++ patternsBind ps cs
  | _, _ => []

end

def paramBinds : List Pattern → List String → List Binding
  | .ident x :: params, q :: names => ⟨some x.name, q, true⟩ :: paramBinds params names
  | _ :: params, _ :: names => paramBinds params names
  | _, _ => []

mutual

/-- The binders of an expression that what follows it in a sequence or a tuple can see. -/
def Expr.binds : Expr → CoreExpr → List Binding
  | .letIn _ p _, .letIn _ q _ => [⟨p.source, q, false⟩]
  | .tuple es, .tuple cs => exprsBind es cs
  | .seq es, .seq cs => exprsBind es cs
  | _, _ => []

def exprsBind : List Expr → List CoreExpr → List Binding
  | e :: es, c :: cs => e.binds c ++ exprsBind es cs
  | _, _ => []

end

mutual

/-- At every point of the expression the binders in scope have distinct names, and each identifier
has the name of its binder. -/
def Expr.Hygienic (scope : Scope) : Expr → CoreExpr → Prop
  | .constant, .constant => scope.Pairwise Binding.Distinct
  | .ident x isUnit, c => scope.Pairwise Binding.Distinct ∧
      if isUnit then c = .constant else ∃ q, c = .ident q ∧ scope.Resolves x.name q
  | .tuple es, .tuple cs => seqHygienic scope es cs
  | .operation op es, .operation op' cs => op = op' ∧ operandsHygienic scope es cs
  | .whileLoop condition body, .operation .loop [.operation .cond
      [.operation .breakOut [], .seq [b, .operation .continueLoop []], c]] =>
    body.Hygienic scope b ∧ condition.Hygienic scope c
  | .lambda params body, .lambda names b => params.length = names.length ∧
      body.Hygienic ((paramBinds params names).reverse ++ scope) b
  | .letIn isRec p value, .letIn isRec' q v => isRec = isRec' ∧
      value.Hygienic (if isRec then ⟨p.source, q, false⟩ :: scope else scope) v
  | .seq es, .seq cs => seqHygienic scope es cs
  | .matchWith scrutinee cases, .matchWith s cs =>
    scrutinee.Hygienic scope s ∧ casesHygienic scope cases cs
  | _, _ => False

def seqHygienic (scope : Scope) : List Expr → List CoreExpr → Prop
  | [], [] => scope.Pairwise Binding.Distinct
  | e :: es, c :: cs => e.Hygienic scope c ∧ seqHygienic ((e.binds c).reverse ++ scope) es cs
  | _, _ => False

def operandsHygienic (scope : Scope) : List Expr → List CoreExpr → Prop
  | [], [] => scope.Pairwise Binding.Distinct
  | e :: es, c :: cs => e.Hygienic scope c ∧ operandsHygienic scope es cs
  | _, _ => False

def casesHygienic (scope : Scope) : List Case → List CoreCase → Prop
  | [], [] => scope.Pairwise Binding.Distinct
  | .mk p none body :: cases, .mk p' none b :: cs =>
    body.Hygienic ((p.binds p').reverse ++ scope) b ∧ casesHygienic scope cases cs
  | .mk p (some guard) body :: cases, .mk p' (some w) b :: cs =>
    body.Hygienic ((p.binds p').reverse ++ scope) b ∧
      guard.Hygienic ((p.binds p').reverse ++ scope) w ∧ casesHygienic scope cases cs
  | _, _ => False

end

/-- The items of the desugared program that come from an item. -/
def itemsSize : Items → Nat
  | .nil => 0
  | .letDef _ _ _ items | .external _ items | .typeDecl items => itemsSize items + 1
  | .moduleStructure _ inner items => itemsSize inner + itemsSize items
  | .moduleSignature items => itemsSize items

/-- A nested module sees what is above it, and what is below it does not see its names. -/
def itemsHygienic (scope : Scope) : Items → List CoreItem → Prop
  | .nil, [] => scope.Pairwise Binding.Distinct
  | .letDef isRec p value items, .letDef isRec' q v :: cs => isRec = isRec' ∧
      value.Hygienic (if isRec then ⟨p.source, q, false⟩ :: scope else scope) v ∧
        itemsHygienic (⟨p.source, q, false⟩ :: scope) items cs
  | .external fname items, .external q :: cs =>
    itemsHygienic (⟨some fname.name, q, false⟩ :: scope) items cs
  | .typeDecl items, .typeDecl :: cs => itemsHygienic scope items cs
  | .moduleStructure _ inner items, cs =>
    itemsHygienic scope inner (cs.take (itemsSize inner)) ∧
      itemsHygienic scope items (cs.drop (itemsSize inner))
  | .moduleSignature items, cs => itemsHygienic scope items cs
  | _, _ => False

def CoreItem.name? : CoreItem → Option String
  | .letDef _ q _ => some q
  | .external q => some q
  | .typeDecl => none

/-- No two top-level bindings share a name, and at every point the names in scope are distinct and
each identifier has the name of its binder. -/
def Hygienic (items : Items) (core : List CoreItem) : Prop :=
  (core.filterMap CoreItem.name?).Nodup ∧ itemsHygienic [] items core

end Syli.Compiler.Desugar
