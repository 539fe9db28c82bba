import Syli.Compiler.AlphaRenaming

/-! Lexical scoping of the parsed program, and the renamings that preserve it. -/
namespace Syli.Compiler.Alpha

open Foundation

/-- The patterns of a program bind names in the order of the traversal: a let evaluates its value
before it binds. The externals are counted on their own. -/
inductive Binder where
  | local (k : Nat)
  | external (j : Nat)
deriving DecidableEq, Repr

/-- A name of the program: its binder, or the text of a free name. -/
inductive Reference where
  | bound (b : Binder)
  | free (text : String)
deriving DecidableEq, Repr

/-- The binders that are visible at a point of the program, the innermost first. -/
abbrev Scope (ν : Type) := AssocMap ν Binder

variable {ν : Type}

/-- The binders of the names, of which the first one has number `k`. -/
def entries (k : Nat) : List ν → Scope ν
  | [] => []
  | x :: xs => entries (k + 1) xs ++ [(x, .local k)]

mutual

/-- A field of a record pattern without a pattern of its own binds nothing. -/
def Pattern.binders : Pattern ν → List ν
  | .literal _ _ | .any _ => []
  | .ident _ x => [x.name]
  | .compound _ _ elements => patternsBinders elements

def patternsBinders : List (Pattern ν) → List ν
  | [] => []
  | p :: ps => p.binders ++ patternsBinders ps

end

def paramsBinders : List (Param ν) → List ν
  | [] => []
  | p :: ps => p.pattern.binders ++ paramsBinders ps

mutual

def Expr.binders : Expr ν → List ν
  | .ident _ _ => []
  | .lambda _ params body _ _ => paramsBinders params ++ body.binders
  | .letIn _ _ pattern value => value.binders ++ pattern.binders
  | .matchWith _ scrutinee cases => scrutinee.binders ++ casesBinders cases
  | .form _ _ operands => exprsBinders operands

def exprsBinders : List (Expr ν) → List ν
  | [] => []
  | e :: es => e.binders ++ exprsBinders es

def casesBinders : List (Case ν) → List ν
  | [] => []
  | .mk _ pattern none body :: cases => pattern.binders ++ body.binders ++ casesBinders cases
  | .mk _ pattern (some guard) body :: cases =>
    pattern.binders ++ guard.binders ++ body.binders ++ casesBinders cases

end

/-- The names that the patterns of the items bind. -/
def Structure.binders : Structure ν → List ν
  | .nil => []
  | .letDef _ _ pattern value rest => value.binders ++ pattern.binders ++ rest.binders
  | .external _ _ _ _ rest | .type _ _ rest | .moduleSignature _ _ _ _ rest => rest.binders
  | .moduleStructure _ _ _ items rest => items.binders ++ rest.binders

def Structure.externals : Structure ν → List ν
  | .nil => []
  | .external _ fname _ _ rest => fname.name :: rest.externals
  | .letDef _ _ _ _ rest | .type _ _ rest | .moduleSignature _ _ _ _ rest => rest.externals
  | .moduleStructure _ _ _ items rest => items.externals ++ rest.externals

/-- Only a tuple and a sequence evaluate an operand in the scope of those before it. -/
def Form.sequential : Form → Bool
  | .tuple | .seq => true
  | _ => false

mutual

/-- The binders of an expression that are visible behind it. -/
def Expr.exports (k : Nat) : Expr ν → Scope ν
  | .letIn _ _ pattern value => entries (k + value.binders.length) pattern.binders
  | .form _ f operands => if f.sequential then exprsExports k operands else []
  | _ => []

def exprsExports (k : Nat) : List (Expr ν) → Scope ν
  | [] => []
  | e :: es => exprsExports (k + e.binders.length) es ++ e.exports k

end

variable [DecidableEq ν]

def Scope.reference (text : ν → String) (scope : Scope ν) (x : ν) : Reference :=
  match scope.findOpt x with
  | some b => .bound b
  | none => .free (text x)

mutual

def Pattern.nameless (k : Nat) : Pattern ν → Pattern Reference
  | .literal info l => .literal info l
  | .any info => .any info
  | .ident info x => .ident info ⟨.bound (.local k), x.info⟩
  | .compound info form elements => .compound info form (patternsNameless k elements)

def patternsNameless (k : Nat) : List (Pattern ν) → List (Pattern Reference)
  | [] => []
  | p :: ps => p.nameless k :: patternsNameless (k + p.binders.length) ps

end

def paramsNameless (k : Nat) : List (Param ν) → List (Param Reference)
  | [] => []
  | p :: ps =>
    ⟨p.pattern.nameless k, p.paramTy, p.loc⟩ :: paramsNameless (k + p.pattern.binders.length) ps

mutual

/-- The expression with each name replaced by what it refers to. -/
def Expr.nameless (text : ν → String) (k : Nat) (scope : Scope ν) : Expr ν → Expr Reference
  | .ident info x => .ident info ⟨scope.reference text x.name, x.info⟩
  | .lambda info params body retTy loc =>
    let m := k + (paramsBinders params).length
    .lambda info (paramsNameless k params)
      (body.nameless text m (entries k (paramsBinders params) ++ scope)) retTy loc
  | .letIn info header pattern value =>
    let m := k + value.binders.length
    .letIn info header (pattern.nameless m)
      (value.nameless text k (if header.isRec then entries m pattern.binders ++ scope else scope))
  | .matchWith info scrutinee cases =>
    .matchWith info (scrutinee.nameless text k scope)
      (casesNameless text (k + scrutinee.binders.length) scope cases)
  | .form info f operands => .form info f (exprsNameless text f.sequential k scope operands)

def exprsNameless (text : ν → String) (sequential : Bool) (k : Nat) (scope : Scope ν) :
    List (Expr ν) → List (Expr Reference)
  | [] => []
  | e :: es =>
    e.nameless text k scope :: exprsNameless text sequential (k + e.binders.length)
      (if sequential then e.exports k ++ scope else scope) es

def casesNameless (text : ν → String) (k : Nat) (scope : Scope ν) :
    List (Case ν) → List (Case Reference)
  | [] => []
  | .mk info pattern none body :: cases =>
    let m := k + pattern.binders.length
    .mk info (pattern.nameless k) none
        (body.nameless text m (entries k pattern.binders ++ scope)) ::
      casesNameless text (m + body.binders.length) scope cases
  | .mk info pattern (some guard) body :: cases =>
    let m := k + pattern.binders.length
    let inner := entries k pattern.binders ++ scope
    .mk info (pattern.nameless k) (some (guard.nameless text m inner))
        (body.nameless text (m + guard.binders.length) inner) ::
      casesNameless text (m + guard.binders.length + body.binders.length) scope cases

end

/-- A nested module sees what is above it, and what is below it does not see its names. -/
def Structure.nameless (text : ν → String) (k j : Nat) (scope : Scope ν) :
    Structure ν → Structure Reference
  | .nil => .nil
  | .letDef info header pattern value rest =>
    let m := k + value.binders.length
    let inner := entries m pattern.binders ++ scope
    .letDef info header (pattern.nameless m)
      (value.nameless text k (if header.isRec then inner else scope))
      (rest.nameless text (m + pattern.binders.length) j inner)
  | .external info fname ty externalFn rest =>
    .external info ⟨.bound (.external j), fname.info⟩ ty externalFn
      (rest.nameless text k (j + 1) (scope.add fname.name (.external j)))
  | .type info td rest => .type info td (rest.nameless text k j scope)
  | .moduleStructure info strInfo name items rest =>
    .moduleStructure info strInfo name (items.nameless text k j scope)
      (rest.nameless text (k + items.binders.length) (j + items.externals.length) scope)
  | .moduleSignature info sigInfo name sigItems rest =>
    .moduleSignature info sigInfo name sigItems (rest.nameless text k j scope)

/-- Each name of the new program refers to the binder that stands where its binder stood, or is the
same free name; all binders have names of their own, and nothing else differs. -/
structure PreservesBinding (prog : Structure SourceName) (prog' : Structure String) : Prop where
  nameless : prog'.nameless id 0 0 [] = prog.nameless SourceName.text 0 0 []
  distinct : (prog'.binders ++ prog'.externals).Nodup

mutual

/-- The names that an expression leaves in the accumulator of the traversal. -/
def Expr.leaves : Expr ν → List ν
  | .letIn _ _ pattern _ => pattern.binders
  | .form _ _ operands => exprsLeaves operands
  | _ => []

def exprsLeaves : List (Expr ν) → List ν
  | [] => []
  | e :: es => e.leaves ++ exprsLeaves es

end

def without (stray : List ν) (names : List ν) : List ν := stray.filter (· ∉ names)

mutual

/-- The stray names behind an expression: those for which the accumulator of the traversal does
not hold the innermost visible binder. -/
def Expr.strayAfter (stray : List ν) : Expr ν → List ν
  | .letIn _ _ pattern _ => without stray pattern.binders
  | .form _ f operands => exprsStrayAfter f.sequential stray operands
  | _ => stray

def exprsStrayAfter (sequential : Bool) (stray : List ν) : List (Expr ν) → List ν
  | [] => stray
  | e :: es =>
    exprsStrayAfter sequential (if sequential then e.strayAfter stray else e.leaves ++ stray) es

end

mutual

/-- No identifier of the expression is stray where it stands. -/
def Expr.Clear (stray : List ν) : Expr ν → Prop
  | .ident _ x => x.name ∉ stray
  | .lambda _ params body _ _ => body.Clear (without stray (paramsBinders params))
  | .letIn _ header pattern value =>
    value.Clear (if header.isRec then pattern.binders ++ stray else stray)
  | .matchWith _ scrutinee cases => scrutinee.Clear stray ∧ casesClear stray cases
  | .form _ f operands => exprsClear f.sequential stray operands

def exprsClear (sequential : Bool) (stray : List ν) : List (Expr ν) → Prop
  | [] => True
  | e :: es => e.Clear stray ∧
    exprsClear sequential (if sequential then e.strayAfter stray else e.leaves ++ stray) es

def casesClear (stray : List ν) : List (Case ν) → Prop
  | [] => True
  | .mk _ pattern none body :: cases =>
    body.Clear (without stray pattern.binders) ∧ casesClear stray cases
  | .mk _ pattern (some guard) body :: cases =>
    guard.Clear (without stray pattern.binders) ∧ body.Clear (without stray pattern.binders) ∧
      casesClear stray cases

end

mutual

def Expr.decideClear (stray : List ν) : (e : Expr ν) → Decidable (e.Clear stray)
  | .ident _ x => inferInstanceAs (Decidable (x.name ∉ stray))
  | .lambda _ params body _ _ => body.decideClear (without stray (paramsBinders params))
  | .letIn _ header pattern value =>
    value.decideClear (if header.isRec then pattern.binders ++ stray else stray)
  | .matchWith _ scrutinee cases =>
    have := scrutinee.decideClear stray
    have := decideCasesClear stray cases
    inferInstanceAs (Decidable (scrutinee.Clear stray ∧ casesClear stray cases))
  | .form _ f operands => decideExprsClear f.sequential stray operands

def decideExprsClear (sequential : Bool) (stray : List ν) :
    (es : List (Expr ν)) → Decidable (exprsClear sequential stray es)
  | [] => isTrue trivial
  | e :: es =>
    have := e.decideClear stray
    have := decideExprsClear sequential
      (if sequential then e.strayAfter stray else e.leaves ++ stray) es
    inferInstanceAs (Decidable (_ ∧ _))

def decideCasesClear (stray : List ν) : (cases : List (Case ν)) → Decidable (casesClear stray cases)
  | [] => isTrue trivial
  | .mk _ pattern none body :: cases =>
    have := body.decideClear (without stray pattern.binders)
    have := decideCasesClear stray cases
    inferInstanceAs (Decidable (_ ∧ _))
  | .mk _ pattern (some guard) body :: cases =>
    have := guard.decideClear (without stray pattern.binders)
    have := body.decideClear (without stray pattern.binders)
    have := decideCasesClear stray cases
    inferInstanceAs (Decidable (_ ∧ _ ∧ _))

end

/-- The names that the items leave in the accumulator, those of nested modules too. -/
def Structure.leaves : Structure ν → List ν
  | .nil => []
  | .letDef _ _ pattern _ rest => pattern.binders ++ rest.leaves
  | .external _ _ _ _ rest | .type _ _ rest | .moduleSignature _ _ _ _ rest => rest.leaves
  | .moduleStructure _ _ _ items rest => items.leaves ++ rest.leaves

/-- An external is stray when a let above it left its name in the accumulator. -/
def Structure.Clear (left stray : List ν) : Structure ν → Prop
  | .nil => True
  | .letDef _ header pattern value rest =>
    value.Clear (if header.isRec then pattern.binders ++ stray else stray) ∧
      rest.Clear (pattern.binders ++ left) (without stray pattern.binders)
  | .external _ fname _ _ rest =>
    rest.Clear left (if fname.name ∈ left then fname.name :: stray else without stray [fname.name])
  | .type _ _ rest | .moduleSignature _ _ _ _ rest => rest.Clear left stray
  | .moduleStructure _ _ _ items rest =>
    items.Clear left stray ∧ rest.Clear (items.leaves ++ left) (items.leaves ++ stray)

instance Structure.decideClear : (left stray : List ν) → (items : Structure ν) →
    Decidable (items.Clear left stray)
  | _, _, .nil => isTrue trivial
  | left, stray, .letDef _ header pattern value rest =>
    have := value.decideClear (if header.isRec then pattern.binders ++ stray else stray)
    have := Structure.decideClear (pattern.binders ++ left) (without stray pattern.binders) rest
    inferInstanceAs (Decidable (_ ∧ _))
  | left, stray, .external _ fname _ _ rest => Structure.decideClear left
      (if fname.name ∈ left then fname.name :: stray else without stray [fname.name]) rest
  | left, stray, .type _ _ rest => Structure.decideClear left stray rest
  | left, stray, .moduleSignature _ _ _ _ rest => Structure.decideClear left stray rest
  | left, stray, .moduleStructure _ _ _ items rest =>
    have := Structure.decideClear left stray items
    have := Structure.decideClear (items.leaves ++ left) (items.leaves ++ stray) rest
    inferInstanceAs (Decidable (_ ∧ _))

end Syli.Compiler.Alpha
