import Syli.Compiler.ParsedAst
import Syli.Foundation.AssocMap

/-! `alpha_renaming.ml`, with the traversal of `ast_transformer_acc.ml`. -/
namespace Syli.Compiler.Alpha

open Foundation

/-- A name as the parser builds it: an identifier, or an operator between parentheses. -/
structure SourceName where
  text : String
  unnumbered : '#' ∉ text.toList ∨ text.toList.getLast? = some ')'
deriving DecidableEq

/-- `RenameEnv.t` -/
abbrev RenameEnv := AssocMap SourceName String

namespace RenameEnv

def lookup (env : RenameEnv) (x : SourceName) : String := (env.findOpt x).getD x.text

/-- `base ^ "#" ^ string_of_int counter` -/
def freshName (base : SourceName) (counter : Nat) : String :=
  base.text ++ "#" ++ toString counter

end RenameEnv

open RenameEnv

mutual

def transformTy : Ty → Ty
  | .constant info c => .constant info c
  | .var info name => .var info name
  | .any info => .any info
  | .array info inner => .array info (transformTy inner)
  | .tuple info tys => .tuple info (transformTys tys)
  | .arrow info param ret => .arrow info (transformTy param) (transformTy ret)
  | .defined info name args => .defined info name (transformTys args)

def transformTys : List Ty → List Ty
  | [] => []
  | ty :: tys => transformTy ty :: transformTys tys

end

def transformFields (fields : List RecordFieldDecl) : List RecordFieldDecl :=
  fields.map fun f => { f with fieldTy := transformTy f.fieldTy }

def transformConstructorArg : VariantConstructorArg → VariantConstructorArg
  | .ty t => .ty (transformTy t)
  | .record fields => .record (transformFields fields)

def transformTydef : TydefDesc → TydefDesc
  | .alias t => .alias (transformTy t)
  | .record fields => .record (transformFields fields)
  | .variant ctors =>
    .variant (ctors.map fun c => { c with arg := c.arg.map transformConstructorArg })
  | .abstract => .abstract

def transformTyDecl (td : TyDecl) : TyDecl := { td with defn := transformTydef td.defn }

mutual

def transformSignatureItem : SignatureItem → SignatureItem
  | .value info name ty => .value info name (transformTy ty)
  | .external info fname ty externalFn => .external info fname (transformTy ty) externalFn
  | .type info td => .type info (transformTyDecl td)
  | .moduleSignature info sigInfo name items =>
    .moduleSignature info sigInfo name (transformSignatureItems items)

def transformSignatureItems : List SignatureItem → List SignatureItem
  | [] => []
  | s :: items => transformSignatureItem s :: transformSignatureItems items

end

/-- What a step of the traversal returns: the accumulator, the counter, and the new node. -/
structure Renamed (α : Type) where
  env : RenameEnv
  counter : Nat
  node : α

mutual

/-- The counter is the last number that `fresh_var` used. -/
def bindPattern (env : RenameEnv) (counter : Nat) : Pattern SourceName → Renamed (Pattern String)
  | .literal info l => ⟨env, counter, .literal info l⟩
  | .any info => ⟨env, counter, .any info⟩
  | .ident info x =>
    let name' := freshName x.name (counter + 1)
    ⟨env.add x.name name', counter + 1, .ident info ⟨name', x.info⟩⟩
  | .compound info form elements =>
    let r := bindPatterns env counter elements
    ⟨r.env, r.counter, .compound info form r.node⟩

def bindPatterns (env : RenameEnv) (counter : Nat) :
    List (Pattern SourceName) → Renamed (List (Pattern String))
  | [] => ⟨env, counter, []⟩
  | p :: ps =>
    let r := bindPattern env counter p
    let rs := bindPatterns r.env r.counter ps
    ⟨rs.env, rs.counter, r.node :: rs.node⟩

end

def renameParams (env : RenameEnv) (counter : Nat) :
    List (Param SourceName) → Renamed (List (Param String))
  | [] => ⟨env, counter, []⟩
  | p :: ps =>
    let r := bindPattern env counter p.pattern
    let rs := renameParams r.env r.counter ps
    ⟨rs.env, rs.counter, ⟨r.node, p.paramTy, p.loc⟩ :: rs.node⟩

mutual

def renameExpr (env : RenameEnv) (counter : Nat) : Expr SourceName → Renamed (Expr String)
  | .ident info x => ⟨env, counter, .ident info ⟨lookup env x.name, x.info⟩⟩
  | .lambda info params body retTy loc =>
    let ps := renameParams env counter params
    let b := renameExpr ps.env ps.counter body
    ⟨env, b.counter, .lambda info ps.node b.node retTy loc⟩
  | .letIn info header pattern value =>
    let v := renameExpr env counter value
    let p := bindPattern env v.counter pattern
    ⟨p.env, p.counter, .letIn info header p.node v.node⟩
  | .matchWith info scrutinee cases =>
    let s := renameExpr env counter scrutinee
    let cs := renameCases env s.counter cases
    ⟨env, cs.counter, .matchWith info s.node cs.node⟩
  -- `default_expr`: what one operand leaves in the accumulator is there in the next one.
  | .form info f operands =>
    let es := renameExprs env counter operands
    ⟨es.env, es.counter, .form info f es.node⟩

def renameExprs (env : RenameEnv) (counter : Nat) :
    List (Expr SourceName) → Renamed (List (Expr String))
  | [] => ⟨env, counter, []⟩
  | e :: es =>
    let r := renameExpr env counter e
    let rs := renameExprs r.env r.counter es
    ⟨rs.env, rs.counter, r.node :: rs.node⟩

def renameCases (env : RenameEnv) (counter : Nat) :
    List (Case SourceName) → Renamed (List (Case String))
  | [] => ⟨env, counter, []⟩
  | .mk info pattern none body :: cases =>
    let p := bindPattern env counter pattern
    let b := renameExpr p.env p.counter body
    let cs := renameCases env b.counter cases
    ⟨env, cs.counter, .mk info p.node none b.node :: cs.node⟩
  | .mk info pattern (some guard) body :: cases =>
    let p := bindPattern env counter pattern
    let w := renameExpr p.env p.counter guard
    let b := renameExpr p.env w.counter body
    let cs := renameCases env b.counter cases
    ⟨env, cs.counter, .mk info p.node (some w.node) b.node :: cs.node⟩

end

def renameItems (env : RenameEnv) (counter : Nat) :
    Structure SourceName → Renamed (Structure String)
  | .nil => ⟨env, counter, .nil⟩
  | .letDef info header pattern value rest =>
    let v := renameExpr env counter value
    let p := bindPattern env v.counter pattern
    let r := renameItems p.env p.counter rest
    ⟨r.env, r.counter, .letDef info header p.node v.node r.node⟩
  -- The name of an external is left as it is, and is not entered in the environment.
  | .external info fname ty externalFn rest =>
    let r := renameItems env counter rest
    ⟨r.env, r.counter,
      .external info ⟨fname.name.text, fname.info⟩ (transformTy ty) externalFn r.node⟩
  | .type info td rest =>
    let r := renameItems env counter rest
    ⟨r.env, r.counter, .type info (transformTyDecl td) r.node⟩
  | .moduleStructure info strInfo name items rest =>
    let m := renameItems env counter items
    let r := renameItems m.env m.counter rest
    ⟨r.env, r.counter, .moduleStructure info strInfo name m.node r.node⟩
  | .moduleSignature info sigInfo name sigItems rest =>
    let r := renameItems env counter rest
    ⟨r.env, r.counter,
      .moduleSignature info sigInfo name (transformSignatureItems sigItems) r.node⟩

/-- The counter outlives a run: it is at any number when the run starts. -/
def run (counter : Nat) (prog : Structure SourceName) : Renamed (Structure String) :=
  renameItems [] counter prog

mutual

@[simp] theorem transformTy_eq (ty : Ty) : transformTy ty = ty := by
  cases ty with
  | constant | var | any => rfl
  | array info inner => rw [transformTy, transformTy_eq inner]
  | tuple info tys => rw [transformTy, transformTys_eq tys]
  | arrow info param ret => rw [transformTy, transformTy_eq param, transformTy_eq ret]
  | defined info name args => rw [transformTy, transformTys_eq args]

@[simp] theorem transformTys_eq (tys : List Ty) : transformTys tys = tys := by
  cases tys with
  | nil => rfl
  | cons ty tys => rw [transformTys, transformTy_eq ty, transformTys_eq tys]

end

@[simp] theorem transformFields_eq (fields : List RecordFieldDecl) :
    transformFields fields = fields := by
  simp [transformFields]

@[simp] theorem transformConstructorArg_eq (arg : VariantConstructorArg) :
    transformConstructorArg arg = arg := by
  cases arg with
  | ty t => rw [transformConstructorArg, transformTy_eq]
  | record fields => rw [transformConstructorArg, transformFields_eq]

@[simp] theorem transformTyDecl_eq (td : TyDecl) : transformTyDecl td = td := by
  cases td with
  | mk info name params defn annotations =>
    match defn with
    | .alias _ | .record _ | .abstract => simp [transformTyDecl, transformTydef]
    | .variant ctors =>
      have harg : ∀ arg : Option VariantConstructorArg, arg.map transformConstructorArg = arg := by
        intro arg
        cases arg <;> simp
      simp [transformTyDecl, transformTydef, harg]

mutual

@[simp] theorem transformSignatureItem_eq (s : SignatureItem) : transformSignatureItem s = s := by
  cases s with
  | value | external | type => simp [transformSignatureItem]
  | moduleSignature info sigInfo name items =>
    rw [transformSignatureItem, transformSignatureItems_eq items]

@[simp] theorem transformSignatureItems_eq (items : List SignatureItem) :
    transformSignatureItems items = items := by
  cases items with
  | nil => rfl
  | cons s items =>
    rw [transformSignatureItems, transformSignatureItem_eq s, transformSignatureItems_eq items]

end

end Syli.Compiler.Alpha
