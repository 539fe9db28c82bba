import Syli.Compiler.HeapInvariant

/-! The references between the type declarations, and which of them the lowering cuts. -/
namespace Syli.Compiler

open Foundation Relation

/-- The declared types that a type mentions. -/
inductive Mentions : CTy → String → Prop where
  | arg {arg ret : CTy} {key : String} : Mentions arg key → Mentions (.arrow arg ret) key
  | ret {arg ret : CTy} {key : String} : Mentions ret key → Mentions (.arrow arg ret) key
  | tuple {tys : List CTy} {t : CTy} {key : String} :
      t ∈ tys → Mentions t key → Mentions (.tuple tys) key
  | array {elem : CTy} {key : String} : Mentions elem key → Mentions (.array elem) key
  | defined {name : String} {args : List CTy} :
      Mentions (.defined name args) (materializedName name args)

/-- The types that the body of a declaration is made of. -/
def TyDeclDesc.parts : TyDeclDesc → List CTy
  | .alias t => [t]
  | .variant ctors => ctors.flatMap fun c => (ctorFields c.arg).map (·.1)
  | .record fields => fields.map (·.fieldTy)
  | .abstract => []

variable {typeDefs : StringMap TyDeclDesc} {k k' key name : String} {args : List CTy}
variable {t t' arg ret : CTy} {visited : List String} {n m : Nat}

section References

variable (typeDefs : StringMap TyDeclDesc)

def IsVariant (k : String) : Prop := ∃ ctors, typeDefs.findOpt k = some (.variant ctors)

def IsConcrete (k : String) : Prop := ∃ decl, typeDefs.findOpt k = some decl ∧ decl ≠ .abstract

/-- The declaration of `k` mentions `k'`. -/
def RefersTo (k k' : String) : Prop :=
  ∃ decl, typeDefs.findOpt k = some decl ∧ ∃ t ∈ decl.parts, Mentions t k'

/-- A reference from a record or an alias: it is not recorded on the path of the lowering. -/
def Inlines (k k' : String) : Prop := ¬ IsVariant typeDefs k ∧ RefersTo typeDefs k k'

/-- What the type refers to is declared, and every cycle of references passes through a variant. -/
def Lowerable (t : CTy) : Prop :=
  ∀ k, Reach (RefersTo typeDefs) (Mentions t) k →
    IsConcrete typeDefs k ∧ ¬ TransGen (Inlines typeDefs) k k

/-- The alias of that name stands for `t'`, whatever the arguments are. -/
def AliasStep (t t' : CTy) : Prop :=
  ∃ name args, t = .defined name args ∧ typeDefs.findOpt name = some (.alias t')

/-- The aliases that lead on from the type do not come back. -/
def Resolvable (t : CTy) : Prop :=
  ∀ t', ReflTransGen (AliasStep typeDefs) t t' → ¬ TransGen (AliasStep typeDefs) t' t'

end References

/-- The recursion of `resolve_alias` with a fuel for its depth. -/
def resolveAlias (typeDefs : StringMap TypeEntry) : Nat → CTy → Option CTy
  | 0, _ => none
  | n + 1, t =>
    match t with
    | .defined name _ =>
      match typeDefs.findOpt name with
      | some { decl := .alias inner, .. } => resolveAlias typeDefs n inner
      | _ => some t
    | _ => some t

/-- `ir` is the type with its declarations put in, but for the variants that occur within
themselves: `enclosing` are the variants around it. -/
inductive Expansion (typeDefs : StringMap TyDeclDesc) : List String → CTy → Cir.IrType → Prop where
  | constant {enclosing : List String} {c : ConstantTy} :
      Expansion typeDefs enclosing (.constant c) (.constant c)
  | var {enclosing : List String} {v : Nat} :
      Expansion typeDefs enclosing (.var v) (.genericTyp v)
  | arrow {enclosing : List String} {arg ret : CTy} {args : List Cir.IrType} {ir : Cir.IrType} :
      args.length = (getArgsTy (.arrow arg ret)).length →
      (∀ p ∈ (getArgsTy (.arrow arg ret)).zip args,
        isUnitCty p.1 = true → p.2 = .constant .int64) →
      (∀ p ∈ (getArgsTy (.arrow arg ret)).zip args,
        isUnitCty p.1 = false → Expansion typeDefs enclosing p.1 p.2) →
      Expansion typeDefs enclosing (getReturnTy (.arrow arg ret)) ir →
      Expansion typeDefs enclosing (.arrow arg ret) (.arrow args ir)
  | tuple {enclosing : List String} {tys : List CTy} {fields : List Cir.IrType}
      {prop : CyclicProp} :
      fields.length = tys.length →
      (∀ p ∈ tys.zip fields, Expansion typeDefs enclosing p.1 p.2) →
      Expansion typeDefs enclosing (.tuple tys) (.record none fields prop)
  | array {enclosing : List String} {elem : CTy} {element : Cir.IrType} {prop : CyclicProp} :
      Expansion typeDefs enclosing elem element →
      Expansion typeDefs enclosing (.array elem) (.array element prop)
  | unalias {enclosing : List String} {name : String} {args : List CTy} {inner : CTy}
      {ir : Cir.IrType} :
      typeDefs.findOpt (materializedName name args) = some (.alias inner) →
      Expansion typeDefs enclosing inner ir →
      Expansion typeDefs enclosing (.defined name args) ir
  | record {enclosing : List String} {name : String} {args : List CTy}
      {declFields : List RecordFieldTy} {fields : List Cir.IrType} {prop : CyclicProp} :
      typeDefs.findOpt (materializedName name args) = some (.record declFields) →
      fields.length = declFields.length →
      (∀ p ∈ declFields.zip fields, Expansion typeDefs enclosing p.1.fieldTy p.2) →
      Expansion typeDefs enclosing (.defined name args)
        (.record (some (materializedName name args)) fields prop)
  | tag {enclosing : List String} {name : String} {args : List CTy}
      {ctors : List ConstructorDecl} :
      typeDefs.findOpt (materializedName name args) = some (.variant ctors) →
      (∀ c ∈ ctors, c.arg = none) →
      Expansion typeDefs enclosing (.defined name args) (.constant .int64)
  | cut {enclosing : List String} {name : String} {args : List CTy}
      {ctors : List ConstructorDecl} :
      typeDefs.findOpt (materializedName name args) = some (.variant ctors) →
      materializedName name args ∈ enclosing →
      Expansion typeDefs enclosing (.defined name args) .objPtr
  | variant {enclosing : List String} {name : String} {args : List CTy}
      {ctors : List ConstructorDecl} {constructors : List (Nat × List Cir.IrType)}
      {prop : CyclicProp} :
      typeDefs.findOpt (materializedName name args) = some (.variant ctors) →
      materializedName name args ∉ enclosing →
      constructors.length = ctors.length →
      (∀ p ∈ ctors.zip constructors,
        p.2.1 = p.1.tag ∧ p.2.2.length = (ctorFields p.1.arg).length) →
      (∀ p ∈ ctors.zip constructors, ∀ q ∈ (ctorFields p.1.arg).zip p.2.2,
        Expansion typeDefs (materializedName name args :: enclosing) q.1.1 q.2) →
      Expansion typeDefs enclosing (.defined name args)
        (.variant (materializedName name args) constructors prop)

end Syli.Compiler
