import Syli.Compiler.CoreAst

/-! `ast.ml`: the parsed program, over the type of the names of its variables. -/
namespace Syli.Compiler.Alpha

structure Location where
  startPos : Nat
  endPos : Nat
  filename : String

/-- The `id` and `loc` of a node. -/
structure Info where
  id : Nat
  loc : Location

/-- The parser leaves the path of an identifier empty. -/
structure Ident (ν : Type) where
  name : ν
  info : Info

inductive Ty where
  | var (info : Info) (name : String)
  | any (info : Info)
  | constant (info : Info) (c : ConstantTy)
  | arrow (info : Info) (param ret : Ty)
  | tuple (info : Info) (tys : List Ty)
  | array (info : Info) (inner : Ty)
  | defined (info : Info) (name : Ident String) (args : List Ty)

structure RecordFieldDecl where
  info : Info
  fieldName : Ident String
  fieldTy : Ty
  fieldMut : MutFlag

inductive VariantConstructorArg where
  | ty (t : Ty)
  | record (fields : List RecordFieldDecl)

structure VariantConstructorDecl where
  info : Info
  name : Ident String
  arg : Option VariantConstructorArg

inductive TydefDesc where
  | alias (t : Ty)
  | record (fields : List RecordFieldDecl)
  | variant (ctors : List VariantConstructorDecl)
  | abstract

structure TyDecl where
  info : Info
  name : Ident String
  params : List (Ident String)
  defn : TydefDesc
  annotations : List (Ident String)

inductive ExternalKind where
  | foreign
  | primitive
deriving DecidableEq, Repr

structure ExternalFn where
  symbol : String
  symbolLoc : Location
  kind : ExternalKind
  callingConvention : Option String

inductive SignatureItem where
  | value (info : Info) (name : Ident String) (ty : Ty)
  | external (info : Info) (fname : Ident String) (ty : Ty) (externalFn : ExternalFn)
  | type (info : Info) (td : TyDecl)
  | moduleSignature (info sigInfo : Info) (name : Ident String) (items : List SignatureItem)

inductive Literal where
  | unit
  | bool (s : String)
  | int (s : String)
  | float (s : String)
  | char (s : String)
  | string (s : String)

/-- The patterns with patterns inside: for each field of a record, whether it has one. -/
inductive PatternForm where
  | tuple
  | record (fields : List (Info × Ident String × Bool))
  | constructor (name : Ident String)

inductive Pattern (ν : Type) where
  | literal (info : Info) (l : Literal)
  | any (info : Info)
  | ident (info : Info) (x : Ident ν)
  | compound (info : Info) (form : PatternForm) (elements : List (Pattern ν))

structure PatternRecordField (ν : Type) where
  info : Info
  name : Ident String
  value : Option (Pattern ν)

structure Param (ν : Type) where
  pattern : Pattern ν
  paramTy : Option Ty
  loc : Location

inductive LetKind where
  | letVal
  | letFun
deriving DecidableEq, Repr

/-- The parts of a `letdef` that are neither its pattern nor its value. -/
structure LetHeader where
  letKind : LetKind
  isRec : Bool
  tyAnnot : Option Ty
  loc : Location

/-- The forms that have no scope of their own, with what they hold besides their operands. -/
inductive Form where
  | constant (info : Info) (l : Literal)
  | tuple
  | record (fields : List (Info × Ident String))
  | variantConstructor (name : Ident String)
  | arrayLit
  | arrayAlloc
  | apply
  | cond
  | whileLoop
  | loop
  | breakOut
  | continueLoop
  | returnOut
  | seq
  | field (fieldName : Ident String)
  | fieldSet (fieldName : Ident String)

mutual

/-- The operands of a form stand in the order in which the source lists them. -/
inductive Expr (ν : Type) where
  | ident (info : Info) (x : Ident ν)
  | lambda (info : Info) (params : List (Param ν)) (body : Expr ν) (retTy : Option Ty)
      (loc : Location)
  | letIn (info : Info) (header : LetHeader) (pattern : Pattern ν) (value : Expr ν)
  | matchWith (info : Info) (scrutinee : Expr ν) (cases : List (Case ν))
  | form (info : Info) (f : Form) (operands : List (Expr ν))

inductive Case (ν : Type) where
  | mk (info : Info) (pattern : Pattern ν) (whenCondition : Option (Expr ν)) (body : Expr ν)

end

/-- A list of structure items, the first one outside. -/
inductive Structure (ν : Type) where
  | nil
  | letDef (info : Info) (header : LetHeader) (pattern : Pattern ν) (value : Expr ν)
      (rest : Structure ν)
  | external (info : Info) (fname : Ident ν) (ty : Ty) (externalFn : ExternalFn)
      (rest : Structure ν)
  | type (info : Info) (td : TyDecl) (rest : Structure ν)
  | moduleStructure (info strInfo : Info) (name : Ident String) (items rest : Structure ν)
  | moduleSignature (info sigInfo : Info) (name : Ident String) (sigItems : List SignatureItem)
      (rest : Structure ν)

variable {ν : Type}

namespace Pattern

def tuple (info : Info) (elements : List (Pattern ν)) : Pattern ν := .compound info .tuple elements

def record (info : Info) (fields : List (PatternRecordField ν)) : Pattern ν :=
  .compound info (.record (fields.map fun f => (f.info, f.name, f.value.isSome)))
    (fields.filterMap (·.value))

def constructor (info : Info) (name : Ident String) (value : Option (Pattern ν)) : Pattern ν :=
  .compound info (.constructor name) value.toList

end Pattern

namespace Expr

def constant (info constInfo : Info) (l : Literal) : Expr ν := .form info (.constant constInfo l) []

def tuple (info : Info) (elements : List (Expr ν)) : Expr ν := .form info .tuple elements

def record (info : Info) (fields : List (Info × Ident String × Expr ν)) : Expr ν :=
  .form info (.record (fields.map fun f => (f.1, f.2.1))) (fields.map (·.2.2))

def variantConstructor (info : Info) (name : Ident String) (arg : Option (Expr ν)) : Expr ν :=
  .form info (.variantConstructor name) arg.toList

def arrayLit (info : Info) (elements : List (Expr ν)) : Expr ν := .form info .arrayLit elements

def arrayAlloc (info : Info) (size init : Expr ν) : Expr ν := .form info .arrayAlloc [size, init]

def apply (info : Info) (closureFun : Expr ν) (args : List (Expr ν)) : Expr ν :=
  .form info .apply (closureFun :: args)

def cond (info : Info) (condition thenBranch : Expr ν) (elseBranch : Option (Expr ν)) : Expr ν :=
  .form info .cond (condition :: thenBranch :: elseBranch.toList)

def whileLoop (info : Info) (condition body : Expr ν) : Expr ν :=
  .form info .whileLoop [condition, body]

def loop (info : Info) (condition : Expr ν) : Expr ν := .form info .loop [condition]

def breakOut (info : Info) (value : Option (Expr ν)) : Expr ν :=
  .form info .breakOut value.toList

def continueLoop (info : Info) : Expr ν := .form info .continueLoop []

def returnOut (info : Info) (value : Option (Expr ν)) : Expr ν :=
  .form info .returnOut value.toList

def seq (info : Info) (exprs : List (Expr ν)) : Expr ν := .form info .seq exprs

def field (info : Info) (record : Expr ν) (fieldName : Ident String) : Expr ν :=
  .form info (.field fieldName) [record]

def fieldSet (info : Info) (record : Expr ν) (fieldName : Ident String) (value : Expr ν) : Expr ν :=
  .form info (.fieldSet fieldName) [record, value]

end Expr

end Syli.Compiler.Alpha
