import Syli.Compiler.CoreAst

/-! `env.ml`, `infer.ml` and `lower_core_to_cir.ml`: the typing of record values and the objects
made for them. -/
namespace Syli.Compiler.Records

open Foundation

structure RecordFieldDecl (T : Type) where
  fieldName : String
  fieldIdx : Nat
  fieldTy : T

inductive ConstructorArg (F : Type) (T : Type) where
  | ty (t : T)
  | record (fields : List F)

structure VariantConstructorDecl (T : Type) where
  name : String
  arg : Option (ConstructorArg (RecordFieldDecl T) T)
  tag : Nat

inductive TydefBody (T : Type) where
  | tyAlias (t : T)
  | record (fields : List (RecordFieldDecl T))
  | variant (constructors : List (VariantConstructorDecl T))
  | abstract

structure TyDecl (T : Type) where
  name : String
  body : TydefBody T

/-- A declaration as it is parsed, with the types of its fields already made. -/
inductive ParsedBody (T : Type) where
  | tyAlias (t : T)
  | record (fields : List (String × T))
  | variant (ctors : List (String × Option (ConstructorArg (String × T) T)))
  | abstract

structure ParsedTyDecl (T : Type) where
  name : String
  body : ParsedBody T

variable {S E V T C O : Type}

def fieldsOfParsing (fields : List (String × T)) : List (RecordFieldDecl T) :=
  fields.mapIdx fun i f => { fieldName := f.1, fieldIdx := i, fieldTy := f.2 }

def ctorArgOfParsing : ConstructorArg (String × T) T → ConstructorArg (RecordFieldDecl T) T
  | .ty t => .ty t
  | .record fields => .record (fieldsOfParsing fields)

def ctorsOfParsing (ctors : List (String × Option (ConstructorArg (String × T) T))) :
    List (VariantConstructorDecl T) :=
  ctors.mapIdx fun i c => { name := c.1, arg := c.2.map ctorArgOfParsing, tag := i }

def tyDeclOfParsing (td : ParsedTyDecl T) : TyDecl T :=
  { name := td.name
    body := match td.body with
      | .tyAlias t => .tyAlias t
      | .record fields => .record (fieldsOfParsing fields)
      | .variant ctors => .variant (ctorsOfParsing ctors)
      | .abstract => .abstract }

structure TyRecordInfo (T : Type) where
  recordFields : List (RecordFieldDecl T)
  tyDecl : TyDecl T

structure TyConstructorInfo (T : Type) where
  constructor : VariantConstructorDecl T
  tyDecl : TyDecl T

/-- The maps of the declarations in the inference context. -/
structure DeclEnv (T : Type) where
  recordEnv : StringMap (List (TyRecordInfo T))
  constructorEnv : StringMap (List (TyConstructorInfo T))
  tyNameEnv : StringMap (TyDecl T)

def emptyEnv : DeclEnv T := { recordEnv := [], constructorEnv := [], tyNameEnv := [] }

/-- The value goes before those that the key already has. -/
def pushInfo {I : Type} (env : StringMap (List I)) (key : String) (info : I) : StringMap (List I) :=
  match env.findOpt key with
  | some infos => env.add key (info :: infos)
  | none => env.add key [info]

def registerTyDecl (ctx : DeclEnv T) (td : TyDecl T) : DeclEnv T :=
  match td.body with
  | .record fields =>
    { ctx with
      recordEnv := fields.foldl (fun env field =>
        pushInfo env field.fieldName { recordFields := fields, tyDecl := td }) ctx.recordEnv
      tyNameEnv := ctx.tyNameEnv.add td.name td }
  | .variant constructors =>
    { ctx with
      constructorEnv := constructors.foldl (fun env constructor =>
        pushInfo env constructor.name { constructor, tyDecl := td }) ctx.constructorEnv
      tyNameEnv := ctx.tyNameEnv.add td.name td }
  | .tyAlias _ | .abstract => ctx

def registerAll (tds : List (ParsedTyDecl T)) : DeclEnv T :=
  tds.foldl (fun ctx td => registerTyDecl ctx (tyDeclOfParsing td)) emptyEnv

def hasFields (fieldNames : List String) (info : TyRecordInfo T) : Bool :=
  fieldNames.all fun fieldName => info.recordFields.any fun f => fieldName = f.fieldName

def findRecordByFieldNames (ctx : DeclEnv T) (fieldNames : List String) : Option (TyRecordInfo T) :=
  match fieldNames with
  | fieldName :: _ =>
    match ctx.recordEnv.findOpt fieldName with
    | some infos => infos.find? (hasFields fieldNames)
    | none => none
  | [] => none

def findConstructorByName (ctx : DeclEnv T) (constrName : String) : Option (TyConstructorInfo T) :=
  match ctx.constructorEnv.findOpt constrName with
  | some (constructor :: _) => some constructor
  | some [] | none => none

/-- The rest of the inference: expressions with their types, and unification, over any state. -/
structure Inference (S E V T : Type) where
  inferExpr : S → E → Except String (S × V)
  tyOf : V → T
  unifyInto : S → T → T → Except String S
  defined : String → T
  arrow : T → T → T

structure RecordField (V : Type) where
  fieldName : String
  fieldIdx : Nat
  fieldValue : V

variable (inf : Inference S E V T)

def unifyRecordExprFieldsWithDecl (declFields : List (RecordFieldDecl T)) :
    S → List (String × V) → Except String (S × List Nat)
  | s, [] => .ok (s, [])
  | s, (name, value) :: fields =>
    match declFields.find? fun d => d.fieldName = name with
    | none => .error ("unknown record field '" ++ name ++ "'")
    | some declField => do
      let s ← inf.unifyInto s (inf.tyOf value) declField.fieldTy
      let r ← unifyRecordExprFieldsWithDecl declFields s fields
      return (r.1, declField.fieldIdx :: r.2)

def inferFields : S → List (String × E) → Except String (S × List (String × V))
  | s, [] => .ok (s, [])
  | s, (name, value) :: fields => do
    let v ← inf.inferExpr s value
    let r ← inferFields v.1 fields
    return (r.1, (name, v.2) :: r.2)

def typedFields (infos : List (String × V)) (idxFields : List Nat) : List (RecordField V) :=
  List.zipWith (fun info idx => { fieldName := info.1, fieldIdx := idx, fieldValue := info.2 })
    infos idxFields

/-- The case of `infer_expr` for a record: the declaration that gives the type, and the fields. -/
def inferRecord (ctx : DeclEnv T) (s : S) (fields : List (String × E)) :
    Except String (S × TyDecl T × List (RecordField V)) := do
  let (s, infos) ← inferFields inf s fields
  match findRecordByFieldNames ctx (infos.map Prod.fst) with
  | some info =>
    let (s, idxFields) ← unifyRecordExprFieldsWithDecl inf info.recordFields s infos
    return (s, info.tyDecl, typedFields infos idxFields)
  | none => .error ("cannot infer record type for fields \x7b" ++
      ", ".intercalate (infos.map Prod.fst) ++ "\x7d: no matching record type")

inductive Payload (E : Type) where
  | record (fields : List (String × E))
  | expr (e : E)

inductive TypedPayload (V T : Type) where
  | inline (fields : List (RecordField V))
  | record (tyDecl : TyDecl T) (fields : List (RecordField V))
  | expr (v : V)

/-- The case of `infer_expr` for a constructor. -/
def inferVariantConstructor (ctx : DeclEnv T) (s : S) (name : String) (arg : Option (Payload E)) :
    Except String (S × Option (TypedPayload V T) × T × VariantConstructorDecl T) :=
  match findConstructorByName ctx name with
  | none => .error ("unknown variant constructor '" ++ name ++ "'")
  | some { constructor := ctor, tyDecl } =>
    let variantTy := inf.defined tyDecl.name
    match ctor.arg, arg with
    | none, none => .ok (s, none, variantTy, ctor)
    | some (.ty t), none => .ok (s, none, inf.arrow t variantTy, ctor)
    | some (.record _), none => .ok (s, none, inf.arrow variantTy variantTy, ctor)
    | none, some _ => .error ("variant constructor '" ++ name ++ "' takes no argument")
    | some (.ty t), some (.expr e) => do
      let (s, v) ← inf.inferExpr s e
      let s ← inf.unifyInto s (inf.tyOf v) t
      return (s, some (.expr v), variantTy, ctor)
    | some (.ty t), some (.record fields) => do
      let (s, decl, typed) ← inferRecord inf ctx s fields
      let s ← inf.unifyInto s (inf.defined decl.name) t
      return (s, some (.record decl typed), variantTy, ctor)
    | some (.record declFields), some (.record fields) => do
      let (s, infos) ← inferFields inf s fields
      let (s, idxFields) ← unifyRecordExprFieldsWithDecl inf declFields s infos
      return (s, some (.inline (typedFields infos idxFields)), variantTy, ctor)
    | some (.record _), some (.expr _) =>
      .error ("variant constructor '" ++ name ++ "' expects a record argument")

/-- A declaration of the core program; its fields have lost their names. -/
structure CoreConstructor (T : Type) where
  tag : Nat
  arg : Option (ConstructorArg (Nat × T) T)

inductive CoreBody (T : Type) where
  | tyAlias (t : T)
  | record (fields : List (Nat × T))
  | variant (constructors : List (CoreConstructor T))
  | abstract

def coreFields (fields : List (RecordFieldDecl T)) : List (Nat × T) :=
  fields.map fun f => (f.fieldIdx, f.fieldTy)

def coreArg : ConstructorArg (RecordFieldDecl T) T → ConstructorArg (Nat × T) T
  | .ty t => .ty t
  | .record fields => .record (coreFields fields)

/-- `desugar_type_decl`, for the body of a declaration. -/
def desugarTypeDecl : TydefBody T → CoreBody T
  | .tyAlias t => .tyAlias t
  | .record fields => .record (coreFields fields)
  | .variant ctors => .variant (ctors.mapIdx fun i c => { tag := i, arg := c.arg.map coreArg })
  | .abstract => .abstract

/-- The name that a type has in the core program, by the modules in scope. -/
def qualifyTypeName (typeSubst : StringMap String) (name : String) : Except String String :=
  match typeSubst.findOpt name with
  | some qname => .ok qname
  | none => .error ("Type " ++ name ++ " not found in type substitution map")

/-- The `type_defs` of `lower_program`: the last declaration of a name in the program. -/
def typeDefsOf (items : List (String × CoreBody T)) : StringMap (CoreBody T) :=
  items.foldl (fun m td => m.add td.1 td.2) []

/-- The statements that matter to an object; `other` is any other one. -/
inductive Stmt (O : Type) where
  | objectCreate (dst : Id) (length : Nat)
  | objectSet (obj : Id) (fieldIdx : Nat) (value : O)
  | other

/-- The rest of the lowering, over any context: expressions, variables, and what a constant constructor
is made of. -/
structure Lowering (C V T O : Type) where
  lowerExpr : C → V → C × List (Stmt O) × O
  freshVar : C → C × Id
  var : Id → O
  constantCtor : C → Nat → C × List (Stmt O) × O
  tupleTys : T → Option (List T)

variable (low : Lowering C V T O)

def setFields (obj : Id) : C → List (RecordField V) → C × List (Stmt O)
  | ctx, [] => (ctx, [])
  | ctx, f :: fields =>
    let (ctx, stmts, fval) := low.lowerExpr ctx f.fieldValue
    let r := setFields obj ctx fields
    (r.1, stmts ++ .objectSet obj f.fieldIdx fval :: r.2)

/-- The case of `lower_expr` for a record. -/
def lowerRecord (ctx : C) (fields : List (RecordField V)) : C × List (Stmt O) × Id :=
  let (ctx, obj) := low.freshVar ctx
  let r := setFields low obj ctx fields
  (r.1, .objectCreate obj fields.length :: r.2, obj)

/-- The fields of a tuple are read from its object and set in the block of the constructor. -/
def copyFields (obj : Id) : C → Nat → List T → C × List (Stmt O)
  | ctx, _, [] => (ctx, [])
  | ctx, i, _ :: tys =>
    let (ctx, dst) := low.freshVar ctx
    let r := copyFields obj ctx (i + 1) tys
    (r.1, .other :: .objectSet obj i (low.var dst) :: r.2)

/-- `lower_variant_payload`, where the payload is a record literal. -/
def lowerVariantPayload (ctx : C) (ctorArg : ConstructorArg (Nat × T) T)
    (fields : List (RecordField V)) : C × List (Stmt O) × Id :=
  let (ctx, obj) := low.freshVar ctx
  match ctorArg with
  | .record declFields =>
    let r := setFields low obj ctx fields
    (r.1, .objectCreate obj declFields.length :: r.2, obj)
  | .ty t =>
    let (ctx, stmts, src) := lowerRecord low ctx fields
    match low.tupleTys t with
    | some tys =>
      let r := copyFields low obj ctx 0 tys
      (r.1, .objectCreate obj tys.length :: (stmts ++ r.2), obj)
    | none => (ctx, .objectCreate obj 1 :: (stmts ++ [.objectSet obj 0 (low.var src)]), obj)

/-- What the lowering finds again for a constructor, by the name of its type and by its tag. -/
def findCtor (typeDefs : StringMap (CoreBody T)) (name : String) (tag : Nat) :
    Except String (CoreConstructor T) :=
  match typeDefs.findOpt name with
  | some (.variant ctors) =>
    match ctors.find? fun c => c.tag = tag with
    | some ctor => .ok ctor
    | none => .error ("variant: no constructor with tag " ++ toString tag)
  | _ => .error "variant constructor: not a variant type"

/-- `lower_variant_constructor`, where the payload is a record literal. -/
def lowerVariantConstructor (typeDefs : StringMap (CoreBody T)) (ctx : C) (name : String)
    (tag : Nat) (fields : List (RecordField V)) : Except String (C × List (Stmt O) × O) :=
  (findCtor typeDefs name tag).map fun ctor =>
    match ctor.arg with
    | none => low.constantCtor ctx tag
    | some ctorArg =>
      let r := lowerVariantPayload low ctx ctorArg fields
      (r.1, r.2.1, low.var r.2.2)

end Syli.Compiler.Records
