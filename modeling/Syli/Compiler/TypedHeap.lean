import Syli.Compiler.TypeGraph

/-! The heaps of well-typed programs: each object has the header that the lowering of its type
gives it. -/
namespace Syli.Compiler.TypedHeap

open Foundation Relation

/-- A word stands for any value that is not an own-tagged reference to an object. -/
inductive Val where
  | word
  | ref (a : Nat)
deriving DecidableEq, Repr

inductive Kind where
  | record (name : String) (args : List CTy)
  | ctor (name : String) (args : List CTy) (c : ConstructorDecl)
  | tuple (tys : List CTy)
  | array (elem : CTy)
  | closure (captured : List CTy)

structure HeapObject where
  kind : Kind
  prop : CyclicProp
  slots : List Val

/-- The objects in the order of their creation. -/
abbrev Heap := List HeapObject

/-- The headers of records and constructors come from the graph of the declarations. -/
def Kind.IsBody : Kind → Prop
  | .record _ _ | .ctor _ _ _ => True
  | .tuple _ | .array _ | .closure _ => False

def Kind.IsClosure : Kind → Prop
  | .closure _ => True
  | _ => False

def immutableTys (tys : List CTy) : List (CTy × MutFlag) := tys.map fun t => (t, .immutable)

def recordFields : Option TyDeclDesc → List (CTy × MutFlag)
  | some (.record fields) => fields.map fun f => (f.fieldTy, f.fieldMut)
  | _ => []

/-- The type of a slot, and whether the program can write it again. -/
def Kind.slotTy (typeDefs : StringMap TyDeclDesc) : Kind → Nat → Option (CTy × MutFlag)
  | .record name args, i => (recordFields (typeDefs.findOpt (materializedName name args)))[i]?
  | .ctor _ _ c, i => (ctorFields c.arg)[i]?
  | .tuple tys, i => (immutableTys tys)[i]?
  | .array elem, _ => some (elem, .mutable)
  | .closure captured, i => (immutableTys captured)[i]?

/-- The kind is one that the declarations allow. -/
inductive Kind.Declared (typeDefs : StringMap TyDeclDesc) : Kind → Prop where
  | record {name : String} {args : List CTy} {fields : List RecordFieldTy} :
      typeDefs.findOpt (materializedName name args) = some (.record fields) →
        Declared typeDefs (.record name args)
  | ctor {name : String} {args : List CTy} {ctors : List ConstructorDecl} {c : ConstructorDecl} :
      typeDefs.findOpt (materializedName name args) = some (.variant ctors) → c ∈ ctors →
        c.arg.isSome → Declared typeDefs (.ctor name args c)
  | tuple {tys : List CTy} : Declared typeDefs (.tuple tys)
  | array {elem : CTy} : Declared typeDefs (.array elem)
  | closure {captured : List CTy} : Declared typeDefs (.closure captured)

/-- The values of a type: constant constructors are immediates, and function values are closures. -/
inductive HasTy (typeDefs : StringMap TyDeclDesc) (kinds : Nat → Option Kind) : CTy → Val → Prop
  where
  | constant {c : ConstantTy} : HasTy typeDefs kinds (.constant c) .word
  | arrow {arg ret : CTy} {captured : List CTy} {a : Nat} :
      kinds a = some (.closure captured) → HasTy typeDefs kinds (.arrow arg ret) (.ref a)
  | tuple {tys : List CTy} {a : Nat} :
      kinds a = some (.tuple tys) → HasTy typeDefs kinds (.tuple tys) (.ref a)
  | array {elem : CTy} {a : Nat} :
      kinds a = some (.array elem) → HasTy typeDefs kinds (.array elem) (.ref a)
  | unalias {name : String} {args : List CTy} {inner : CTy} {v : Val} :
      typeDefs.findOpt (materializedName name args) = some (.alias inner) →
        HasTy typeDefs kinds inner v → HasTy typeDefs kinds (.defined name args) v
  | record {name : String} {args : List CTy} {fields : List RecordFieldTy} {a : Nat} :
      typeDefs.findOpt (materializedName name args) = some (.record fields) →
        kinds a = some (.record name args) → HasTy typeDefs kinds (.defined name args) (.ref a)
  | immediate {name : String} {args : List CTy} {ctors : List ConstructorDecl}
      {c : ConstructorDecl} :
      typeDefs.findOpt (materializedName name args) = some (.variant ctors) → c ∈ ctors →
        c.arg = none → HasTy typeDefs kinds (.defined name args) .word
  | ctor {name : String} {args : List CTy} {ctors : List ConstructorDecl} {c : ConstructorDecl}
      {a : Nat} :
      typeDefs.findOpt (materializedName name args) = some (.variant ctors) → c ∈ ctors →
        c.arg.isSome → kinds a = some (.ctor name args c) →
          HasTy typeDefs kinds (.defined name args) (.ref a)

/-- The cyclicity in the type of `variant_constructor_ty`. -/
def variantConstructorProp (defs : StringMap TypeEntry) (variantName : String) (tag : Nat) :
    CyclicProp :=
  match defs.findOpt variantName with
  | some entry => (entry.ctorProps.lookup tag).getD entry.prop
  | none => .unknownCyclicProp

/-- The cyclicity in the header of a new object; the lowering of its type has to return. -/
def headerProp (defs : StringMap TypeEntry) (fuel : Nat) : Kind → Option CyclicProp
  | .record name args => (mkIrTy defs fuel [] (.defined name args)).bind Cir.IrType.objProp
  | .tuple tys => (mkIrTy defs fuel [] (.tuple tys)).bind Cir.IrType.objProp
  | .array elem => (mkIrTy defs fuel [] (.array elem)).bind Cir.IrType.objProp
  | .ctor name args c => do
    let _ ← (ctorFields c.arg).mapM fun f => mkIrTy defs fuel [] f.1
    return variantConstructorProp defs (materializedName name args) c.tag
  | .closure _ => some .unknownCyclicProp

def traceableBitOfProp : CyclicProp → Nat
  | .mutableCyclicTrackable | .immutableCyclicTrackable | .unknownCyclicProp
  | .acyclicTrackable => 1
  | .acyclic => 0

def cyclicMutableBitOfProp : CyclicProp → Nat
  | .mutableCyclicTrackable => 1
  | _ => 0

def kindsOf (h : Heap) (a : Nat) : Option Kind := (h[a]?).map HeapObject.kind

def Fits (typeDefs : StringMap TyDeclDesc) (h : Heap) (kind : Kind) (slots : List Val) : Prop :=
  ∀ i v, slots[i]? = some v →
    ∃ t flag, kind.slotTy typeDefs i = some (t, flag) ∧ HasTy typeDefs (kindsOf h) t v

inductive Act where
  /-- A literal, an allocated array, an applied constructor or a created closure. -/
  | alloc (kind : Kind) (slots : List Val)
  /-- An assignment to a mutable field, or the index-set primitive. -/
  | store (a i : Nat) (v : Val)

inductive Step (typeDefs : StringMap TyDeclDesc) (h : Heap) : Act → Heap → Prop where
  | alloc {kind : Kind} {slots : List Val} {prop : CyclicProp} {fuel : Nat} :
      kind.Declared typeDefs → Fits typeDefs h kind slots →
        headerProp (lowerTypeDefs typeDefs) fuel kind = some prop →
          Step typeDefs h (.alloc kind slots) (h ++ [⟨kind, prop, slots⟩])
  | store {a i : Nat} {v : Val} {o : HeapObject} {t : CTy} :
      h[a]? = some o → o.kind.slotTy typeDefs i = some (t, .mutable) →
        HasTy typeDefs (kindsOf h) t v →
          Step typeDefs h (.store a i v) (h.set a { o with slots := o.slots.set i v })

/-- An object holds a reference to another. -/
def Points (h : Heap) (a b : Nat) : Prop :=
  ∃ o, h[a]? = some o ∧ .ref b ∈ o.slots

def Marked (h : Heap) (a : Nat) : Prop :=
  ∃ o, h[a]? = some o ∧ cyclicMutableBitOfProp o.prop = 1

/-- Every cycle has an object with the cyclic-mutable bit, and no object with the traceable bit
clear reaches a cycle. -/
structure Sound (h : Heap) : Prop where
  marked : ∀ a, ¬ TransGen (fun x y => Points h x y ∧ ¬ Marked h x) a a
  traceable : ∀ a o b, h[a]? = some o → traceableBitOfProp o.prop = 0 →
    ReflTransGen (Points h) a b → ¬ TransGen (Points h) b b

/-- The value leads to no closure that has captured an object. -/
def Bare (h : Heap) (v : Val) : Prop :=
  ∀ a c o, v = .ref a → ReflTransGen (Points h) a c → h[c]? = some o → o.kind.IsClosure →
    ∀ b, .ref b ∉ o.slots

/-- The graph of the types leads from an array type back to it past no mutable-cyclic node. -/
def SelfRecursive (typeDefs : StringMap TyDeclDesc) (elem : CTy) : Prop :=
  TransGen (fun u v => (buildCtx typeDefs).graph.Edge u v ∧
    lookup (analyze typeDefs) u ≠ .mutableCyclicTrackable) (arrayNode elem) (arrayNode elem)

/-- No closure that has captured an object goes into a record, a constructor or a store, and no
reference is stored into an array of a self-recursive type. -/
def Act.Plain (typeDefs : StringMap TyDeclDesc) (h : Heap) : Act → Prop
  | .alloc kind slots => kind.IsBody → ∀ v ∈ slots, Bare h v
  | .store a _ v => Bare h v ∧ ∀ o elem b, h[a]? = some o → o.kind = .array elem → v = .ref b →
      ¬ SelfRecursive typeDefs elem

/-- The heaps that a program reaches, with a condition on its steps. -/
inductive Reaches (typeDefs : StringMap TyDeclDesc) (ok : Heap → Act → Prop) : Heap → Prop where
  | empty : Reaches typeDefs ok []
  | step {h h' : Heap} {act : Act} :
      Reaches typeDefs ok h → ok h act → Step typeDefs h act h' → Reaches typeDefs ok h'

end Syli.Compiler.TypedHeap
