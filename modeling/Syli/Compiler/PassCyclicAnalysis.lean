import Syli.Compiler.Graph
import Syli.Compiler.TypeLowering

/-! `pass_cyclic_analysis.ml`: the graph of the type declarations and the cyclicity of its nodes. -/
namespace Syli.Compiler

open Foundation

/-- A node is printed as the name, `name#record`, `name#tag` or `array:key`. -/
inductive TypeNode where
  | type (name : String)
  | record (name : String)
  | ctor (name : String) (tag : Nat)
  | array (elemKey : String)
deriving DecidableEq, Repr

def arrayNode (elem : CTy) : TypeNode := .array (typeKey elem)

structure Ctx where
  graph : Graph TypeNode
  mutableEdges : List (TypeNode × TypeNode)

namespace Ctx

def empty : Ctx := ⟨.empty, []⟩

def addNode (n : TypeNode) (ctx : Ctx) : Ctx :=
  { ctx with graph := ctx.graph.addNode n }

def addEdge (src target : TypeNode) (isMutable : Bool) (ctx : Ctx) : Ctx :=
  let ctx := (ctx.addNode src).addNode target
  { graph := ctx.graph.addEdge src target
    mutableEdges :=
      if isMutable then (src, target) :: ctx.mutableEdges else ctx.mutableEdges }

end Ctx

theorem unvisited_lt {α : Type} {defs : StringMap α} {visited : List String} {key : String} {d : α}
    (hkey : key ∉ visited) (hfind : defs.findOpt key = some d) :
    (defs.filter (·.1 ∉ key :: visited)).length < (defs.filter (·.1 ∉ visited)).length := by
  have hmem := AssocMap.mem_of_findOpt hfind
  have hsub : defs.filter (·.1 ∉ key :: visited) =
      (defs.filter (·.1 ∉ visited)).filter (·.1 ≠ key) := by
    rw [List.filter_filter]
    apply List.filter_congr
    intro e _
    simp
  rw [hsub]
  apply List.length_filter_lt_length_iff_exists.mpr
  exact ⟨(key, d), List.mem_filter.mpr ⟨hmem, by simpa using hkey⟩, by simp⟩

/-- Adds edges from `src` to every node that the type refers to; aliases are resolved. -/
def addRefs (typeDefs : StringMap TyDeclDesc) (visited : List String) (src : TypeNode)
    (isMutable : Bool) (t : CTy) (ctx : Ctx) : Ctx :=
  match t with
  | .var _ | .constant _ | .arrow _ _ => ctx
  | .tuple ts => ts.foldl (fun ctx t => addRefs typeDefs visited src isMutable t ctx) ctx
  | .array elem =>
    addRefs typeDefs visited (arrayNode elem) false elem (ctx.addEdge src (arrayNode elem) isMutable)
  | .defined name args =>
    if _hkey : materializedName name args ∈ visited then ctx
    else
      match _hfind : typeDefs.findOpt (materializedName name args) with
      | some (.alias inner) =>
        addRefs typeDefs (materializedName name args :: visited) src isMutable inner ctx
      | _ => ctx.addEdge src (.type (materializedName name args)) isMutable
termination_by ((typeDefs.filter (·.1 ∉ visited)).length, sizeOf t)
decreasing_by
  · apply Prod.Lex.right
    have := List.sizeOf_lt_of_mem ‹_›
    simp
    omega
  · apply Prod.Lex.right
    simp
  · apply Prod.Lex.left
    exact unvisited_lt _hkey _hfind

def addBodyEdges (typeDefs : StringMap TyDeclDesc) (src : TypeNode)
    (fields : List (CTy × MutFlag)) (ctx : Ctx) : Ctx :=
  fields.foldl (fun ctx f => addRefs typeDefs [] src (f.2 = .mutable) f.1 ctx) ctx

def addCtor (typeDefs : StringMap TyDeclDesc) (name : String) (ctx : Ctx) (c : ConstructorDecl) :
    Ctx :=
  addBodyEdges typeDefs (.ctor name c.tag) (ctorFields c.arg)
    ((ctx.addNode (.ctor name c.tag)).addEdge (.type name) (.ctor name c.tag) false)

def addDecl (typeDefs : StringMap TyDeclDesc) (name : String) (decl : TyDeclDesc) (ctx : Ctx) :
    Ctx :=
  let ctx := ctx.addNode (.type name)
  match decl with
  | .record fields =>
    addBodyEdges typeDefs (.record name) (fields.map fun f => (f.fieldTy, f.fieldMut))
      ((ctx.addNode (.record name)).addEdge (.type name) (.record name) false)
  | .variant ctors => ctors.foldl (addCtor typeDefs name) ctx
  | .alias _ | .abstract => ctx

def buildCtx (typeDefs : StringMap TyDeclDesc) : Ctx :=
  typeDefs.foldl (fun ctx e => addDecl typeDefs e.1 e.2 ctx) .empty

theorem unvisited_arcs {rev : Graph TypeNode} {visited : List TypeNode} {n : TypeNode}
    (hn : n ∉ visited) :
    (rev.successors n).length + (rev.arcs.filter (·.1 ∉ n :: visited)).length =
      (rev.arcs.filter (·.1 ∉ visited)).length := by
  unfold Graph.successors
  rw [List.length_map]
  induction rev.arcs with
  | nil => rfl
  | cons arc arcs ih =>
    by_cases harc : arc.1 = n
    · simp [harc, hn] at ih ⊢
      omega
    · by_cases hvisited : arc.1 ∈ visited
      · simpa [List.filter_cons, harc, hvisited] using ih
      · simp [harc, hvisited] at ih ⊢
        omega

/-- The loop over the queue in `reachable_from`. -/
def visitQueue (rev : Graph TypeNode) (visited : List TypeNode) : List TypeNode → List TypeNode
  | [] => visited
  | n :: queue =>
    if n ∈ visited then visitQueue rev visited queue
    else
      visitQueue rev (n :: visited)
        (queue ++ (rev.successors n).filter (· ∉ n :: visited))
termination_by queue => queue.length + (rev.arcs.filter (·.1 ∉ visited)).length
decreasing_by
  · simp
  · rename_i hn
    have hpush := List.length_filter_le (· ∉ n :: visited) (rev.successors n)
    have hsplit := @unvisited_arcs rev visited _ hn
    simp only [List.length_append, List.length_cons]
    omega

namespace Ctx

/-- The nodes of the components that hold a mutable edge. -/
def cyclicNodes (ctx : Ctx) : List TypeNode :=
  ctx.graph.cyclicComponents.foldl
    (fun acc comp =>
      if ctx.mutableEdges.any fun e => e.1 ∈ comp ∧ e.2 ∈ comp then comp ++ acc else acc) []

/-- The source of a mutable edge. -/
def isMutableSource (ctx : Ctx) (n : TypeNode) : Bool :=
  ctx.mutableEdges.any fun e => e.1 = n

def reachableFrom (ctx : Ctx) (seeds : List TypeNode) : List TypeNode :=
  visitQueue ctx.graph.reverse [] seeds

def classify (ctx : Ctx) : AssocMap TypeNode CyclicProp :=
  ctx.graph.nodes.foldl
    (fun acc n =>
      acc.add n
        (if n ∈ ctx.cyclicNodes ∧ ctx.isMutableSource n then .mutableCyclicTrackable
        else if n ∈ ctx.cyclicNodes then .immutableCyclicTrackable
        else if n ∈ ctx.reachableFrom ctx.cyclicNodes then .acyclicTrackable
        else .acyclic)) []

end Ctx

def analyze (typeDefs : StringMap TyDeclDesc) : AssocMap TypeNode CyclicProp :=
  (buildCtx typeDefs).classify

def lookup (props : AssocMap TypeNode CyclicProp) (node : TypeNode) : CyclicProp :=
  (props.findOpt node).getD .unknownCyclicProp

def ctorPropsOf (props : AssocMap TypeNode CyclicProp) (name : String) :
    TyDeclDesc → List (Nat × CyclicProp)
  | .variant ctors => ctors.map fun c => (c.tag, lookup props (.ctor name c.tag))
  | _ => []

/-- The declarations with their cyclicity, as `lower_program` pairs them. -/
def lowerTypeDefs (typeDefs : StringMap TyDeclDesc) : StringMap TypeEntry :=
  typeDefs.map fun e =>
    (e.1, { decl := e.2
            prop := lookup (analyze typeDefs) (.type e.1)
            recordProp := lookup (analyze typeDefs) (.record e.1)
            ctorProps := ctorPropsOf (analyze typeDefs) e.1 e.2 })

end Syli.Compiler
