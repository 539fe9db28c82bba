import Syli.Compiler.CirTypes
import Syli.Foundation.OrderedMap

/-! `closure_graph.ml`: the graph of the closures of a module, the chains of its leaves and the
return types propagated along them. -/
namespace Syli.Compiler.ClosureGraph

open Foundation
open Cir (Ty typeKeyOfTy isArrowTy extractArrowTys)

structure Var where
  id : Id
  ty : Ty

inductive Operand where
  | constant (ty : Ty)
  | var (v : Var)

def operandTy : Operand → Ty
  | .constant ty => ty
  | .var v => v.ty

/-- The statements that make or move closures; `other` is every other statement. -/
inductive Statement where
  | makeClosure (dst : Var) (freeVars : List Var) (capturedArgs : List Operand) (fn : String)
  | partialApply (dst closure : Var) (newArgs : List Operand)
  | apply (dst closure : Var) (args : List Operand)
  | assignCast (dst : Var) (src : Operand)
  | assignMove (dst : Var) (src : Operand)
  | other

structure Block where
  id : Id
  statements : List Statement

structure Function where
  blocks : List Block

structure Module where
  functions : List Function

inductive NodeKind where
  | makeClosure
  | partialApply
  | apply
  | arrowMove
  | arrowCast
deriving DecidableEq, Repr

structure Node where
  id : Id
  blockId : Id
  argTys : List Ty
  remainingArgTys : List Ty
  retTy : Ty
  nodeKind : NodeKind

inductive Root where
  | makeClosure (fn : String) (node : Id)
  | fromArgFn (node : Id)
deriving DecidableEq, Repr

def Root.nodeId : Root → Id
  | .makeClosure _ node => node
  | .fromArgFn node => node

structure Summary where
  root : Root
  accNodeArgs : List Id
  retTy : Ty
  remainingArgTys : List Ty
  freeVarCount : Nat

structure Graph where
  nodes : IntMap Node
  nodeSummaries : IntMap (List Summary)
  edges : IntMap (List Id)
  heads : List Id
  rootIds : List Id
  nodeLeafSummaries : IntMap (List Summary)
  nodeRoots : IntMap (List Id)
  closureAsArg : List Id

def Graph.empty : Graph :=
  { nodes := [], nodeSummaries := [], edges := [], heads := [], rootIds := []
    nodeLeafSummaries := [], nodeRoots := [], closureAsArg := [] }

def addRoot (graph : Graph) (nodeId : Id) : Graph :=
  { graph with rootIds := graph.rootIds.insert nodeId }

def addEdge (graph : Graph) (parentId childId : Id) : Graph :=
  let children := match graph.edges.findOpt parentId with
    | some ids => childId :: ids
    | none => [childId]
  { graph with edges := graph.edges.add parentId children }

def mkNode (blockId : Id) (dst : Var) (argTys : List Ty) (nodeKind : NodeKind) : Node :=
  let (remainingArgTys, retTy) := (extractArrowTys dst.ty).getD ([], dst.ty)
  { id := dst.id, blockId, argTys, remainingArgTys, retTy, nodeKind }

def addNode (graph : Graph) (node : Node) : Graph :=
  { graph with nodes := graph.nodes.add node.id node }

def updateSummariesForClosure (g : Graph) (closure : Var) (node : Node) : List Summary :=
  match g.nodeSummaries.findOpt closure.id with
  | none =>
    [{ root := .fromArgFn node.id, accNodeArgs := [node.id], freeVarCount := 0, retTy := node.retTy
       remainingArgTys := node.remainingArgTys }]
  | some summaries => summaries.map fun s =>
      { s with
        accNodeArgs := node.id :: s.accNodeArgs
        remainingArgTys := node.remainingArgTys
        retTy := node.retTy }

def addSummaries (graph : Graph) (nodeId : Id) (summaries : List Summary) : Graph :=
  { graph with nodeSummaries := graph.nodeSummaries.add nodeId summaries }

/-- The node of a statement that extends a closure, with its edge and its summaries after the
`existing` ones. -/
def extendClosure (graph : Graph) (closure : Var) (node : Node) (existing : List Summary) : Graph :=
  let graph := addNode (addEdge graph closure.id node.id) node
  addSummaries graph node.id (existing ++ updateSummariesForClosure graph closure node)

def addClosureArg (acc : List Id) : Operand → List Id
  | .var v => if isArrowTy v.ty then acc.insert v.id else acc
  | .constant _ => acc

def processStatement (graph : Graph) (blockId : Id) : Statement → Graph
  | .makeClosure dst freeVars capturedArgs fn =>
    let capturedArgTys := freeVars.map Var.ty ++ capturedArgs.map operandTy
    let node := mkNode blockId dst capturedArgTys .makeClosure
    let graph := addRoot (addNode graph node) node.id
    let summary : Summary :=
      { root := .makeClosure fn node.id, accNodeArgs := [node.id], freeVarCount := freeVars.length
        retTy := node.retTy, remainingArgTys := node.remainingArgTys }
    { addSummaries graph dst.id [summary] with heads := dst.id :: graph.heads }
  | .partialApply dst closure newArgs =>
    extendClosure graph closure (mkNode blockId dst (newArgs.map operandTy) .partialApply) []
  | .apply dst closure args =>
    let closureAsArg := args.foldl addClosureArg graph.closureAsArg
    { extendClosure graph closure (mkNode blockId dst (args.map operandTy) .apply) [] with
      closureAsArg }
  | .assignCast dst (.var c) =>
    if isArrowTy dst.ty then extendClosure graph c (mkNode blockId dst [] .arrowCast) [] else graph
  | .assignMove dst (.var c) =>
    if isArrowTy dst.ty then
      extendClosure graph c (mkNode blockId dst [] .arrowMove)
        ((graph.nodeSummaries.findOpt dst.id).getD [])
    else graph
  | _ => graph

def processBlock (g : Graph) (block : Block) : Graph :=
  block.statements.foldl (fun g stmt => processStatement g block.id stmt) g

def processFunction (g : Graph) (fn : Function) : Graph := fn.blocks.foldl processBlock g

def leaves (graph : Graph) : List Id :=
  graph.nodes.keys.filter fun nodeId => (graph.edges.findOpt nodeId).isNone

def addNodeRoots (acc : IntMap (List Id)) (summary : Summary) : IntMap (List Id) :=
  summary.accNodeArgs.foldl (fun acc nodeId =>
    acc.update nodeId fun roots => some (summary.root.nodeId :: roots.getD [])) acc

def withLeaves (graph : Graph) : Graph :=
  let nodeLeafSummaries := graph.nodeSummaries.filterValues fun nodeId summaries =>
    if nodeId ∈ leaves graph then some summaries else none
  let summaries := (nodeLeafSummaries.bindings.map Prod.snd).flatten
  { graph with nodeLeafSummaries, nodeRoots := summaries.foldl addNodeRoots [] }

def buildGraph (prog : Module) : Graph := withLeaves (prog.functions.foldl processFunction .empty)

/-- What a leaf makes of the entry of a node of its chain; the flag marks the node as generic. -/
def updateRetTy (leafRetTy : Ty) : Option (Ty × Bool) → Option (Ty × Bool)
  | some (retTy, _) =>
    if typeKeyOfTy retTy ≠ typeKeyOfTy leafRetTy then some (retTy, true) else none
  | none => some (leafRetTy, false)

def retropopagateNode (graph : Graph) (leafRetTy : Ty) (acc : IntMap (Ty × Bool)) (nodeId : Id) :
    Option (IntMap (Ty × Bool)) :=
  (graph.nodes.findOpt nodeId).map fun node => acc.update node.id (updateRetTy leafRetTy)

def retropopagateSummary (graph : Graph) (acc : IntMap (Ty × Bool)) (summary : Summary) :
    Option (IntMap (Ty × Bool)) :=
  match summary.accNodeArgs with
  | _ :: _ => summary.accNodeArgs.foldlM (retropopagateNode graph summary.retTy) acc
  | [] => some acc

/-- `none` where a node of a chain is not in the graph. -/
def retropopagateRetTy (graph : Graph) : Option (IntMap Ty) := do
  let tys ← graph.nodeLeafSummaries.bindings.foldlM
    (fun tys e => e.2.foldlM (retropopagateSummary graph) tys) []
  return AssocMap.filterValues (fun _ e => if e.2 then none else some e.1) tys

end Syli.Compiler.ClosureGraph
