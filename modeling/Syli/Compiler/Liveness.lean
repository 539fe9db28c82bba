import Syli.Compiler.OirCfg

/-! `liveness.ml`: liveness of the variables of reference type. -/
namespace Syli.Compiler

open Foundation

structure LiveInfoStmt where
  liveBefore : IntSet
  liveAfter : IntSet

structure LiveInfoBlock where
  liveEntry : IntSet
  liveAtEnd : IntSet
  deadEntry : IntSet

structure LiveMap where
  stmts : IntMap LiveInfoStmt
  blocks : IntMap LiveInfoBlock

def varsOfOperand : Operand → IntSet
  | .var v => if isRefTy v.ty then {v.id} else ∅
  | .constant _ _ => ∅

def varsOfProjection : Projection → IntSet
  | .field _ => ∅
  | .array index => varsOfOperand index
  | .variant _ _ => ∅

def varsOfRvalue : RvalueNode → IntSet
  | .binOp _ lhs rhs => varsOfOperand lhs ∪ varsOfOperand rhs
  | .unOp _ operand => varsOfOperand operand
  | .objectGet obj projection _ _ => varsOfOperand obj ∪ varsOfProjection projection
  | .objectLength obj => varsOfOperand obj
  | .objectSize obj => varsOfOperand obj
  | .objectGetTag obj => varsOfOperand obj
  | .cast src _ _ => varsOfOperand src
  | .move src => varsOfOperand src
  | .addrFn _ => ∅

def refUseOfStmt (stmt : Statement) : IntSet :=
  match stmt.node with
  | .assign _ rvalue => varsOfRvalue rvalue
  | .objectSet obj projection value _ _ =>
    varsOfOperand (.var obj) ∪ (varsOfProjection projection ∪ varsOfOperand value)
  | .objectCreate _ length => varsOfOperand length
  | .call _ _ args => args.foldl (fun s a => s ∪ varsOfOperand a.operand) ∅
  | .release obj => {obj.id}
  | .storeGlobal _ value _ => varsOfOperand value
  | .nop | .gcCycle => ∅

def refDefOfStmt (stmt : Statement) : IntSet :=
  match stmt.node with
  | .assign dst _ | .objectCreate dst _ | .call dst _ _ => if isRefTy dst.ty then {dst.id} else ∅
  | _ => ∅

def terminatorUses : TerminatorNode → IntSet
  | .ret (some op) _ => varsOfOperand op
  | .condBr cond _ _ => varsOfOperand (.var cond)
  | .switch scrutinee _ _ => varsOfOperand (.var scrutinee)
  | .ret none _ | .goto _ | .matchFailure => ∅

def liveBeforeStmt (live : IntSet) (stmt : Statement) : IntSet :=
  refUseOfStmt stmt ∪ (live \ refDefOfStmt stmt)

def liveAtBlockEntry (liveAtEnd : IntSet) (b : Block) : IntSet :=
  b.statements.reverse.foldl liveBeforeStmt liveAtEnd

def unionEntry (entries : IntMap IntSet) (live : IntSet) (sid : Id) : IntSet :=
  match entries.findOpt sid with
  | some info => live ∪ info
  | none => live

def unionSuccEntries (cfg : Cfg) (entries : IntMap IntSet) (block : Id) : IntSet :=
  (getSucc cfg block).foldl (unionEntry entries) ∅

def liveAtEndOf (cfg : Cfg) (entries : IntMap IntSet) (b : Block) : IntSet :=
  unionSuccEntries cfg entries b.id ∪ terminatorUses b.terminator

namespace FunctionOir

variable (fn : FunctionOir)

def cfg : Cfg := buildCfg fn.blocks

/-- Blocks with their successors before their predecessors, where there is no cycle. -/
def order : List Id := (computeRpo fn.cfg fn.entryBlock).reverse

def entryParams : IntSet :=
  fn.params.foldl (fun s p => if isRefTy p.ty then insert p.id s else s) ∅

def newEntry (entries : IntMap IntSet) (b : Block) : IntSet :=
  let liveAtFirst := liveAtBlockEntry (liveAtEndOf fn.cfg entries b) b
  if b.id = fn.entryBlock then fn.entryParams ∪ liveAtFirst else liveAtFirst

def passBlock (entries acc : IntMap IntSet) (id : Id) : IntMap IntSet :=
  match (buildBlockMap fn.blocks).findOpt id with
  | some b => acc.add id (fn.newEntry entries b)
  | none => acc

/-- One pass over the blocks; each of them reads the entries of the pass before. -/
def pass (entries : IntMap IntSet) : IntMap IntSet :=
  fn.order.foldl (fn.passBlock entries) entries

def Changed (entries : IntMap IntSet) : Prop :=
  ∃ id ∈ fn.order, ∃ b ∈ (buildBlockMap fn.blocks).findOpt id,
    (entries.findOpt id).getD ∅ ≠ fn.newEntry entries b

instance (entries : IntMap IntSet) : Decidable (fn.Changed entries) :=
  inferInstanceAs (Decidable (∃ id ∈ fn.order, ∃ b ∈ (buildBlockMap fn.blocks).findOpt id,
    (entries.findOpt id).getD ∅ ≠ fn.newEntry entries b))

def fixpoint : Nat → IntMap IntSet → IntMap IntSet
  | 0, entries => entries
  | n + 1, entries => if fn.Changed entries then fixpoint n (fn.pass entries) else fn.pass entries

/-- The variables that the analysis can find live. -/
def refVars : IntSet :=
  fn.entryParams ∪ fn.blocks.toFinset.biUnion fun b =>
    terminatorUses b.terminator ∪ b.statements.toFinset.biUnion refUseOfStmt

/-- A pass that changes something adds a variable to a block, which bounds the passes. -/
def blockEntries : IntMap IntSet :=
  fn.fixpoint (fn.order.length * fn.refVars.card + 1) []

def stmtInfos (result : IntMap LiveInfoStmt) (b : Block) : IntMap LiveInfoStmt :=
  (b.statements.reverse.foldl (fun (acc : IntSet × IntMap LiveInfoStmt) stmt =>
    let liveBefore := liveBeforeStmt acc.1 stmt
    (liveBefore, acc.2.add stmt.id { liveBefore := liveBefore, liveAfter := acc.1 }))
    (liveAtEndOf fn.cfg fn.blockEntries b, result)).2

def stmtResult : IntMap LiveInfoStmt := fn.blocks.foldl fn.stmtInfos []

def deadAtEdge (liveEntry : IntSet) (p : Id) : IntSet :=
  match (buildBlockMap fn.blocks).findOpt p with
  | some p => liveAtEndOf fn.cfg fn.blockEntries p \ liveEntry
  | none => ∅

def deadEntry (b : Block) : IntSet :=
  let liveEntry := (fn.blockEntries.findOpt b.id).getD ∅
  if b.id = fn.entryBlock then
    match b.statements with
    | first :: _ =>
      match fn.stmtResult.findOpt first.id with
      | some i => liveEntry \ i.liveBefore
      | none => liveEntry
    | [] => liveEntry \ liveAtEndOf fn.cfg fn.blockEntries b
  else
    match getPred fn.cfg b.id with
    | [] => ∅
    | p :: rest =>
      rest.foldl (fun acc p => acc ∩ fn.deadAtEdge liveEntry p) (fn.deadAtEdge liveEntry p)

/-- Both lookups of a block fail on the same functions: every id in the order is looked up first,
and predecessors are blocks. -/
def analyze : Except String LiveMap :=
  if ∀ id ∈ fn.order, ((buildBlockMap fn.blocks).findOpt id).isSome then
    .ok
      { stmts := fn.stmtResult
        blocks := fn.blocks.foldl (fun blocks b => blocks.add b.id
          { liveEntry := (fn.blockEntries.findOpt b.id).getD ∅
            liveAtEnd := liveAtEndOf fn.cfg fn.blockEntries b
            deadEntry := fn.deadEntry b }) [] }
  else .error "liveness: block not found"

end FunctionOir

end Syli.Compiler
