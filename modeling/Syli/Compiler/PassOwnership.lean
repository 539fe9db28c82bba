import Syli.Compiler.Liveness

/-! `pass_ownership.ml`: ownership annotations placed by liveness. `fresh` stands for the ids that
`fresh_id` returns while the statement or the block of the given id is annotated. -/
namespace Syli.Compiler

def mkRelease (id : Id) (v : Var) : Statement :=
  { id := id, node := .release v }

def addRelease (fresh : Id → Id) (varMap : IntMap Var) (acc : List Statement) (vid : Id) :
    List Statement :=
  match varMap.findOpt vid with
  | some v => mkRelease (fresh vid) v :: acc
  | none => acc

def mkReleases (fresh : Id → Id) (vars : IntSet) (varMap : IntMap Var) : List Statement :=
  vars.elements.foldl (addRelease fresh varMap) []

def releasesOfDeadObj (fresh : Id → Id) (liveMap : IntMap LiveInfoStmt) (stmtId : Id)
    (skip : IntSet) (varMap : IntMap Var) : List Statement :=
  match liveMap.findOpt stmtId with
  | some info => mkReleases fresh ((info.liveBefore \ info.liveAfter) \ skip) varMap
  | none => []

def addVarsOfStmt (map : IntMap Var) (stmt : Statement) : IntMap Var :=
  match stmt.node with
  | .assign dst _ | .objectCreate dst _ | .call dst _ _ => map.add dst.id dst
  | .objectSet obj _ _ _ _ => map.add obj.id obj
  | .release obj => map.add obj.id obj
  | _ => map

def buildVarMap (fn : FunctionOir) : IntMap Var :=
  let map := fn.params.foldl (fun (map : IntMap Var) v => map.add v.id v) []
  let map := fn.locals.foldl (fun (map : IntMap Var) v => map.add v.id v) map
  fn.blocks.foldl (fun map b => b.statements.foldl addVarsOfStmt map) map

/-- The variable that takes the old value of a field, and the read of it. -/
def mkGetReleaseTmp (fresh : Id → Id) (obj : Var) (projection : Projection) (valueTy : IrType) :
    Var × Statement :=
  let dst : Var := { id := fresh 0, ty := valueTy }
  (dst, { id := fresh 1
          node := .assign dst (.objectGet (.var obj) projection valueTy .transfer) })

def isLiveAfter (liveMap : IntMap LiveInfoStmt) (stmtId v : Id) : Bool :=
  match liveMap.findOpt stmtId with
  | some info => decide (v ∈ info.liveAfter)
  | none => false

def annotateArg (liveAfter : Id → Bool) (acc : List Arg × IntSet) (a : Arg) : List Arg × IntSet :=
  match a with
  | { operand := .var v, ownershipArg := .unknown } =>
    if isRefTy v.ty then
      if liveAfter v.id then ({ a with ownershipArg := .borrow } :: acc.1, acc.2)
      else ({ a with ownershipArg := .transfer } :: acc.1, insert v.id acc.2)
    else ({ a with ownershipArg := .constant } :: acc.1, acc.2)
  | { operand := .constant _ _, ownershipArg := .unknown } =>
    ({ a with ownershipArg := .constant } :: acc.1, acc.2)
  | _ => (a :: acc.1, acc.2)

/-- The annotated statement, and the variables whose counts it gives up itself. -/
def annotateStmt (fresh : Id → Id) (liveAfter : Id → Bool) (stmt : Statement) :
    List Statement × IntSet :=
  match stmt.node with
  | .assign dst (.objectGet (.var src) projection valueTy .unknown) =>
    let ownershipGet : OwnershipOp :=
      if isRefTy dst.ty then if liveAfter dst.id then .share else .borrow else .borrow
    ([{ stmt with node := .assign dst (.objectGet (.var src) projection valueTy ownershipGet) }], ∅)
  | .objectSet obj projection value valueTy .unknown =>
    if isRefTy valueTy then
      let (live, ownershipSet) : Bool × OwnershipOp :=
        match value with
        | .var v => (liveAfter v.id, if liveAfter v.id then .share else .own)
        | _ => (false, .own)
      let noRelease : IntSet :=
        if live then ∅
        else
          match value with
          | .var v => {v.id}
          | _ => ∅
      let (oldVar, oldStmt) := mkGetReleaseTmp fresh obj projection valueTy
      ([oldStmt, mkRelease (fresh 2) oldVar,
        { stmt with node := .objectSet obj projection value valueTy ownershipSet }], noRelease)
    else ([{ stmt with node := .objectSet obj projection value valueTy .constant }], ∅)
  | .call dst target args =>
    let acc := args.foldl (annotateArg liveAfter) ([], ∅)
    ([{ stmt with node := .call dst target acc.1.reverse }], acc.2)
  | .storeGlobal global value .unknown =>
    let (live, ownershipStore) : Bool × OwnershipOp :=
      match value with
      | .var v =>
        if isRefTy v.ty then (liveAfter v.id, if liveAfter v.id then .share else .transfer)
        else (true, .constant)
      | _ => (true, .constant)
    let noRelease : IntSet :=
      if live then ∅
      else
        match value with
        | .var v => {v.id}
        | _ => ∅
    ([{ stmt with node := .storeGlobal global value ownershipStore }], noRelease)
  | .assign _ (.move (.var v)) => ([stmt], if isRefTy v.ty then {v.id} else ∅)
  | .assign dst (.cast (.var v) toTy .unknown) =>
    if isRefTy v.ty ∧ ¬ isRefTy dst.ty then
      -- an object is handed to the i64 carrier
      ([{ stmt with node := .assign dst (.cast (.var v) toTy
          (if liveAfter v.id then .borrow else .transfer)) }],
        if liveAfter v.id then ∅ else {v.id})
    else ([{ stmt with node := .assign dst (.cast (.var v) toTy .transfer) }], ∅)
  | .assign dst (.cast src toTy .unknown) =>
    ([{ stmt with node := .assign dst (.cast src toTy .transfer) }], ∅)
  | _ => ([stmt], ∅)

def annotateTerminator : TerminatorNode → TerminatorNode
  | .ret (some op) .unknown => .ret (some op) .own
  | t => t

def annotateStatements (fresh : Id → Id → Id) (stmts : IntMap LiveInfoStmt) (varMap : IntMap Var)
    (stmt : Statement) : List Statement :=
  let (annotated, noRelease) :=
    annotateStmt (fresh stmt.id) (isLiveAfter stmts stmt.id) stmt
  annotated ++ releasesOfDeadObj (fresh stmt.id) stmts stmt.id noRelease varMap

def annotateBlock (fresh : Id → Id → Id) (liveMap : LiveMap) (varMap : IntMap Var) (block : Block) :
    Block :=
  let blockEntryDead :=
    match liveMap.blocks.findOpt block.id with
    | some info => info.deadEntry
    | none => ∅
  { block with
    statements := mkReleases (fresh block.id) blockEntryDead varMap ++
      block.statements.flatMap (annotateStatements fresh liveMap.stmts varMap)
    terminator := annotateTerminator block.terminator }

def annotateFunction (fresh : Id → Id → Id) (fn : FunctionOir) : Except String FunctionOir := do
  let liveMap ← fn.analyze
  return { fn with blocks := fn.blocks.map (annotateBlock fresh liveMap (buildVarMap fn)) }

end Syli.Compiler
