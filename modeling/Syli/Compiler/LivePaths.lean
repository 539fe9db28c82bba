import Syli.Compiler.LiveSets

/-! The liveness analysis finds the variables that a path uses before it defines them. -/
namespace Syli.Compiler

open Foundation

variable {fn : FunctionOir} {b : Block} {s : Statement} {rest : List Statement} {v : Id}

def operandVars : Operand → List Var
  | .var v => [v]
  | .constant _ _ => []

def projectionVars : Projection → List Var
  | .array index => operandVars index
  | .field _ | .variant _ _ => []

def rvalueVars : RvalueNode → List Var
  | .binOp _ lhs rhs => operandVars lhs ++ operandVars rhs
  | .unOp _ operand => operandVars operand
  | .objectGet obj projection _ _ => operandVars obj ++ projectionVars projection
  | .objectLength obj | .objectSize obj | .objectGetTag obj => operandVars obj
  | .cast src _ _ | .move src => operandVars src
  | .addrFn _ => []

/-- The variables that a statement reads, but for the pointer of a function that is called, which is
no reference. -/
def readVars : StatementNode → List Var
  | .assign _ rvalue => rvalueVars rvalue
  | .objectSet obj projection value _ _ => obj :: projectionVars projection ++ operandVars value
  | .objectCreate _ length => operandVars length
  | .call _ _ args => args.flatMap fun a => operandVars a.operand
  | .storeGlobal _ value _ => operandVars value
  | .release obj => [obj]
  | .gcCycle | .nop => []

def writtenVar : StatementNode → Option Var
  | .assign dst _ | .objectCreate dst _ | .call dst _ _ => some dst
  | _ => none

def terminatorVars : TerminatorNode → List Var
  | .ret (some op) _ => operandVars op
  | .condBr cond _ _ => [cond]
  | .switch scrutinee _ _ => [scrutinee]
  | .ret none _ | .goto _ | .matchFailure => []

/-- Only references are released. -/
def UsesRef (s : Statement) (v : Id) : Prop :=
  ∃ x ∈ readVars s.node, x.id = v ∧ (isRefTy x.ty = true ∨ s.node = .release x)

def DefinesRef (s : Statement) (v : Id) : Prop :=
  ∃ x, writtenVar s.node = some x ∧ x.id = v ∧ isRefTy x.ty = true

def TerminatorUsesRef (b : Block) (v : Id) : Prop :=
  ∃ x ∈ terminatorVars b.terminator, x.id = v ∧ isRefTy x.ty = true

/-- Some path that starts with the statements `rest` of the block comes to a point with the property
`goal` before the variable is defined. -/
inductive Comes (fn : FunctionOir) (v : Id) (goal : Block → List Statement → Prop) :
    Block → List Statement → Prop where
  | here {b : Block} {rest : List Statement} : goal b rest → Comes fn v goal b rest
  | skip {b : Block} {s : Statement} {rest : List Statement} :
      ¬ DefinesRef s v → Comes fn v goal b rest → Comes fn v goal b (s :: rest)
  | edge {b b' : Block} : b' ∈ fn.blocks → b'.id ∈ successors b →
      Comes fn v goal b' b'.statements → Comes fn v goal b []

/-- The next statement, or the terminator, uses the variable. -/
def UsedNext (v : Id) (b : Block) : List Statement → Prop
  | s :: _ => UsesRef s v
  | [] => TerminatorUsesRef b v

/-- The terminator comes next, and may enter the function's first block. -/
def EntersNext (fn : FunctionOir) (b : Block) : List Statement → Prop
  | _ :: _ => False
  | [] => fn.entryBlock ∈ successors b

/-- The variable is used before it is defined, where entering the first block again counts as a use
of each reference parameter. -/
def LiveThere (fn : FunctionOir) (b : Block) (rest : List Statement) (v : Id) : Prop :=
  Comes fn v (UsedNext v) b rest ∨
    v ∈ fn.entryParams ∧ Comes fn v (EntersNext fn) b rest

theorem mem_varsOfOperand_iff {op : Operand} :
    v ∈ varsOfOperand op ↔ ∃ x ∈ operandVars op, x.id = v ∧ isRefTy x.ty = true := by
  cases op with
  | constant c ty => simp [varsOfOperand, operandVars]
  | var x =>
    by_cases hx : isRefTy x.ty = true
    · simp [varsOfOperand, operandVars, hx, eq_comm (a := v)]
    · simp [varsOfOperand, operandVars, hx]

theorem mem_varsOfProjection {projection : Projection} : v ∈ varsOfProjection projection ↔
    ∃ x ∈ projectionVars projection, x.id = v ∧ isRefTy x.ty = true := by
  cases projection with
  | array index => exact mem_varsOfOperand_iff
  | field _ => simp [varsOfProjection, projectionVars]
  | variant _ _ => simp [varsOfProjection, projectionVars]

theorem mem_varsOfRvalue {rvalue : RvalueNode} :
    v ∈ varsOfRvalue rvalue ↔ ∃ x ∈ rvalueVars rvalue, x.id = v ∧ isRefTy x.ty = true := by
  cases rvalue <;>
    simp [varsOfRvalue, rvalueVars, mem_varsOfOperand_iff, mem_varsOfProjection, or_and_right,
      exists_or]

theorem mem_foldl_varsOfOperand {args : List Arg} {acc : IntSet} :
    v ∈ args.foldl (fun s a => s ∪ varsOfOperand a.operand) acc ↔
      v ∈ acc ∨ ∃ a ∈ args, v ∈ varsOfOperand a.operand := by
  induction args generalizing acc with
  | nil => simp
  | cons a args ih =>
    rw [List.foldl_cons, ih]
    simp [or_assoc]

/-- The uses that the analysis takes from a statement are the references it reads. -/
theorem mem_refUseOfStmt : v ∈ refUseOfStmt s ↔ UsesRef s v := by
  obtain ⟨id, node⟩ := s
  cases node with
  | assign dst rvalue => simp [refUseOfStmt, UsesRef, readVars, mem_varsOfRvalue]
  | objectSet obj projection value valueTy op =>
    simp [refUseOfStmt, UsesRef, readVars, mem_varsOfOperand_iff, mem_varsOfProjection,
      or_and_right, exists_or, operandVars]
  | objectCreate dst length => simp [refUseOfStmt, UsesRef, readVars, mem_varsOfOperand_iff]
  | call dst target args =>
    simp only [refUseOfStmt, UsesRef, readVars, mem_foldl_varsOfOperand, mem_varsOfOperand_iff,
      List.mem_flatMap, Finset.notMem_empty, false_or, reduceCtorEq, or_false]
    constructor
    · rintro ⟨a, ha, x, hx, hid⟩
      exact ⟨x, ⟨a, ha, hx⟩, hid⟩
    · rintro ⟨x, ⟨a, ha, hx⟩, hid⟩
      exact ⟨a, ha, x, hx, hid⟩
  | storeGlobal global value op => simp [refUseOfStmt, UsesRef, readVars, mem_varsOfOperand_iff]
  | release obj => simp [refUseOfStmt, UsesRef, readVars, eq_comm (a := v)]
  | gcCycle => simp [refUseOfStmt, UsesRef, readVars]
  | nop => simp [refUseOfStmt, UsesRef, readVars]

theorem mem_refDefOfStmt : v ∈ refDefOfStmt s ↔ DefinesRef s v := by
  have hdst : ∀ dst : Var, (v ∈ if isRefTy dst.ty then ({dst.id} : IntSet) else ∅) ↔
      dst.id = v ∧ isRefTy dst.ty = true := by
    intro dst
    by_cases hd : isRefTy dst.ty = true
    · simp [hd, eq_comm (a := v)]
    · simp [hd]
  obtain ⟨id, node⟩ := s
  cases node with
  | assign dst rvalue => simp [refDefOfStmt, DefinesRef, writtenVar, hdst]
  | objectCreate dst length => simp [refDefOfStmt, DefinesRef, writtenVar, hdst]
  | call dst target args => simp [refDefOfStmt, DefinesRef, writtenVar, hdst]
  | _ => simp [refDefOfStmt, DefinesRef, writtenVar]

theorem mem_terminatorUses : v ∈ terminatorUses b.terminator ↔ TerminatorUsesRef b v := by
  unfold TerminatorUsesRef
  cases b.terminator with
  | ret operand op => cases operand <;> simp [terminatorUses, terminatorVars, mem_varsOfOperand_iff]
  | condBr cond _ _ => simp [terminatorUses, terminatorVars, mem_varsOfOperand_iff, operandVars]
  | switch scrutinee _ _ =>
    simp [terminatorUses, terminatorVars, mem_varsOfOperand_iff, operandVars]
  | goto _ => simp [terminatorUses, terminatorVars]
  | matchFailure => simp [terminatorUses, terminatorVars]

theorem LiveThere.skip (hdef : ¬ DefinesRef s v) (h : LiveThere fn b rest v) :
    LiveThere fn b (s :: rest) v := by
  rcases h with h | ⟨hv, h⟩
  · exact Or.inl (.skip hdef h)
  · exact Or.inr ⟨hv, .skip hdef h⟩

theorem LiveThere.edge {b' : Block} (hb : b' ∈ fn.blocks) (hs : b'.id ∈ successors b)
    (h : LiveThere fn b' b'.statements v) : LiveThere fn b [] v := by
  rcases h with h | ⟨hv, h⟩
  · exact Or.inl (.edge hb hs h)
  · exact Or.inr ⟨hv, .edge hb hs h⟩

theorem liveThere_of_liveAt (h : LiveAt fn b rest v) : LiveThere fn b rest v := by
  induction h with
  | use hv => exact Or.inl (.here (mem_refUseOfStmt.mp hv))
  | skip hdef _ ih => exact ih.skip fun hd => hdef (mem_refDefOfStmt.mpr hd)
  | term hv => exact Or.inl (.here (mem_terminatorUses.mp hv))
  | edge hb _ hs _ ih => exact ih.edge hb hs
  | again hs hv => exact Or.inr ⟨hv, .here hs⟩

theorem liveAt_of_comes {goal : Block → List Statement → Prop}
    (hreach : ∀ b ∈ fn.blocks, Reachable fn.blocks fn.entryBlock b.id)
    (hgoal : ∀ b rest, goal b rest → LiveAt fn b rest v) (h : Comes fn v goal b rest) :
    LiveAt fn b rest v := by
  induction h with
  | here h => exact hgoal _ _ h
  | skip hdef _ ih => exact .skip (fun hd => hdef (mem_refDefOfStmt.mp hd)) ih
  | edge hb hs _ ih => exact .edge hb (hreach _ hb) hs ih

theorem liveAt_iff (hreach : ∀ b ∈ fn.blocks, Reachable fn.blocks fn.entryBlock b.id) :
    LiveAt fn b rest v ↔ LiveThere fn b rest v := by
  constructor
  · exact liveThere_of_liveAt
  · rintro (h | ⟨hv, h⟩)
    · apply liveAt_of_comes hreach ?_ h
      rintro b (_ | ⟨s, rest⟩) hu
      · exact .term (mem_terminatorUses.mpr hu)
      · exact .use (mem_refUseOfStmt.mpr hu)
    · apply liveAt_of_comes hreach ?_ h
      rintro b (_ | ⟨s, rest⟩) he
      · exact .again he hv
      · exact he.elim

/-- Where no block enters the first one, the live references are those that some path uses. -/
theorem liveThere_iff_of_not_entered (hentry : ∀ b ∈ fn.blocks, fn.entryBlock ∉ successors b)
    (hb : b ∈ fn.blocks) : LiveThere fn b rest v ↔ Comes fn v (UsedNext v) b rest := by
  have hnever : ∀ b rest, Comes fn v (EntersNext fn) b rest → b ∈ fn.blocks → False := by
    intro b rest h
    induction h with
    | @here b rest h =>
      intro hb
      cases rest with
      | nil => exact hentry b hb h
      | cons s rest => exact h
    | skip _ _ ih => exact ih
    | edge hb' _ _ ih => exact fun _ => ih hb'
  constructor
  · rintro (h | ⟨-, h⟩)
    · exact h
    · exact (hnever _ _ h hb).elim
  · exact Or.inl

namespace FunctionOir

/-- The runs of the loop of the analysis that stop. -/
inductive FixpointStops (fn : FunctionOir) : IntMap IntSet → IntMap IntSet → Prop where
  | stop {entries : IntMap IntSet} : ¬ fn.Changed entries →
      FixpointStops fn entries (fn.pass entries)
  | again {entries result : IntMap IntSet} : fn.Changed entries →
      FixpointStops fn (fn.pass entries) result → FixpointStops fn entries result

theorem fixpointStops_fixpoint {n k : Nat} {entries : IntMap IntSet} (hk : k < n)
    (hc : ¬ fn.Changed (fn.pass^[k] entries)) :
    fn.FixpointStops entries (fn.fixpoint n entries) := by
  induction n generalizing entries k with
  | zero => omega
  | succ n ih =>
    unfold fixpoint
    split
    · rename_i hch
      cases k with
      | zero => exact absurd hch hc
      | succ k => exact .again hch (ih (by omega) hc)
    · rename_i hch
      exact .stop hch

theorem fixpointStops_blockEntries (hwf : fn.WellFormed) :
    fn.FixpointStops [] fn.blockEntries := by
  obtain ⟨k, hk, hstable⟩ := iterate_stable (liveSize_le hwf) (liveSize_lt hwf)
  exact fixpointStops_fixpoint (Nat.lt_succ_of_le hk) hstable

/-- The infos of the blocks, of which the ids are distinct. -/
theorem findOpt_blockInfos {info : Block → LiveInfoBlock} (hwf : fn.WellFormed)
    (hb : b ∈ fn.blocks) :
    (fn.blocks.foldl (fun blocks b => AssocMap.add blocks b.id (info b)) []).findOpt b.id =
      some (info b) :=
  @findOpt_foldl_add _ _ Block.id info _ _ _ hwf.blocks_nodup hb

/-- The analysis stops, and its sets hold exactly the references that are live at their points. -/
theorem analyze_exact (hwf : fn.WellFormed)
    (hreach : ∀ b ∈ fn.blocks, Reachable fn.blocks fn.entryBlock b.id) :
    fn.FixpointStops [] fn.blockEntries ∧ ∃ live, fn.analyze = .ok live ∧
      (∀ b ∈ fn.blocks, ∀ pre s post, b.statements = pre ++ s :: post →
        ∃ info, live.stmts.findOpt s.id = some info ∧
          (∀ v, v ∈ info.liveAfter ↔ LiveThere fn b post v) ∧
          (∀ v, v ∈ info.liveBefore ↔ LiveThere fn b (s :: post) v)) ∧
      (∀ b ∈ fn.blocks, b.id ≠ fn.entryBlock →
        ∃ info, live.blocks.findOpt b.id = some info ∧ ∀ v, v ∈ info.deadEntry ↔
          (∀ p ∈ fn.blocks, b.id ∈ successors p → LiveThere fn p [] v) ∧
            ¬ LiveThere fn b b.statements v) := by
  have hok : ∀ id ∈ fn.order, ((buildBlockMap fn.blocks).findOpt id).isSome := by
    intro id hid
    obtain ⟨b, hb, rfl⟩ := exists_of_mem_order hwf hid
    rw [findOpt_buildBlockMap hwf.blocks_nodup hb]
    rfl
  refine ⟨fixpointStops_blockEntries hwf, _, if_pos hok, ?_, ?_⟩
  · intro b hb pre s post hs
    refine ⟨_, findOpt_stmtResult hwf hb hs, fun v => ?_, fun v => ?_⟩
    · exact (mem_liveBefore_iff hwf hb).trans (liveAt_iff hreach)
    · exact (mem_liveBefore_iff hwf hb).trans (liveAt_iff hreach)
  · intro b hb hne
    refine ⟨_, findOpt_blockInfos hwf hb, fun v => ?_⟩
    obtain ⟨p, hp, -, hs⟩ := exists_pred (hreach b hb) hne
    have hentry : v ∈ look fn.blockEntries b.id ↔ LiveThere fn b b.statements v := by
      rw [mem_blockEntries hwf hb (hreach b hb), LiveEntry, ← liveAt_iff hreach]
      simp [hne]
    have hends : ∀ q ∈ fn.blocks, (v ∈ fn.endLive q ↔ LiveThere fn q [] v) :=
      fun q hq => (mem_endLive hwf hq).trans (liveAt_iff hreach)
    rw [mem_deadEntry hwf hne hp hs, hentry, and_comm]
    refine and_congr_left fun _ => forall₂_congr fun q hq => ?_
    rw [hends q hq]

/-- A branch on a number: one side calls a function with an object that the entry made, and at the
join the result of the call, or the null of the other side, is returned. -/
def joinFunction : FunctionOir :=
  let made : Var := ⟨1, .obj⟩
  let cond : Var := ⟨2, .bool⟩
  let result : Var := ⟨3, .obj⟩
  { params := [cond]
    locals := [made, result]
    entryBlock := 10
    blocks :=
      [⟨10, [⟨20, .objectCreate made (.constant (.intLit "2") .i32)⟩], .condBr cond 11 12⟩,
        ⟨11, [⟨21, .call result (.direct "f") [⟨.var made, .unknown⟩]⟩], .goto 13⟩,
        ⟨12, [⟨22, .assign result (.move (.constant .null .obj))⟩], .goto 13⟩,
        ⟨13, [⟨23, .nop⟩], .ret (some (.var result)) .unknown⟩] }

theorem joinFunction_wellFormed : joinFunction.WellFormed :=
  ⟨by decide, by decide, by decide, by decide⟩

theorem joinFunction_reachable : ∀ b ∈ joinFunction.blocks,
    Reachable joinFunction.blocks joinFunction.entryBlock b.id := by
  have hentry : Reachable joinFunction.blocks 10 10 := .root rfl
  have hthen : Reachable joinFunction.blocks 10 11 := .step hentry (by decide)
  have helse : Reachable joinFunction.blocks 10 12 := .step hentry (by decide)
  have hjoin : Reachable joinFunction.blocks 10 13 := .step hthen (by decide)
  simpa [joinFunction] using ⟨hentry, hthen, helse, hjoin⟩

theorem joinFunction_exact :
    joinFunction.FixpointStops [] joinFunction.blockEntries ∧
      ∃ live, joinFunction.analyze = .ok live ∧
        (∀ b ∈ joinFunction.blocks, ∀ pre s post, b.statements = pre ++ s :: post →
          ∃ info, live.stmts.findOpt s.id = some info ∧
            (∀ v, v ∈ info.liveAfter ↔ LiveThere joinFunction b post v) ∧
            (∀ v, v ∈ info.liveBefore ↔ LiveThere joinFunction b (s :: post) v)) ∧
        (∀ b ∈ joinFunction.blocks, b.id ≠ joinFunction.entryBlock →
          ∃ info, live.blocks.findOpt b.id = some info ∧ ∀ v, v ∈ info.deadEntry ↔
            (∀ p ∈ joinFunction.blocks, b.id ∈ successors p → LiveThere joinFunction p [] v) ∧
              ¬ LiveThere joinFunction b b.statements v) :=
  analyze_exact joinFunction_wellFormed joinFunction_reachable

/-- A function with a parameter that it never uses, and one block that is its own successor. -/
def loopBlock : Block :=
  { id := 0, statements := [{ id := 1, node := .nop }], terminator := .goto 0 }

def loopFunction : FunctionOir :=
  { params := [{ id := 5, ty := .obj }], locals := [], entryBlock := 0, blocks := [loopBlock] }

theorem loopFunction_wellFormed : loopFunction.WellFormed :=
  ⟨by decide, by decide, by decide, by decide⟩

theorem loopFunction_reachable : ∀ b ∈ loopFunction.blocks,
    Reachable loopFunction.blocks loopFunction.entryBlock b.id := by
  intro b hb
  obtain rfl := List.mem_singleton.mp hb
  exact .root rfl

/-- The parameter is found live after the statement, and no path uses it. -/
theorem loopFunction_unused_live :
    loopFunction.WellFormed ∧
    (∀ b ∈ loopFunction.blocks, Reachable loopFunction.blocks loopFunction.entryBlock b.id) ∧
    ∃ live info, loopFunction.analyze = .ok live ∧ live.stmts.findOpt 1 = some info ∧
      5 ∈ info.liveAfter ∧ ¬ Comes loopFunction 5 (UsedNext 5) loopBlock [] := by
  refine ⟨loopFunction_wellFormed, loopFunction_reachable, _, _, rfl, rfl, by decide, ?_⟩
  have hnever : ∀ b rest, Comes loopFunction 5 (UsedNext 5) b rest →
      b = loopBlock → rest = [] ∨ rest = loopBlock.statements → False := by
    intro b rest h
    induction h with
    | here h =>
      rintro rfl (rfl | rfl)
      · simp [UsedNext, TerminatorUsesRef, loopBlock, terminatorVars] at h
      · simp [UsedNext, UsesRef, loopBlock, readVars] at h
    | skip _ _ ih =>
      rintro rfl (hrest | hrest)
      · simp at hrest
      · exact ih rfl (Or.inl (List.cons.inj hrest).2)
    | edge hb _ _ ih =>
      intro _ _
      exact ih (List.mem_singleton.mp hb) (Or.inr (congrArg _ (List.mem_singleton.mp hb)))
  exact fun h => hnever _ _ h rfl (Or.inl rfl)

end FunctionOir

end Syli.Compiler
