import Syli.Compiler.OwnershipReleases

/-! The annotated function gives every owned count up once, on the paths that avoid the statements
and the edges for which the pass places too many or too few releases. -/
namespace Syli.Compiler

open Foundation

variable {fn out : FunctionOir} {b p : Block} {s : Statement} {pre rest post : List Statement}
variable {st : OwnState} {L : IntSet} {v : Id} {fresh : Id → Id → Id} {c : OwnConfig}
variable {next : Option Id}

/-- The variable may reach the statements `rest` of the block without a definition. -/
inductive Undefined (fn : FunctionOir) : Block → List Statement → Id → Prop where
  | entry {b : Block} {v : Id} : b ∈ fn.blocks → b.id = fn.entryBlock → v ∉ fn.entryParams →
      Undefined fn b b.statements v
  | skip {b : Block} {s : Statement} {rest : List Statement} {v : Id} :
      Undefined fn b (s :: rest) v → v ∉ refDefOfStmt s → Undefined fn b rest v
  | edge {b b' : Block} {v : Id} : Undefined fn b [] v → b' ∈ fn.blocks → b'.id ∈ successors b →
      Undefined fn b' b'.statements v

/-- A function as the pass expects it: no marker is set, and on every path a variable is defined
before it is used, and not redefined by a statement before which it is live. -/
structure OwnershipInput (fresh : Id → Id → Id) (fn : FunctionOir) : Prop where
  wellFormed : fn.WellFormed
  params_nodup : (fn.params.map Var.id).Nodup
  unmarked : ∀ b ∈ fn.blocks, ∀ s ∈ b.statements, Unmarked s
  unmarked_ret : ∀ b ∈ fn.blocks, ∀ op marker, b.terminator = .ret (some op) marker →
    marker = .unknown
  defined : ∀ b s rest v, Undefined fn b (s :: rest) v → v ∉ refUseOfStmt s
  defined_end : ∀ b v, Undefined fn b [] v → v ∉ terminatorUses b.terminator
  kept : ∀ b ∈ fn.blocks, ∀ s ∈ b.statements, ∀ v ∈ refDefOfStmt s, v ∉ refUseOfStmt s
  fresh_new : ∀ sid, fresh sid 0 ∉ fn.refVars

/-- The statements of a block, each with the variables live after it, satisfy `P`. -/
def EachStmt (fn : FunctionOir) (b : Block) (P : (Id → Bool) → Statement → Prop) : Prop :=
  ∀ pre s post, b.statements = pre ++ s :: post → ∀ la : Id → Bool,
    (∀ v, la v = true ↔ LiveAt fn b post v) → P la s

/-- The block that a configuration executes. -/
def OwnConfig.Executes (fn : FunctionOir) (c : OwnConfig) (b : Block) : Prop :=
  b ∈ fn.blocks ∧ c.block = some b.id

/-- The step executes a block of statements that give nothing up twice. -/
def OwnOk (fn : FunctionOir) (c : OwnConfig) : Prop :=
  ∀ b, c.Executes fn b → EachStmt fn b StmtOk

/-- A variable that dies on the edge dies on all edges into the block. -/
def EdgeOk (fn : FunctionOir) (p b : Block) : Prop :=
  ∀ v, LiveAt fn p [] v → ¬ fn.LiveEntry b v →
    b.id ≠ fn.entryBlock ∧ ∀ q ∈ fn.blocks, b.id ∈ successors q → LiveAt fn q [] v

/-- The step creates no count that is dead at once, and takes an edge on which no variable dies that
lives on another edge into the same block. -/
def LeakFree (fn : FunctionOir) (c : OwnConfig) (next : Option Id) : Prop :=
  ∀ p, c.Executes fn p → EachStmt fn p LeakOk ∧
    ∀ b ∈ fn.blocks, next = some b.id → EdgeOk fn p b

theorem Undefined.not_param (h : Undefined fn b rest v) : v ∉ fn.entryParams := by
  induction h with
  | entry _ _ hv => exact hv
  | skip _ _ ih => exact ih
  | edge _ _ _ ih => exact ih

theorem Undefined.skip_all (h : Undefined fn b (pre ++ rest) v)
    (hpre : ∀ s ∈ pre, v ∉ refDefOfStmt s) : Undefined fn b rest v := by
  induction pre with
  | nil => exact h
  | cons s pre ih =>
    exact ih (h.skip (hpre s List.mem_cons_self)) fun t ht => hpre t (List.mem_cons_of_mem s ht)

/-- The variable is a parameter or is defined by some statement. -/
def Known (fn : FunctionOir) (v : Id) : Prop :=
  v ∈ fn.entryParams ∨ ∃ b ∈ fn.blocks, ∃ s ∈ b.statements, v ∈ refDefOfStmt s

/-- A variable that nothing defines is undefined in every block that is reached. -/
theorem undefined_of_not_known (hv : ¬ Known fn v)
    (hreach : Reachable fn.blocks fn.entryBlock b.id) (hb : b ∈ fn.blocks) :
    Undefined fn b b.statements v := by
  have hundef : ∀ c ∈ fn.blocks, ∀ s ∈ c.statements, v ∉ refDefOfStmt s :=
    fun c hc s hs hdef => hv (Or.inr ⟨c, hc, s, hs, hdef⟩)
  have hall : ∀ c ∈ fn.blocks, c.id = b.id → Undefined fn c c.statements v := by
    refine hreach.closed (P := fun x => ∀ c ∈ fn.blocks, c.id = x → Undefined fn c c.statements v)
      ?_ ?_
    · rintro x rfl c hc hid
      exact .entry hc hid fun hp => hv (Or.inl hp)
    · rintro x y - ih ⟨p, hp, hpx, hs⟩ c hc rfl
      have hend : Undefined fn p (p.statements ++ []) v := by
        rw [List.append_nil]
        exact ih p hp hpx
      exact .edge (hend.skip_all (hundef p hp)) hc hs
  exact hall b hb rfl

theorem LiveAt.mem_refVars (h : LiveAt fn b rest v) (hb : b ∈ fn.blocks)
    (hrest : ∀ s ∈ rest, s ∈ b.statements) : v ∈ fn.refVars := by
  have hblock : ∀ {b}, b ∈ fn.blocks → terminatorUses b.terminator ∪
      b.statements.toFinset.biUnion refUseOfStmt ⊆ fn.refVars := by
    intro b hb
    refine Finset.Subset.trans ?_ Finset.subset_union_right
    exact Finset.subset_biUnion_of_mem
      (fun b : Block => terminatorUses b.terminator ∪ b.statements.toFinset.biUnion refUseOfStmt)
      (List.mem_toFinset.mpr hb)
  induction h with
  | use hv =>
    refine hblock hb (Finset.mem_union_right _ (Finset.mem_biUnion.mpr ⟨_, ?_, hv⟩))
    exact List.mem_toFinset.mpr (hrest _ List.mem_cons_self)
  | skip _ _ ih => exact ih hb fun t ht => hrest t (List.mem_cons_of_mem _ ht)
  | term hv => exact hblock hb (Finset.mem_union_left _ hv)
  | edge hc _ _ _ ih => exact ih hc fun _ ht => ht
  | again _ hv => exact Finset.mem_union_left _ hv

/-- The holders when a block is entered: the variables live there, and those that it releases. -/
def entryHolders (fn : FunctionOir) (b : Block) : IntSet :=
  look fn.blockEntries b.id ∪ fn.deadEntry b

/-- A block as the pass leaves it. -/
def annotatedBlock (fresh : Id → Id → Id) (fn : FunctionOir) (b : Block) : Block :=
  { b with
    statements := mkReleases (fresh b.id) (fn.deadEntry b) (buildVarMap fn) ++
      b.statements.flatMap (annotateStatements fresh fn.stmtResult (buildVarMap fn))
    terminator := annotateTerminator b.terminator }

def annotated (fresh : Id → Id → Id) (fn : FunctionOir) : FunctionOir :=
  { fn with blocks := fn.blocks.map (annotatedBlock fresh fn) }

theorem annotateFunction_eq (hwf : fn.WellFormed) :
    annotateFunction fresh fn = .ok (annotated fresh fn) := by
  have hfound : ∀ id ∈ fn.order, ((buildBlockMap fn.blocks).findOpt id).isSome := by
    intro id hid
    obtain ⟨b, hb, rfl⟩ := FunctionOir.exists_of_mem_order hwf hid
    rw [findOpt_buildBlockMap hwf.blocks_nodup hb]
    rfl
  unfold annotateFunction FunctionOir.analyze
  rw [if_pos hfound]
  refine congrArg Except.ok (congrArg (fun blocks => { fn with blocks := blocks }) ?_)
  refine List.map_congr_left fun b hb => ?_
  unfold annotateBlock annotatedBlock
  rw [findOpt_foldl_add hwf.blocks_nodup hb]

theorem successors_annotatedBlock : successors (annotatedBlock fresh fn b) = successors b := by
  obtain ⟨bid, stmts, t⟩ := b
  cases t with
  | ret op marker => cases op <;> cases marker <;> rfl
  | goto _ => rfl
  | switch _ _ _ => rfl
  | condBr _ _ _ => rfl
  | matchFailure => rfl

/-- The block to be executed finds the holders that it needs. -/
def Enters (fn : FunctionOir) (c : OwnConfig) : Prop :=
  ∀ id, c.block = some id → ∃ b ∈ fn.blocks, b.id = id ∧
    Reachable fn.blocks fn.entryBlock b.id ∧ Held (entryHolders fn b) c.st

/-- The holders account for all counts, and no count is left after the return. -/
def Balanced (fn : FunctionOir) (c : OwnConfig) : Prop :=
  (∀ b, c.Executes fn b → Accounted (entryHolders fn b) c.st) ∧ (c.block = none → c.st.counts = ∅)

theorem leave_some {sid : Id} : leave b st (some sid) = (do
    st.readTerminator b.terminator
    if sid ∈ successors b then return { block := some sid, st := st } else .error .illegal) := by
  unfold leave
  cases b.terminator with
  | ret op marker => cases op <;> rfl
  | goto _ => rfl
  | switch _ _ _ => rfl
  | condBr _ _ _ => rfl
  | matchFailure => rfl

theorem leave_none (h : ∀ op marker, b.terminator ≠ .ret op marker) :
    leave b st none = .error .illegal := by
  unfold leave
  cases ht : b.terminator with
  | ret op marker => exact absurd ht (h op marker)
  | goto _ => rfl
  | switch _ _ _ => rfl
  | condBr _ _ _ => rfl
  | matchFailure => rfl

namespace OwnershipInput

variable (h : OwnershipInput fresh fn)
include h

theorem not_live_of_undefined (hu : Undefined fn b rest v) (hv : LiveAt fn b rest v) : False := by
  induction hv with
  | use hv => exact h.defined _ _ _ _ hu hv
  | skip hdef _ ih => exact ih (hu.skip hdef)
  | term hv => exact h.defined_end _ _ hu hv
  | edge hb _ hs _ ih => exact ih (hu.edge hb hs)
  | again _ hv => exact hu.not_param hv

/-- What is live was defined somewhere. -/
theorem known_of_live (hb : b ∈ fn.blocks) (hreach : Reachable fn.blocks fn.entryBlock b.id)
    (hs : b.statements = pre ++ rest) (hv : LiveAt fn b rest v) : Known fn v := by
  by_contra hnot
  have hu := undefined_of_not_known hnot hreach hb
  rw [hs] at hu
  refine h.not_live_of_undefined (hu.skip_all fun s hmem hdef => hnot (Or.inr ⟨b, hb, s, ?_, hdef⟩))
    hv
  rw [hs]
  exact List.mem_append_left rest hmem

/-- The statements of a block take the holders of the variables live before them to those of the
variables live at the end. -/
theorem takes_statements (hb : b ∈ fn.blocks) (hreach : Reachable fn.blocks fn.entryBlock b.id)
    (hok : EachStmt fn b StmtOk) (hs : b.statements = pre ++ rest)
    (hheld : Held (liveBefore (fn.endLive b) rest) st) :
    Takes (liveBefore (fn.endLive b) rest) (fn.endLive b) st (EachStmt fn b LeakOk)
      (st.execAll (rest.flatMap (annotateStatements fresh fn.stmtResult (buildVarMap fn)))) := by
  have hwf := h.wellFormed
  induction rest generalizing pre st with
  | nil => exact .intro hheld fun ha _ => ha
  | cons s rest ih =>
    have hmem : s ∈ b.statements := by
      rw [hs]
      exact List.mem_append_right pre List.mem_cons_self
    have hinfo := FunctionOir.findOpt_stmtResult hwf hb hs
    have hla : ∀ v, isLiveAfter fn.stmtResult s.id v = true ↔ LiveAt fn b rest v := by
      intro v
      simp only [isLiveAfter, hinfo, decide_eq_true_eq]
      exact FunctionOir.mem_liveBefore_iff hwf hb
    have hfresh : fresh s.id 0 ∉ liveBefore (fn.endLive b) (s :: rest) := by
      intro hv
      refine h.fresh_new s.id (((FunctionOir.mem_liveBefore_iff hwf hb).mp hv).mem_refVars hb ?_)
      intro t ht
      rw [hs]
      exact List.mem_append_right pre ht
    obtain ⟨st₁, hst₁, hheld₁, hacc₁⟩ := hheld.annotated hinfo (h.unmarked b hb s hmem)
      (hok pre s rest hs _ hla) (h.kept b hb s hmem) (keyed_buildVarMap fn) hfresh
    have hs' : b.statements = (pre ++ [s]) ++ rest := by
      rw [hs, List.append_assoc]
      rfl
    obtain ⟨st₂, hst₂, hheld₂, hacc₂⟩ := ih hs' hheld₁
    refine ⟨st₂, ?_, hheld₂, fun ha hleak => hacc₂ (hacc₁ ha ⟨hleak pre s rest hs _ hla, ?_⟩) hleak⟩
    · rw [List.flatMap_cons, execAll_append, hst₁]
      exact hst₂
    · exact fun v hv => bound_buildVarMap
        (h.known_of_live hb hreach hs ((FunctionOir.mem_liveBefore_iff hwf hb).mp hv))

/-- The releases at the entry of a block leave the variables live before its first statement. -/
theorem entryHolders_sdiff (hb : b ∈ fn.blocks)
    (hreach : Reachable fn.blocks fn.entryBlock b.id) :
    entryHolders fn b \ fn.deadEntry b = liveBefore (fn.endLive b) b.statements ∧
      ∀ v ∈ fn.deadEntry b, Known fn v := by
  have hwf := h.wellFormed
  have hfirst := FunctionOir.blockEntries_first hwf hb ((FunctionOir.mem_order hwf).mpr hreach)
  unfold entryHolders
  rw [Finset.union_sdiff_right]
  by_cases hid : b.id = fn.entryBlock
  · have hdead := FunctionOir.deadEntry_entry hwf hb hid
    rw [if_pos hid] at hfirst
    rw [hdead, hfirst]
    constructor
    · rw [Finset.sdiff_sdiff_eq_self Finset.subset_union_right]
    · intro v hv
      simp only [Finset.mem_sdiff, Finset.mem_union] at hv
      exact Or.inl (hv.1.resolve_right hv.2)
  · obtain ⟨p, hp, hpreach, hs⟩ := exists_pred hreach hid
    have hdead := fun v => FunctionOir.mem_deadEntry (v := v) hwf hid hp hs
    rw [if_neg hid] at hfirst
    constructor
    · rw [← hfirst]
      exact Finset.sdiff_eq_self_of_disjoint
        (Finset.disjoint_right.mpr fun v hv => ((hdead v).mp hv).1)
    · intro v hv
      have hlive := (FunctionOir.mem_endLive hwf hp).mp (((hdead v).mp hv).2 p hp hs)
      exact h.known_of_live hp hpreach (List.append_nil _).symm hlive

/-- A block takes the holders at its entry to those of the variables live at its end. -/
theorem takes_block (hb : b ∈ fn.blocks) (hreach : Reachable fn.blocks fn.entryBlock b.id)
    (hok : EachStmt fn b StmtOk) (hheld : Held (entryHolders fn b) st) :
    Takes (entryHolders fn b) (fn.endLive b) st (EachStmt fn b LeakOk)
      (st.execAll (annotatedBlock fresh fn b).statements) := by
  obtain ⟨heq, hknown⟩ := h.entryHolders_sdiff hb hreach
  have hsub : fn.deadEntry b ⊆ entryHolders fn b := Finset.subset_union_right
  obtain ⟨st₁, hst₁, hheld₁, hacc₁⟩ := hheld.mkReleases (fresh b.id)
    (keyed_buildVarMap fn) hsub
  rw [heq] at hheld₁ hacc₁
  obtain ⟨st₂, hst₂, hheld₂, hacc₂⟩ := h.takes_statements hb hreach hok (List.nil_append _).symm hheld₁
  refine ⟨st₂, ?_, hheld₂, fun ha hleak =>
    hacc₂ (hacc₁ ha fun v hv => bound_buildVarMap (hknown v hv)) hleak⟩
  rw [annotatedBlock, execAll_append, hst₁]
  exact hst₂

theorem findOpt_annotated (hb : b ∈ fn.blocks) :
    (buildBlockMap (annotated fresh fn).blocks).findOpt b.id = some (annotatedBlock fresh fn b) := by
  have hids : (annotated fresh fn).blocks.map Block.id = fn.blocks.map Block.id := by
    simp [annotated, annotatedBlock]
  have hmem : annotatedBlock fresh fn b ∈ (annotated fresh fn).blocks := List.mem_map_of_mem hb
  exact findOpt_buildBlockMap (hids ▸ h.wellFormed.blocks_nodup) hmem

/-- The holders at the end of a block hold what the next block needs. -/
theorem entryHolders_subset (hp : p ∈ fn.blocks) (hb : b ∈ fn.blocks)
    (hs : b.id ∈ successors p) : entryHolders fn b ⊆ fn.endLive p := by
  have hwf := h.wellFormed
  have hlook : look fn.blockEntries b.id ⊆ fn.endLive p := fun v hv =>
    (mem_liveAtEndOf hwf hp).mpr (Or.inl ⟨b.id, hs, hv⟩)
  refine Finset.union_subset hlook ?_
  by_cases hid : b.id = fn.entryBlock
  · rw [FunctionOir.deadEntry_entry hwf hb hid]
    exact Finset.sdiff_subset.trans hlook
  · exact fun v hv => ((FunctionOir.mem_deadEntry hwf hid hp hs).mp hv).2 p hp hs

/-- On an edge that is `EdgeOk`, the next block needs or releases all that is held. -/
theorem endLive_subset (hp : p ∈ fn.blocks) (hb : b ∈ fn.blocks) (hs : b.id ∈ successors p)
    (hreach : Reachable fn.blocks fn.entryBlock b.id) (hedge : EdgeOk fn p b) :
    fn.endLive p ⊆ entryHolders fn b := by
  have hwf := h.wellFormed
  intro v hv
  by_cases hlive : fn.LiveEntry b v
  · exact Finset.mem_union_left _ ((FunctionOir.mem_blockEntries hwf hb hreach).mpr hlive)
  · obtain ⟨hid, hall⟩ := hedge v ((FunctionOir.mem_endLive hwf hp).mp hv) hlive
    refine Finset.mem_union_right _ ((FunctionOir.mem_deadEntry hwf hid hp hs).mpr ⟨?_, ?_⟩)
    · exact fun hmem => hlive ((FunctionOir.mem_blockEntries hwf hb hreach).mp hmem)
    · exact fun q hq hqs => (FunctionOir.mem_endLive hwf hq).mpr (hall q hq hqs)

/-- The edges and the return take the holders at the end of a block over. -/
theorem leave_annotated (hb : b ∈ fn.blocks) (hreach : Reachable fn.blocks fn.entryBlock b.id)
    (hend : Held (fn.endLive b) st) :
    leave (annotatedBlock fresh fn b) st next = .error .illegal ∨
      ∃ c', leave (annotatedBlock fresh fn b) st next = .ok c' ∧ Enters fn c' ∧
        (Accounted (fn.endLive b) st →
          (∀ b' ∈ fn.blocks, next = some b'.id → EdgeOk fn b b') → Balanced fn c') := by
  have hwf := h.wellFormed
  have huses : terminatorUses b.terminator ⊆ fn.endLive b := fun v hv =>
    (mem_liveAtEndOf hwf hb).mpr (Or.inr hv)
  cases next with
  | some sid =>
    have hread : st.readTerminator (annotateTerminator b.terminator) = .ok () := by
      cases ht : b.terminator with
      | goto target => rfl
      | switch scrutinee cases default =>
        rw [ht] at huses
        exact hend.read huses
      | condBr cond thenBlock elseBlock =>
        rw [ht] at huses
        exact hend.read huses
      | ret op marker => cases op <;> cases marker <;> rfl
      | matchFailure => rfl
    have hleave : leave (annotatedBlock fresh fn b) st (some sid) =
        if sid ∈ successors b then .ok { block := some sid, st := st } else .error .illegal := by
      rw [leave_some, successors_annotatedBlock]
      exact congrArg (Except.bind · _) hread
    rw [hleave]
    by_cases hs : sid ∈ successors b
    · obtain ⟨b', hb', rfl⟩ := List.mem_map.mp (hwf.targets b hb sid hs)
      have hreach' : Reachable fn.blocks fn.entryBlock b'.id := hreach.step ⟨b, hb, rfl, hs⟩
      rw [if_pos hs]
      refine Or.inr ⟨_, rfl, ?_, fun ha hedges => ⟨?_, fun hnone => (by cases hnone)⟩⟩
      · rintro id hid
        obtain rfl := Option.some.inj hid
        exact ⟨b', hb', rfl, hreach', hend.mono (h.entryHolders_subset hb hb' hs)⟩
      · rintro d ⟨hd, hid⟩
        obtain rfl : b' = d := List.inj_on_of_nodup_map hwf.blocks_nodup hb' hd
          (Option.some.inj hid)
        exact ha.mono (h.endLive_subset hb hb' hs hreach' (hedges b' hb' rfl))
    · rw [if_neg hs]
      exact Or.inl rfl
  | none =>
    have hreturn : ∀ {st' : OwnState}, (Accounted (fn.endLive b) st → Accounted ∅ st') →
        Enters fn { block := none, st := st' } ∧ (Accounted (fn.endLive b) st →
          (∀ b' ∈ fn.blocks, none = some b'.id → EdgeOk fn b b') →
            Balanced fn { block := none, st := st' }) := by
      intro st' hacc
      refine ⟨fun id hid => (by cases hid), fun ha _ => ⟨fun d hd => (by cases hd.2),
        fun _ => Finset.eq_empty_of_forall_notMem fun t ht => ?_⟩⟩
      obtain ⟨v, hv, -⟩ := hacc ha t ht
      exact absurd hv (Finset.notMem_empty v)
    have hlast : successors b = [] → fn.endLive b ⊆ terminatorUses b.terminator := by
      intro hs v hv
      rcases (mem_liveAtEndOf hwf hb).mp hv with ⟨sid, hsid, -⟩ | hv
      · rw [hs] at hsid
        cases hsid
      · exact hv
    cases ht : b.terminator with
    | ret op marker =>
      have hs : successors b = [] := by rw [successors, ht]
      cases op with
      | none =>
        have hleave : leave (annotatedBlock fresh fn b) st none =
            .ok { block := none, st := st } := by
          unfold leave annotatedBlock
          simp only [ht]
          rfl
        have hempty := hlast hs
        rw [ht] at hempty
        exact Or.inr ⟨_, hleave, hreturn fun ha => ha.mono hempty⟩
      | some op =>
        obtain rfl := h.unmarked_ret b hb op marker ht
        rw [ht] at huses
        have hempty := hlast hs
        rw [ht] at hempty
        obtain ⟨st', hst', hheld, hacc⟩ := hend.hand (K := True) .own huses
        have hleave : leave (annotatedBlock fresh fn b) st none =
            .ok { block := none, st := st' } := by
          unfold leave annotatedBlock
          simp only [ht, annotateTerminator, hst']
          rfl
        refine Or.inr ⟨_, hleave, hreturn fun ha => (hacc ha trivial).mono ?_⟩
        exact (Finset.sdiff_eq_empty_iff_subset.mpr hempty).subset
    | goto target => exact Or.inl (leave_none (by simp [annotatedBlock, annotateTerminator, ht]))
    | switch scrutinee cases default =>
      exact Or.inl (leave_none (by simp [annotatedBlock, annotateTerminator, ht]))
    | condBr cond thenBlock elseBlock =>
      exact Or.inl (leave_none (by simp [annotatedBlock, annotateTerminator, ht]))
    | matchFailure => exact Or.inl (leave_none (by simp [annotatedBlock, annotateTerminator, ht]))

/-- A step of the annotated function fails only where it is no step of the function. -/
theorem ownStep_annotated (hb : b ∈ fn.blocks) (hc : c.block = some b.id)
    (hreach : Reachable fn.blocks fn.entryBlock b.id) (hheld : Held (entryHolders fn b) c.st)
    (hok : EachStmt fn b StmtOk) :
    (annotated fresh fn).ownStep c next = .error .illegal ∨
      ∃ c', (annotated fresh fn).ownStep c next = .ok c' ∧ Enters fn c' ∧
        (Accounted (entryHolders fn b) c.st → EachStmt fn b LeakOk →
          (∀ b' ∈ fn.blocks, next = some b'.id → EdgeOk fn b b') → Balanced fn c') := by
  obtain ⟨st, hst, hend, hacc⟩ := h.takes_block hb hreach hok hheld
  have hfind : c.block.bind (buildBlockMap (annotated fresh fn).blocks).findOpt =
      some (annotatedBlock fresh fn b) := by
    rw [hc]
    exact h.findOpt_annotated hb
  have hstep : (annotated fresh fn).ownStep c next = leave (annotatedBlock fresh fn b) st next := by
    unfold FunctionOir.ownStep
    rw [hfind]
    simp only [hst]
    rfl
  rw [hstep]
  rcases h.leave_annotated hb hreach hend with herr | ⟨c', hc', henters, hbal⟩
  · exact Or.inl herr
  · exact Or.inr ⟨c', hc', henters, fun ha hleak => hbal (hacc ha hleak)⟩

omit h in
/-- The parameters come with distinct counts. -/
theorem held_params {l : List Var} (hn : (l.map Var.id).Nodup) (hheld : Held L st)
    (hacc : Accounted L st) (hL : ∀ p ∈ l, p.id ∉ L) :
    ∃ M, Held M (l.foldl OwnState.defineOwn st) ∧ Accounted M (l.foldl OwnState.defineOwn st) ∧
      ∀ v, v ∈ M ↔ v ∈ L ∨ ∃ p ∈ l, isRefTy p.ty ∧ p.id = v := by
  induction l generalizing L st with
  | nil => exact ⟨L, hheld, hacc, by simp⟩
  | cons p l ih =>
    rw [List.map_cons, List.nodup_cons] at hn
    rw [List.foldl_cons]
    have hnot : ∀ q ∈ l, q.id ≠ p.id := fun q hq heq =>
      hn.1 (List.mem_map.mpr ⟨q, hq, heq⟩)
    by_cases href : isRefTy p.ty
    · obtain ⟨hh, ha⟩ := hheld.defineOwn (hL p List.mem_cons_self) href
      obtain ⟨M, hM, haM, hmem⟩ := ih hn.2 hh (ha hacc) fun q hq hmem => by
        rcases Finset.mem_insert.mp hmem with heq | hmem
        · exact hnot q hq heq
        · exact hL q (List.mem_cons_of_mem p hq) hmem
      refine ⟨M, hM, haM, fun v => ?_⟩
      rw [hmem, Finset.mem_insert, List.exists_mem_cons_iff]
      simp only [href, true_and]
      rw [or_assoc, or_left_comm, eq_comm (a := v)]
    · have hsame : st.defineOwn p = st := if_neg href
      rw [hsame]
      obtain ⟨M, hM, haM, hmem⟩ := ih hn.2 hheld hacc
        fun q hq => hL q (List.mem_cons_of_mem p hq)
      refine ⟨M, hM, haM, fun v => ?_⟩
      rw [hmem, List.exists_mem_cons_iff]
      simp [href]

theorem start_enters : Enters fn (annotated fresh fn).start ∧
    Balanced fn (annotated fresh fn).start := by
  have hwf := h.wellFormed
  have hempty : Held ∅ ({} : OwnState) := by
    refine ⟨?_, ?_, ?_⟩ <;> simp
  have haccempty : Accounted ∅ ({} : OwnState) := fun t ht => absurd ht (Finset.notMem_empty t)
  obtain ⟨M, hM, haM, hmem⟩ := held_params h.params_nodup hempty haccempty
    fun p _ => Finset.notMem_empty _
  obtain ⟨b, hb, hid⟩ := List.mem_map.mp hwf.entry
  have hreach : Reachable fn.blocks fn.entryBlock b.id := .root hid
  have hM' : M = fn.entryParams := by
    ext v
    rw [hmem, FunctionOir.mem_entryParams]
    simp
  have hentry : ∀ d ∈ fn.blocks, d.id = fn.entryBlock → entryHolders fn d = M := by
    intro d hd hdid
    have hfirst := FunctionOir.blockEntries_first hwf hd
      ((FunctionOir.mem_order hwf).mpr (.root hdid))
    unfold entryHolders
    rw [FunctionOir.deadEntry_entry hwf hd hdid,
      Finset.union_eq_left.mpr Finset.sdiff_subset, hfirst, if_pos hdid, hM',
      Finset.union_eq_left]
    intro v hv
    by_contra hnot
    exact h.not_live_of_undefined (.entry hd hdid hnot) ((FunctionOir.mem_liveBefore_iff hwf hd).mp hv)
  constructor
  · rintro id hblock
    obtain rfl := Option.some.inj hblock
    exact ⟨b, hb, hid, hreach, hentry b hb hid ▸ hM⟩
  · refine ⟨fun d hd => ?_, fun hnone => (by cases hnone)⟩
    rw [hentry d hd.1 (Option.some.inj hd.2).symm]
    exact haM

/-- Every configuration of a run finds the holders that it needs. -/
theorem run_enters (hrun : Runs (annotated fresh fn).ownStep (fun c _ => OwnOk fn c)
    (annotated fresh fn).start c) : Enters fn c := by
  apply hrun.invariant (P := Enters fn) h.start_enters.1
  intro c next c' henters hok hstep
  cases hblock : c.block with
  | none =>
    simp [FunctionOir.ownStep, hblock] at hstep
  | some id =>
    obtain ⟨b, hb, rfl, hreach, hheld⟩ := henters id hblock
    rcases h.ownStep_annotated hb hblock hreach hheld (hok b ⟨hb, hblock⟩) with
      herr | ⟨c'', hc'', henters', -⟩
    · rw [hstep] at herr
      cases herr
    · rw [hstep] at hc''
      cases hc''
      exact henters'

end OwnershipInput

/-- No count is given up twice, and no variable is read after its count was given up. -/
theorem given_up_once (h : OwnershipInput fresh fn) :
    ∃ out, annotateFunction fresh fn = .ok out ∧
      ∀ c, Runs out.ownStep (fun c _ => OwnOk fn c) out.start c → OwnOk fn c →
        ∀ next e, out.ownStep c next = .error e → e = .illegal := by
  refine ⟨_, annotateFunction_eq h.wellFormed, fun c hrun hok next e herr => ?_⟩
  have henters := h.run_enters hrun
  cases hblock : c.block with
  | none =>
    simp only [FunctionOir.ownStep, hblock, Option.bind_none, Except.error.injEq] at herr
    exact herr.symm
  | some id =>
    obtain ⟨b, hb, rfl, hreach, hheld⟩ := henters id hblock
    rcases h.ownStep_annotated hb hblock hreach hheld (hok b ⟨hb, hblock⟩) with
      hill | ⟨c', hc', -⟩
    · rw [herr] at hill
      exact Except.error.inj hill
    · rw [herr] at hc'
      cases hc'

theorem Undefined.suffix (h : Undefined fn b rest v) :
    b ∈ fn.blocks ∧ ∃ pre, b.statements = pre ++ rest := by
  induction h with
  | entry hb _ _ => exact ⟨hb, [], rfl⟩
  | skip _ _ ih =>
    obtain ⟨hb, pre, hs⟩ := ih
    exact ⟨hb, pre ++ [_], by rw [hs, List.append_assoc]; rfl⟩
  | edge _ hb _ _ => exact ⟨hb, [], rfl⟩

/-- A function that uses parameters only defines what it uses. -/
theorem defined_of_params (h : ∀ b ∈ fn.blocks, terminatorUses b.terminator ⊆ fn.entryParams ∧
      ∀ s ∈ b.statements, refUseOfStmt s ⊆ fn.entryParams) :
    (∀ b s rest v, Undefined fn b (s :: rest) v → v ∉ refUseOfStmt s) ∧
      ∀ b v, Undefined fn b [] v → v ∉ terminatorUses b.terminator := by
  constructor
  · intro b s rest v hu hv
    obtain ⟨hb, pre, hs⟩ := hu.suffix
    refine hu.not_param ((h b hb).2 s ?_ hv)
    rw [hs]
    exact List.mem_append_right pre List.mem_cons_self
  · intro b v hu hv
    exact hu.not_param ((h b hu.suffix.1).1 hv)

def objParam : Var := { id := 0, ty := .obj }

def boolParam : Var := { id := 1, ty := .bool }

def intResult : Var := { id := 2, ty := .i64 }

/-- `f x .. x` with the object `n` times. -/
def callOnObj (n : Nat) : StatementNode :=
  .call intResult (.direct "f")
    (List.replicate n { operand := .var objParam, ownershipArg := .unknown })

/-- `fun x b -> if b then f x .. x` -/
def callInBranch (n : Nat) : FunctionOir where
  params := [objParam, boolParam]
  locals := []
  entryBlock := 10
  blocks :=
    [{ id := 10, statements := [], terminator := .condBr boolParam 11 12 },
     { id := 11, statements := [{ id := 20, node := callOnObj n }], terminator := .ret none .unknown },
     { id := 12, statements := [], terminator := .ret none .unknown }]

/-- `fun () -> ignore (f ())` -/
def unusedResult : FunctionOir where
  params := []
  locals := []
  entryBlock := 10
  blocks :=
    [{ id := 10
       statements := [{ id := 20, node := .call objParam (.direct "f") [] }]
       terminator := .ret none .unknown }]

def freshIds (id k : Id) : Id := 100 + 10 * id + k

theorem callInBranch_input (n : Nat) : OwnershipInput freshIds (callInBranch n) := by
  have hargs : refUseOfStmt ⟨20, callOnObj n⟩ ⊆ (callInBranch n).entryParams := by
    intro v hv
    obtain ⟨a, ha, hv⟩ := mem_argUses.mp hv
    rw [List.eq_of_mem_replicate ha] at hv
    rw [(mem_varsOfOperand.mp hv).2]
    exact FunctionOir.mem_entryParams.mpr ⟨objParam, List.mem_cons_self, rfl, rfl⟩
  have hdefs : refDefOfStmt ⟨20, callOnObj n⟩ = ∅ := rfl
  have hrefVars : (callInBranch n).refVars ⊆ (callInBranch n).entryParams := by
    refine Finset.union_subset (Finset.Subset.refl _) ?_
    simpa [callInBranch, terminatorUses, varsOfOperand, boolParam, isRefTy] using hargs
  have hdefined := @defined_of_params (callInBranch n) (by
    simpa [callInBranch, terminatorUses, varsOfOperand, boolParam, isRefTy] using hargs)
  refine ⟨⟨?_, ?_, ?_, ?_⟩, ?_, ?_, ?_, hdefined.1, hdefined.2, ?_, fun sid hv => ?_⟩
  · simp [callInBranch]
  · simp [callInBranch]
  · simp [callInBranch, successors]
  · simp [callInBranch]
  · simp [callInBranch, objParam, boolParam]
  · simp [callInBranch, Unmarked, callOnObj]
  · simp [callInBranch]
  · simp [callInBranch, hdefs]
  · have hmem := hrefVars hv
    have hparams : (callInBranch n).entryParams = {0} := by
      simp [FunctionOir.entryParams, callInBranch, objParam, boolParam, isRefTy]
    rw [hparams, Finset.mem_singleton] at hmem
    simp [freshIds] at hmem

theorem callInBranch_ok (c : OwnConfig) : OwnOk (callInBranch 1) c := by
  rintro b ⟨hb, -⟩ pre s post hs la -
  have hmem : s ∈ (callInBranch 1).blocks.flatMap Block.statements := by
    refine List.mem_flatMap.mpr ⟨b, hb, ?_⟩
    rw [hs]
    exact List.mem_append_right pre List.mem_cons_self
  obtain rfl : s = ⟨20, callOnObj 1⟩ := by simpa [callInBranch] using hmem
  cases h : la 0 <;> simp [StmtOk, callOnObj, deadArgs, objParam, isRefTy, h]

/-- The branch that calls runs to its end. -/
theorem given_up_once_call : ∃ out c, annotateFunction freshIds (callInBranch 1) = .ok out ∧
    out.ownStep out.start (some 11) = .ok c ∧
      ∀ next e, out.ownStep c next = .error e → e = .illegal := by
  obtain ⟨out, hout, hall⟩ := given_up_once (callInBranch_input 1)
  obtain rfl := Except.ok.inj ((annotateFunction_eq (callInBranch_input 1).wellFormed).symm.trans hout)
  obtain ⟨c, hc⟩ : ∃ c, (annotated freshIds (callInBranch 1)).ownStep
      (annotated freshIds (callInBranch 1)).start (some 11) = .ok c := ⟨_, rfl⟩
  exact ⟨_, c, hout, hc, hall c (.tail .refl (callInBranch_ok _) hc) (callInBranch_ok c)⟩

/-- An object passed twice in its last use is given up twice. -/
theorem passed_twice_given_up_twice : OwnershipInput freshIds (callInBranch 2) ∧
    ∃ out c, annotateFunction freshIds (callInBranch 2) = .ok out ∧
      out.ownStep out.start (some 11) = .ok c ∧ out.ownStep c none = .error .givenUpTwice :=
  ⟨callInBranch_input 2, _, _, annotateFunction_eq (callInBranch_input 2).wellFormed, rfl, rfl⟩

/-- Every count is given up before the return, or is returned. -/
theorem given_up_all (h : OwnershipInput fresh fn) :
    ∃ out, annotateFunction fresh fn = .ok out ∧
      ∀ c, Runs out.ownStep (fun c next => OwnOk fn c ∧ LeakFree fn c next) out.start c →
        c.block = none → c.st.counts = ∅ := by
  refine ⟨_, annotateFunction_eq h.wellFormed, fun c hrun hret => ?_⟩
  have hall : Enters fn c ∧ Balanced fn c := by
    apply hrun.invariant (P := fun c => Enters fn c ∧ Balanced fn c) h.start_enters
    rintro c next c' ⟨henters, hbal⟩ ⟨hok, hleak⟩ hstep
    cases hblock : c.block with
    | none =>
      simp [FunctionOir.ownStep, hblock] at hstep
    | some id =>
      obtain ⟨b, hb, rfl, hreach, hheld⟩ := henters id hblock
      have hexec : c.Executes fn b := ⟨hb, hblock⟩
      obtain ⟨heach, hedges⟩ := hleak b hexec
      rcases h.ownStep_annotated hb hblock hreach hheld (hok b hexec) with
        herr | ⟨c'', hc'', henters', hbal'⟩
      · rw [hstep] at herr
        cases herr
      · rw [hstep] at hc''
        cases hc''
        exact ⟨henters', hbal' (hbal.1 b hexec) heach hedges⟩
  exact hall.2.2 hret

/-- The branch that does not call releases the object. -/
theorem given_up_all_branch : ∃ out c₁ c, annotateFunction freshIds (callInBranch 1) = .ok out ∧
    out.ownStep out.start (some 12) = .ok c₁ ∧ out.ownStep c₁ none = .ok c ∧ c.st.counts = ∅ := by
  obtain ⟨out, hout, hall⟩ := given_up_all (callInBranch_input 1)
  obtain rfl := Except.ok.inj ((annotateFunction_eq (callInBranch_input 1).wellFormed).symm.trans hout)
  obtain ⟨c₁, hc₁, hb₁⟩ : ∃ c, (annotated freshIds (callInBranch 1)).ownStep
      (annotated freshIds (callInBranch 1)).start (some 12) = .ok c ∧ c.block = some 12 :=
    ⟨_, rfl, rfl⟩
  obtain ⟨c, hc, hb⟩ : ∃ c, (annotated freshIds (callInBranch 1)).ownStep c₁ none = .ok c ∧
      c.block = none := by
    cases hc₁
    exact ⟨_, rfl, rfl⟩
  have hnone : ∀ b ∈ (callInBranch 1).blocks, b.id ≠ 11 → EachStmt (callInBranch 1) b LeakOk := by
    intro b hbmem hid pre s post hs
    have hempty : b.statements = [] := by
      simp only [callInBranch, List.mem_cons, List.not_mem_nil, or_false] at hbmem
      rcases hbmem with rfl | rfl | rfl
      · rfl
      · exact absurd rfl hid
      · rfl
    rw [hempty] at hs
    cases pre <;> cases hs
  have hedge : ∀ p ∈ (callInBranch 1).blocks, ∀ b, p.id = 10 → b.id = 12 →
      EdgeOk (callInBranch 1) p b := by
    intro p hp b hid hbid v hlive _
    refine ⟨hbid ▸ by decide, fun q hq hs => ?_⟩
    rw [hbid] at hs
    simp only [callInBranch, List.mem_cons, List.not_mem_nil, or_false] at hp hq
    rcases hq with rfl | rfl | rfl <;> rcases hp with rfl | rfl | rfl <;>
      simp_all [successors]
  have hleak₁ : LeakFree (callInBranch 1) (annotated freshIds (callInBranch 1)).start (some 12) := by
    rintro p ⟨hp, hid⟩
    replace hid : p.id = 10 := (Option.some.inj hid).symm
    refine ⟨hnone p hp (hid ▸ by decide), fun b _ hnext => ?_⟩
    exact hedge p hp b hid (Option.some.inj hnext).symm
  have hleak : LeakFree (callInBranch 1) c₁ none := by
    rintro p ⟨hp, hid⟩
    replace hid : p.id = 12 := (Option.some.inj (hb₁.symm.trans hid)).symm
    exact ⟨hnone p hp (hid ▸ by decide), fun b _ hnext => by cases hnext⟩
  exact ⟨_, c₁, c, hout, hc₁, hc, hall c (.tail (.tail .refl ⟨callInBranch_ok _, hleak₁⟩ hc₁)
    ⟨callInBranch_ok c₁, hleak⟩ hc) hb⟩

/-- A result that is never used is not given up. -/
theorem unused_result_leaks : OwnershipInput freshIds unusedResult ∧
    ∃ out c, annotateFunction freshIds unusedResult = .ok out ∧
      out.ownStep out.start none = .ok c ∧ c.block = none ∧ c.st.counts ≠ ∅ := by
  have hdefined := @defined_of_params unusedResult (by decide)
  have hinput : OwnershipInput freshIds unusedResult := by
    refine ⟨⟨?_, ?_, ?_, ?_⟩, ?_, ?_, ?_, hdefined.1, hdefined.2, ?_, fun sid => ?_⟩
    · decide
    · decide
    · decide
    · decide
    · decide
    · simp [unusedResult, Unmarked]
    · simp [unusedResult]
    · decide
    · exact Finset.notMem_empty _
  exact ⟨hinput, _, _, annotateFunction_eq hinput.wellFormed, rfl, rfl, by decide⟩

end Syli.Compiler
