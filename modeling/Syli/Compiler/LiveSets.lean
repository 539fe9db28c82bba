import Mathlib.Algebra.Order.BigOperators.Group.Finset
import Syli.Compiler.Liveness

/-! What the liveness analysis computes: sets that satisfy the equations of liveness, and hold only
variables that are used on some path before they are defined. -/
namespace Syli.Compiler

open Foundation

variable {fn : FunctionOir} {b p : Block} {s : Statement} {rest pre post : List Statement}
variable {v sid : Id} {entries : IntMap IntSet} {live : IntSet}

/-- The ids of blocks and statements are distinct, and the terminators name blocks. -/
structure FunctionOir.WellFormed (fn : FunctionOir) : Prop where
  blocks_nodup : (fn.blocks.map Block.id).Nodup
  stmts_nodup : ((fn.blocks.flatMap Block.statements).map Statement.id).Nodup
  targets : ∀ b ∈ fn.blocks, ∀ sid ∈ successors b, sid ∈ fn.blocks.map Block.id
  entry : fn.entryBlock ∈ fn.blocks.map Block.id

/-- The variable is used on some path that starts with the statements `rest` of the block `b`,
before it is defined; the parameters are live where the path enters the function again. -/
inductive LiveAt (fn : FunctionOir) : Block → List Statement → Id → Prop where
  | use {b : Block} {s : Statement} {rest : List Statement} {v : Id} :
      v ∈ refUseOfStmt s → LiveAt fn b (s :: rest) v
  | skip {b : Block} {s : Statement} {rest : List Statement} {v : Id} :
      v ∉ refDefOfStmt s → LiveAt fn b rest v → LiveAt fn b (s :: rest) v
  | term {b : Block} {v : Id} : v ∈ terminatorUses b.terminator → LiveAt fn b [] v
  | edge {b b' : Block} {v : Id} : b' ∈ fn.blocks → Reachable fn.blocks fn.entryBlock b'.id →
      b'.id ∈ successors b → LiveAt fn b' b'.statements v → LiveAt fn b [] v
  | again {b : Block} {v : Id} : fn.entryBlock ∈ successors b → v ∈ fn.entryParams → LiveAt fn b [] v

/-- The entry of a block, empty where there is none. -/
def look (entries : IntMap IntSet) (id : Id) : IntSet := (entries.findOpt id).getD ∅

/-- The variables live before the statements `rest` at the end of a block. -/
def liveBefore (live : IntSet) (rest : List Statement) : IntSet :=
  rest.foldr (fun s live => liveBeforeStmt live s) live

@[simp] theorem liveBefore_nil : liveBefore live [] = live := rfl

@[simp] theorem liveBefore_cons :
    liveBefore live (s :: rest) = liveBeforeStmt (liveBefore live rest) s := rfl

theorem liveAtBlockEntry_eq : liveAtBlockEntry live b = liveBefore live b.statements := by
  simp [liveAtBlockEntry, liveBefore]

theorem mem_liveBeforeStmt :
    v ∈ liveBeforeStmt live s ↔ v ∈ refUseOfStmt s ∨ v ∈ live ∧ v ∉ refDefOfStmt s := by
  simp [liveBeforeStmt]

theorem liveBefore_mono {live' : IntSet} (h : live ⊆ live') (rest : List Statement) :
    liveBefore live rest ⊆ liveBefore live' rest := by
  induction rest with
  | nil => exact h
  | cons s rest ih =>
    intro v hv
    rw [liveBefore_cons, mem_liveBeforeStmt] at hv ⊢
    exact hv.imp_right fun hv => ⟨ih hv.1, hv.2⟩

theorem liveBefore_subset (hlive : live ⊆ fn.refVars)
    (hrest : ∀ s ∈ rest, refUseOfStmt s ⊆ fn.refVars) : liveBefore live rest ⊆ fn.refVars := by
  induction rest with
  | nil => exact hlive
  | cons s rest ih =>
    intro v hv
    rw [liveBefore_cons, mem_liveBeforeStmt] at hv
    rcases hv with hv | ⟨hv, -⟩
    · exact hrest s List.mem_cons_self hv
    · exact ih (fun t ht => hrest t (List.mem_cons_of_mem s ht)) hv

theorem mem_unionSuccEntries {cfg : Cfg} :
    v ∈ unionSuccEntries cfg entries p.id ↔ ∃ sid ∈ getSucc cfg p.id, v ∈ look entries sid := by
  have hall : ∀ {l : List Id} {live : IntSet}, v ∈ l.foldl (unionEntry entries) live ↔
      v ∈ live ∨ ∃ sid ∈ l, v ∈ look entries sid := by
    intro l live
    induction l generalizing live with
    | nil => simp
    | cons sid l ih =>
      rw [List.foldl_cons, ih]
      cases h : entries.findOpt sid <;> simp [unionEntry, look, h, or_assoc]
  have hfold := @hall (getSucc cfg p.id) ∅
  simp only [Finset.notMem_empty, false_or] at hfold
  exact hfold

theorem mem_liveAtEndOf (hwf : fn.WellFormed) (hb : b ∈ fn.blocks) :
    v ∈ liveAtEndOf fn.cfg entries b ↔
      (∃ sid ∈ successors b, v ∈ look entries sid) ∨ v ∈ terminatorUses b.terminator := by
  rw [liveAtEndOf, Finset.mem_union, mem_unionSuccEntries, FunctionOir.cfg,
    getSucc_buildCfg hwf.blocks_nodup hb]

theorem exists_pred (hreach : Reachable fn.blocks fn.entryBlock b.id) (hne : b.id ≠ fn.entryBlock) :
    ∃ p ∈ fn.blocks, Reachable fn.blocks fn.entryBlock p.id ∧ b.id ∈ successors p := by
  rcases hreach.cases_last with hid | ⟨x, hx, p, hp, rfl, hs⟩
  · exact absurd hid hne
  · exact ⟨p, hp, hx, hs⟩

namespace FunctionOir

theorem mem_entryParams : v ∈ fn.entryParams ↔ ∃ p ∈ fn.params, isRefTy p.ty ∧ p.id = v := by
  have hall : ∀ {l : List Var} {s : IntSet}, v ∈ l.foldl (fun s (p : Var) =>
      if isRefTy p.ty then insert p.id s else s) s ↔
        v ∈ s ∨ ∃ p ∈ l, isRefTy p.ty ∧ p.id = v := by
    intro l s
    induction l generalizing s with
    | nil => simp
    | cons p l ih =>
      rw [List.foldl_cons, ih]
      by_cases hp : isRefTy p.ty
      · simp only [hp, if_true, Finset.mem_insert, List.exists_mem_cons_iff, true_and]
        rw [or_comm (a := v = p.id), or_assoc, eq_comm (a := v)]
      · simp [hp]
  have hfold := hall (l := fn.params) (s := ∅)
  simp only [Finset.notMem_empty, false_or] at hfold
  exact hfold

theorem newEntry_mono {entries' : IntMap IntSet} (hwf : fn.WellFormed) (hb : b ∈ fn.blocks)
    (h : ∀ id, look entries id ⊆ look entries' id) :
    fn.newEntry entries b ⊆ fn.newEntry entries' b := by
  have hend : liveAtEndOf fn.cfg entries b ⊆ liveAtEndOf fn.cfg entries' b := by
    intro v hv
    rw [mem_liveAtEndOf hwf hb] at hv ⊢
    rcases hv with ⟨sid, hs, hv⟩ | hv
    · exact Or.inl ⟨sid, hs, h sid hv⟩
    · exact Or.inr hv
  have hfirst := liveBefore_mono hend b.statements
  unfold newEntry
  simp only [liveAtBlockEntry_eq]
  split
  · exact Finset.union_subset_union_right hfirst
  · exact hfirst

theorem newEntry_subset (hwf : fn.WellFormed) (hb : b ∈ fn.blocks)
    (h : ∀ id, look entries id ⊆ fn.refVars) : fn.newEntry entries b ⊆ fn.refVars := by
  have hparams : fn.entryParams ⊆ fn.refVars := Finset.subset_union_left
  have hblock : terminatorUses b.terminator ∪ b.statements.toFinset.biUnion refUseOfStmt ⊆
      fn.refVars := by
    refine Finset.Subset.trans ?_ Finset.subset_union_right
    exact Finset.subset_biUnion_of_mem
      (fun b : Block => terminatorUses b.terminator ∪ b.statements.toFinset.biUnion refUseOfStmt)
      (List.mem_toFinset.mpr hb)
  have hfirst : liveBefore (liveAtEndOf fn.cfg entries b) b.statements ⊆ fn.refVars := by
    apply liveBefore_subset
    · intro v hv
      rw [mem_liveAtEndOf hwf hb] at hv
      rcases hv with ⟨sid, -, hv⟩ | hv
      · exact h sid hv
      · exact hblock (Finset.mem_union_left _ hv)
    · intro s hs v hv
      refine hblock (Finset.mem_union_right _ (Finset.mem_biUnion.mpr ⟨s, ?_, hv⟩))
      exact List.mem_toFinset.mpr hs
  unfold newEntry
  simp only [liveAtBlockEntry_eq]
  split
  · exact Finset.union_subset hparams hfirst
  · exact hfirst

theorem mem_order (hwf : fn.WellFormed) :
    sid ∈ fn.order ↔ Reachable fn.blocks fn.entryBlock sid := by
  rw [order, List.mem_reverse]
  exact mem_computeRpo hwf.blocks_nodup hwf.targets hwf.entry

theorem exists_of_mem_order (hwf : fn.WellFormed) (h : sid ∈ fn.order) :
    ∃ b ∈ fn.blocks, b.id = sid :=
  List.mem_map.mp (((mem_order hwf).mp h).mem hwf.targets hwf.entry)

theorem look_pass (hwf : fn.WellFormed) (hb : b ∈ fn.blocks) (hin : b.id ∈ fn.order) :
    look (fn.pass entries) b.id = fn.newEntry entries b := by
  have hfind := findOpt_buildBlockMap hwf.blocks_nodup hb
  have hall : ∀ {l : List Id} {acc : IntMap IntSet},
      b.id ∈ l ∨ look acc b.id = fn.newEntry entries b →
        look (l.foldl (fn.passBlock entries) acc) b.id = fn.newEntry entries b := by
    intro l acc h
    induction l generalizing acc with
    | nil => simpa using h
    | cons id l ih =>
      apply ih
      unfold passBlock
      by_cases hid : b.id = id
      · subst hid
        simp only [hfind]
        exact Or.inr (by simp [look])
      · rcases h with h | h
        · exact Or.inl ((List.mem_cons.mp h).resolve_left hid)
        · refine Or.inr ?_
          cases (buildBlockMap fn.blocks).findOpt id with
          | none => exact h
          | some c =>
            simp only [look, AssocMap.findOpt_add_of_ne hid]
            exact h
  exact hall (Or.inl hin)

theorem look_pass_of_not_mem {id : Id} (hid : id ∉ fn.order) :
    look (fn.pass entries) id = look entries id := by
  have hall : ∀ {l : List Id} {acc : IntMap IntSet}, id ∉ l →
      look (l.foldl (fn.passBlock entries) acc) id = look acc id := by
    intro l acc h
    induction l generalizing acc with
    | nil => rfl
    | cons k l ih =>
      rw [List.mem_cons, not_or] at h
      rw [List.foldl_cons, ih h.2, passBlock]
      cases hf : (buildBlockMap fn.blocks).findOpt k with
      | none => simp only
      | some c => simp only [look, AssocMap.findOpt_add_of_ne h.1]
  exact hall hid

/-- Passes only add variables. -/
def Increasing (fn : FunctionOir) (entries : IntMap IntSet) : Prop :=
  ∀ id, look entries id ⊆ look (fn.pass entries) id

theorem Increasing.pass (hwf : fn.WellFormed) (h : fn.Increasing entries) :
    fn.Increasing (fn.pass entries) := by
  intro id
  by_cases hid : id ∈ fn.order
  · obtain ⟨b, hb, rfl⟩ := exists_of_mem_order hwf hid
    rw [look_pass hwf hb hid, look_pass hwf hb hid]
    exact newEntry_mono hwf hb h
  · exact (look_pass_of_not_mem hid).ge

theorem increasing_iterate (hwf : fn.WellFormed) (k : Nat) : fn.Increasing (fn.pass^[k] []) := by
  induction k with
  | zero => exact fun id => Finset.empty_subset _
  | succ k ih =>
    rw [Function.iterate_succ_apply']
    exact ih.pass hwf

theorem iterate_subset (hwf : fn.WellFormed) (k : Nat) (id : Id) :
    look (fn.pass^[k] []) id ⊆ fn.refVars := by
  induction k generalizing id with
  | zero => exact Finset.empty_subset _
  | succ k ih =>
    rw [Function.iterate_succ_apply']
    by_cases hid : id ∈ fn.order
    · obtain ⟨b, hb, rfl⟩ := exists_of_mem_order hwf hid
      rw [look_pass hwf hb hid]
      exact newEntry_subset hwf hb ih
    · rw [look_pass_of_not_mem hid]
      exact ih id

/-- The variables of all entries, counted for each block. -/
def liveSize (fn : FunctionOir) (entries : IntMap IntSet) : Nat :=
  ∑ id ∈ fn.order.toFinset, (look entries id).card

theorem liveSize_le (hwf : fn.WellFormed) (k : Nat) :
    fn.liveSize (fn.pass^[k] []) ≤ fn.order.length * fn.refVars.card := by
  have hcard : ∀ id ∈ fn.order.toFinset, (look (fn.pass^[k] []) id).card ≤ fn.refVars.card :=
    fun id _ => Finset.card_le_card (iterate_subset hwf k id)
  calc fn.liveSize (fn.pass^[k] [])
      ≤ ∑ _id ∈ fn.order.toFinset, fn.refVars.card := Finset.sum_le_sum hcard
    _ = fn.order.toFinset.card * fn.refVars.card := Finset.sum_const_nat fun _ _ => rfl
    _ ≤ fn.order.length * fn.refVars.card :=
        Nat.mul_le_mul_right _ (List.toFinset_card_le fn.order)

theorem liveSize_lt (hwf : fn.WellFormed) (k : Nat) (hc : fn.Changed (fn.pass^[k] [])) :
    fn.liveSize (fn.pass^[k] []) < fn.liveSize (fn.pass^[k + 1] []) := by
  rw [Function.iterate_succ_apply']
  have hinc := increasing_iterate hwf k
  obtain ⟨id, hid, b, hfind, hne⟩ := hc
  obtain ⟨hb, rfl⟩ := mem_buildBlockMap hfind
  have hssub : look (fn.pass^[k] []) b.id ⊂ look (fn.pass (fn.pass^[k] [])) b.id := by
    refine (hinc b.id).ssubset_of_ne fun heq => hne ?_
    rw [look_pass hwf hb hid] at heq
    exact heq
  exact Finset.sum_lt_sum (fun id _ => Finset.card_le_card (hinc id))
    ⟨b.id, List.mem_toFinset.mpr hid, Finset.card_lt_card hssub⟩

theorem fixpoint_eq {n k : Nat} (hk : k < n) (hc : ¬ fn.Changed (fn.pass^[k] entries)) :
    ∃ j, ¬ fn.Changed (fn.pass^[j] entries) ∧ fn.fixpoint n entries = fn.pass^[j + 1] entries := by
  induction n generalizing entries k with
  | zero => omega
  | succ n ih =>
    unfold fixpoint
    split
    · rename_i hch
      cases k with
      | zero => exact absurd hch hc
      | succ k =>
        obtain ⟨j, hj, heq⟩ := @ih (fn.pass entries) k (by omega) hc
        exact ⟨j + 1, hj, heq⟩
    · rename_i hch
      exact ⟨0, hch, rfl⟩

/-- The passes reach a fixpoint: the entries are those that the equations give. -/
theorem blockEntries_eq (hwf : fn.WellFormed) (hb : b ∈ fn.blocks) (hin : b.id ∈ fn.order) :
    look fn.blockEntries b.id = fn.newEntry fn.blockEntries b := by
  obtain ⟨k, hk, hstable⟩ := iterate_stable (liveSize_le hwf) (liveSize_lt hwf)
  obtain ⟨j, hj, heq⟩ := fixpoint_eq (Nat.lt_succ_of_le hk) hstable
  have hlook : ∀ id, look (fn.pass^[j + 1] []) id = look (fn.pass^[j] []) id := by
    intro id
    rw [Function.iterate_succ_apply']
    by_cases hid : id ∈ fn.order
    · obtain ⟨c, hc, rfl⟩ := exists_of_mem_order hwf hid
      rw [look_pass hwf hc hid]
      by_contra hne
      exact hj ⟨c.id, hid, c, findOpt_buildBlockMap hwf.blocks_nodup hc, fun h => hne h.symm⟩
    · exact look_pass_of_not_mem hid
  have hnew : fn.newEntry (fn.pass^[j + 1] []) b = fn.newEntry (fn.pass^[j] []) b :=
    Finset.Subset.antisymm (newEntry_mono hwf hb fun id => (hlook id).subset)
      (newEntry_mono hwf hb fun id => (hlook id).symm.subset)
  rw [blockEntries, heq, hnew, Function.iterate_succ_apply', look_pass hwf hb hin]

/-- What the entry of a block should hold. -/
def LiveEntry (fn : FunctionOir) (b : Block) (v : Id) : Prop :=
  LiveAt fn b b.statements v ∨ b.id = fn.entryBlock ∧ v ∈ fn.entryParams

/-- Entries that hold live variables only, of blocks that are reached. -/
def EntriesLive (fn : FunctionOir) (entries : IntMap IntSet) : Prop :=
  ∀ b ∈ fn.blocks, ∀ v ∈ look entries b.id,
    Reachable fn.blocks fn.entryBlock b.id ∧ LiveEntry fn b v

theorem liveAt_of_mem_liveBefore (hlive : ∀ v ∈ live, LiveAt fn b [] v) :
    ∀ v ∈ liveBefore live rest, LiveAt fn b rest v := by
  induction rest with
  | nil => exact hlive
  | cons s rest ih =>
    intro v hv
    rw [liveBefore_cons, mem_liveBeforeStmt] at hv
    rcases hv with hv | ⟨hv, hdef⟩
    · exact .use hv
    · exact .skip hdef (ih v hv)

theorem EntriesLive.liveAtEnd (hwf : fn.WellFormed) (h : EntriesLive fn entries)
    (hb : b ∈ fn.blocks) : ∀ v ∈ liveAtEndOf fn.cfg entries b, LiveAt fn b [] v := by
  intro v hv
  rw [mem_liveAtEndOf hwf hb] at hv
  rcases hv with ⟨sid, hs, hv⟩ | hv
  · obtain ⟨c, hc, rfl⟩ := List.mem_map.mp (hwf.targets b hb sid hs)
    obtain ⟨hreach, hv | ⟨hid, hv⟩⟩ := h c hc v hv
    · exact .edge hc hreach hs hv
    · exact .again (hid ▸ hs) hv
  · exact .term hv

theorem EntriesLive.pass (hwf : fn.WellFormed) (h : EntriesLive fn entries) :
    EntriesLive fn (fn.pass entries) := by
  intro b hb v hv
  by_cases hid : b.id ∈ fn.order
  · rw [look_pass hwf hb hid] at hv
    refine ⟨(mem_order hwf).mp hid, ?_⟩
    have hfirst : v ∈ liveAtBlockEntry (liveAtEndOf fn.cfg entries b) b →
        LiveAt fn b b.statements v := by
      rw [liveAtBlockEntry_eq]
      exact liveAt_of_mem_liveBefore (h.liveAtEnd hwf hb) v
    unfold newEntry at hv
    dsimp only at hv
    split at hv
    · rename_i hentry
      rcases Finset.mem_union.mp hv with hv | hv
      · exact Or.inr ⟨hentry, hv⟩
      · exact Or.inl (hfirst hv)
    · exact Or.inl (hfirst hv)
  · rw [look_pass_of_not_mem hid] at hv
    exact h b hb v hv

theorem entriesLive_blockEntries (hwf : fn.WellFormed) : EntriesLive fn fn.blockEntries := by
  have hfix : ∀ {n : Nat} {entries : IntMap IntSet},
      EntriesLive fn entries → EntriesLive fn (fn.fixpoint n entries) := by
    intro n
    induction n with
    | zero => exact fun h => h
    | succ n ih =>
      intro entries h
      unfold fixpoint
      split
      · exact ih (h.pass hwf)
      · exact h.pass hwf
  exact hfix fun b _ v hv => absurd hv (Finset.notMem_empty v)

/-- The variables live at the end of a block. -/
def endLive (fn : FunctionOir) (b : Block) : IntSet := liveAtEndOf fn.cfg fn.blockEntries b

theorem blockEntries_first (hwf : fn.WellFormed) (hb : b ∈ fn.blocks) (hin : b.id ∈ fn.order) :
    look fn.blockEntries b.id = if b.id = fn.entryBlock
      then fn.entryParams ∪ liveBefore (fn.endLive b) b.statements
      else liveBefore (fn.endLive b) b.statements := by
  rw [blockEntries_eq hwf hb hin, newEntry, liveAtBlockEntry_eq]
  rfl

/-- The set before the statements `rest` is the set of the variables live there. -/
theorem mem_liveBefore_iff (hwf : fn.WellFormed) (hb : b ∈ fn.blocks) :
    v ∈ liveBefore (fn.endLive b) rest ↔ LiveAt fn b rest v := by
  constructor
  · exact liveAt_of_mem_liveBefore ((entriesLive_blockEntries hwf).liveAtEnd hwf hb) v
  · intro h
    induction h with
    | use hv => exact mem_liveBeforeStmt.mpr (Or.inl hv)
    | skip hdef _ ih => exact mem_liveBeforeStmt.mpr (Or.inr ⟨ih hb, hdef⟩)
    | term hv => exact (mem_liveAtEndOf hwf hb).mpr (Or.inr hv)
    | edge hc hreach hs _ ih =>
      refine (mem_liveAtEndOf hwf hb).mpr (Or.inl ⟨_, hs, ?_⟩)
      rw [blockEntries_first hwf hc ((mem_order hwf).mpr hreach)]
      split
      · exact Finset.mem_union_right _ (ih hc)
      · exact ih hc
    | again hs hv =>
      refine (mem_liveAtEndOf hwf hb).mpr (Or.inl ⟨_, hs, ?_⟩)
      obtain ⟨c, hc, hid⟩ := List.mem_map.mp hwf.entry
      rw [← hid, blockEntries_first hwf hc ((mem_order hwf).mpr (hid ▸ .root rfl)), if_pos hid]
      exact Finset.mem_union_left _ hv

theorem mem_endLive (hwf : fn.WellFormed) (hb : b ∈ fn.blocks) :
    v ∈ fn.endLive b ↔ LiveAt fn b [] v := by
  rw [← mem_liveBefore_iff hwf hb, liveBefore_nil]

theorem mem_blockEntries (hwf : fn.WellFormed) (hb : b ∈ fn.blocks)
    (hreach : Reachable fn.blocks fn.entryBlock b.id) :
    v ∈ look fn.blockEntries b.id ↔ LiveEntry fn b v := by
  rw [blockEntries_first hwf hb ((mem_order hwf).mpr hreach)]
  unfold LiveEntry
  split
  · rename_i hid
    rw [Finset.mem_union, mem_liveBefore_iff hwf hb, or_comm]
    simp [hid]
  · rename_i hid
    rw [mem_liveBefore_iff hwf hb]
    simp [hid]

/-- The infos of the statements `rest` at the end of a block. -/
def blockInfos (live : IntSet) : List Statement → IntMap LiveInfoStmt
  | [] => []
  | s :: rest => (s.id, { liveBefore := liveBefore live (s :: rest)
                          liveAfter := liveBefore live rest }) :: blockInfos live rest

theorem blockInfos_keys (live : IntSet) (rest : List Statement) :
    (blockInfos live rest).map Prod.fst = rest.map Statement.id := by
  induction rest with
  | nil => rfl
  | cons s rest ih => simp [blockInfos, ih]

theorem mem_blockInfos (live : IntSet) :
    (s.id, { liveBefore := liveBefore live (s :: post), liveAfter := liveBefore live post }) ∈
      blockInfos live (pre ++ s :: post) := by
  induction pre with
  | nil => exact List.mem_cons_self
  | cons _ pre ih => exact List.mem_cons_of_mem _ ih

theorem stmtInfos_eq (result : IntMap LiveInfoStmt) (b : Block) :
    fn.stmtInfos result b = blockInfos (fn.endLive b) b.statements ++ result := by
  have hall : ∀ rest : List Statement,
      rest.reverse.foldl (fun (acc : IntSet × IntMap LiveInfoStmt) stmt =>
        (liveBeforeStmt acc.1 stmt, acc.2.add stmt.id
          { liveBefore := liveBeforeStmt acc.1 stmt, liveAfter := acc.1 })) (fn.endLive b, result) =
        (liveBefore (fn.endLive b) rest, blockInfos (fn.endLive b) rest ++ result) := by
    intro rest
    induction rest with
    | nil => rfl
    | cons s rest ih =>
      rw [List.reverse_cons, List.foldl_append, ih]
      rfl
  exact congrArg Prod.snd (hall b.statements)

theorem mem_stmtResult {e : Id × LiveInfoStmt} :
    e ∈ fn.stmtResult ↔ ∃ b ∈ fn.blocks, e ∈ blockInfos (fn.endLive b) b.statements := by
  have hall : ∀ {l : List Block} {m : IntMap LiveInfoStmt}, e ∈ l.foldl fn.stmtInfos m ↔
      e ∈ m ∨ ∃ b ∈ l, e ∈ blockInfos (fn.endLive b) b.statements := by
    intro l m
    induction l generalizing m with
    | nil => simp
    | cons b l ih =>
      rw [List.foldl_cons, ih, stmtInfos_eq, List.mem_append]
      simp [or_assoc, or_left_comm]
  unfold stmtResult
  simpa using hall (l := fn.blocks) (m := [])

theorem stmtResult_keys :
    (fn.stmtResult.map Prod.fst).Perm ((fn.blocks.flatMap Block.statements).map Statement.id) := by
  have hall : ∀ {l : List Block} {m : IntMap LiveInfoStmt},
      ((l.foldl fn.stmtInfos m).map Prod.fst).Perm
        ((l.flatMap Block.statements).map Statement.id ++ m.map Prod.fst) := by
    intro l m
    induction l generalizing m with
    | nil => simp
    | cons b l ih =>
      rw [List.foldl_cons]
      refine ih.trans ?_
      rw [stmtInfos_eq, List.map_append, blockInfos_keys, List.flatMap_cons, List.map_append,
        ← List.append_assoc]
      exact List.perm_append_comm.append_right _
  unfold stmtResult
  simpa using hall (l := fn.blocks) (m := [])

/-- The info of a statement, in terms of the statements that follow it. -/
theorem findOpt_stmtResult (hwf : fn.WellFormed) (hb : b ∈ fn.blocks)
    (hs : b.statements = pre ++ s :: post) :
    fn.stmtResult.findOpt s.id = some
      { liveBefore := liveBefore (fn.endLive b) (s :: post)
        liveAfter := liveBefore (fn.endLive b) post } := by
  apply AssocMap.findOpt_of_mem (stmtResult_keys.nodup_iff.mpr hwf.stmts_nodup)
  refine mem_stmtResult.mpr ⟨b, hb, ?_⟩
  rw [hs]
  exact mem_blockInfos _

/-- What is dead at the entry of a block with predecessors dies on each of the edges. -/
theorem mem_deadEntry (hwf : fn.WellFormed) (hne : b.id ≠ fn.entryBlock) (hp : p ∈ fn.blocks)
    (hs : b.id ∈ successors p) :
    v ∈ fn.deadEntry b ↔ v ∉ look fn.blockEntries b.id ∧
      ∀ q ∈ fn.blocks, b.id ∈ successors q → v ∈ fn.endLive q := by
  have hinter : ∀ {f : Id → IntSet} {l : List Id} {acc : IntSet},
      v ∈ l.foldl (fun acc p => acc ∩ f p) acc ↔ v ∈ acc ∧ ∀ q ∈ l, v ∈ f q := by
    intro f l acc
    induction l generalizing acc with
    | nil => simp
    | cons q l ih =>
      rw [List.foldl_cons, ih]
      simp [and_assoc]
  have hedge : ∀ q ∈ fn.blocks, (v ∈ fn.deadAtEdge (look fn.blockEntries b.id) q.id ↔
      v ∈ fn.endLive q ∧ v ∉ look fn.blockEntries b.id) := by
    intro q hq
    rw [deadAtEdge, findOpt_buildBlockMap hwf.blocks_nodup hq]
    exact Finset.mem_sdiff
  have hall : v ∈ fn.deadEntry b ↔ ∀ q ∈ getPred fn.cfg b.id,
      v ∈ fn.deadAtEdge (look fn.blockEntries b.id) q := by
    have hpred : p.id ∈ getPred fn.cfg b.id := mem_getPred.mpr ⟨p, hp, rfl, hs⟩
    rw [deadEntry]
    simp only [if_neg hne]
    cases hpreds : getPred fn.cfg b.id with
    | nil =>
      rw [hpreds] at hpred
      simp at hpred
    | cons q rest =>
      simp only [hinter, List.forall_mem_cons]
      rfl
  rw [hall]
  constructor
  · intro h
    have hq : ∀ q ∈ fn.blocks, b.id ∈ successors q →
        v ∈ fn.endLive q ∧ v ∉ look fn.blockEntries b.id :=
      fun q hq hs => (hedge q hq).mp (h q.id (mem_getPred.mpr ⟨q, hq, rfl, hs⟩))
    exact ⟨(hq p hp hs).2, fun q hqb hs => (hq q hqb hs).1⟩
  · rintro ⟨hnot, h⟩ x hx
    obtain ⟨q, hq, rfl, hs⟩ := mem_getPred.mp hx
    exact (hedge q hq).mpr ⟨h q hq hs, hnot⟩

/-- What is dead at the entry of the function is a parameter that its first statement finds dead. -/
theorem deadEntry_entry (hwf : fn.WellFormed) (hb : b ∈ fn.blocks) (hid : b.id = fn.entryBlock) :
    fn.deadEntry b = look fn.blockEntries b.id \ liveBefore (fn.endLive b) b.statements := by
  unfold deadEntry
  simp only [if_pos hid]
  cases hs : b.statements with
  | nil => rfl
  | cons first rest =>
    simp only
    have hfirst : b.statements = [] ++ first :: rest := hs
    rw [findOpt_stmtResult hwf hb hfirst]
    rfl

end FunctionOir

end Syli.Compiler
