import Syli.Compiler.GenericSubstitution
import Syli.Foundation.FinishOrder
import Syli.Foundation.Reach
import Syli.Foundation.Runs

/-! `cfg.ml`: the control-flow graph of a function. -/
namespace Syli.Compiler.Mono

open Foundation

variable {T : Type} {blocks : List (Block T)} {id entry : Id}

def successors (b : Block T) : List Id :=
  match b.terminator.node with
  | .goto target => [target]
  | .switch _ cases defaultBlock => defaultBlock.toList ++ cases.map Prod.snd
  | .condBr _ thenBlock elseBlock => [thenBlock, elseBlock]
  | .ret _ | .matchFailure => []

structure Cfg where
  succ : IntMap (List Id)
  pred : IntMap (List Id)

/-- A successor that is no block is not found. -/
def addPred (b : Id) (pred : IntMap (List Id)) (sid : Id) : Result (IntMap (List Id)) :=
  match pred.findOpt sid with
  | some preds => .ok (pred.add sid (b :: preds))
  | none => .error .notFound

def buildCfg (blocks : List (Block T)) : Result Cfg := do
  let init : IntMap (List Id) := blocks.foldl (fun m b => m.add b.id []) []
  let pred ← blocks.foldlM (fun pred b => (successors b).foldlM (addPred b.id) pred) init
  return { succ := blocks.foldl (fun m b => m.add b.id (successors b)) init, pred }

def buildBlockMap (blocks : List (Block T)) : IntMap (Block T) :=
  blocks.foldl (fun m b => m.add b.id b) []

def getSucc (cfg : Cfg) (id : Id) : List Id := (cfg.succ.findOpt id).getD []

/-- The entries of `succ` bound the depth of the recursion. -/
def computeRpo (cfg : Cfg) (entry : Id) : List Id :=
  (depthFirst (getSucc cfg) (cfg.succ.length + 1) entry ([], [])).2

/-- The edges between the blocks. -/
def Edge (blocks : List (Block T)) (x y : Id) : Prop :=
  ∃ b, (buildBlockMap blocks).findOpt x = some b ∧ y ∈ successors b

/-- The last element with a key is the one that is found. -/
theorem findOpt_foldl_last {κ α β : Type} [DecidableEq κ] (key : β → κ) (val : β → α) (l : List β)
    (m : AssocMap κ α) (k : κ) :
    (l.foldl (fun (m : AssocMap κ α) x => m.add (key x) (val x)) m).findOpt k =
      (l.reverse.find? (key · == k)).elim (m.findOpt k) (fun x => some (val x)) := by
  induction l generalizing m with
  | nil => rfl
  | cons x l ih =>
    rw [List.foldl_cons, ih, List.reverse_cons, List.find?_append]
    cases hfind : l.reverse.find? (key · == k) with
    | some y => rfl
    | none =>
      by_cases hk : key x = k
      · subst hk
        simp
      · simp [hk, AssocMap.findOpt_add_of_ne (Ne.symm hk)]

/-- What is found under a key is one of the elements with the key. -/
theorem findOpt_foldl_eq_find? {κ α : Type} [DecidableEq κ] (key : α → κ) (l : List α) (k : κ) :
    (l.foldl (fun (m : AssocMap κ α) x => m.add (key x) x) []).findOpt k =
      l.reverse.find? (key · == k) := by
  rw [findOpt_foldl_last key (fun x => x)]
  cases l.reverse.find? (key · == k) <;> rfl

theorem findOpt_buildBlockMap :
    (buildBlockMap blocks).findOpt id = blocks.reverse.find? (·.id == id) := by
  rw [buildBlockMap, findOpt_foldl_eq_find? Block.id]

theorem mem_of_buildBlockMap {b : Block T} (h : (buildBlockMap blocks).findOpt id = some b) :
    b ∈ blocks ∧ b.id = id := by
  rw [findOpt_buildBlockMap] at h
  exact ⟨List.mem_reverse.mp (List.mem_of_find?_eq_some h), by simpa using List.find?_some h⟩

theorem isSome_buildBlockMap {b : Block T} (hb : b ∈ blocks) :
    ((buildBlockMap blocks).findOpt b.id).isSome := by
  rw [findOpt_buildBlockMap, List.find?_isSome]
  exact ⟨b, List.mem_reverse.mpr hb, by simp⟩

/-- The successors of a block in the graph. -/
theorem getSucc_buildCfg {cfg : Cfg} (h : buildCfg blocks = .ok cfg) :
    getSucc cfg id = ((buildBlockMap blocks).findOpt id).elim [] successors := by
  obtain ⟨pred, -, h⟩ := bind_eq_ok.mp h
  obtain rfl := pure_eq_ok.mp h
  rw [getSucc, findOpt_foldl_last Block.id successors, findOpt_buildBlockMap,
    findOpt_foldl_last Block.id (fun _ => [])]
  cases blocks.reverse.find? (·.id == id) <;> rfl

/-- A search with this order follows the edges. -/
theorem leads_getSucc {cfg : Cfg} (h : buildCfg blocks = .ok cfg) {x y : Id} :
    Leads (getSucc cfg) x y ↔ Relation.ReflTransGen (Edge blocks) x y := by
  have hedge : ∀ a b, b ∈ getSucc cfg a ↔ Edge blocks a b := by
    intro a b
    rw [getSucc_buildCfg h, Edge]
    cases (buildBlockMap blocks).findOpt a <;> simp
  simp only [Leads, hedge]

/-- The reverse postorder lists the blocks that the entry leads to, each once and the entry first,
and an edge to an earlier block is one that can be walked back. -/
theorem computeRpo_spec {cfg : Cfg} (h : buildCfg blocks = .ok cfg) :
    (computeRpo cfg entry).Nodup ∧ (computeRpo cfg entry).head? = some entry ∧
      (∀ x, x ∈ computeRpo cfg entry ↔ Relation.ReflTransGen (Edge blocks) entry x) ∧
      ∀ pre x post, computeRpo cfg entry = pre ++ x :: post → ∀ y, Edge blocks x y →
        y ∈ post ∨ Relation.ReflTransGen (Edge blocks) y x := by
  have hkeys : ∀ a, a ∉ (cfg.succ.map Prod.fst).toFinset → getSucc cfg a = [] := by
    intro a ha
    rw [List.mem_toFinset] at ha
    rw [getSucc, AssocMap.findOpt_eq_none_iff.mpr ha]
    rfl
  have hcard : ((cfg.succ.map Prod.fst).toFinset \ (([], []) : SearchState Id).1.toFinset).card <
      cfg.succ.length + 1 := by
    have := List.toFinset_card_le (cfg.succ.map Prod.fst)
    simp at this ⊢
    omega
  let U : Set Id := {a | Leads (getSucc cfg) entry a}
  have hU : ∀ a ∈ U, ∀ b ∈ getSucc cfg a, b ∈ U := fun a ha b hb => ha.tail hb
  obtain ⟨hexplored, hentry⟩ :=
    explored_depthFirst (a := entry) hU (fun a _ => hkeys a) .refl hcard
  have hlist : ∀ a, a ∈ computeRpo cfg entry ↔ Leads (getSucc cfg) entry a := by
    intro a
    rw [computeRpo, hexplored.listed a]
    constructor
    · rintro (hno | ⟨hvisited, hno⟩)
      · simp at hno
      · exact (hexplored.inside a hvisited).resolve_left hno
    · intro ha
      refine Or.inr ⟨?_, by simp⟩
      induction ha with
      | refl => exact hentry
      | tail _ hbc ih => exact (hexplored.closed _ ih).resolve_left (by simp) _ hbc
  have hordered := (orders_depthFirst (G := fun _ => False) hU (fun a _ => hkeys a) .refl hcard
    ⟨List.nodup_nil, by simp, by simp, by simp, by simp⟩).ordered
  have hedges := edgeOrdered_depthFirst (G := fun _ => False) (a := entry) hkeys
    (fun _ => False.elim) hcard ⟨by simp, by simp⟩
  refine ⟨hordered.nodup, ?_, fun a => (hlist a).trans (leads_getSucc h), ?_⟩
  · simp [computeRpo, depthFirst]
  · intro pre x post heq y hy
    have hnext : y ∈ getSucc cfg x := by
      obtain ⟨b, hb, hyb⟩ := hy
      rw [getSucc_buildCfg h, hb]
      exact hyb
    exact (hedges.order pre x post heq y hnext).imp_right (leads_getSucc h).mp

/-- A loop of two blocks, and the block behind it. -/
def loopBlocks : List (Block Unit) :=
  [⟨1, 0, [], ⟨11, .goto 2⟩⟩, ⟨2, 1, [], ⟨12, .condBr ⟨5, "again", ()⟩ 1 3⟩⟩,
    ⟨3, 2, [], ⟨13, .ret none⟩⟩]

theorem computeRpo_spec_loop : ∃ cfg, buildCfg loopBlocks = .ok cfg ∧
    computeRpo cfg 1 = [1, 2, 3] ∧ (computeRpo cfg 1).Nodup :=
  ⟨_, rfl, rfl, (@computeRpo_spec _ loopBlocks 1 _ rfl).1⟩

end Syli.Compiler.Mono
