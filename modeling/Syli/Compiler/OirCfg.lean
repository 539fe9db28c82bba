import Syli.Compiler.Oir
import Syli.Foundation.Search
import Syli.Foundation.Reach

/-! `oir_cfg.ml`: the control-flow graph of a function. -/
namespace Syli.Compiler

open Foundation

variable {blocks : List Block} {b p : Block} {sid : Id}

def successors (b : Block) : List Id :=
  match b.terminator with
  | .goto target => [target]
  | .switch _ cases defaultBlock => defaultBlock.toList ++ cases.map Prod.snd
  | .condBr _ thenBlock elseBlock => [thenBlock, elseBlock]
  | .ret _ _ | .matchFailure => []

structure Cfg where
  succ : IntMap (List Id)
  pred : IntMap (List Id)

def addPred (b : Id) (pred : IntMap (List Id)) (sid : Id) : IntMap (List Id) :=
  pred.add sid (b :: (pred.findOpt sid).getD [])

def buildCfg (blocks : List Block) : Cfg :=
  let init := blocks.foldl (fun (m : IntMap (List Id) × IntMap (List Id)) b =>
    (m.1.add b.id [], m.2.add b.id [])) ([], [])
  let m := blocks.foldl (fun (m : IntMap (List Id) × IntMap (List Id)) b =>
    (m.1.add b.id (successors b), (successors b).foldl (addPred b.id) m.2)) init
  { succ := m.1, pred := m.2 }

def buildBlockMap (blocks : List Block) : IntMap Block :=
  blocks.foldl (fun m b => m.add b.id b) []

def getSucc (cfg : Cfg) (id : Id) : List Id := (cfg.succ.findOpt id).getD []

def getPred (cfg : Cfg) (id : Id) : List Id := (cfg.pred.findOpt id).getD []

/-- The entries of `succ` bound the depth of the recursion. -/
def computeRpo (cfg : Cfg) (entry : Id) : List Id :=
  (depthFirst (getSucc cfg) (cfg.succ.length + 1) entry ([], [])).2

/-- A binding that is added for each element, under distinct keys. -/
theorem findOpt_foldl_add {α β : Type} {key : β → Id} {val : β → α} {l : List β} {m : IntMap α}
    {x : β} (hn : (l.map key).Nodup) (hx : x ∈ l) :
    (l.foldl (fun m y => m.add (key y) (val y)) m).findOpt (key x) = some (val x) := by
  have hother : ∀ {l : List β} {m : IntMap α} {k : Id}, k ∉ l.map key →
      (l.foldl (fun m y => m.add (key y) (val y)) m).findOpt k = m.findOpt k := by
    intro l m k hk
    induction l generalizing m with
    | nil => rfl
    | cons y l ih =>
      rw [List.map_cons, List.mem_cons, not_or] at hk
      rw [List.foldl_cons, ih hk.2, AssocMap.findOpt_add_of_ne hk.1]
  induction l generalizing m with
  | nil => simp at hx
  | cons y l ih =>
    rw [List.map_cons, List.nodup_cons] at hn
    rw [List.foldl_cons]
    rcases List.mem_cons.mp hx with rfl | hx
    · rw [hother hn.1, AssocMap.findOpt_add_self]
    · exact ih hn.2 hx

theorem findOpt_foldl_add_none {α β : Type} {key : β → Id} {val : β → α} {l : List β} {m : IntMap α}
    {k : Id} {v : α} (h : (l.foldl (fun m y => m.add (key y) (val y)) m).findOpt k = some v) :
    m.findOpt k = some v ∨ ∃ x ∈ l, key x = k ∧ val x = v := by
  induction l generalizing m with
  | nil => exact Or.inl h
  | cons y l ih =>
    rcases ih h with h | ⟨x, hx, hk⟩
    · by_cases hky : k = key y
      · subst hky
        exact Or.inr ⟨y, List.mem_cons_self, rfl,
          Option.some.inj (AssocMap.findOpt_add_self.symm.trans h)⟩
      · exact Or.inl ((AssocMap.findOpt_add_of_ne hky).symm.trans h)
    · exact Or.inr ⟨x, List.mem_cons_of_mem y hx, hk⟩

section

variable (hn : (blocks.map Block.id).Nodup)
include hn

theorem findOpt_buildBlockMap (hb : b ∈ blocks) : (buildBlockMap blocks).findOpt b.id = some b :=
  @findOpt_foldl_add _ _ Block.id id _ _ _ hn hb

theorem getSucc_buildCfg (hb : b ∈ blocks) : getSucc (buildCfg blocks) b.id = successors b := by
  have hfst : ∀ {l : List Block} {m : IntMap (List Id) × IntMap (List Id)},
      (l.foldl (fun (m : IntMap (List Id) × IntMap (List Id)) b =>
        (m.1.add b.id (successors b), (successors b).foldl (addPred b.id) m.2)) m).1 =
        l.foldl (fun m b => m.add b.id (successors b)) m.1 := by
    intro l m
    induction l generalizing m with
    | nil => rfl
    | cons b l ih => exact ih
  simp only [getSucc, buildCfg, hfst]
  rw [findOpt_foldl_add hn hb]
  rfl

end

theorem mem_buildBlockMap (h : (buildBlockMap blocks).findOpt sid = some b) :
    b ∈ blocks ∧ b.id = sid := by
  rcases @findOpt_foldl_add_none _ _ Block.id id _ _ _ _ h with h | ⟨x, hx, hk, rfl⟩
  · simp at h
  · exact ⟨hx, hk⟩

theorem mem_addPred {k q x : Id} {m : IntMap (List Id)} :
    q ∈ ((addPred x m sid).findOpt k).getD [] ↔
      q ∈ (m.findOpt k).getD [] ∨ q = x ∧ k = sid := by
  unfold addPred
  by_cases hk : k = sid
  · subst hk
    simp [AssocMap.findOpt_add_self, or_comm]
  · simp [AssocMap.findOpt_add_of_ne hk, hk]

theorem mem_foldl_addPred {k q x : Id} {l : List Id} {m : IntMap (List Id)} :
    q ∈ ((l.foldl (addPred x) m).findOpt k).getD [] ↔
      q ∈ (m.findOpt k).getD [] ∨ q = x ∧ k ∈ l := by
  induction l generalizing m with
  | nil => simp
  | cons s l ih =>
    rw [List.foldl_cons, ih, mem_addPred, List.mem_cons]
    tauto

theorem mem_getPred {q : Id} :
    q ∈ getPred (buildCfg blocks) sid ↔ ∃ p ∈ blocks, p.id = q ∧ sid ∈ successors p := by
  have hinit : ∀ {l : List Block} {m : IntMap (List Id) × IntMap (List Id)},
      (m.2.findOpt sid).getD [] = [] → ((l.foldl (fun (m : IntMap (List Id) × IntMap (List Id)) b =>
        (m.1.add b.id [], m.2.add b.id [])) m).2.findOpt sid).getD [] = [] := by
    intro l m h
    induction l generalizing m with
    | nil => exact h
    | cons b l ih =>
      apply ih
      by_cases hb : sid = b.id
      · subst hb
        simp [AssocMap.findOpt_add_self]
      · simpa [AssocMap.findOpt_add_of_ne hb] using h
  have hall : ∀ {l : List Block} {m : IntMap (List Id) × IntMap (List Id)},
      q ∈ ((l.foldl (fun (m : IntMap (List Id) × IntMap (List Id)) b =>
        (m.1.add b.id (successors b), (successors b).foldl (addPred b.id) m.2)) m).2.findOpt
          sid).getD [] ↔
        q ∈ (m.2.findOpt sid).getD [] ∨ ∃ p ∈ l, p.id = q ∧ sid ∈ successors p := by
    intro l m
    induction l generalizing m with
    | nil => simp
    | cons b l ih =>
      rw [List.foldl_cons, ih, mem_foldl_addPred, List.exists_mem_cons_iff, or_assoc,
        eq_comm (a := q)]
  rw [getPred, buildCfg, hall, hinit (by simp)]
  simp

/-- Every block adds an entry to `succ`. -/
theorem length_le_succ (blocks : List Block) : blocks.length ≤ (buildCfg blocks).succ.length := by
  have hall : ∀ {l : List Block} {m : IntMap (List Id) × IntMap (List Id)},
      (l.foldl (fun (m : IntMap (List Id) × IntMap (List Id)) b =>
        (m.1.add b.id (successors b), (successors b).foldl (addPred b.id) m.2)) m).1.length =
          l.length + m.1.length := by
    intro l m
    induction l generalizing m with
    | nil => simp
    | cons b l ih =>
      rw [List.foldl_cons, ih]
      simp [AssocMap.add]
      omega
  simp only [buildCfg, hall]
  exact Nat.le_add_right _ _

/-- The blocks that the edges lead to from the entry. -/
def Reachable (blocks : List Block) (entry : Id) : Id → Prop :=
  Reach (fun x y => ∃ b ∈ blocks, b.id = x ∧ y ∈ successors b) (· = entry)

theorem Reachable.mem {entry : Id} (h : Reachable blocks entry sid)
    (htargets : ∀ b ∈ blocks, ∀ sid ∈ successors b, sid ∈ blocks.map Block.id)
    (hentry : entry ∈ blocks.map Block.id) : sid ∈ blocks.map Block.id := by
  apply h.closed
  · rintro a rfl
    exact hentry
  · rintro a c - - ⟨b, hb, -, hs⟩
    exact htargets b hb c hs

/-- The order holds the entry and the blocks that it leads to. -/
theorem mem_computeRpo {entry : Id} (hn : (blocks.map Block.id).Nodup)
    (htargets : ∀ b ∈ blocks, ∀ sid ∈ successors b, sid ∈ blocks.map Block.id)
    (hentry : entry ∈ blocks.map Block.id) :
    sid ∈ computeRpo (buildCfg blocks) entry ↔ Reachable blocks entry sid := by
  classical
  have hinside : ∀ {a}, Reachable blocks entry a → a ∈ (blocks.map Block.id).toFinset :=
    fun h => List.mem_toFinset.mpr (h.mem htargets hentry)
  let U := (blocks.map Block.id).toFinset.filter (Reachable blocks entry)
  have hmemU : ∀ {a}, a ∈ U ↔ Reachable blocks entry a := by
    intro a
    rw [Finset.mem_filter]
    exact ⟨And.right, fun h => ⟨hinside h, h⟩⟩
  have hcard : U.card < (buildCfg blocks).succ.length + 1 := by
    have hle := List.toFinset_card_le (blocks.map Block.id)
    have hsub := Finset.card_filter_le (blocks.map Block.id).toFinset (Reachable blocks entry)
    have := length_le_succ blocks
    rw [List.length_map] at hle
    exact Nat.lt_succ_of_le (hsub.trans (hle.trans this))
  have hnext : ∀ b ∈ blocks, getSucc (buildCfg blocks) b.id = successors b :=
    fun b hb => getSucc_buildCfg hn hb
  have hU : ∀ a ∈ U, ∀ s ∈ getSucc (buildCfg blocks) a, s ∈ U := by
    intro a ha s hs
    have hreach := hmemU.mp ha
    obtain ⟨b, hb, rfl⟩ := List.mem_map.mp (hreach.mem htargets hentry)
    rw [hnext b hb] at hs
    exact hmemU.mpr (hreach.step ⟨b, hb, rfl, hs⟩)
  obtain ⟨hmem, hclosed⟩ := depthFirst_closed hU (hmemU.mpr (.root rfl)) hcard
  constructor
  · exact fun h => hmemU.mp (hclosed sid h).1
  · intro h
    apply h.closed
    · rintro a rfl
      exact hmem
    · rintro a c - ha ⟨b, hb, rfl, hs⟩
      apply (hclosed b.id ha).2
      rwa [hnext b hb]

end Syli.Compiler
