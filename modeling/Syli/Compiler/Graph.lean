import Mathlib.Logic.Relation
import Syli.Foundation.FinishOrder

/-! `graph.ml` and `cyclic_components.ml`: directed graphs and their cyclic components. -/
namespace Syli.Compiler

open Foundation

structure Graph (α : Type) where
  nodes : List α
  arcs : List (α × α)

namespace Graph

variable {α : Type} [DecidableEq α] {g : Graph α} {u v w n src target : α}
  {l seen pre post : List α}

def empty : Graph α := ⟨[], []⟩

def addNode (node : α) (graph : Graph α) : Graph α :=
  if node ∈ graph.nodes then graph else { graph with nodes := node :: graph.nodes }

/-- Only the source of an edge becomes a node. -/
def addEdge (src target : α) (graph : Graph α) : Graph α :=
  { graph.addNode src with arcs := (src, target) :: graph.arcs }

def successors (node : α) (graph : Graph α) : List α :=
  (graph.arcs.filter (·.1 = node)).map Prod.snd

def reverse (graph : Graph α) : Graph α :=
  graph.arcs.foldl (fun acc arc => addEdge arc.2 arc.1 acc) empty

/-- The nodes in the order of their completion, latest first. -/
def dfsFinishOrder (graph : Graph α) : List α :=
  (graph.nodes.foldl
    (fun st v => depthFirst (fun n => graph.successors n) (graph.nodes.length + 1) v st)
      ([], [])).2

/-- One start of the second pass: the nodes that it collects form a component. -/
def collect (graph : Graph α) (st : List α × List (List α)) (v : α) : List α × List (List α) :=
  if v ∈ st.1 then st
  else
    let found := depthFirstEntry (fun n => graph.reverse.successors n) (graph.nodes.length + 2) v
      (st.1, [])
    (found.1, st.2 ++ [found.2])

def kosarajuScc (graph : Graph α) : List (List α) :=
  (graph.dfsFinishOrder.foldl graph.collect ([], [])).2

/-- A single node counts when it is its own successor. -/
def isCyclic (graph : Graph α) : List α → Bool
  | [] => false
  | [n] => (graph.successors n).any (· = n)
  | _ => true

def cyclicComponents (graph : Graph α) : List (List α) :=
  graph.kosarajuScc.filter graph.isCyclic

def Edge (graph : Graph α) (u v : α) : Prop := (u, v) ∈ graph.arcs

/-- The ends of every edge are nodes. -/
def Complete (graph : Graph α) : Prop :=
  ∀ u v, graph.Edge u v → u ∈ graph.nodes ∧ v ∈ graph.nodes

theorem mem_successors : v ∈ g.successors u ↔ g.Edge u v := by
  simp [successors, Edge]

theorem mem_addNode : v ∈ (g.addNode n).nodes ↔ v = n ∨ v ∈ g.nodes := by
  unfold addNode
  split
  · rename_i hmem
    constructor
    · exact Or.inr
    · rintro (rfl | hv)
      · exact hmem
      · exact hv
  · simp

theorem addNode_arcs : (g.addNode n).arcs = g.arcs := by
  unfold addNode
  split <;> rfl

theorem edge_addEdge : (g.addEdge src target).Edge u v ↔
    u = src ∧ v = target ∨ g.Edge u v := by
  simp [Edge, addEdge]

theorem edge_reverse : g.reverse.Edge u v ↔ g.Edge v u := by
  have hfold : ∀ (arcs : List (α × α)) (acc : Graph α),
      (arcs.foldl (fun acc arc => addEdge arc.2 arc.1 acc) acc).Edge u v ↔
        (v, u) ∈ arcs ∨ acc.Edge u v := by
    intro arcs
    induction arcs with
    | nil => simp
    | cons arc arcs ih =>
      intro acc
      rw [List.foldl_cons, ih, edge_addEdge, List.mem_cons, Prod.ext_iff]
      tauto
  have hempty : ¬ (empty : Graph α).Edge u v := by simp [Edge, empty]
  exact (hfold g.arcs empty).trans (or_iff_left hempty)

theorem mem_successors_reverse : v ∈ g.reverse.successors u ↔ g.Edge v u :=
  mem_successors.trans edge_reverse

/-- Every node with an outgoing edge is a key of the map. -/
def Keyed (graph : Graph α) : Prop := ∀ u v, graph.Edge u v → u ∈ graph.nodes

/-- A key of the map or a target of an edge. -/
def IsNode (graph : Graph α) (v : α) : Prop := v ∈ graph.nodes ∨ ∃ u, graph.Edge u v

omit [DecidableEq α] in
theorem Complete.keyed (h : g.Complete) : g.Keyed := fun u v huv => (h u v huv).1

section Components

variable (hg : g.Keyed)

include hg

omit [DecidableEq α] hg in
theorem Edge.isNode (h : g.Edge u v) : g.IsNode v := Or.inr ⟨u, h⟩

theorem successors_of_not_key (hv : v ∉ g.nodes) : g.successors v = [] := by
  refine List.eq_nil_iff_forall_not_mem.mpr fun w hw => hv ?_
  exact hg v w (mem_successors.mp hw)

omit hg in
theorem card_sdiff_lt (seen : List α) :
    (g.nodes.toFinset \ seen.toFinset).card < g.nodes.length + 1 := by
  have hsub :=
    Finset.card_le_card (Finset.sdiff_subset (s := g.nodes.toFinset) (t := seen.toFinset))
  have := g.nodes.toFinset_card_le
  omega

omit hg in
theorem forward_closed : ∀ a ∈ {v | g.IsNode v}, ∀ b ∈ g.successors a, b ∈ {v | g.IsNode v} :=
  fun _ _ _ hb => (mem_successors.mp hb).isNode

theorem forward_keys : ∀ a ∈ {v | g.IsNode v}, a ∉ g.nodes.toFinset → g.successors a = [] :=
  fun _ _ ha => successors_of_not_key hg fun hmem => ha (List.mem_toFinset.mpr hmem)

theorem mem_dfsFinishOrder : v ∈ g.dfsFinishOrder ↔ g.IsNode v := by
  have hcard := card_sdiff_lt (g := g) (([], []) : SearchState α).1
  obtain ⟨hall, hmem⟩ := explored_foldl (l := g.nodes)
    (fun b st hb hst => explored_depthFirst forward_closed (forward_keys hg) hb hst)
    (fun b hb => Or.inl hb) hcard
  constructor
  · intro hv
    have hlisted := (hall.listed v).mp hv
    exact (hall.inside v (hlisted.resolve_left (by simp)).1).resolve_left (by simp)
  · rintro (hv | ⟨u, huv⟩)
    · exact (hall.listed v).mpr (Or.inr ⟨hmem v hv, by simp⟩)
    · have hu := hmem u (hg u v huv)
      have hv := ((hall.closed u hu).resolve_left (by simp)) v (mem_successors.mpr huv)
      exact (hall.listed v).mpr (Or.inr ⟨hv, by simp⟩)

/-- The nodes lead to each other. -/
def Mutual (graph : Graph α) (u v : α) : Prop :=
  Relation.ReflTransGen graph.Edge u v ∧ Relation.ReflTransGen graph.Edge v u

omit hg in
theorem leads_iff : Leads (fun n => g.successors n) u v ↔ Relation.ReflTransGen g.Edge u v := by
  have heq : (fun a b => b ∈ g.successors a) = g.Edge := by
    funext a b
    exact propext mem_successors
  rw [Leads, heq]

omit hg in
theorem leads_reverse_iff :
    Leads (fun n => g.reverse.successors n) u v ↔ Relation.ReflTransGen g.Edge v u := by
  have heq : (fun a b => b ∈ g.reverse.successors a) = fun a b => g.Edge b a := by
    funext a b
    exact propext mem_successors_reverse
  rw [Leads, heq]
  exact Relation.reflTransGen_swap

/-- In the finish order a node that leads to an earlier one is led to by it, or leads to a node before
that one. -/
theorem dfsFinishOrder_ordered : g.dfsFinishOrder.Nodup ∧
    ∀ pre v post, g.dfsFinishOrder = pre ++ v :: post → ∀ w ∈ post,
      Relation.ReflTransGen g.Edge w v → Relation.ReflTransGen g.Edge v w ∨
        ∃ u ∈ pre, Relation.ReflTransGen g.Edge w u := by
  have hstart : Ordered (fun n => g.successors n) (fun _ => False) ([], []) :=
    ⟨List.nodup_nil, by simp, by simp, by simp, by simp⟩
  have hcard := card_sdiff_lt (g := g) (([], []) : SearchState α).1
  have h := ordered_foldl (l := g.nodes) forward_closed (forward_keys hg)
    (fun b hb => Or.inl hb) hcard hstart
  refine ⟨h.nodup, fun pre v post heq w hw hwv => ?_⟩
  rcases h.order pre v post heq w hw (leads_iff.mpr hwv) with hvw | ⟨u, hu | hu, hwu⟩
  · exact Or.inl (leads_iff.mp hvw)
  · exact Or.inr ⟨u, hu, leads_iff.mp hwu⟩
  · exact hu.elim

/-- What the second pass has collected from a first part of the finish order: components, which
hold every node that leads to this part. -/
structure Collected (g : Graph α) (pre : List α) (st : List α × List (List α)) : Prop where
  closed : ∀ x ∈ st.1, ∀ y, g.Edge y x → y ∈ st.1
  seen : ∀ x ∈ pre, x ∈ st.1
  collected : ∀ x, x ∈ st.1 ↔ ∃ comp ∈ st.2, x ∈ comp
  inside : ∀ x ∈ st.1, g.IsNode x
  component : ∀ comp ∈ st.2, comp ≠ [] ∧ comp.Nodup ∧ ∀ x ∈ comp, ∀ y, y ∈ comp ↔ g.Mutual x y
  disjoint : st.2.Pairwise List.Disjoint

omit [DecidableEq α] hg in
theorem Collected.leads {st : List α × List (List α)} (h : Collected g pre st) (hv : v ∈ st.1)
    (hr : Relation.ReflTransGen g.Edge u v) : u ∈ st.1 := by
  induction hr using Relation.ReflTransGen.head_induction_on with
  | refl => exact hv
  | head hedge _ ih => exact h.closed _ ih _ hedge

omit [DecidableEq α] in
theorem isNode_of_leads (hv : g.IsNode v) (hr : Relation.ReflTransGen g.Edge u v) :
    g.IsNode u := by
  cases hr using Relation.ReflTransGen.head_induction_on with
  | refl => exact hv
  | head hedge _ => exact Or.inl (hg _ _ hedge)

/-- The search along the reversed edges finds what leads to its start and is not collected yet. -/
theorem mem_found {st : List α × List (List α)} (h : Collected g pre st) :
    (depthFirstEntry (fun n => g.reverse.successors n) (g.nodes.length + 2) v (st.1, [])).2.Nodup ∧
    (∀ w, w ∈ (depthFirstEntry (fun n => g.reverse.successors n) (g.nodes.length + 2) v
      (st.1, [])).2 ↔ w ∉ st.1 ∧ Relation.ReflTransGen g.Edge w v) ∧
    ∀ w, w ∈ (depthFirstEntry (fun n => g.reverse.successors n) (g.nodes.length + 2) v
      (st.1, [])).1 ↔ w ∈ st.1 ∨ Relation.ReflTransGen g.Edge w v := by
  let U : Set α := {x | x = v ∨ x ∈ g.nodes}
  have hU : ∀ a ∈ U, ∀ b ∈ g.reverse.successors a, b ∈ U :=
    fun a _ b hb => Or.inr (hg b a (mem_successors_reverse.mp hb))
  have hK : ∀ a ∈ U, a ∉ insert v g.nodes.toFinset → g.reverse.successors a = [] := by
    intro a ha hno
    simp only [Finset.mem_insert, List.mem_toFinset] at hno
    exact (hno ha).elim
  have hcard : (insert v g.nodes.toFinset \ ((st.1, []) : SearchState α).1.toFinset).card <
      g.nodes.length + 2 := by
    have := Finset.card_le_card
      (Finset.sdiff_subset (s := insert v g.nodes.toFinset) (t := st.1.toFinset))
    have := Finset.card_insert_le v g.nodes.toFinset
    have := g.nodes.toFinset_card_le
    simp only
    omega
  have hstart : Ordered (fun n => g.reverse.successors n) (fun x => x ∈ st.1) (st.1, []) :=
    ⟨List.nodup_nil, by simp, fun x hx => Or.inr hx, by simp, by simp⟩
  obtain ⟨hall, hmem⟩ := explored_depthFirst hU hK (Or.inl rfl) hcard
  obtain ⟨hordered, new, hnew, hleads⟩ := orders_depthFirst hU hK (Or.inl rfl) hcard hstart
  obtain ⟨hvisited, hperm⟩ := depthFirstEntry_perm (fun n => g.reverse.successors n)
    (g.nodes.length + 2) v (st.1, []) (st.1, []) [] rfl (List.Perm.refl _)
  rw [List.nil_append] at hperm
  have hclosed : ∀ x ∈ (depthFirst (fun n => g.reverse.successors n) (g.nodes.length + 2) v
      (st.1, [])).1, ∀ y, g.Edge y x → y ∈ (depthFirst (fun n => g.reverse.successors n)
        (g.nodes.length + 2) v (st.1, [])).1 := by
    intro x hx y hedge
    rcases hall.closed x hx with hold | hnext
    · exact hall.grows y (h.closed x hold y hedge)
    · exact hnext y (mem_successors_reverse.mpr hedge)
  have hback : ∀ w, Relation.ReflTransGen g.Edge w v → w ∈ (depthFirst
      (fun n => g.reverse.successors n) (g.nodes.length + 2) v (st.1, [])).1 := by
    intro w hw
    induction hw using Relation.ReflTransGen.head_induction_on with
    | refl => exact hmem
    | head hedge _ ih => exact hclosed _ ih _ hedge
  have hlisted : ∀ w, w ∈ (depthFirst (fun n => g.reverse.successors n) (g.nodes.length + 2) v
      (st.1, [])).2 → Relation.ReflTransGen g.Edge w v := by
    intro w hw
    rw [hnew, List.append_nil] at hw
    exact leads_reverse_iff.mp (hleads w hw)
  refine ⟨hperm.nodup_iff.mpr hordered.nodup, fun w => ?_, fun w => ?_⟩
  · rw [hperm.mem_iff]
    constructor
    · intro hw
      refine ⟨?_, hlisted w hw⟩
      rcases (hall.listed w).mp hw with hw | ⟨-, hno⟩
      · simp at hw
      · exact hno
    · rintro ⟨hno, hwv⟩
      exact (hall.listed w).mpr (Or.inr ⟨hback w hwv, hno⟩)
  · rw [hvisited]
    constructor
    · intro hw
      by_cases hold : w ∈ st.1
      · exact Or.inl hold
      · exact Or.inr (hlisted w ((hall.listed w).mpr (Or.inr ⟨hw, hold⟩)))
    · rintro (hw | hw)
      · exact hall.grows w hw
      · exact hback w hw

/-- The start leads to what leads to it and is not seen yet, because that is later in the finish
order. -/
theorem leads_of_unseen {st : List α × List (List α)} {w : α} (h : Collected g pre st)
    (horder : g.dfsFinishOrder = pre ++ v :: post) (hw : w ∉ st.1)
    (hwv : Relation.ReflTransGen g.Edge w v) : Relation.ReflTransGen g.Edge v w := by
  have hnode : g.IsNode v := (mem_dfsFinishOrder hg).mp (by simp [horder])
  have hlisted : w ∈ pre ++ v :: post :=
    horder ▸ (mem_dfsFinishOrder hg).mpr (isNode_of_leads hg hnode hwv)
  rcases List.mem_append.mp hlisted with hpre | hpost
  · exact (hw (h.seen w hpre)).elim
  rcases List.mem_cons.mp hpost with rfl | hpost
  · exact .refl
  rcases (dfsFinishOrder_ordered hg).2 pre v post horder w hpost hwv with hvw | ⟨u, hu, hwu⟩
  · exact hvw
  · exact (hw (h.leads (h.seen u hu) hwu)).elim

theorem collected_collect {st : List α × List (List α)} (h : Collected g pre st)
    (horder : g.dfsFinishOrder = pre ++ v :: post) :
    Collected g (pre ++ [v]) (g.collect st v) := by
  have hnode : g.IsNode v := (mem_dfsFinishOrder hg).mp (by simp [horder])
  unfold collect
  split
  · rename_i hmem
    refine { h with seen := fun x hx => ?_ }
    rcases List.mem_append.mp hx with hx | hx
    · exact h.seen x hx
    · exact List.mem_singleton.mp hx ▸ hmem
  · rename_i hv
    obtain ⟨hnodup, hfound, hvisited⟩ := mem_found (v := v) hg h
    have hback : ∀ w, w ∉ st.1 → Relation.ReflTransGen g.Edge w v →
        Relation.ReflTransGen g.Edge v w := fun w => leads_of_unseen hg h horder
    constructor
    case closed =>
      intro x hx y hedge
      rcases (hvisited x).mp hx with hx | hx
      · exact (hvisited y).mpr (Or.inl (h.closed x hx y hedge))
      · exact (hvisited y).mpr (Or.inr (.head hedge hx))
    case seen =>
      intro x hx
      rcases List.mem_append.mp hx with hx | hx
      · exact (hvisited x).mpr (Or.inl (h.seen x hx))
      · obtain rfl := List.mem_singleton.mp hx
        exact (hvisited x).mpr (Or.inr .refl)
    case collected =>
      intro x
      rw [hvisited]
      constructor
      · intro hx
        by_cases hold : x ∈ st.1
        · obtain ⟨comp, hcomp, hmem⟩ := (h.collected x).mp hold
          exact ⟨comp, List.mem_append_left _ hcomp, hmem⟩
        · exact ⟨_, List.mem_append_right _ List.mem_cons_self,
            (hfound x).mpr ⟨hold, hx.resolve_left hold⟩⟩
      · rintro ⟨comp, hcomp, hmem⟩
        rcases List.mem_append.mp hcomp with hcomp | hcomp
        · exact Or.inl ((h.collected x).mpr ⟨comp, hcomp, hmem⟩)
        · obtain rfl := List.mem_singleton.mp hcomp
          exact Or.inr ((hfound x).mp hmem).2
    case inside =>
      intro x hx
      rcases (hvisited x).mp hx with hx | hx
      · exact h.inside x hx
      · exact isNode_of_leads hg hnode hx
    case component =>
      intro comp hcomp
      rcases List.mem_append.mp hcomp with hcomp | hcomp
      · exact h.component comp hcomp
      · obtain rfl := List.mem_singleton.mp hcomp
        refine ⟨List.ne_nil_of_mem ((hfound v).mpr ⟨hv, .refl⟩), hnodup, fun x hx y => ?_⟩
        obtain ⟨hxold, hxv⟩ := (hfound x).mp hx
        have hvx := hback x hxold hxv
        constructor
        · intro hy
          obtain ⟨hyold, hyv⟩ := (hfound y).mp hy
          exact ⟨hxv.trans (hback y hyold hyv), hyv.trans hvx⟩
        · rintro ⟨hxy, hyx⟩
          exact (hfound y).mpr ⟨fun hy => hxold (h.leads hy hxy), hyx.trans hxv⟩
    case disjoint =>
      refine List.pairwise_append.mpr ⟨h.disjoint, List.pairwise_singleton _ _, ?_⟩
      intro comp hcomp found hf x hx hx'
      obtain rfl := List.mem_singleton.mp hf
      exact ((hfound x).mp hx').1 ((h.collected x).mpr ⟨comp, hcomp, hx⟩)

theorem collected_foldl {st : List α × List (List α)} (h : Collected g pre st)
    (horder : g.dfsFinishOrder = pre ++ post) :
    Collected g (pre ++ post) (post.foldl g.collect st) := by
  induction post generalizing pre st with
  | nil => rwa [List.append_nil]
  | cons v post ih =>
    have hstep := ih (collected_collect hg h horder) (by rw [horder]; simp)
    rwa [List.append_assoc, List.singleton_append] at hstep

/-- The components are the classes of the nodes that lead to each other. -/
theorem collected_kosarajuScc :
    ∃ visited, Collected g g.dfsFinishOrder (visited, g.kosarajuScc) := by
  have hstart : Collected g [] ([], []) :=
    ⟨by simp, by simp, by simp, by simp, by simp, List.Pairwise.nil⟩
  have h := collected_foldl hg hstart (List.nil_append g.dfsFinishOrder).symm
  exact ⟨_, h⟩

/-- A component is cyclic where one of its nodes leads to itself by an edge at least. -/
theorem isCyclic_iff {comp : List α} (hcomp : comp ∈ g.kosarajuScc) :
    (g.isCyclic comp = true ↔ ∃ x ∈ comp, Relation.TransGen g.Edge x x) ∧
      (g.isCyclic comp = true ↔ 2 ≤ comp.length ∨ ∃ n, comp = [n] ∧ g.Edge n n) := by
  obtain ⟨visited, h⟩ := collected_kosarajuScc hg
  obtain ⟨hne, hnodup, hmutual⟩ := h.component comp hcomp
  rcases comp with _ | ⟨x, _ | ⟨y, rest⟩⟩
  · exact (hne rfl).elim
  · have hedge : g.isCyclic [x] = true ↔ g.Edge x x := by
      simp [isCyclic, mem_successors]
    refine ⟨hedge.trans ⟨fun hxx => ⟨x, List.mem_cons_self, .single hxx⟩, ?_⟩, ?_⟩
    · rintro ⟨z, hz, hcycle⟩
      obtain rfl := List.mem_singleton.mp hz
      obtain ⟨w, hzw, hwz⟩ := Relation.TransGen.head'_iff.mp hcycle
      have hw := (hmutual z List.mem_cons_self w).mpr ⟨.single hzw, hwz⟩
      obtain rfl := List.mem_singleton.mp hw
      exact hzw
    · rw [hedge]
      simp
  · have hcyclic : g.isCyclic (x :: y :: rest) = true := rfl
    refine ⟨⟨fun _ => ⟨x, List.mem_cons_self, ?_⟩, fun _ => hcyclic⟩,
      ⟨fun _ => Or.inl (by simp), fun _ => hcyclic⟩⟩
    have hne : x ≠ y := by
      rintro rfl
      simp at hnodup
    obtain ⟨hxy, hyx⟩ := (hmutual x List.mem_cons_self y).mp (by simp)
    obtain ⟨w, hxw, hwy⟩ := (Relation.ReflTransGen.cases_head hxy).resolve_left hne
    exact Relation.TransGen.head' hxw (hwy.trans hyx)

end Components

/-- Both ends of an edge that lies on a cycle are in one cyclic component. -/
theorem exists_cyclicComponent (hg : g.Complete) (huv : g.Edge u v)
    (hvu : Relation.ReflTransGen g.Edge v u) :
    ∃ comp ∈ g.cyclicComponents, u ∈ comp ∧ v ∈ comp := by
  obtain ⟨visited, h⟩ := collected_kosarajuScc hg.keyed
  have hu : u ∈ visited := h.seen u ((mem_dfsFinishOrder hg.keyed).mpr (Or.inl (hg u v huv).1))
  obtain ⟨comp, hcomp, hucomp⟩ := (h.collected u).mp hu
  have hvcomp := ((h.component comp hcomp).2.2 u hucomp v).mpr ⟨.single huv, hvu⟩
  refine ⟨comp, List.mem_filter.mpr ⟨hcomp, ?_⟩, hucomp, hvcomp⟩
  exact (isCyclic_iff hg.keyed hcomp).1.mpr ⟨u, hucomp, Relation.TransGen.head' huv hvu⟩

section Exact

omit [DecidableEq α] in
theorem keyed_empty : (empty : Graph α).Keyed := by
  intro u v h
  cases h

theorem Keyed.addNode (h : g.Keyed) : (g.addNode n).Keyed := by
  intro u v huv
  rw [Edge, addNode_arcs] at huv
  exact mem_addNode.mpr (Or.inr (h u v huv))

theorem Keyed.addEdge (h : g.Keyed) : (g.addEdge src target).Keyed := by
  intro u v huv
  refine mem_addNode.mpr ?_
  rcases edge_addEdge.mp huv with ⟨rfl, -⟩ | huv
  · exact Or.inl rfl
  · exact Or.inr (h u v huv)

/-- `kosaraju_scc` partitions the nodes into the classes that lead to each other, and
`cyclic_components` keeps those that contain a cycle. -/
theorem cyclicComponents_exact (hg : g.Keyed) :
    (∀ v, g.IsNode v ↔ ∃ comp ∈ g.kosarajuScc, v ∈ comp) ∧
    g.kosarajuScc.Pairwise List.Disjoint ∧
    (∀ comp ∈ g.kosarajuScc, comp ≠ [] ∧ comp.Nodup ∧
      ∀ x ∈ comp, ∀ y, y ∈ comp ↔ g.Mutual x y) ∧
    (∀ comp, comp ∈ g.cyclicComponents ↔
      comp ∈ g.kosarajuScc ∧ ∃ x ∈ comp, Relation.TransGen g.Edge x x) ∧
    ∀ comp ∈ g.kosarajuScc, (∃ x ∈ comp, Relation.TransGen g.Edge x x) ↔
      2 ≤ comp.length ∨ ∃ n, comp = [n] ∧ g.Edge n n := by
  obtain ⟨visited, h⟩ := collected_kosarajuScc hg
  refine ⟨fun v => ⟨fun hv => ?_, ?_⟩, h.disjoint, h.component, fun comp => ?_,
    fun comp hcomp => ?_⟩
  · exact (h.collected v).mp (h.seen v ((mem_dfsFinishOrder hg).mpr hv))
  · rintro ⟨comp, hcomp, hv⟩
    exact h.inside v ((h.collected v).mpr ⟨comp, hcomp, hv⟩)
  · rw [cyclicComponents, List.mem_filter]
    exact and_congr_right fun hcomp => (isCyclic_iff hg hcomp).1
  · exact (isCyclic_iff hg hcomp).1.symm.trans (isCyclic_iff hg hcomp).2

/-- Two nodes on a cycle, and a third one behind them. -/
theorem cyclicComponents_exact_two :
    [1, 2] ∈ (((empty.addEdge 2 3).addEdge 2 1).addEdge 1 2 : Graph Nat).cyclicComponents ↔
      [1, 2] ∈ (((empty.addEdge 2 3).addEdge 2 1).addEdge 1 2 : Graph Nat).kosarajuScc ∧
        ∃ x ∈ [1, 2], Relation.TransGen
          (((empty.addEdge 2 3).addEdge 2 1).addEdge 1 2 : Graph Nat).Edge x x :=
  (cyclicComponents_exact keyed_empty.addEdge.addEdge.addEdge).2.2.2.1 [1, 2]

example : (((empty.addEdge 2 3).addEdge 2 1).addEdge 1 2 : Graph Nat).kosarajuScc =
    [[2, 1], [3]] := by decide

end Exact

end Graph

end Syli.Compiler
