import Syli.Compiler.ClosureGraph
import Mathlib.Algebra.Group.Nat.Even

/-! Which return types are propagated to the nodes of a closure graph. -/
namespace Syli.Compiler.ClosureGraph

open Foundation AssocMap
open Cir (Ty typeKeyOfTy)

variable {g : Graph} {closure : Var} {node : Node} {n v : Id} {existing : List Summary}
  {t : Ty} {ts : List Ty}

def HasNode (g : Graph) (n : Id) : Prop := ∃ node, g.nodes.findOpt n = some node ∧ node.id = n

/-- Every node of a chain is in the graph, under its own id. -/
def ChainsIn (g : Graph) : Prop :=
  ∀ id ss, g.nodeSummaries.findOpt id = some ss → ∀ s ∈ ss, ∀ n ∈ s.accNodeArgs, HasNode g n

theorem hasNode_addNode_self : HasNode (addNode g node) node.id :=
  ⟨node, findOpt_add_self, rfl⟩

theorem hasNode_addNode (h : HasNode g n) : HasNode (addNode g node) n := by
  by_cases hn : n = node.id
  · rw [hn]
    exact hasNode_addNode_self
  · obtain ⟨m, hm, hid⟩ := h
    exact ⟨m, (findOpt_add_of_ne hn).trans hm, hid⟩

/-- A new chain has the new node and the nodes of the chains of the closure. -/
theorem mem_chain_updateSummaries {s : Summary}
    (hs : s ∈ updateSummariesForClosure g closure node) (hn : n ∈ s.accNodeArgs) :
    n = node.id ∨ ∃ ss, g.nodeSummaries.findOpt closure.id = some ss ∧
      ∃ s' ∈ ss, n ∈ s'.accNodeArgs := by
  unfold updateSummariesForClosure at hs
  cases hc : g.nodeSummaries.findOpt closure.id with
  | none =>
    simp only [hc, List.mem_singleton] at hs
    subst hs
    exact Or.inl (List.mem_singleton.mp hn)
  | some ss =>
    simp only [hc] at hs
    obtain ⟨s', hs', rfl⟩ := List.mem_map.mp hs
    rcases List.mem_cons.mp hn with hn | hn
    · exact Or.inl hn
    · exact Or.inr ⟨ss, rfl, s', hs', hn⟩

theorem chainsIn_addSummaries {summaries : List Summary} (h : ChainsIn g)
    (hs : ∀ s ∈ summaries, ∀ n ∈ s.accNodeArgs, HasNode g n) :
    ChainsIn (addSummaries g v summaries) := by
  intro id ss hss
  by_cases hid : id = v
  · subst hid
    obtain rfl := Option.some.inj (findOpt_add_self.symm.trans hss)
    exact hs
  · exact h id ss ((findOpt_add_of_ne hid).symm.trans hss)

theorem chainsIn_addNode (h : ChainsIn g) : ChainsIn (addNode g node) := by
  intro id ss hss s hs n hn
  exact hasNode_addNode (h id ss hss s hs n hn)

theorem chainsIn_extendClosure (h : ChainsIn g)
    (he : ∀ s ∈ existing, ∀ n ∈ s.accNodeArgs, HasNode g n) :
    ChainsIn (extendClosure g closure node existing) := by
  have hg : ChainsIn (addNode (addEdge g closure.id node.id) node) := chainsIn_addNode h
  apply chainsIn_addSummaries hg
  intro s hs n hn
  rcases List.mem_append.mp hs with hs | hs
  · exact hasNode_addNode (g := addEdge g closure.id node.id) (he s hs n hn)
  · rcases mem_chain_updateSummaries hs hn with rfl | ⟨ss, hss, s', hs', hn'⟩
    · exact hasNode_addNode_self
    · exact hg _ ss hss s' hs' n hn'

theorem chainsIn_processStatement (h : ChainsIn g) (blockId : Id) (stmt : Statement) :
    ChainsIn (processStatement g blockId stmt) := by
  cases stmt with
  | makeClosure dst freeVars capturedArgs fn =>
    refine chainsIn_addSummaries (g := addRoot (addNode g _) _) (chainsIn_addNode h) ?_
    intro s hs n hn
    obtain rfl := List.mem_singleton.mp hs
    obtain rfl := List.mem_singleton.mp hn
    exact hasNode_addNode_self (g := g)
  | partialApply dst closure newArgs => exact chainsIn_extendClosure h (by simp)
  | apply dst closure args =>
    exact chainsIn_extendClosure (g := g) h (by simp)
  | assignCast dst src =>
    cases src with
    | constant ty => exact h
    | var c =>
      simp only [processStatement]
      split
      · exact chainsIn_extendClosure h (by simp)
      · exact h
  | assignMove dst src =>
    cases src with
    | constant ty => exact h
    | var c =>
      simp only [processStatement]
      split
      · apply chainsIn_extendClosure h
        intro s hs n hn
        cases hd : g.nodeSummaries.findOpt dst.id with
        | none => simp [hd] at hs
        | some ss => exact h dst.id ss hd s (by simpa [hd] using hs) n hn
      · exact h
  | other => exact h

theorem chainsIn_functions (fns : List Function) (h : ChainsIn g) :
    ChainsIn (fns.foldl processFunction g) := by
  have hblock : ∀ (b : Block) (g : Graph), ChainsIn g → ChainsIn (processBlock g b) := by
    intro b g hg
    exact List.foldlRecOn b.statements _ hg fun g hg stmt _ =>
      chainsIn_processStatement hg b.id stmt
  have hfn : ∀ (fn : Function) (g : Graph), ChainsIn g → ChainsIn (processFunction g fn) := by
    intro fn g hg
    exact List.foldlRecOn fn.blocks _ hg fun g hg b _ => hblock b g hg
  exact List.foldlRecOn fns _ h fun g hg fn _ => hfn fn g hg

/-- The summaries of the leaves, in the order in which they are visited. -/
def leafSummaries (g : Graph) : List Summary := (g.nodeLeafSummaries.bindings.map Prod.snd).flatten

theorem hasNode_of_leafSummaries (prog : Module) {s : Summary}
    (hs : s ∈ leafSummaries (buildGraph prog)) (hn : n ∈ s.accNodeArgs) :
    HasNode (buildGraph prog) n := by
  obtain ⟨ss, hss, hs⟩ := List.mem_flatten.mp hs
  obtain ⟨e, he, rfl⟩ := List.mem_map.mp hss
  have hfind := (findOpt_filterValues).symm.trans (mem_bindings.mp he)
  obtain ⟨ss, hss, hif⟩ := Option.bind_eq_some_iff.mp hfind
  have hssEq : ss = e.2 := by
    split at hif
    · exact Option.some.inj hif
    · simp at hif
  have hempty : ChainsIn Graph.empty := by simp [ChainsIn, Graph.empty]
  exact chainsIn_functions prog.functions hempty e.1 ss hss s (hssEq ▸ hs) n hn

/-- The nodes of the chains in the order in which they are visited, with the type of the leaf. -/
def visits (g : Graph) : List (Id × Ty) :=
  (leafSummaries g).flatMap fun s => s.accNodeArgs.map fun n => (n, s.retTy)

def visitTys (g : Graph) (v : Id) : List Ty :=
  ((visits g).filter fun e => e.1 = v).map Prod.snd

def visit (acc : IntMap (Ty × Bool)) (e : Id × Ty) : IntMap (Ty × Bool) :=
  acc.update e.1 (updateRetTy e.2)

/-- The types that the visits leave at the nodes. -/
def propagated (g : Graph) : IntMap Ty :=
  ((visits g).foldl visit []).filterValues fun _ e => if e.2 then none else some e.1

theorem foldlM_eq_foldl {α σ : Type*} {f : σ → α → Option σ} {h : σ → α → σ} {l : List α}
    (hf : ∀ a ∈ l, ∀ st, f st a = some (h st a)) (st : σ) :
    l.foldlM f st = some (l.foldl h st) := by
  induction l generalizing st with
  | nil => rfl
  | cons a l ih =>
    rw [List.foldlM_cons, hf a List.mem_cons_self]
    exact ih (fun b hb => hf b (List.mem_cons_of_mem _ hb)) _

theorem retropopagateSummary_eq {s : Summary} (h : ∀ n ∈ s.accNodeArgs, HasNode g n)
    (acc : IntMap (Ty × Bool)) :
    retropopagateSummary g acc s =
      some ((s.accNodeArgs.map fun n => (n, s.retTy)).foldl visit acc) := by
  have hchain : s.accNodeArgs.foldlM (retropopagateNode g s.retTy) acc =
      some (s.accNodeArgs.foldl (fun acc n => visit acc (n, s.retTy)) acc) := by
    apply foldlM_eq_foldl
    intro n hn acc
    obtain ⟨node, hnode, hid⟩ := h n hn
    simp [retropopagateNode, hnode, hid, visit]
  rw [List.foldl_map, ← hchain]
  unfold retropopagateSummary
  cases s.accNodeArgs <;> rfl

/-- The pass returns on every graph that is built, with the outcome of the visits in their order. -/
theorem retropopagateRetTy_eq (prog : Module) :
    retropopagateRetTy (buildGraph prog) = some (propagated (buildGraph prog)) := by
  have hfold : (buildGraph prog).nodeLeafSummaries.bindings.foldlM
      (fun tys e => e.2.foldlM (retropopagateSummary (buildGraph prog)) tys) [] =
        some ((visits (buildGraph prog)).foldl visit []) := by
    rw [visits, leafSummaries, List.foldl_flatMap, List.foldl_flatten, List.foldl_map]
    apply foldlM_eq_foldl
    intro e he acc
    apply foldlM_eq_foldl
    intro s hs acc
    apply retropopagateSummary_eq
    intro n hn
    refine hasNode_of_leafSummaries prog (List.mem_flatten.mpr ?_) hn
    exact ⟨e.2, List.mem_map.mpr ⟨e, he, rfl⟩, hs⟩
  unfold retropopagateRetTy
  rw [hfold]
  rfl

/-- What the leaves of these types, one after another, make of the entry of a node. -/
def retState (ts : List Ty) : Option (Ty × Bool) := ts.foldl (fun st t => updateRetTy t st) none

theorem retState_append_singleton : retState (ts ++ [t]) = updateRetTy t (retState ts) := by
  simp [retState]

theorem findOpt_foldl_visit (es : List (Id × Ty)) (acc : IntMap (Ty × Bool)) :
    (es.foldl visit acc).findOpt v =
      ((es.filter fun e => e.1 = v).map Prod.snd).foldl (fun st t => updateRetTy t st)
        (acc.findOpt v) := by
  induction es generalizing acc with
  | nil => rfl
  | cons e es ih =>
    rw [List.foldl_cons, ih]
    by_cases he : e.1 = v
    · subst he
      rw [visit, findOpt_update_self, List.filter_cons_of_pos (by simp)]
      rfl
    · rw [visit, findOpt_update_of_ne (Ne.symm he), List.filter_cons_of_neg (by simpa using he)]

def SameKey (ts : List Ty) : Prop := ∀ t ∈ ts, ∀ t' ∈ ts, typeKeyOfTy t = typeKeyOfTy t'

/-- Types in blocks that each end at the first type with the key of the block's first one. -/
inductive Paired : List Ty → Prop
  | nil : Paired []
  | block {pre ts : List Ty} {t t' : Ty} : Paired pre →
      (∀ u ∈ ts, typeKeyOfTy u ≠ typeKeyOfTy t) → typeKeyOfTy t' = typeKeyOfTy t →
      Paired (pre ++ t :: ts ++ [t'])

/-- Complete blocks, and one more type. -/
def EndsOpen (ts : List Ty) : Prop := ∃ pre t, ts = pre ++ [t] ∧ Paired pre

/-- The entry after the types of an incomplete block. -/
theorem retState_open {pre : List Ty} (hpre : retState pre = none)
    (hts : ∀ u ∈ ts, typeKeyOfTy u ≠ typeKeyOfTy t) :
    retState (pre ++ t :: ts) = some (t, !ts.isEmpty) := by
  induction ts using List.reverseRecOn with
  | nil => simp [retState_append_singleton, hpre, updateRetTy]
  | append_singleton ts u ih =>
    have hu : typeKeyOfTy t ≠ typeKeyOfTy u := (hts u (by simp)).symm
    have hrest : retState (pre ++ t :: ts) = some (t, !ts.isEmpty) :=
      ih fun u hu => hts u (List.mem_append_left _ hu)
    rw [show pre ++ t :: (ts ++ [u]) = (pre ++ t :: ts) ++ [u] by simp, retState_append_singleton,
      hrest]
    simp [updateRetTy, hu]

theorem retState_of_paired (h : Paired ts) : retState ts = none := by
  induction h with
  | nil => rfl
  | block _ hts hkey ih =>
    rw [retState_append_singleton, retState_open ih hts]
    simp [updateRetTy, hkey]

/-- Each state of the entry says where the last block stands. -/
theorem retState_cases (ts : List Ty) :
    (retState ts = none ∧ Paired ts) ∨
    ∃ pre t rest, ts = pre ++ t :: rest ∧ Paired pre ∧
      (∀ u ∈ rest, typeKeyOfTy u ≠ typeKeyOfTy t) ∧ retState ts = some (t, !rest.isEmpty) := by
  induction ts using List.reverseRecOn with
  | nil => exact Or.inl ⟨rfl, .nil⟩
  | append_singleton ts u ih =>
    rcases ih with ⟨-, hp⟩ | ⟨pre, t, rest, rfl, hp, hrest, -⟩
    · refine Or.inr ⟨ts, u, [], rfl, hp, by simp, ?_⟩
      exact retState_open (retState_of_paired hp) (by simp)
    · by_cases hu : typeKeyOfTy u = typeKeyOfTy t
      · have hpaired := Paired.block hp hrest hu
        exact Or.inl ⟨retState_of_paired hpaired, hpaired⟩
      · refine Or.inr ⟨pre, t, rest ++ [u], by simp, hp, ?_, ?_⟩
        · intro w hw
          rcases List.mem_append.mp hw with hw | hw
          · exact hrest w hw
          · rwa [List.mem_singleton.mp hw]
        · rw [List.append_assoc]
          apply retState_open (retState_of_paired hp)
          intro w hw
          rcases List.mem_append.mp hw with hw | hw
          · exact hrest w hw
          · rwa [List.mem_singleton.mp hw]

theorem endsOpen_iff : EndsOpen ts ↔ ∃ t, retState ts = some (t, false) := by
  constructor
  · rintro ⟨pre, t, rfl, hp⟩
    exact ⟨t, retState_open (retState_of_paired hp) (by simp)⟩
  · rintro ⟨t, ht⟩
    rcases retState_cases ts with ⟨hnone, -⟩ | ⟨pre, t', rest, rfl, hp, -, hst⟩
    · simp [hnone] at ht
    · rw [hst] at ht
      obtain ⟨-, hrest⟩ := Prod.mk.inj (Option.some.inj ht)
      have hnil : rest = [] := by simpa using hrest
      subst hnil
      exact ⟨pre, t', rfl, hp⟩

/-- Leaves that agree are dropped in pairs. -/
theorem retState_sameKey (h : SameKey ts) :
    (∃ t, retState ts = some (t, false)) ↔ Odd ts.length := by
  have hstate : (retState ts = none ∧ Even ts.length) ∨
      ∃ t ∈ ts, retState ts = some (t, false) ∧ Odd ts.length := by
    induction ts using List.reverseRecOn with
    | nil => exact Or.inl ⟨rfl, by simp⟩
    | append_singleton ts u ih =>
      have hts : SameKey ts := fun t ht t' ht' =>
        h t (List.mem_append_left _ ht) t' (List.mem_append_left _ ht')
      rcases ih hts with ⟨hst, heven⟩ | ⟨t, ht, hst, hodd⟩
      · refine Or.inr ⟨u, by simp, ?_, by simpa using heven.add_one⟩
        rw [retState_append_singleton, hst]
        rfl
      · have hkey : typeKeyOfTy t = typeKeyOfTy u := h t (List.mem_append_left _ ht) u (by simp)
        refine Or.inl ⟨?_, by simpa using hodd.add_one⟩
        rw [retState_append_singleton, hst]
        simp [updateRetTy, hkey]
  rcases hstate with ⟨hst, heven⟩ | ⟨t, -, hst, hodd⟩
  · simp [hst, heven]
  · simp [hst, hodd]

/-- The return types of the leaf summaries whose chain contains the node. -/
def leafRetTys (g : Graph) (v : Id) : List Ty :=
  ((leafSummaries g).filter fun s => v ∈ s.accNodeArgs).map Summary.retTy

theorem mem_visitTys : t ∈ visitTys g v ↔ t ∈ leafRetTys g v := by
  simp only [visitTys, visits, leafRetTys, List.mem_map, List.mem_filter, List.mem_flatMap,
    decide_eq_true_eq]
  constructor
  · rintro ⟨_, ⟨⟨s, hs, n, hn, rfl⟩, rfl⟩, rfl⟩
    exact ⟨s, ⟨hs, hn⟩, rfl⟩
  · rintro ⟨s, ⟨hs, hv⟩, rfl⟩
    exact ⟨(v, s.retTy), ⟨⟨s, hs, v, hv, rfl⟩, rfl⟩, rfl⟩

/-- The node has an entry exactly when the leaves whose chains contain it agree, and the entry is
their type. -/
def PropagatedExactly (g : Graph) (concreteRetTy : IntMap Ty) (v : Id) : Prop :=
  ((concreteRetTy.findOpt v).isSome ↔ leafRetTys g v ≠ [] ∧ SameKey (leafRetTys g v)) ∧
  ∀ t, concreteRetTy.findOpt v = some t →
    t ∈ leafRetTys g v ∧ ∀ t' ∈ leafRetTys g v, typeKeyOfTy t' = typeKeyOfTy t

/-- Leaves that agree visit the node an odd number of times, and those that do not agree do not end
with one visit after complete blocks. -/
def VisitsKeepEntry (g : Graph) (v : Id) : Prop :=
  (visitTys g v ≠ [] → SameKey (visitTys g v) → Odd (visitTys g v).length) ∧
  (¬ SameKey (visitTys g v) → ¬ EndsOpen (visitTys g v))

theorem sameKey_visitTys : SameKey (visitTys g v) ↔ SameKey (leafRetTys g v) := by
  simp only [SameKey, mem_visitTys]

theorem visitTys_eq_nil : visitTys g v = [] ↔ leafRetTys g v = [] := by
  simp only [List.eq_nil_iff_forall_not_mem, mem_visitTys]

theorem findOpt_retropopagated :
    (propagated g).findOpt v = some t ↔ retState (visitTys g v) = some (t, false) := by
  rw [propagated, findOpt_filterValues, findOpt_foldl_visit, Option.bind_eq_some_iff]
  constructor
  · rintro ⟨⟨t', generic⟩, hst, hif⟩
    cases generic with
    | false =>
      obtain rfl : t' = t := by simpa using hif
      exact hst
    | true => simp at hif
  · intro hst
    exact ⟨(t, false), hst, rfl⟩

theorem mem_of_retState (h : retState ts = some (t, false)) : t ∈ ts := by
  rcases retState_cases ts with ⟨hst, -⟩ | ⟨pre, t', rest, rfl, -, -, hst⟩
  · simp [hst] at h
  · rw [hst] at h
    obtain ⟨rfl, -⟩ := Prod.mk.inj (Option.some.inj h)
    simp

theorem propagatedExactly_iff :
    PropagatedExactly g (propagated g) v ↔ VisitsKeepEntry g v := by
  have hsome : ((propagated g).findOpt v).isSome ↔
      ∃ t, retState (visitTys g v) = some (t, false) := by
    rw [Option.isSome_iff_exists]
    exact exists_congr fun t => findOpt_retropopagated
  unfold PropagatedExactly VisitsKeepEntry
  rw [hsome, ← sameKey_visitTys, ne_eq, ← visitTys_eq_nil]
  constructor
  · rintro ⟨hiff, -⟩
    constructor
    · intro hne hsame
      exact (retState_sameKey hsame).mp (hiff.mpr ⟨hne, hsame⟩)
    · intro hdiff hopen
      exact hdiff (hiff.mp (endsOpen_iff.mp hopen)).2
  · rintro ⟨hodd, hclosed⟩
    have hsame : (∃ t, retState (visitTys g v) = some (t, false)) → SameKey (visitTys g v) := by
      intro hst
      by_contra hdiff
      exact hclosed hdiff (endsOpen_iff.mpr hst)
    refine ⟨⟨?_, ?_⟩, ?_⟩
    · intro hst
      refine ⟨?_, hsame hst⟩
      intro hnil
      obtain ⟨t, ht⟩ := hst
      simp [hnil, retState] at ht
    · rintro ⟨hne, hs⟩
      exact (retState_sameKey hs).mpr (hodd hne hs)
    · intro t ht
      have hst := findOpt_retropopagated.mp ht
      have hmem := mem_of_retState hst
      refine ⟨mem_visitTys.mp hmem, ?_⟩
      intro t' ht'
      exact hsame ⟨t, hst⟩ t' (mem_visitTys.mpr ht') t hmem

/-- The pass returns on the graph of every module, and the types it gives are exact at the nodes
whose visits keep their entry and at no others. -/
theorem retropopagateRetTy_exact_iff (prog : Module) :
    ∃ concreteRetTy, retropopagateRetTy (buildGraph prog) = some concreteRetTy ∧
      ∀ v, PropagatedExactly (buildGraph prog) concreteRetTy v ↔
        VisitsKeepEntry (buildGraph prog) v :=
  ⟨_, retropopagateRetTy_eq prog, fun _ => propagatedExactly_iff⟩

/-- A closure that is applied twice with the same type. -/
def twoApplications : Module :=
  { functions := [{ blocks := [{ id := 0, statements :=
      [.makeClosure ⟨1, .arrow [.i64] .i64⟩ [] [] "f",
       .apply ⟨2, .i64⟩ ⟨1, .arrow [.i64] .i64⟩ [.constant .i64],
       .apply ⟨3, .i64⟩ ⟨1, .arrow [.i64] .i64⟩ [.constant .i64]] }] }] }

theorem twoApplications_lose_entry :
    ∃ concreteRetTy, retropopagateRetTy (buildGraph twoApplications) = some concreteRetTy ∧
      ¬ PropagatedExactly (buildGraph twoApplications) concreteRetTy 1 := by
  refine ⟨_, retropopagateRetTy_eq twoApplications, ?_⟩
  rw [propagatedExactly_iff]
  rintro ⟨hodd, -⟩
  have hvisits : visitTys (buildGraph twoApplications) 1 = [.i64, .i64] := rfl
  rw [hvisits] at hodd
  have htwo := hodd (by simp) (by simp [SameKey])
  exact absurd htwo (by decide)

end Syli.Compiler.ClosureGraph
