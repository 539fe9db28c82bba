import Syli.Compiler.ClosureDispatchId

/-! The dispatch ids number the paths from each root. -/
namespace Syli.Compiler.ClosureDispatchId

open Foundation

variable {g : Graph} {npaths memo memo' : IntMap Int} {v c r src : Id} {fuel : Nat} {p : List Id}

namespace Graph

def Acyclic (g : Graph) : Prop := ∀ v, ¬ Relation.TransGen (fun u c => c ∈ g.children u) v v

/-- No edge is repeated. -/
def Simple (g : Graph) : Prop := ∀ v, (g.children v).Nodup

/-- The paths from a node to the nodes without successors. -/
def paths (g : Graph) (v : Id) : List (List Id) := leafPaths g.children (g.edges.length + 1) v

def pathCount (g : Graph) (v : Id) : Nat := (g.paths v).length

theorem children_of_mem {e : Id × List Id} (he : e ∈ g.edges) : g.children e.1 = e.2 := by
  rw [children, AssocMap.findOpt_of_mem g.edges_nodup he]
  rfl

theorem exists_mem_edges (hv : g.children v ≠ []) : (v, g.children v) ∈ g.edges := by
  unfold children at hv ⊢
  cases h : g.edges.findOpt v with
  | none => simp [h] at hv
  | some cs => exact AssocMap.mem_of_findOpt h

theorem Acyclic.induction (h : g.Acyclic) {P : Nat → Id → Prop}
    (hstep : ∀ n v, (∀ c ∈ g.children v, P n c) → P (n + 1) v) (v : Id) :
    P (g.edges.length + 1) v := by
  have hsources : ∀ v, g.children v ≠ [] → v ∈ g.edges.map Prod.fst := fun v hv =>
    List.mem_map.mpr ⟨_, exists_mem_edges hv, rfl⟩
  have hall := acyclic_induction hsources h hstep v
  rwa [List.length_map] at hall

theorem Acyclic.depth (h : g.Acyclic) (v : Id) :
    DepthAtMost g.children (g.edges.length + 1) v :=
  h.induction (fun _ _ hc => hc) v

theorem Acyclic.paths_eq (h : g.Acyclic) {n : Nat} (hn : DepthAtMost g.children n v) :
    g.paths v = leafPaths g.children n v := by
  obtain hle | hle := Nat.le_total n (g.edges.length + 1)
  · exact hn.leafPaths_eq hle
  · exact ((h.depth v).leafPaths_eq hle).symm

theorem pathCount_leaf (h : g.children v = []) : g.pathCount v = 1 := by
  rw [pathCount, paths, leafPaths_leaf h]
  rfl

theorem Acyclic.pathCount_node (h : g.Acyclic) (hv : g.children v ≠ []) :
    g.pathCount v = ((g.children v).map g.pathCount).sum := by
  rw [pathCount, paths, leafPaths_node hv, List.length_flatMap]
  congr 1
  apply List.map_congr_left
  intro c hc
  have hdepth : DepthAtMost g.children g.edges.length c := h.depth v c hc
  rw [List.length_map, pathCount, h.paths_eq hdepth]

end Graph

/-- The counts that are known are right, and known for the children of a node that has one. -/
structure Counted (g : Graph) (memo : IntMap Int) : Prop where
  count : ∀ v c, memo.findOpt v = some c → c = native (g.pathCount v)
  child : ∀ v, (memo.findOpt v).isSome → ∀ c ∈ g.children v, (memo.findOpt c).isSome

/-- Known counts stay known. -/
def Extends (memo memo' : IntMap Int) : Prop :=
  ∀ v, (memo.findOpt v).isSome → (memo'.findOpt v).isSome

theorem counted_add (h : Counted g memo) (hc : ∀ c ∈ g.children v, (memo.findOpt c).isSome) :
    Counted g (memo.add v (native (g.pathCount v))) := by
  constructor
  · intro u count hu
    by_cases huv : u = v
    · subst huv
      rw [AssocMap.findOpt_add_self] at hu
      exact (Option.some.inj hu).symm
    · rw [AssocMap.findOpt_add_of_ne huv] at hu
      exact h.count u count hu
  · intro u hu c hcu
    by_cases hcv : c = v
    · rw [hcv, AssocMap.findOpt_add_self]
      rfl
    · rw [AssocMap.findOpt_add_of_ne hcv]
      by_cases huv : u = v
      · exact hc c (huv ▸ hcu)
      · rw [AssocMap.findOpt_add_of_ne huv] at hu
        exact h.child u hu c hcu

theorem extends_add (count : Int) : Extends memo (memo.add v count) := by
  intro u hu
  by_cases huv : u = v
  · rw [huv, AssocMap.findOpt_add_self]
    rfl
  · rwa [AssocMap.findOpt_add_of_ne huv]

/-- What counting from a node returns. -/
def CountsFrom (g : Graph) (fuel : Nat) (v : Id) : Prop :=
  ∀ memo, Counted g memo → ∃ memo', countFrom g fuel memo v = some (native (g.pathCount v), memo') ∧
    Counted g memo' ∧ Extends memo memo' ∧ (memo'.findOpt v).isSome

theorem countFrom_children {cs : List Id} (hcs : ∀ c ∈ cs, CountsFrom g fuel c) {n : Nat}
    (h : Counted g memo) :
    ∃ memo', cs.foldlM (addChild (countFrom g fuel)) (native n, memo) =
      some (native (n + (cs.map g.pathCount).sum), memo') ∧
      Counted g memo' ∧ Extends memo memo' ∧ ∀ c ∈ cs, (memo'.findOpt c).isSome := by
  induction cs generalizing n memo with
  | nil => exact ⟨memo, rfl, h, fun _ hv => hv, by simp⟩
  | cons c cs ih =>
    obtain ⟨memo₁, hc, h₁, hext₁, hsome⟩ := hcs c List.mem_cons_self memo h
    obtain ⟨memo₂, hrest, h₂, hext₂, hall⟩ :=
      ih (fun c' hc' => hcs c' (List.mem_cons_of_mem c hc')) (n := n + g.pathCount c) h₁
    refine ⟨memo₂, ?_, h₂, fun u hu => hext₂ u (hext₁ u hu), ?_⟩
    · have hstep : addChild (countFrom g fuel) (native n, memo) c =
          some (native (n + g.pathCount c), memo₁) := by
        simp only [addChild, hc, Option.bind_eq_bind, Option.bind_some, addInt_native]
        rfl
      rw [List.foldlM_cons, hstep, List.map_cons, List.sum_cons, ← Nat.add_assoc]
      exact hrest
    · intro c' hc'
      obtain rfl | hc' := List.mem_cons.mp hc'
      · exact hext₂ _ hsome
      · exact hall c' hc'

theorem countsFrom_step (hg : g.Acyclic) (hc : ∀ c ∈ g.children v, CountsFrom g fuel c) :
    CountsFrom g (fuel + 1) v := by
  intro memo h
  rw [countFrom]
  cases hfind : memo.findOpt v with
  | some count =>
    have hcount := h.count v count hfind
    exact ⟨memo, by rw [hcount], h, fun _ hu => hu, by rw [hfind]; rfl⟩
  | none =>
    by_cases hv : g.children v = []
    · refine ⟨memo.add v (native (g.pathCount v)), ?_, counted_add h (by simp [hv]),
        extends_add _, by simp⟩
      have hone : native 1 = 1 := native_of_lt (by omega)
      simp only [hv, Option.bind_eq_bind, Option.bind_some, Graph.pathCount_leaf hv, hone]
      rfl
    · obtain ⟨memo', hfold, h', hext, hall⟩ := countFrom_children hc (n := 0) h
      refine ⟨memo'.add v (native (g.pathCount v)), ?_, counted_add h' hall,
        fun u hu => extends_add _ u (hext u hu), by simp⟩
      rw [Nat.zero_add, ← hg.pathCount_node hv] at hfold
      cases hcs : g.children v with
      | nil => exact (hv hcs).elim
      | cons c cs =>
        rw [hcs] at hfold
        rw [native_zero] at hfold
        simp only [hfold, Option.bind_eq_bind, Option.bind_some]
        rfl

theorem computeN_roots (hg : g.Acyclic) {roots : List Id} (h : Counted g memo) :
    ∃ memo', roots.foldlM (fun memo root =>
        Prod.snd <$> countFrom g (g.edges.length + 1) memo root) memo = some memo' ∧
      Counted g memo' ∧ Extends memo memo' ∧ ∀ r ∈ roots, (memo'.findOpt r).isSome := by
  induction roots generalizing memo with
  | nil => exact ⟨memo, rfl, h, fun _ hv => hv, by simp⟩
  | cons r roots ih =>
    have hcounts : CountsFrom g (g.edges.length + 1) r :=
      hg.induction (fun _ _ hc => countsFrom_step hg hc) r
    obtain ⟨memo₁, hr, h₁, hext₁, hsome⟩ := hcounts memo h
    obtain ⟨memo₂, hrest, h₂, hext₂, hall⟩ := ih h₁
    refine ⟨memo₂, ?_, h₂, fun u hu => hext₂ u (hext₁ u hu), ?_⟩
    · rw [List.foldlM_cons, hr]
      exact hrest
    · intro r' hr'
      obtain rfl | hr' := List.mem_cons.mp hr'
      · exact hext₂ _ hsome
      · exact hall r' hr'

/-- Counting ends, with the counts of the roots and of what they reach. -/
theorem computeN_ok (hg : g.Acyclic) : ∃ npaths, computeN g = some npaths ∧ Counted g npaths ∧
    ∀ r ∈ g.rootIds, (npaths.findOpt r).isSome := by
  have hempty : Counted g [] := ⟨by simp, by simp⟩
  obtain ⟨npaths, hn, hcounted, -, hall⟩ := computeN_roots hg hempty
  exact ⟨npaths, hn, hcounted, hall⟩

section Offsets

variable {t : Offsets} {cs : List Id} {acc : Int × Offsets}

theorem findOpt_addOffsets_other {k : Id × Id} (hk : k.1 ≠ src ∨ k.2 ∉ cs) :
    (cs.foldl (addOffset npaths src) acc).2.findOpt k = acc.2.findOpt k := by
  induction cs generalizing acc with
  | nil => rfl
  | cons c cs ih =>
    have hne : k ≠ (src, c) := by
      rintro rfl
      simp at hk
    have hk' : k.1 ≠ src ∨ k.2 ∉ cs := hk.imp_right fun hmem h => hmem (List.mem_cons_of_mem c h)
    rw [List.foldl_cons, ih hk']
    exact AssocMap.findOpt_add_of_ne hne

/-- The offset of a child is the number of the paths through the children before it. -/
theorem findOpt_addOffsets (src : Id) (n : Nat) (t : Offsets)
    (hcounts : ∀ c ∈ cs, npaths.findOpt c = some (native (g.pathCount c)))
    (hnodup : cs.Nodup) (hc : c ∈ cs) :
    (cs.foldl (addOffset npaths src) (native n, t)).2.findOpt (src, c) =
      some (native (n + offset g.pathCount cs c)) := by
  induction cs generalizing n t with
  | nil => cases hc
  | cons d cs ih =>
    rw [List.nodup_cons] at hnodup
    have hd := hcounts d List.mem_cons_self
    rw [List.foldl_cons, addOffset, hd, Option.getD_some, addInt_native]
    obtain rfl | hc := List.mem_cons.mp hc
    · rw [findOpt_addOffsets_other (Or.inr hnodup.1), offset_head, Nat.add_zero]
      exact AssocMap.findOpt_add_self
    · have hne : d ≠ c := by
        rintro rfl
        exact hnodup.1 hc
      rw [ih _ _ (fun c' hc' => hcounts c' (List.mem_cons_of_mem d hc')) hnodup.2 hc, offset_tail _ hne,
        Nat.add_assoc]

theorem findOpt_computeOffsets {l : IntMap (List Id)} (hnodup : (l.map Prod.fst).Nodup)
    (hmem : (src, cs) ∈ l) (hcs : cs.Nodup) (hc : c ∈ cs)
    (hcounts : ∀ c ∈ cs, npaths.findOpt c = some (native (g.pathCount c))) :
    (l.foldl (fun offsets e => (e.2.foldl (addOffset npaths e.1) (0, offsets)).2) t).findOpt
      (src, c) = some (native (offset g.pathCount cs c)) := by
  induction l generalizing t with
  | nil => cases hmem
  | cons e l ih =>
    rw [List.map_cons, List.nodup_cons] at hnodup
    rw [List.foldl_cons]
    obtain rfl | hmem := List.mem_cons.mp hmem
    · have hrest : ∀ {l : IntMap (List Id)} {t : Offsets}, src ∉ l.map Prod.fst →
          (l.foldl (fun offsets e => (e.2.foldl (addOffset npaths e.1) (0, offsets)).2) t).findOpt
            (src, c) = t.findOpt (src, c) := by
        intro l
        induction l with
        | nil => exact fun _ => rfl
        | cons e l ih =>
          intro t hsrc
          simp only [List.map_cons, List.mem_cons, not_or] at hsrc
          rw [List.foldl_cons, ih hsrc.2, findOpt_addOffsets_other (Or.inl hsrc.1)]
      rw [hrest hnodup.1]
      have hoffset := findOpt_addOffsets src 0 t hcounts hcs hc
      rwa [native_zero, Nat.zero_add] at hoffset
    · exact ih hnodup.2 hmem

/-- The weight of an edge out of a node whose count is known. -/
theorem edgeWeight_eq (hcounted : Counted g npaths) (hsimple : g.Simple) (hc : c ∈ g.children src)
    (hsrc : (npaths.findOpt src).isSome) :
    edgeWeight (computeOffsets g npaths) src c =
      native (offset g.pathCount (g.children src) c) := by
  have hcounts : ∀ c ∈ g.children src, npaths.findOpt c = some (native (g.pathCount c)) := by
    intro c hc
    obtain ⟨count, hcount⟩ := Option.isSome_iff_exists.mp (hcounted.child src hsrc c hc)
    rw [hcount, hcounted.count c count hcount]
  rw [edgeWeight, computeOffsets, findOpt_computeOffsets g.edges_nodup
    (Graph.exists_mem_edges (List.ne_nil_of_mem hc)) (hsimple src) hc hcounts, Option.getD_some]

end Offsets

/-- The sum along a path is its number, as a native integer. -/
theorem pathSum_eq (hcounted : Counted g npaths) (hsimple : g.Simple) (hp : LeafPath g.children v p)
    (hv : (npaths.findOpt v).isSome) {n : Nat} :
    pathSum (computeOffsets g npaths) (native n) p =
      native (n + pathNumber g.children g.pathCount p) := by
  induction hp generalizing n with
  | leaf => simp [pathNumber, pathSum]
  | @step v c p hc hp ih =>
    have hc' := hcounted.child v hv c hc
    rw [pathNumber_cons _ hp, ← Nat.add_assoc, ← ih hc']
    obtain ⟨q, rfl⟩ := hp.exists_cons
    rw [pathSum, edgeWeight_eq hcounted hsimple hc hv, addInt_native]

/-- The sums of the weights along the paths from a node are distinct, and the numbers from zero. -/
def Numbered (g : Graph) (t : Offsets) (r : Id) : Prop :=
  ∃ paths : List (List Id), paths.Nodup ∧ (∀ p, p ∈ paths ↔ LeafPath g.children r p) ∧
    (paths.map (pathSum t 0)).Perm (List.map (fun i : Nat => (i : Int)) (List.range paths.length))

/-- The weights out of what a root reaches are those of any other graph of the same edges that has
a root from which it is reached. -/
def RootIndependent (g : Graph) (t : Offsets) (r : Id) : Prop :=
  ∀ g' t' r', g'.edges = g.edges → computeDispatchIds g' = some t' → r' ∈ g'.rootIds →
    ∀ src, Relation.ReflTransGen (fun u c => c ∈ g.children u) r src →
      Relation.ReflTransGen (fun u c => c ∈ g.children u) r' src →
      ∀ c ∈ g.children src, edgeWeight t src c = edgeWeight t' src c

theorem known_of_reached (hcounted : Counted g npaths) (hr : (npaths.findOpt r).isSome)
    (h : Relation.ReflTransGen (fun u c => c ∈ g.children u) r v) : (npaths.findOpt v).isSome := by
  induction h with
  | refl => exact hr
  | tail _ hc ih => exact hcounted.child _ ih _ hc

theorem map_pathSum (hg : g.Acyclic) (hsimple : g.Simple) (hcounted : Counted g npaths)
    (hr : (npaths.findOpt r).isSome) :
    (g.paths r).map (pathSum (computeOffsets g npaths) 0) =
      (List.range (g.pathCount r)).map native := by
  have hcount : ∀ n v, DepthAtMost g.children n v →
      g.pathCount v = (leafPaths g.children n v).length := by
    intro n v hn
    rw [Graph.pathCount, hg.paths_eq hn]
  rw [← map_pathNumber hsimple hcount (hg.depth r), List.map_map]
  apply List.map_congr_left
  intro p hp
  have hsum := pathSum_eq hcounted hsimple ((hg.depth r).mem_leafPaths.mp hp) hr (n := 0)
  rw [native_zero, Nat.zero_add] at hsum
  rw [hsum, Function.comp_apply]

theorem nodup_paths (hg : g.Acyclic) (hsimple : g.Simple) (v : Id) : (g.paths v).Nodup := by
  have hcount : ∀ n v, DepthAtMost g.children n v →
      g.pathCount v = (leafPaths g.children n v).length := by
    intro n v hn
    rw [Graph.pathCount, hg.paths_eq hn]
  apply List.Nodup.of_map (pathNumber g.children g.pathCount)
  have hmap := map_pathNumber hsimple hcount (hg.depth v)
  rw [Graph.paths, hmap]
  exact List.nodup_range

theorem numbered_iff (hg : g.Acyclic) (hsimple : g.Simple) (hcounted : Counted g npaths)
    (hr : (npaths.findOpt r).isSome) :
    Numbered g (computeOffsets g npaths) r ↔ g.pathCount r ≤ 2 ^ 62 := by
  have hmap := map_pathSum hg hsimple hcounted hr
  constructor
  · rintro ⟨paths, hnodup, hmem, hperm⟩
    by_contra hlarge
    have hpaths : paths.Perm (g.paths r) := by
      rw [List.perm_ext_iff_of_nodup hnodup (nodup_paths hg hsimple r)]
      exact fun p => (hmem p).trans (hg.depth r).mem_leafPaths.symm
    have hsums := (hpaths.map (pathSum (computeOffsets g npaths) 0)).symm.trans hperm
    rw [hmap] at hsums
    have hlast : native (2 ^ 62) ∈ (List.range (g.pathCount r)).map native :=
      List.mem_map_of_mem (List.mem_range.mpr (by omega))
    obtain ⟨i, -, hi⟩ := List.mem_map.mp (hsums.mem_iff.mp hlast)
    have hneg := native_overflow
    omega
  · intro hsmall
    refine ⟨g.paths r, nodup_paths hg hsimple r, fun p => (hg.depth r).mem_leafPaths, ?_⟩
    rw [hmap]
    apply List.Perm.of_eq
    apply List.map_congr_left
    intro i hi
    have hlt := List.mem_range.mp hi
    exact native_of_lt (by omega)

theorem rootIndependent (hg : g.Acyclic) (hsimple : g.Simple) (hcounted : Counted g npaths)
    (hr : (npaths.findOpt r).isSome) : RootIndependent g (computeOffsets g npaths) r := by
  intro g' t' r' hedges ht' hr' src hsrc hsrc' c hc
  have hchildren : g'.children = g.children := by
    funext v
    rw [Graph.children, Graph.children, hedges]
  have hg' : g'.Acyclic := by
    intro v
    rw [hchildren]
    exact hg v
  have hsimple' : g'.Simple := by
    intro v
    rw [hchildren]
    exact hsimple v
  have hcount : g'.pathCount = g.pathCount := by
    funext v
    rw [Graph.pathCount, Graph.pathCount, Graph.paths, Graph.paths, hchildren, hedges]
  obtain ⟨npaths', hn', hcounted', hroots'⟩ := computeN_ok hg'
  rw [computeDispatchIds, hn'] at ht'
  obtain rfl := Option.some.inj ht'
  have hknown := known_of_reached hcounted hr hsrc
  have hknown' : (npaths'.findOpt src).isSome := by
    apply known_of_reached hcounted' (hroots' r' hr')
    rwa [hchildren]
  have hc' : c ∈ g'.children src := by rwa [hchildren]
  rw [edgeWeight_eq hcounted hsimple hc hknown, edgeWeight_eq hcounted' hsimple' hc' hknown',
    hcount, hchildren]

/-- The dispatch ids of a root number its paths exactly when native integers hold the numbers. -/
theorem dispatch_numbers_paths (hg : g.Acyclic) (hsimple : g.Simple) (hr : r ∈ g.rootIds) :
    ∃ t, computeDispatchIds g = some t ∧
      (Numbered g t r ∧ RootIndependent g t r ↔ g.pathCount r ≤ 2 ^ 62) := by
  obtain ⟨npaths, hn, hcounted, hroots⟩ := computeN_ok hg
  have ht : computeDispatchIds g = some (computeOffsets g npaths) := by
    rw [computeDispatchIds, hn, Option.map_eq_map, Option.map_some]
  refine ⟨_, ht, ?_⟩
  rw [numbered_iff hg hsimple hcounted (hroots r hr)]
  exact and_iff_left (rootIndependent hg hsimple hcounted (hroots r hr))

section Example

/-- Each of the nodes has edges to all nodes below it. -/
def doubling (n : Nat) : Graph where
  rootIds := [n]
  edges := (List.range (n + 1)).map fun i => (i, List.range i)
  edges_nodup := by
    rw [List.map_map]
    simpa [Function.comp_def] using List.nodup_range

theorem doubling_children {n i : Nat} (h : i ≤ n) : (doubling n).children i = List.range i := by
  have hmem : (i, List.range i) ∈ (doubling n).edges :=
    List.mem_map.mpr ⟨i, List.mem_range.mpr (by omega), rfl⟩
  exact Graph.children_of_mem hmem

theorem doubling_children_of_lt {n i : Nat} (h : n < i) : (doubling n).children i = [] := by
  by_contra hne
  obtain ⟨j, hj, heq⟩ := List.mem_map.mp (Graph.exists_mem_edges hne)
  have hlt := List.mem_range.mp hj
  rw [(Prod.mk.inj heq).1] at hlt
  exact Nat.lt_irrefl n (Nat.lt_of_lt_of_le h (Nat.le_of_lt_succ hlt))

theorem doubling_acyclic (n : Nat) : (doubling n).Acyclic := by
  have hlt : ∀ u, ∀ c ∈ (doubling n).children u, c < u := by
    intro u c hc
    obtain h | h := Nat.lt_or_ge n u
    · simp [doubling_children_of_lt h] at hc
    · rw [doubling_children h] at hc
      exact List.mem_range.mp hc
  intro v hv
  have hall : ∀ w, Relation.TransGen (fun u c => c ∈ (doubling n).children u) v w → w < v := by
    intro w hw
    induction hw with
    | single hc => exact hlt _ _ hc
    | tail _ hc ih => exact Nat.lt_trans (hlt _ _ hc) ih
  exact Nat.lt_irrefl v (hall v hv)

theorem doubling_simple (n : Nat) : (doubling n).Simple := by
  intro v
  obtain h | h := Nat.lt_or_ge n v
  · rw [doubling_children_of_lt h]
    exact List.nodup_nil
  · rw [doubling_children h]
    exact List.nodup_range

theorem doubling_pathCount {n i : Nat} (h : i + 1 ≤ n) :
    (doubling n).pathCount (i + 1) = 2 ^ i := by
  have hnode : ∀ j, j + 1 ≤ n → (doubling n).pathCount (j + 1) =
      ((List.range (j + 1)).map (doubling n).pathCount).sum := by
    intro j hj
    have hchildren := doubling_children hj
    rw [(doubling_acyclic n).pathCount_node (by rw [hchildren]; simp), hchildren]
  induction i with
  | zero =>
    rw [hnode 0 h]
    simp [Graph.pathCount_leaf (doubling_children (Nat.zero_le n))]
  | succ i ih =>
    rw [hnode (i + 1) h, List.range_succ, List.map_append, List.sum_append, ← hnode i (by omega),
      ih (by omega), List.map_singleton, List.sum_singleton, ih (by omega)]
    omega

theorem doubling_numbered : ∃ t, computeDispatchIds (doubling 3) = some t ∧
    (Numbered (doubling 3) t 3 ∧ RootIndependent (doubling 3) t 3) := by
  obtain ⟨t, ht, hiff⟩ := dispatch_numbers_paths (doubling_acyclic 3) (doubling_simple 3)
    (List.mem_singleton_self 3)
  refine ⟨t, ht, hiff.mpr ?_⟩
  rw [doubling_pathCount (i := 2) (by omega)]
  omega

/-- With more paths than native integers can number, the sums wrap around. -/
theorem paths_overflow : ∃ (g : Graph) (r : Id), g.Acyclic ∧ g.Simple ∧ r ∈ g.rootIds ∧
    ∀ t, computeDispatchIds g = some t → ¬ Numbered g t r := by
  refine ⟨doubling 64, 64, doubling_acyclic 64, doubling_simple 64, List.mem_singleton_self 64, ?_⟩
  intro t ht
  obtain ⟨npaths, hn, hcounted, hroots⟩ := computeN_ok (doubling_acyclic 64)
  rw [computeDispatchIds, hn, Option.map_eq_map, Option.map_some] at ht
  obtain rfl := Option.some.inj ht
  rw [numbered_iff (doubling_acyclic 64) (doubling_simple 64) hcounted
    (hroots 64 (List.mem_singleton_self 64)), doubling_pathCount (i := 63) (by omega)]
  omega

end Example

end Syli.Compiler.ClosureDispatchId
