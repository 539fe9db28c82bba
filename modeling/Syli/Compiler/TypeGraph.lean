import Syli.Compiler.PassCyclicAnalysis
import Syli.Foundation.Reach

/-! What the graph of the type declarations covers, and what its classification says. -/
namespace Syli.Compiler

open Foundation Relation

variable {typeDefs : StringMap TyDeclDesc} {visited : List String} {ctx ctx' ctx₁ : Ctx}
variable {src target n u v : TypeNode} {isMutable : Bool} {t : CTy} {ts : List CTy} {name : String}
variable {decl : TyDeclDesc} {fields : List (CTy × MutFlag)}

/-- The bodies of records and constructors: only their fields are mutable. -/
def TypeNode.IsBody : TypeNode → Prop
  | .record _ | .ctor _ _ => True
  | .type _ | .array _ => False

structure Ctx.WellFormed (ctx : Ctx) : Prop where
  complete : ctx.graph.Complete
  mutable : ∀ e ∈ ctx.mutableEdges, ctx.graph.Edge e.1 e.2 ∧ e.1.IsBody

/-- An edge to the target, mutable where the field is. -/
structure Ctx.HasEdge (ctx : Ctx) (src : TypeNode) (isMutable : Bool) (target : TypeNode) :
    Prop where
  edge : ctx.graph.Edge src target
  mutable : isMutable = true → (src, target) ∈ ctx.mutableEdges

/-- What the walk over the declarations does to its state. -/
inductive Ctx.Grows (ctx : Ctx) : Ctx → Prop where
  | refl : Grows ctx ctx
  | addNode {ctx' : Ctx} (n : TypeNode) : Grows ctx ctx' → Grows ctx (ctx'.addNode n)
  | addEdge {ctx' : Ctx} {src : TypeNode} {isMutable : Bool} (target : TypeNode) :
      Grows ctx ctx' → (isMutable = true → src.IsBody) →
        Grows ctx (ctx'.addEdge src target isMutable)

theorem Ctx.Grows.trans (h : ctx.Grows ctx₁) (h' : ctx₁.Grows ctx') : ctx.Grows ctx' := by
  induction h' with
  | refl => exact h
  | addNode n _ ih => exact ih.addNode n
  | addEdge target _ hsrc ih => exact ih.addEdge target hsrc

theorem Ctx.edge_addEdge : (ctx.addEdge src target isMutable).graph.Edge u v ↔
    u = src ∧ v = target ∨ ctx.graph.Edge u v := by
  refine Graph.edge_addEdge.trans ?_
  simp [Ctx.addNode, Graph.Edge, Graph.addNode_arcs]

theorem Ctx.mem_mutableEdges_addEdge {e : TypeNode × TypeNode} :
    e ∈ (ctx.addEdge src target isMutable).mutableEdges ↔
      isMutable = true ∧ e = (src, target) ∨ e ∈ ctx.mutableEdges := by
  cases isMutable <;> simp [Ctx.addEdge, Ctx.addNode]

theorem Ctx.hasEdge_addEdge : (ctx.addEdge src target isMutable).HasEdge src isMutable target :=
  ⟨edge_addEdge.mpr (Or.inl ⟨rfl, rfl⟩), fun h => mem_mutableEdges_addEdge.mpr (Or.inl ⟨h, rfl⟩)⟩

theorem Ctx.HasEdge.grows (h : ctx.HasEdge src isMutable target) (hg : ctx.Grows ctx') :
    ctx'.HasEdge src isMutable target := by
  induction hg with
  | refl => exact h
  | addNode n _ ih => exact ⟨by simpa [Ctx.addNode, Graph.Edge, Graph.addNode_arcs] using ih.edge,
      ih.mutable⟩
  | addEdge target _ _ ih =>
    exact ⟨edge_addEdge.mpr (Or.inr ih.edge), fun h => mem_mutableEdges_addEdge.mpr
      (Or.inr (ih.mutable h))⟩

theorem Ctx.Grows.wellFormed (hg : ctx.Grows ctx') (h : ctx.WellFormed) : ctx'.WellFormed := by
  induction hg with
  | refl => exact h
  | addNode n _ ih =>
    refine ⟨fun u v huv => ?_, fun e he => ?_⟩
    · have hold := ih.complete u v (by simpa [Ctx.addNode, Graph.Edge, Graph.addNode_arcs] using huv)
      exact ⟨Graph.mem_addNode.mpr (Or.inr hold.1), Graph.mem_addNode.mpr (Or.inr hold.2)⟩
    · simpa [Ctx.addNode, Graph.Edge, Graph.addNode_arcs] using ih.mutable e he
  | addEdge target _ hsrc ih =>
    refine ⟨fun u v huv => ?_, fun e he => ?_⟩
    · simp only [Ctx.addEdge, Ctx.addNode, Graph.addEdge, Graph.mem_addNode]
      rcases edge_addEdge.mp huv with ⟨rfl, rfl⟩ | hold
      · simp
      · have := ih.complete u v hold
        tauto
    · rcases mem_mutableEdges_addEdge.mp he with ⟨hm, rfl⟩ | hold
      · exact ⟨edge_addEdge.mpr (Or.inl ⟨rfl, rfl⟩), hsrc hm⟩
      · have := ih.mutable e hold
        exact ⟨edge_addEdge.mpr (Or.inr this.1), this.2⟩

theorem grows_foldl {β : Type} {f : Ctx → β → Ctx} {l : List β}
    (hf : ∀ b ∈ l, ∀ ctx : Ctx, ctx.Grows (f ctx b)) (ctx : Ctx) : ctx.Grows (l.foldl f ctx) := by
  induction l generalizing ctx with
  | nil => exact .refl
  | cons b l ih =>
    have hrest := ih (fun b' hb' => hf b' (List.mem_cons_of_mem b hb')) (f ctx b)
    exact (hf b List.mem_cons_self ctx).trans hrest

section Equations

variable {args : List CTy} {inner : CTy}

theorem addRefs_visited (h : materializedName name args ∈ visited) :
    addRefs typeDefs visited src isMutable (.defined name args) ctx = ctx := by
  unfold addRefs
  simp [h]

theorem addRefs_alias (h : materializedName name args ∉ visited)
    (hfind : typeDefs.findOpt (materializedName name args) = some (.alias inner)) :
    addRefs typeDefs visited src isMutable (.defined name args) ctx =
      addRefs typeDefs (materializedName name args :: visited) src isMutable inner ctx := by
  rw [addRefs]
  simp only [h, not_false_eq_true, dif_neg]
  split
  · rename_i hfind'
    cases hfind.symm.trans hfind'
    rfl
  · rename_i hno
    exact (hno _ hfind).elim

theorem addRefs_named (h : materializedName name args ∉ visited)
    (hno : ∀ inner, typeDefs.findOpt (materializedName name args) ≠ some (.alias inner)) :
    addRefs typeDefs visited src isMutable (.defined name args) ctx =
      ctx.addEdge src (.type (materializedName name args)) isMutable := by
  rw [addRefs]
  simp only [h, not_false_eq_true, dif_neg]

end Equations

/-- A walk over a list passes each of its elements, and keeps what it has then. -/
theorem exists_foldl_of_mem {β : Type} {f : Ctx → β → Ctx} {l : List β} {b : β}
    (hf : ∀ b ∈ l, ∀ ctx : Ctx, ctx.Grows (f ctx b)) (hb : b ∈ l) (ctx : Ctx) :
    ∃ ctx₁, (f ctx₁ b).Grows (l.foldl f ctx) := by
  obtain ⟨before, after, rfl⟩ := List.append_of_mem hb
  refine ⟨before.foldl f ctx, ?_⟩
  rw [List.foldl_append, List.foldl_cons]
  exact grows_foldl (fun b' hb' => hf b' (List.mem_append_right _ (List.mem_cons_of_mem b hb'))) _

theorem grows_addRefs (hsrc : isMutable = true → src.IsBody) :
    ctx.Grows (addRefs typeDefs visited src isMutable t ctx) := by
  induction visited, src, isMutable, t, ctx using addRefs.induct typeDefs with
  | case1 | case2 | case3 =>
    unfold addRefs
    exact .refl
  | case4 visited src isMutable ctx ts ih =>
    unfold addRefs
    exact grows_foldl (fun t ht ctx => ih ctx t ht hsrc) ctx
  | case5 visited src isMutable ctx elem ih =>
    unfold addRefs
    exact (Ctx.Grows.addEdge _ .refl hsrc).trans (ih (by simp))
  | case6 visited src isMutable ctx name args hkey =>
    rw [addRefs_visited hkey]
    exact .refl
  | case7 visited src isMutable ctx name args hkey inner hfind ih =>
    rw [addRefs_alias hkey hfind]
    exact ih hsrc
  | case8 visited src isMutable ctx name args hkey hno =>
    rw [addRefs_named hkey hno]
    exact .addEdge _ .refl hsrc

/-- A type contains the parts of its tuples and arrays, and an alias what it stands for. -/
inductive Expands (typeDefs : StringMap TyDeclDesc) : CTy → CTy → Prop where
  | tuple {ts : List CTy} {t : CTy} : t ∈ ts → Expands typeDefs (.tuple ts) t
  | array {elem : CTy} : Expands typeDefs (.array elem) elem
  | unalias {name : String} {args : List CTy} {inner : CTy} :
      typeDefs.findOpt (materializedName name args) = some (.alias inner) →
        Expands typeDefs (.defined name args) inner

/-- The expansion of the type ends. -/
def Unfolds (typeDefs : StringMap TyDeclDesc) (t : CTy) : Prop :=
  Acc (fun t' t => Expands typeDefs t t') t

theorem Unfolds.not_loop (h : Unfolds typeDefs t) : ¬ TransGen (Expands typeDefs) t t :=
  not_cycle_of_acc h

/-- The graph has the edges that a field of the type needs. -/
inductive Covers (typeDefs : StringMap TyDeclDesc) (ctx : Ctx) : TypeNode → Bool → CTy → Prop where
  | var {src : TypeNode} {isMutable : Bool} {v : Nat} : Covers typeDefs ctx src isMutable (.var v)
  | constant {src : TypeNode} {isMutable : Bool} {c : ConstantTy} :
      Covers typeDefs ctx src isMutable (.constant c)
  | arrow {src : TypeNode} {isMutable : Bool} {arg ret : CTy} :
      Covers typeDefs ctx src isMutable (.arrow arg ret)
  | tuple {src : TypeNode} {isMutable : Bool} {ts : List CTy} :
      (∀ t ∈ ts, Covers typeDefs ctx src isMutable t) →
        Covers typeDefs ctx src isMutable (.tuple ts)
  | array {src : TypeNode} {isMutable : Bool} {elem : CTy} :
      ctx.HasEdge src isMutable (arrayNode elem) →
        Covers typeDefs ctx (arrayNode elem) false elem →
          Covers typeDefs ctx src isMutable (.array elem)
  | unalias {src : TypeNode} {isMutable : Bool} {name : String} {args : List CTy} {inner : CTy} :
      typeDefs.findOpt (materializedName name args) = some (.alias inner) →
        Covers typeDefs ctx src isMutable inner →
          Covers typeDefs ctx src isMutable (.defined name args)
  | named {src : TypeNode} {isMutable : Bool} {name : String} {args : List CTy} :
      (∀ inner, typeDefs.findOpt (materializedName name args) ≠ some (.alias inner)) →
        ctx.HasEdge src isMutable (.type (materializedName name args)) →
          Covers typeDefs ctx src isMutable (.defined name args)

theorem Covers.grows (h : Covers typeDefs ctx src isMutable t) (hg : ctx.Grows ctx') :
    Covers typeDefs ctx' src isMutable t := by
  induction h with
  | var => exact .var
  | constant => exact .constant
  | arrow => exact .arrow
  | tuple _ ih => exact .tuple ih
  | array hedge _ ih => exact .array (hedge.grows hg) ih
  | unalias hfind _ ih => exact .unalias hfind ih
  | named hno hedge => exact .named hno (hedge.grows hg)

theorem covers_foldl {β : Type} {f : Ctx → β → Ctx} {l : List β} {src : β → TypeNode}
    {isMutable : β → Bool} {ty : β → CTy} (hgrow : ∀ b ∈ l, ∀ ctx : Ctx, ctx.Grows (f ctx b))
    (hf : ∀ b ∈ l, ∀ ctx, Covers typeDefs (f ctx b) (src b) (isMutable b) (ty b)) (ctx : Ctx) :
    ∀ b ∈ l, Covers typeDefs (l.foldl f ctx) (src b) (isMutable b) (ty b) := by
  induction l generalizing ctx with
  | nil => simp
  | cons b l ih =>
    have hgrow' := fun b' hb' => hgrow b' (List.mem_cons_of_mem b hb')
    intro b' hb'
    rcases List.mem_cons.mp hb' with rfl | hb'
    · exact (hf b' List.mem_cons_self ctx).grows (grows_foldl hgrow' _)
    · exact ih hgrow' (fun b' hb' => hf b' (List.mem_cons_of_mem b hb')) (f ctx b) b' hb'

/-- The walk adds all edges of a type whose expansion ends: the names that it has visited are not
met again. -/
theorem covers_addRefs (hsrc : isMutable = true → src.IsBody) (ht : Unfolds typeDefs t)
    (hvisited : ∀ k ∈ visited, ∃ inner, typeDefs.findOpt k = some (.alias inner) ∧
      ReflTransGen (Expands typeDefs) inner t) :
    Covers typeDefs (addRefs typeDefs visited src isMutable t ctx) src isMutable t := by
  unfold Unfolds at ht
  induction ht generalizing visited src isMutable ctx with
  | intro t hacc ih =>
    have hparts : ∀ t', Expands typeDefs t t' → ∀ k ∈ visited, ∃ inner,
        typeDefs.findOpt k = some (.alias inner) ∧ ReflTransGen (Expands typeDefs) inner t' := by
      intro t' ht' k hk
      obtain ⟨inner, hfind, hleads⟩ := hvisited k hk
      exact ⟨inner, hfind, hleads.tail ht'⟩
    cases t with
    | var | constant | arrow => constructor
    | tuple ts =>
      rw [addRefs]
      refine .tuple (covers_foldl (fun t _ ctx => grows_addRefs hsrc) (fun t hmem ctx => ?_) ctx)
      exact ih t (.tuple hmem) hsrc (hparts t (.tuple hmem))
    | array elem =>
      rw [addRefs]
      refine .array (Ctx.hasEdge_addEdge.grows (grows_addRefs (by simp))) ?_
      exact ih elem .array (by simp) (hparts elem .array)
    | defined name args =>
      by_cases halias : ∃ inner, typeDefs.findOpt (materializedName name args) =
          some (.alias inner)
      · obtain ⟨inner, hfind⟩ := halias
        have hstep : Expands typeDefs (.defined name args) inner := .unalias hfind
        have hkey : materializedName name args ∉ visited := by
          intro hkey
          obtain ⟨inner', hfind', hleads⟩ := hvisited _ hkey
          cases hfind.symm.trans hfind'
          exact Unfolds.not_loop (hacc inner hstep) (.tail' hleads hstep)
        rw [addRefs_alias hkey hfind]
        refine .unalias hfind (ih inner hstep hsrc fun k hk => ?_)
        rcases List.mem_cons.mp hk with rfl | hk
        · exact ⟨inner, hfind, .refl⟩
        · exact hparts inner hstep k hk
      · have hno : ∀ inner, typeDefs.findOpt (materializedName name args) ≠
            some (.alias inner) := fun inner h => halias ⟨inner, h⟩
        have hkey : materializedName name args ∉ visited := by
          intro hkey
          obtain ⟨inner, hfind, -⟩ := hvisited _ hkey
          exact hno inner hfind
        rw [addRefs_named hkey hno]
        exact .named hno Ctx.hasEdge_addEdge

theorem grows_addBodyEdges (hsrc : src.IsBody) : ctx.Grows (addBodyEdges typeDefs src fields ctx) :=
  grows_foldl (fun _ _ _ => grows_addRefs fun _ => hsrc) ctx

theorem covers_addBodyEdges (hsrc : src.IsBody) (hfields : ∀ f ∈ fields, Unfolds typeDefs f.1) :
    ∀ f ∈ fields, Covers typeDefs (addBodyEdges typeDefs src fields ctx) src (f.2 = .mutable) f.1 := by
  have hfield : ∀ f ∈ fields, ∀ ctx, Covers typeDefs (addRefs typeDefs [] src (f.2 = .mutable) f.1 ctx)
      src (f.2 = .mutable) f.1 := fun f hf ctx =>
    covers_addRefs (fun _ => hsrc) (hfields f hf) (by simp)
  exact covers_foldl (fun f _ ctx => grows_addRefs fun _ => hsrc) hfield ctx

theorem grows_addCtor {c : ConstructorDecl} : ctx.Grows (addCtor typeDefs name ctx c) := by
  have hedge : ctx.Grows ((ctx.addNode (.ctor name c.tag)).addEdge (.type name) (.ctor name c.tag)
      false) := .addEdge _ (.addNode _ .refl) (by simp)
  exact hedge.trans (grows_addBodyEdges trivial)

theorem grows_addDecl : ctx.Grows (addDecl typeDefs name decl ctx) := by
  have hnode : ctx.Grows (ctx.addNode (.type name)) := .addNode _ .refl
  cases decl with
  | record fields =>
    have hedge : ctx.Grows (((ctx.addNode (.type name)).addNode (.record name)).addEdge (.type name)
        (.record name) false) := .addEdge _ (.addNode _ hnode) (by simp)
    exact hedge.trans (grows_addBodyEdges trivial)
  | variant ctors => exact hnode.trans (grows_foldl (fun _ _ _ => grows_addCtor) _)
  | _ => exact hnode

theorem buildCtx_wellFormed : (buildCtx typeDefs).WellFormed := by
  have hgrow : Ctx.empty.Grows (buildCtx typeDefs) :=
    grows_foldl (fun _ _ _ => grows_addDecl) Ctx.empty
  refine hgrow.wellFormed ⟨?_, ?_⟩
  · intro u v h
    simp [Graph.Edge, Ctx.empty, Graph.empty] at h
  · simp [Ctx.empty]

/-- The walk over the declarations keeps what it adds for one of them. -/
theorem exists_addDecl (hfind : typeDefs.findOpt name = some decl) :
    ∃ ctx, (addDecl typeDefs name decl ctx).Grows (buildCtx typeDefs) :=
  exists_foldl_of_mem (f := fun ctx e => addDecl typeDefs e.1 e.2 ctx)
    (fun _ _ _ => grows_addDecl) (AssocMap.mem_of_findOpt hfind) .empty

theorem edge_record {declFields : List RecordFieldTy}
    (hfind : typeDefs.findOpt name = some (.record declFields)) :
    (buildCtx typeDefs).graph.Edge (.type name) (.record name) := by
  obtain ⟨ctx, hgrow⟩ := exists_addDecl hfind
  have hbody : (TypeNode.record name).IsBody := trivial
  exact ((Ctx.hasEdge_addEdge.grows (grows_addBodyEdges hbody)).grows hgrow).edge

theorem covers_record {declFields : List RecordFieldTy}
    (hfind : typeDefs.findOpt name = some (.record declFields))
    (hfields : ∀ f ∈ declFields, Unfolds typeDefs f.fieldTy) :
    ∀ f ∈ declFields,
      Covers typeDefs (buildCtx typeDefs) (.record name) (f.fieldMut = .mutable) f.fieldTy := by
  obtain ⟨ctx, hgrow⟩ := exists_addDecl hfind
  have hbody : (TypeNode.record name).IsBody := trivial
  intro f hf
  have hcovers := @covers_addBodyEdges typeDefs
    (((ctx.addNode (.type name)).addNode (.record name)).addEdge (.type name) (.record name) false)
    (.record name) (declFields.map fun f => (f.fieldTy, f.fieldMut)) hbody (by simpa using hfields)
  exact (hcovers (f.fieldTy, f.fieldMut) (List.mem_map.mpr ⟨f, hf, rfl⟩)).grows hgrow

section Ctors

variable {ctors : List ConstructorDecl} {c : ConstructorDecl}
variable (hfind : typeDefs.findOpt name = some (.variant ctors)) (hc : c ∈ ctors)

include hfind hc

theorem exists_addCtor : ∃ ctx, (addCtor typeDefs name ctx c).Grows (buildCtx typeDefs) := by
  obtain ⟨ctx, hgrow⟩ := exists_addDecl hfind
  obtain ⟨ctx₁, hctor⟩ := exists_foldl_of_mem (f := addCtor typeDefs name)
    (fun _ _ _ => grows_addCtor) hc (ctx.addNode (.type name))
  exact ⟨ctx₁, hctor.trans hgrow⟩

theorem edge_ctor : (buildCtx typeDefs).graph.Edge (.type name) (.ctor name c.tag) := by
  obtain ⟨ctx, hgrow⟩ := exists_addCtor hfind hc
  have hbody : (TypeNode.ctor name c.tag).IsBody := trivial
  exact ((Ctx.hasEdge_addEdge.grows (grows_addBodyEdges hbody)).grows hgrow).edge

theorem covers_ctor (hfields : ∀ f ∈ ctorFields c.arg, Unfolds typeDefs f.1) :
    ∀ f ∈ ctorFields c.arg,
      Covers typeDefs (buildCtx typeDefs) (.ctor name c.tag) (f.2 = .mutable) f.1 := by
  obtain ⟨ctx, hgrow⟩ := exists_addCtor hfind hc
  have hbody : (TypeNode.ctor name c.tag).IsBody := trivial
  exact fun f hf => (covers_addBodyEdges hbody hfields f hf).grows hgrow

end Ctors

/-- Whatever the search has visited when its queue is empty is closed under the edges. -/
theorem visitQueue_spec {rev : Graph TypeNode} {visited queue : List TypeNode}
    (h : ∀ x ∈ visited, ∀ y ∈ rev.successors x, y ∈ visited ∨ y ∈ queue) :
    (∀ x ∈ visited, x ∈ visitQueue rev visited queue) ∧
      (∀ x ∈ queue, x ∈ visitQueue rev visited queue) ∧
        ∀ x ∈ visitQueue rev visited queue, ∀ y ∈ rev.successors x,
          y ∈ visitQueue rev visited queue := by
  induction visited, queue using visitQueue.induct rev with
  | case1 visited =>
    rw [visitQueue]
    exact ⟨fun _ => id, by simp, fun x hx y hy => by simpa using h x hx y hy⟩
  | case2 visited n queue hn ih =>
    rw [visitQueue, if_pos hn]
    have hqueue : ∀ x ∈ visited, ∀ y ∈ rev.successors x, y ∈ visited ∨ y ∈ queue := by
      intro x hx y hy
      rcases h x hx y hy with hy | hy
      · exact Or.inl hy
      · rcases List.mem_cons.mp hy with rfl | hy
        · exact Or.inl hn
        · exact Or.inr hy
    obtain ⟨hkeep, hall, hclosed⟩ := ih hqueue
    refine ⟨hkeep, fun x hx => ?_, hclosed⟩
    rcases List.mem_cons.mp hx with rfl | hx
    · exact hkeep _ hn
    · exact hall x hx
  | case3 visited n queue hn ih =>
    rw [visitQueue, if_neg hn]
    have hqueue : ∀ x ∈ n :: visited, ∀ y ∈ rev.successors x, y ∈ n :: visited ∨
        y ∈ queue ++ (rev.successors n).filter (· ∉ n :: visited) := by
      intro x hx y hy
      by_cases hmem : y ∈ n :: visited
      · exact Or.inl hmem
      · refine Or.inr (List.mem_append.mpr ?_)
        rcases List.mem_cons.mp hx with rfl | hx
        · exact Or.inr (List.mem_filter.mpr ⟨hy, by simpa using hmem⟩)
        · rcases h x hx y hy with hy' | hy'
          · exact (hmem (List.mem_cons_of_mem n hy')).elim
          · rcases List.mem_cons.mp hy' with rfl | hy'
            · exact (hmem List.mem_cons_self).elim
            · exact Or.inl hy'
    obtain ⟨hkeep, hall, hclosed⟩ := ih hqueue
    refine ⟨fun x hx => hkeep x (List.mem_cons_of_mem n hx), fun x hx => ?_, hclosed⟩
    rcases List.mem_cons.mp hx with rfl | hx
    · exact hkeep _ List.mem_cons_self
    · exact hall x (List.mem_append_left _ hx)

theorem mem_cyclicNodes : n ∈ ctx.cyclicNodes ↔ ∃ comp ∈ ctx.graph.cyclicComponents,
    (∃ e ∈ ctx.mutableEdges, e.1 ∈ comp ∧ e.2 ∈ comp) ∧ n ∈ comp := by
  have hfold : ∀ (comps : List (List TypeNode)) (acc : List TypeNode),
      n ∈ comps.foldl (fun acc comp =>
        if ctx.mutableEdges.any fun e => e.1 ∈ comp ∧ e.2 ∈ comp then comp ++ acc else acc) acc ↔
      n ∈ acc ∨ ∃ comp ∈ comps, (∃ e ∈ ctx.mutableEdges, e.1 ∈ comp ∧ e.2 ∈ comp) ∧ n ∈ comp := by
    intro comps
    induction comps with
    | nil => simp
    | cons comp comps ih =>
      intro acc
      rw [List.foldl_cons, ih]
      by_cases h : ∃ e ∈ ctx.mutableEdges, e.1 ∈ comp ∧ e.2 ∈ comp
      · rw [if_pos (by simpa using h)]
        simp only [List.mem_append, List.exists_mem_cons_iff, h, true_and]
        tauto
      · rw [if_neg (by simpa using h)]
        simp only [List.exists_mem_cons_iff, h, false_and, false_or]
  exact (hfold _ []).trans (by simp)

/-- The class of a node. -/
def Ctx.classOf (ctx : Ctx) (n : TypeNode) : CyclicProp :=
  if n ∈ ctx.cyclicNodes ∧ ctx.isMutableSource n then .mutableCyclicTrackable
  else if n ∈ ctx.cyclicNodes then .immutableCyclicTrackable
  else if n ∈ ctx.reachableFrom ctx.cyclicNodes then .acyclicTrackable
  else .acyclic

theorem lookup_classify : lookup ctx.classify n =
    if n ∈ ctx.graph.nodes then ctx.classOf n else .unknownCyclicProp := by
  have hfold : ∀ (nodes : List TypeNode) (acc : AssocMap TypeNode CyclicProp),
      (nodes.foldl (fun acc n => acc.add n (ctx.classOf n)) acc).findOpt n =
        if n ∈ nodes then some (ctx.classOf n) else acc.findOpt n := by
    intro nodes
    induction nodes with
    | nil => simp
    | cons m nodes ih =>
      intro acc
      rw [List.foldl_cons, ih]
      by_cases hm : n = m
      · subst hm
        simp
      · simp [AssocMap.findOpt_add_of_ne hm, hm]
  have hclass : ctx.classify.findOpt n =
      if n ∈ ctx.graph.nodes then some (ctx.classOf n) else none := hfold ctx.graph.nodes []
  rw [lookup, hclass]
  split <;> rfl

section Classes

variable (hwf : ctx.WellFormed)

include hwf

/-- The source of a mutable edge that lies on a cycle is mutable-cyclic. -/
theorem lookup_of_mutable_cycle (hmut : (u, v) ∈ ctx.mutableEdges)
    (hback : ReflTransGen ctx.graph.Edge v u) :
    lookup ctx.classify u = .mutableCyclicTrackable := by
  have hedge := (hwf.mutable (u, v) hmut).1
  obtain ⟨comp, hcomp, hu, hv⟩ := Graph.exists_cyclicComponent hwf.complete hedge hback
  have hcyclic : u ∈ ctx.cyclicNodes :=
    mem_cyclicNodes.mpr ⟨comp, hcomp, ⟨_, hmut, hu, hv⟩, hu⟩
  have hsource : ctx.isMutableSource u = true := by
    simpa [Ctx.isMutableSource] using ⟨v, hmut⟩
  rw [lookup_classify, if_pos (hwf.complete u v hedge).1, Ctx.classOf, if_pos ⟨hcyclic, hsource⟩]

/-- What an acyclic node refers to is acyclic. -/
theorem lookup_acyclic_edge (hu : lookup ctx.classify u = .acyclic)
    (hedge : ctx.graph.Edge u v) : lookup ctx.classify v = .acyclic := by
  obtain ⟨hunode, hvnode⟩ := hwf.complete u v hedge
  obtain ⟨-, hseeds, hclosed⟩ := @visitQueue_spec ctx.graph.reverse [] ctx.cyclicNodes (by simp)
  rw [lookup_classify, if_pos hunode] at hu
  have hnot : u ∉ ctx.reachableFrom ctx.cyclicNodes := by
    intro hmem
    unfold Ctx.classOf at hu
    split_ifs at hu
  have hvnot : v ∉ ctx.reachableFrom ctx.cyclicNodes := fun hmem =>
    hnot (hclosed v hmem u (Graph.mem_successors_reverse.mpr hedge))
  have hvcyclic : v ∉ ctx.cyclicNodes := fun hmem => hvnot (hseeds v hmem)
  rw [lookup_classify, if_pos hvnode, Ctx.classOf]
  simp [hvcyclic, hvnot]

/-- Type and array nodes have no mutable field. -/
theorem lookup_not_body (hn : ¬ n.IsBody) : lookup ctx.classify n ≠ .mutableCyclicTrackable := by
  have hsource : ctx.isMutableSource n = false := by
    by_contra hsource
    simp only [Ctx.isMutableSource, Bool.not_eq_false, List.any_eq_true, decide_eq_true_eq]
      at hsource
    obtain ⟨e, he, rfl⟩ := hsource
    exact hn (hwf.mutable e he).2
  rw [lookup_classify]
  unfold Ctx.classOf
  split_ifs <;> simp_all

end Classes

end Syli.Compiler
