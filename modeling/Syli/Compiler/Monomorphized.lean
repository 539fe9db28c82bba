import Syli.Compiler.CloneInvariant

/-! The functions that the monomorphisation returns. -/
namespace Syli.Compiler.Mono

open Foundation

variable {T : Type} {prog out : Module} {ctx ctx' : Ctx} {f g : Function Ty} {done : List String}
variable {specializations : IntMap (List FnSpecialization)} {fuel : Nat}

/-- A function and what the pass made of it. -/
structure FromContext (prog : Module) (ctx : Ctx) (f f' : Function Ty) : Prop where
  found : ctx.functions.findOpt f'.name = some f
  rewritten : Rewritten (Resolves prog ctx.Has) f f'

theorem FromContext.mono {f f' : Function Ty} (hle : Extended ctx ctx')
    (h : FromContext prog ctx f f') : FromContext prog ctx' f f' :=
  ⟨hle _ _ h.found, h.rewritten.mono fun _ _ => Resolves.mono fun _ => hle.has⟩

/-- One round. -/
theorem monomorphize_spec {fns fns' : List (Function Ty)} (hw : WellNamed prog)
    (hi : Invariant prog done ctx) (hfns : ∀ f ∈ fns, ctx.functions.findOpt f.name = some f)
    (h : monomorphize ctx fns = .ok (ctx', fns')) :
    Invariant prog done ctx' ∧ Extended ctx ctx' ∧
      List.Forall₂ (fun f f' => f'.name = f.name ∧ FromContext prog ctx' f f') fns fns' := by
  obtain ⟨⟨hi', hle⟩, -, hrel⟩ := foldLeftMapM_spec
    (P := fun c => Invariant prog done c ∧ Extended ctx c)
    (R := fun (c : Ctx) (f f' : Function Ty) => f'.name = f.name ∧ FromContext prog c f f')
    Extended.refl Extended.trans (fun hle h => ⟨h.1, h.2.mono hle⟩)
    (fun c f c' f' hf hc h => by
      obtain ⟨hi, hle⟩ := hc
      have hfound := hle f.name f (hfns f hf)
      obtain ⟨g, hg, hclone⟩ := hi.traced.clone f.name f hfound
      have hknown : ∀ n ∈ directCallees f, Known prog n := by
        rw [hclone.directCallees]
        exact hw.closed g hg
      obtain ⟨hi', hle', hname, hrewritten⟩ := rewriteFunction_spec hw hi hknown h
      refine ⟨⟨hi', hle.trans hle'⟩, hle', hname, ?_, hrewritten⟩
      rw [hname]
      exact hle' f.name f hfound) ⟨hi, .refl ctx⟩ h
  exact ⟨hi', hle, hrel⟩

/-- What the last round leaves: each function of the context was rewritten once. -/
structure Complete (prog : Module) (ctx : Ctx) (all : List (Function Ty)) : Prop where
  traced : Traced prog ctx
  nodup : (all.map Function.name).Nodup
  covers : ∀ n, ctx.Has n ↔ n ∈ all.map Function.name
  made : ∀ f' ∈ all, ∃ f, FromContext prog ctx f f'

theorem map_name_of_forall₂ {fns fns' : List (Function Ty)}
    (h : List.Forall₂ (fun f f' => f'.name = f.name ∧ FromContext prog ctx f f') fns fns') :
    fns'.map Function.name = fns.map Function.name := by
  induction h with
  | nil => rfl
  | cons hf _ ih => rw [List.map_cons, List.map_cons, hf.1, ih]

theorem monomorphizeRounds_spec {fns acc all : List (Function Ty)} (hw : WellNamed prog)
    (hi : Invariant prog ((acc ++ fns).map Function.name) ctx) (hnew : ctx.newFunctionClones = [])
    (hfns : ∀ f ∈ fns, ctx.functions.findOpt f.name = some f)
    (hacc : ∀ f' ∈ acc, ∃ f, FromContext prog ctx f f')
    (h : monomorphizeRounds fuel ctx fns acc = some (.ok all)) :
    ∃ ctx', Complete prog ctx' all := by
  induction fuel generalizing ctx fns acc with
  | zero => cases h
  | succ n ih =>
    unfold monomorphizeRounds at h
    split at h
    · cases h
    · rename_i ctx' fns' hround
      obtain ⟨hi', hle, hrel⟩ := monomorphize_spec hw hi hfns hround
      have hnames := map_name_of_forall₂ hrel
      have hmade : ∀ f' ∈ acc ++ fns', ∃ f, FromContext prog ctx' f f' := by
        intro f' hf'
        rcases List.mem_append.mp hf' with hf' | hf'
        · obtain ⟨f, hf⟩ := hacc f' hf'
          exact ⟨f, hf.mono hle⟩
        · obtain ⟨f, -, -, hf⟩ := exists_left_of_forall₂ hrel hf'
          exact ⟨f, hf⟩
      have hdone : (acc ++ fns').map Function.name = (acc ++ fns).map Function.name := by
        rw [List.map_append, List.map_append, hnames]
      dsimp only at h
      split at h
      · have hmade' : ∀ f' ∈ acc ++ fns', ∃ f,
            FromContext prog { ctx' with newFunctionClones := [] } f f' := by
          intro f' hf'
          obtain ⟨f, hf⟩ := hmade f' hf'
          exact ⟨f, hf.found, hf.rewritten⟩
        have hsame : ((acc ++ fns') ++ ctx'.newFunctionClones).map Function.name ++
            ([] : List (Function Ty)).map Function.name =
            (acc ++ fns).map Function.name ++ ctx'.newFunctionClones.map Function.name := by
          rw [List.map_append, hdone]
          simp
        have hnext : Invariant prog (((acc ++ fns') ++ ctx'.newFunctionClones).map Function.name)
            { ctx' with newFunctionClones := [] } :=
          ⟨⟨hi'.traced.named, hi'.traced.clone, hi'.traced.source, hi'.traced.externs⟩,
            hsame ▸ hi'.scheduled.nodup, fun n => hsame ▸ hi'.scheduled.covers n, by simp⟩
        exact ih hnext rfl hi'.scheduled.pending hmade' h
      · rename_i hempty
        obtain rfl := Except.ok.inj (Option.some.inj h)
        have hnil : ctx'.newFunctionClones = [] := by simpa using hempty
        have hnodup := hi'.scheduled.nodup
        have hcovers := hi'.scheduled.covers
        rw [hnil, ← hdone] at hnodup hcovers
        refine ⟨ctx', hi'.traced, by simpa using hnodup, fun n => ?_, hmade⟩
        rw [Ctx.Has, hcovers n]
        simp

/-- The context before the first round. -/
theorem invariant_initialCtx (hw : WellNamed prog) :
    Invariant prog (prog.functions.map Function.name) (initialCtx specializations prog) := by
  have hfind : ∀ n, (initialCtx specializations prog).functions.findOpt n =
      prog.functions.reverse.find? (·.name == n) :=
    findOpt_foldl_eq_find? Function.name prog.functions
  have hmem : ∀ n h, (initialCtx specializations prog).functions.findOpt n = some h →
      h ∈ prog.functions ∧ h.name = n := by
    intro n h hn
    rw [hfind] at hn
    exact ⟨List.mem_reverse.mp (List.mem_of_find?_eq_some hn), by simpa using List.find?_some hn⟩
  have hsome : ∀ n, ((initialCtx specializations prog).functions.findOpt n).isSome ↔
      n ∈ prog.functions.map Function.name := by
    intro n
    simp [hfind]
  refine ⟨⟨fun n h hn => (hmem n h hn).2, fun n h hn => ⟨h, (hmem n h hn).1, .refl h⟩, ?_, ?_⟩,
    ⟨by simpa [initialCtx] using hw.nodup, fun n => by simpa [initialCtx] using hsome n,
      by simp [initialCtx]⟩⟩
  · intro g hg
    obtain ⟨h, hh⟩ := Option.isSome_iff_exists.mp ((hsome g.name).mpr (List.mem_map_of_mem hg))
    obtain ⟨hmem, hname⟩ := hmem g.name h hh
    rw [hh, hw.eq_of_name hmem hg hname]
  · intro n
    rw [show (initialCtx specializations prog).ffiExterns.findOpt n =
      prog.ffiExternalFunctions.reverse.find? (·.syliName == n) from
      findOpt_foldl_eq_find? FfiExternalFunction.syliName prog.ffiExternalFunctions n]
    simp

section Erase

variable {S : Type} {C : String → String → Prop} {φ : S → T}

theorem findOpt_buildBlockMap_map (blocks : List (Block S)) (id : Id) :
    (buildBlockMap (blocks.map (·.map φ))).findOpt id =
      ((buildBlockMap blocks).findOpt id).map (·.map φ) := by
  rw [findOpt_buildBlockMap, findOpt_buildBlockMap, ← List.map_reverse, List.find?_map]
  rfl

theorem successors_map (b : Block S) : successors (b.map φ) = successors b := by
  obtain ⟨id, labelId, statements, tid, node⟩ := b
  cases node <;> rfl

theorem edge_map {blocks : List (Block S)} {x y : Id} :
    Edge (blocks.map (·.map φ)) x y ↔ Edge blocks x y := by
  simp [Edge, findOpt_buildBlockMap_map, successors_map]

theorem Retargeted.map {s s' : Statement S} (h : Retargeted C s s') :
    Retargeted C (s.map φ) (s'.map φ) := by
  cases h with
  | same s hs => exact .same _ ((directCallee_map φ s).trans hs)
  | call id dst args ty h => exact .call id _ _ _ h

theorem BlockRewritten.map {b b' : Block S} (h : BlockRewritten C b b') :
    BlockRewritten C (b.map φ) (b'.map φ) where
  id := h.id
  terminator := congrArg (Terminator.map φ) h.terminator
  statements := by
    rw [Block.map, Block.map, List.forall₂_map_left_iff, List.forall₂_map_right_iff]
    exact h.statements.imp fun _ _ => .map

theorem Rewritten.map {fn fn' : Function S} (h : Rewritten C fn fn') :
    Rewritten C (fn.map φ) (fn'.map φ) where
  params := congrArg (List.map (Var.map φ)) h.params
  locals := congrArg (List.map (Var.map φ)) h.locals
  visibility := h.visibility
  unitParamIndices := h.unitParamIndices
  entryBlock := h.entryBlock
  returnTy := congrArg φ h.returnTy
  blocks id b' hb' := by
    rw [Function.map, findOpt_buildBlockMap_map, Option.map_eq_some_iff] at hb'
    obtain ⟨b', hb', rfl⟩ := hb'
    obtain ⟨b, hb, hrel⟩ := h.blocks id b' hb'
    refine ⟨b.map φ, ?_, hrel.map⟩
    rw [Function.map, findOpt_buildBlockMap_map, hb]
    rfl
  reached id hreach := by
    have hedge : Edge (fn.map φ).blocks = Edge fn.blocks := by
      funext x y
      exact propext edge_map
    rw [hedge] at hreach
    rw [Function.map, findOpt_buildBlockMap_map, Option.isSome_map]
    exact h.reached id hreach

end Erase

/-- The function stands in the module for `g`: it is `g` at concrete types of its type variables, and
each call goes to a function that specialises the one it called, or to the same external. -/
structure Stands (prog : Module) (names : List String) (g f' : Function Ty) : Prop where
  name : Specialises g.name f'.name
  rewritten : ∃ subst, ConcreteSubst subst ∧
    Rewritten (Resolves prog (· ∈ names)) (instanceOf subst g f'.name) f'

theorem Stands.erased {names : List String} {f' : Function Ty} (h : Stands prog names g f') :
    Rewritten (Resolves prog (· ∈ names)) (erase g) (erase f') := by
  obtain ⟨subst, -, hrel⟩ := h.rewritten
  have hrel' := hrel.map (φ := fun _ => ())
  change Rewritten _ (erase (instanceOf subst g f'.name)) (erase f') at hrel'
  rw [erase_instanceOf] at hrel'
  exact ⟨hrel'.params, hrel'.locals, hrel'.visibility, hrel'.unitParamIndices, hrel'.entryBlock,
    hrel'.returnTy, hrel'.blocks, hrel'.reached⟩

/-- The output consists of the concrete functions of a list in which every function has a name of its
own and stands for a function of the module, every call finds its function or an external, and no
function of the module is missing. -/
theorem monomorphizeProgram_functions (hw : WellNamed prog)
    (h : monomorphizeProgram fuel specializations prog = some (.ok out)) :
    ∃ all : List (Function Ty), out.functions = all.filter isConcrete ∧
      (all.map Function.name).Nodup ∧
      (∀ f' ∈ all, ∃ g ∈ prog.functions, Stands prog (all.map Function.name) g f') ∧
      ∀ g ∈ prog.functions, ∃ f' ∈ all, f'.name = g.name ∧ isConcrete f' = isConcrete g := by
  unfold monomorphizeProgram at h
  obtain ⟨result, hrounds, hout⟩ := Option.map_eq_some_iff.mp h
  cases result with
  | error e => cases hout
  | ok all =>
    obtain rfl := Except.ok.inj hout
    have hfns : ∀ g ∈ prog.functions,
        (initialCtx specializations prog).functions.findOpt g.name = some g :=
      (invariant_initialCtx hw).traced.source
    obtain ⟨ctx, hall⟩ := monomorphizeRounds_spec hw
      (by simpa using invariant_initialCtx hw) rfl hfns (by simp) hrounds
    have hnames : ∀ m, ctx.Has m → m ∈ all.map Function.name := fun m => (hall.covers m).mp
    refine ⟨all, rfl, hall.nodup, ?_, ?_⟩
    · intro f' hf'
      obtain ⟨f, hf⟩ := hall.made f' hf'
      obtain ⟨g, hg, hclone⟩ := hall.traced.clone _ f hf.found
      have hfname := hall.traced.named _ f hf.found
      obtain ⟨subst, hsubst, hbody⟩ := hclone.body
      have hrel := hf.rewritten.mono fun _ _ => Resolves.mono hnames
      rw [hbody, hfname] at hrel
      exact ⟨g, hg, hfname ▸ hclone.name, subst, hsubst, hrel⟩
    · intro g hg
      have hfound := hall.traced.source g hg
      have hhas : ctx.Has g.name := by
        rw [Ctx.Has, hfound]
        rfl
      obtain ⟨f', hf', hname⟩ := List.mem_map.mp (hnames g.name hhas)
      obtain ⟨f, hf⟩ := hall.made f' hf'
      have hfg : f = g := by
        have := hf.found
        rw [hname, hfound] at this
        exact (Option.some.inj this).symm
      subst hfg
      refine ⟨f', hf', hname, ?_⟩
      rw [isConcrete, isConcrete, hf.rewritten.params, hf.rewritten.returnTy]

theorem genericProgram_wellNamed : WellNamed genericProgram where
  nodup := by decide
  apart := by simp [genericProgram, identityAt, callerOf]
  externs := by simp [genericProgram]
  closed := by simp [genericProgram, identityAt, callerOf, directCallees, directCallee, Known]

theorem monomorphizeProgram_functions_identity :
    ∃ all : List (Function Ty), specialisedProgram.functions = all.filter isConcrete ∧
      (all.map Function.name).Nodup ∧
      ∀ f' ∈ all, ∃ g ∈ genericProgram.functions,
        Stands genericProgram (all.map Function.name) g f' := by
  obtain ⟨all, hall, hnodup, hstands, -⟩ :=
    monomorphizeProgram_functions genericProgram_wellNamed genericProgram_specialised
  exact ⟨all, hall, hnodup, hstands⟩

end Syli.Compiler.Mono
