import Syli.Compiler.CloneNames
import Syli.Compiler.ConcreteTypes

/-! What every round of the monomorphisation keeps: each function is a clone of one function of the
module, and waits once for its calls to be rewritten. -/
namespace Syli.Compiler.Mono

open Foundation

variable {T : Type} {prog : Module} {ctx ctx' : Ctx} {n m : String} {f g h : Function Ty}
variable {done : List String}

def erase (fn : Function T) : Function Unit := fn.map fun _ => ()

theorem erase_instanceOf (subst : Subst) (fn : Function Ty) (n : String) :
    erase (instanceOf subst fn n) = { erase fn with name := n } := by
  have herase : erase (fn.map (applySubstTy subst)) = erase fn := by
    simp only [erase, Function.map_map, Function.comp_def]
  rw [← herase]
  rfl

/-- The clone is the function at concrete types of its variables, with a name of its own. -/
structure IsClone (g h : Function Ty) : Prop where
  body : ∃ subst, ConcreteSubst subst ∧ h = instanceOf subst g h.name
  name : Specialises g.name h.name

theorem IsClone.refl (g : Function Ty) : IsClone g g :=
  ⟨⟨[], concreteSubst_nil, (instanceOf_nil g).symm⟩, Or.inl rfl⟩

theorem IsClone.clone {subst : Subst} {callee : Function Ty} (hg : IsClone g callee)
    (hname : Specialises callee.name n) (hsubst : ConcreteSubst subst)
    (h : cloneFunction subst callee n = .ok f) : IsClone g f ∧ f.name = n := by
  obtain rfl := cloneFunction_eq h
  obtain ⟨σ, hσ, hcallee⟩ := hg.body
  refine ⟨⟨⟨σ ++ subst, hσ.append hsubst, ?_⟩, hg.name.trans hname⟩, rfl⟩
  rw [← instanceOf_instanceOf hσ g callee.name, ← hcallee]
  rfl

@[simp] theorem directCallee_map {S : Type} (f : S → T) (s : Statement S) :
    directCallee (s.map f) = directCallee s := by
  obtain ⟨id, node, ty⟩ := s
  cases node with
  | call dst target args => cases target <;> rfl
  | assign | objectSet | objectCreate | makeClosure | partialApply | storeGlobal | nop => rfl

theorem directCallees_erase (fn : Function T) : directCallees (erase fn) = directCallees fn := by
  simp [directCallees, erase, Function.map, Block.map, List.flatMap_map, List.filterMap_map]

theorem IsClone.directCallees (hg : IsClone g f) : directCallees f = directCallees g := by
  obtain ⟨subst, -, hbody⟩ := hg.body
  rw [← directCallees_erase f, hbody, erase_instanceOf, ← directCallees_erase g]
  rfl

/-- The functions of the context belong to the functions of the module. -/
structure Traced (prog : Module) (ctx : Ctx) : Prop where
  named : ∀ n h, ctx.functions.findOpt n = some h → h.name = n
  clone : ∀ n h, ctx.functions.findOpt n = some h → ∃ g ∈ prog.functions, IsClone g h
  source : ∀ g ∈ prog.functions, ctx.functions.findOpt g.name = some g
  externs : ∀ n, (ctx.ffiExterns.findOpt n).isSome ↔
    n ∈ prog.ffiExternalFunctions.map (·.syliName)

/-- Each function of the context is done or waits, once. -/
structure Scheduled (done : List String) (ctx : Ctx) : Prop where
  nodup : (done ++ ctx.newFunctionClones.map Function.name).Nodup
  covers : ∀ n, (ctx.functions.findOpt n).isSome ↔
    n ∈ done ++ ctx.newFunctionClones.map Function.name
  pending : ∀ h ∈ ctx.newFunctionClones, ctx.functions.findOpt h.name = some h

structure Invariant (prog : Module) (done : List String) (ctx : Ctx) : Prop where
  traced : Traced prog ctx
  scheduled : Scheduled done ctx

/-- The functions that are found stay as they are. -/
def Extended (ctx ctx' : Ctx) : Prop :=
  ∀ n h, ctx.functions.findOpt n = some h → ctx'.functions.findOpt n = some h

theorem Extended.refl (ctx : Ctx) : Extended ctx ctx := fun _ _ h => h

theorem Extended.trans {ctx₁ ctx₂ ctx₃ : Ctx} (h : Extended ctx₁ ctx₂) (h' : Extended ctx₂ ctx₃) :
    Extended ctx₁ ctx₃ := fun n f hf => h' n f (h n f hf)

def Ctx.Has (ctx : Ctx) (n : String) : Prop := (ctx.functions.findOpt n).isSome

theorem Extended.has (hle : Extended ctx ctx') (h : ctx.Has n) : ctx'.Has n := by
  obtain ⟨f, hf⟩ := Option.isSome_iff_exists.mp h
  rw [Ctx.Has, hle n f hf]
  rfl

/-- What a call of `n` may become: a call of a function that specialises `n`. -/
def Resolves (prog : Module) (found : String → Prop) (n m : String) : Prop :=
  n ∈ prog.functions.map Function.name ∧ Specialises n m ∧ found m ∨
    m = n ∧ n ∈ prog.ffiExternalFunctions.map (·.syliName)

theorem Resolves.mono {found found' : String → Prop} (hle : ∀ m, found m → found' m)
    (h : Resolves prog found n m) : Resolves prog found' n m :=
  h.imp_left fun ⟨hn, hs, hm⟩ => ⟨hn, hs, hle m hm⟩

/-- A name that stays. -/
theorem Traced.resolves_self (ht : Traced prog ctx) (hn : Known prog n) :
    Resolves prog ctx.Has n n := by
  refine hn.imp (fun hn => ⟨hn, Or.inl rfl, ?_⟩) fun hn => ⟨rfl, hn⟩
  obtain ⟨g, hg, rfl⟩ := List.mem_map.mp hn
  rw [Ctx.Has, ht.source g hg]
  rfl

/-- A clone with a new name joins the context and waits. -/
theorem Invariant.newFunctionClone (hi : Invariant prog done ctx) (hg : g ∈ prog.functions)
    (hc : IsClone g f) (hnew : ctx.functions.findOpt f.name = none) :
    Invariant prog done (newFunctionClone ctx f) ∧ Extended ctx (newFunctionClone ctx f) := by
  have hle : Extended ctx (Mono.newFunctionClone ctx f) := by
    intro n h hn
    have hne : n ≠ f.name := by
      rintro rfl
      rw [hnew] at hn
      cases hn
    exact (AssocMap.findOpt_add_of_ne hne).trans hn
  have hfind : ∀ n h, (Mono.newFunctionClone ctx f).functions.findOpt n = some h →
      n = f.name ∧ h = f ∨ ctx.functions.findOpt n = some h := by
    intro n h hn
    by_cases heq : n = f.name
    · subst heq
      exact Or.inl ⟨rfl, Option.some.inj (hn.symm.trans AssocMap.findOpt_add_self)⟩
    · exact Or.inr ((AssocMap.findOpt_add_of_ne heq).symm.trans hn)
  have hfresh : f.name ∉ done ++ ctx.newFunctionClones.map Function.name := by
    rw [← hi.scheduled.covers, hnew]
    simp
  refine ⟨⟨⟨?_, ?_, fun g hg => hle _ _ (hi.traced.source g hg), hi.traced.externs⟩,
    ⟨?_, ?_, ?_⟩⟩, hle⟩
  · intro n h hn
    rcases hfind n h hn with ⟨rfl, rfl⟩ | hn
    · rfl
    · exact hi.traced.named n h hn
  · intro n h hn
    rcases hfind n h hn with ⟨rfl, rfl⟩ | hn
    · exact ⟨g, hg, hc⟩
    · exact hi.traced.clone n h hn
  · rw [Mono.newFunctionClone, List.map_cons, List.nodup_middle]
    exact List.nodup_cons.mpr ⟨hfresh, hi.scheduled.nodup⟩
  · intro n
    have hcovers := hi.scheduled.covers n
    by_cases heq : n = f.name
    · subst heq
      simp [Mono.newFunctionClone]
    · rw [Mono.newFunctionClone, AssocMap.findOpt_add_of_ne heq, hcovers]
      simp [heq]
  · intro h hh
    rcases List.mem_cons.mp hh with rfl | hh
    · exact AssocMap.findOpt_add_self
    · exact hle _ _ (hi.scheduled.pending h hh)

section Specialise

/-- A clone that is made of a function of the context. -/
theorem Invariant.clone {callee clone : Function Ty} {subst : Subst} {argTys : List Ty} {retTy : Ty}
    (hi : Invariant prog done ctx) (hcallee : ctx.functions.findOpt n = some callee)
    (hname : specializationName n argTys retTy = .ok m) (hnew : ctx.functions.findOpt m = none)
    (hsubst : ConcreteSubst subst) (hclone : cloneFunction subst callee m = .ok clone) :
    Invariant prog done (Mono.newFunctionClone ctx clone) ∧
      Extended ctx (Mono.newFunctionClone ctx clone) ∧ clone.name = m := by
  obtain ⟨g, hg, hgc⟩ := hi.traced.clone n callee hcallee
  have hcname := hi.traced.named n callee hcallee
  obtain ⟨hc, rfl⟩ := hgc.clone (hcname ▸ specialises_of_name hname) hsubst hclone
  exact ⟨(hi.newFunctionClone hg hc hnew).1, (hi.newFunctionClone hg hc hnew).2, rfl⟩

theorem specializeFnWithTys_cases {fnName : String} {argTys : List Ty} {dstTy : Ty}
    (h : specializeFnWithTys ctx fnName argTys dstTy = .ok ctx') :
    ctx' = ctx ∨ ∃ callee argTys retTy newName subst clone,
      ctx.functions.findOpt fnName = some callee ∧
      specializationName fnName argTys retTy = .ok newName ∧
      ctx.functions.findOpt newName = none ∧ ConcreteSubst subst ∧
      cloneFunction subst callee newName = .ok clone ∧ ctx' = newFunctionClone ctx clone := by
  unfold specializeFnWithTys at h
  split at h
  · exact Or.inl (Except.ok.inj h).symm
  · rename_i callee hcallee
    obtain ⟨subst, hsubst, h⟩ := bind_eq_ok.mp h
    dsimp only at h
    split at h
    · exact Or.inl (pure_eq_ok.mp h).symm
    · split at h
      · exact Or.inl (pure_eq_ok.mp h).symm
      · obtain ⟨newName, hname, h⟩ := bind_eq_ok.mp h
        split at h
        · exact Or.inl (pure_eq_ok.mp h).symm
        · rename_i hnone
          obtain ⟨clone, hclone, h⟩ := bind_eq_ok.mp h
          exact Or.inr ⟨callee, _, _, newName, subst, clone, hcallee, hname, hnone,
            concreteSubst_createSubst hsubst, hclone, (pure_eq_ok.mp h).symm⟩

theorem specializeDirectCall_cases {dst : Var Ty} {fn name : String} {args : List (Operand Ty)}
    (h : specializeDirectCall ctx dst fn args = .ok (ctx', name)) :
    (ctx' = ctx ∧ name = fn) ∨ ∃ callee argTys retTy newName,
      ctx.functions.findOpt fn = some callee ∧
      specializationName fn argTys retTy = .ok newName ∧
      ((ctx' = ctx ∧ ∃ specialized, ctx.functions.findOpt newName = some specialized ∧
          name = specialized.name) ∨
        ctx.functions.findOpt newName = none ∧ ∃ subst clone, ConcreteSubst subst ∧
          cloneFunction subst callee newName = .ok clone ∧ ctx' = newFunctionClone ctx clone ∧
          name = clone.name) := by
  unfold specializeDirectCall at h
  split at h
  · cases h
    exact Or.inl ⟨rfl, rfl⟩
  split at h
  · cases h
  · rename_i callee hcallee
    dsimp only at h
    split at h
    · cases h
      exact Or.inl ⟨rfl, rfl⟩
    · obtain ⟨newName, hname, h⟩ := bind_eq_ok.mp h
      split at h
      · rename_i specialized hsome
        cases h
        exact Or.inr ⟨callee, _, _, newName, hcallee, hname, Or.inl ⟨rfl, specialized, hsome, rfl⟩⟩
      · rename_i hnone
        obtain ⟨subst, hsubst, h⟩ := bind_eq_ok.mp h
        split at h
        · cases h
          exact Or.inl ⟨rfl, rfl⟩
        · obtain ⟨clone, hclone, h⟩ := bind_eq_ok.mp h
          cases h
          exact Or.inr ⟨callee, _, _, newName, hcallee, hname,
            Or.inr ⟨hnone, subst, clone, concreteSubst_createSubst hsubst, hclone, rfl, rfl⟩⟩

theorem specializeClosure_spec {spec : FnSpecialization} (hi : Invariant prog done ctx)
    (h : specializeClosure ctx spec = .ok ctx') :
    Invariant prog done ctx' ∧ Extended ctx ctx' := by
  unfold specializeClosure at h
  split at h
  · rcases specializeFnWithTys_cases h with
      rfl | ⟨callee, _, _, newName, subst, clone, hcallee, hname, hnone, hsubst, hclone, rfl⟩
    · exact ⟨hi, .refl _⟩
    · obtain ⟨hi', hle, -⟩ := hi.clone hcallee hname hnone hsubst hclone
      exact ⟨hi', hle⟩
  · cases h
    exact ⟨hi, .refl _⟩

/-- A function that is called under its name is one of the module. -/
theorem Traced.source_name (hw : WellNamed prog) (ht : Traced prog ctx) (hn : Known prog n)
    (h : ctx.functions.findOpt n = some f) : n ∈ prog.functions.map Function.name := by
  rcases hn with hn | hn
  · exact hn
  · obtain ⟨g, hg, hc⟩ := ht.clone n f h
    exact (hw.not_specialises hg hn (ht.named n f h ▸ hc.name)).elim

theorem specializeDirectCall_spec {dst : Var Ty} {args : List (Operand Ty)} (hw : WellNamed prog)
    (hi : Invariant prog done ctx) (hn : Known prog n)
    (h : specializeDirectCall ctx dst n args = .ok (ctx', m)) :
    Invariant prog done ctx' ∧ Extended ctx ctx' ∧ Resolves prog ctx'.Has n m := by
  rcases specializeDirectCall_cases h with ⟨rfl, rfl⟩ | ⟨callee, _, _, newName, hcallee, hname, hcase⟩
  · exact ⟨hi, .refl _, hi.traced.resolves_self hn⟩
  · have hs := specialises_of_name hname
    have hmem := hi.traced.source_name hw hn hcallee
    rcases hcase with
      ⟨rfl, specialized, hfind, rfl⟩ | ⟨hnone, subst, clone, hsubst, hclone, rfl, rfl⟩
    · refine ⟨hi, .refl _, Or.inl ⟨hmem, ?_⟩⟩
      obtain rfl := hi.traced.named newName specialized hfind
      exact ⟨hs, by rw [Ctx.Has, hfind]; rfl⟩
    · obtain ⟨hi', hle, rfl⟩ := hi.clone hcallee hname hnone hsubst hclone
      refine ⟨hi', hle, Or.inl ⟨hmem, hs, ?_⟩⟩
      rw [Ctx.Has, Mono.newFunctionClone, AssocMap.findOpt_add_self]
      rfl

end Specialise

section Rewrite

/-- A statement whose call goes to another function. -/
inductive Retargeted (C : String → String → Prop) : Statement T → Statement T → Prop where
  | same (s : Statement T) : directCallee s = none → Retargeted C s s
  | call (id : Id) (dst : Var T) (args : List (Operand T)) (ty : T) {n m : String} : C n m →
      Retargeted C ⟨id, .call dst (.direct n) args, ty⟩ ⟨id, .call dst (.direct m) args, ty⟩

theorem Retargeted.mono {C C' : String → String → Prop} {s s' : Statement T}
    (hC : ∀ n m, C n m → C' n m) (h : Retargeted C s s') : Retargeted C' s s' := by
  cases h with
  | same _ hs => exact .same s hs
  | call id dst args ty h => exact .call id dst args ty (hC _ _ h)

theorem Retargeted.of_self {C : String → String → Prop} (s : Statement T)
    (h : ∀ n ∈ directCallee s, C n n) : Retargeted C s s := by
  obtain ⟨id, node, ty⟩ := s
  cases node with
  | call dst target args =>
    cases target with
    | direct name => exact .call id dst args ty (h name rfl)
    | directFnPtr | apply => exact .same _ rfl
  | assign | objectSet | objectCreate | makeClosure | partialApply | storeGlobal | nop =>
    exact .same _ rfl

structure BlockRewritten (C : String → String → Prop) (b b' : Block T) : Prop where
  id : b'.id = b.id
  terminator : b'.terminator = b.terminator
  statements : List.Forall₂ (Retargeted C) b.statements b'.statements

/-- The rewritten function has the blocks that its entry leads to. -/
structure Rewritten (C : String → String → Prop) (fn fn' : Function T) : Prop where
  params : fn'.params = fn.params
  locals : fn'.locals = fn.locals
  visibility : fn'.visibility = fn.visibility
  unitParamIndices : fn'.unitParamIndices = fn.unitParamIndices
  entryBlock : fn'.entryBlock = fn.entryBlock
  returnTy : fn'.returnTy = fn.returnTy
  blocks : ∀ id b', (buildBlockMap fn'.blocks).findOpt id = some b' →
    ∃ b, (buildBlockMap fn.blocks).findOpt id = some b ∧ BlockRewritten C b b'
  reached : ∀ id, Relation.ReflTransGen (Edge fn.blocks) fn.entryBlock id →
    ((buildBlockMap fn'.blocks).findOpt id).isSome

theorem BlockRewritten.mono {C C' : String → String → Prop} {b b' : Block T}
    (hC : ∀ n m, C n m → C' n m) (h : BlockRewritten C b b') : BlockRewritten C' b b' :=
  ⟨h.id, h.terminator, h.statements.imp fun _ _ => .mono hC⟩

theorem Rewritten.mono {C C' : String → String → Prop} {fn fn' : Function T}
    (hC : ∀ n m, C n m → C' n m) (h : Rewritten C fn fn') : Rewritten C' fn fn' where
  params := h.params
  locals := h.locals
  visibility := h.visibility
  unitParamIndices := h.unitParamIndices
  entryBlock := h.entryBlock
  returnTy := h.returnTy
  blocks id b' hb' := by
    obtain ⟨b, hb, hrel⟩ := h.blocks id b' hb'
    exact ⟨b, hb, hrel.mono hC⟩
  reached := h.reached

theorem specializeClosures_spec {specs : List FnSpecialization} (hi : Invariant prog done ctx)
    (h : specs.foldlM specializeClosure ctx = .ok ctx') :
    Invariant prog done ctx' ∧ Extended ctx ctx' := by
  refine foldlM_invariant (P := fun _ c => Invariant prog done c ∧ Extended ctx c) h ⟨hi, .refl _⟩ ?_
  rintro spec specs c c' ⟨hc, hle⟩ hstep
  obtain ⟨hc', hle'⟩ := specializeClosure_spec hc hstep
  exact ⟨hc', hle.trans hle'⟩

theorem rewriteStatement_spec {s s' : Statement Ty} (hw : WellNamed prog)
    (hi : Invariant prog done ctx) (hs : ∀ n ∈ directCallee s, Known prog n)
    (h : rewriteStatement ctx s = .ok (ctx', s')) :
    Invariant prog done ctx' ∧ Extended ctx ctx' ∧ Retargeted (Resolves prog ctx'.Has) s s' := by
  have hself : ∀ {c}, Invariant prog done c → Retargeted (Resolves prog c.Has) s s :=
    fun hc => .of_self s fun n hn => hc.traced.resolves_self (hs n hn)
  obtain ⟨id, node, ty⟩ := s
  unfold rewriteStatement at h
  dsimp only at h
  split at h
  · rename_i dst n args
    split at h
    · obtain ⟨⟨c, m⟩, hcall, h⟩ := bind_eq_ok.mp h
      obtain ⟨rfl, rfl⟩ := Prod.mk.inj (pure_eq_ok.mp h)
      obtain ⟨hi', hle, hres⟩ := specializeDirectCall_spec hw hi (hs n rfl) hcall
      exact ⟨hi', hle, .call id dst args ty hres⟩
    · cases h
      exact ⟨hi, .refl _, hself hi⟩
  · obtain ⟨c, hspecs, h⟩ := bind_eq_ok.mp h
    obtain ⟨rfl, rfl⟩ := Prod.mk.inj (pure_eq_ok.mp h)
    obtain ⟨hi', hle⟩ := specializeClosures_spec hi hspecs
    exact ⟨hi', hle, hself hi'⟩
  · cases h
    exact ⟨hi, .refl _, hself hi⟩

theorem rewriteBlock_spec {b b' : Block Ty} (hw : WellNamed prog) (hi : Invariant prog done ctx)
    (hb : ∀ s ∈ b.statements, ∀ n ∈ directCallee s, Known prog n)
    (h : rewriteBlock ctx b = .ok (ctx', b')) :
    Invariant prog done ctx' ∧ Extended ctx ctx' ∧ BlockRewritten (Resolves prog ctx'.Has) b b' := by
  obtain ⟨⟨c, statements⟩, hfold, h⟩ := bind_eq_ok.mp h
  obtain ⟨rfl, rfl⟩ := Prod.mk.inj (pure_eq_ok.mp h)
  obtain ⟨hi', hle, hrel⟩ := foldLeftMapM_spec (R := fun (c : Ctx) => Retargeted (Resolves prog c.Has))
    Extended.refl Extended.trans (fun hle h => h.mono fun _ _ => Resolves.mono fun _ => hle.has)
    (fun _ s _ _ hs hi h => rewriteStatement_spec hw hi (hb s hs) h) hi hfold
  exact ⟨hi', hle, rfl, rfl, hrel⟩

theorem rewriteFunction_spec {fn fn' : Function Ty} (hw : WellNamed prog)
    (hi : Invariant prog done ctx) (hfn : ∀ n ∈ directCallees fn, Known prog n)
    (h : rewriteFunction ctx fn = .ok (ctx', fn')) :
    Invariant prog done ctx' ∧ Extended ctx ctx' ∧ fn'.name = fn.name ∧
      Rewritten (Resolves prog ctx'.Has) fn fn' := by
  obtain ⟨cfg, hcfg, h⟩ := bind_eq_ok.mp h
  obtain ⟨⟨c, blocks⟩, hfold, h⟩ := bind_eq_ok.mp h
  dsimp only at h
  split at h
  swap
  · cases h
  obtain ⟨rfl, rfl⟩ := Prod.mk.inj (pure_eq_ok.mp h)
  have hknown : ∀ b ∈ fn.blocks, ∀ s ∈ b.statements, ∀ n ∈ directCallee s, Known prog n := by
    intro b hb s hs n hn
    exact hfn n (List.mem_flatMap.mpr ⟨b, hb, List.mem_filterMap.mpr ⟨s, hs, hn⟩⟩)
  obtain ⟨hi', hle, hrel⟩ := foldLeftMapM_spec
    (R := fun c id b' => ∃ b, (buildBlockMap fn.blocks).findOpt id = some b ∧
      BlockRewritten (Resolves prog c.Has) b b')
    Extended.refl Extended.trans
    (fun hle ⟨b, hb, h⟩ => ⟨b, hb, h.mono fun _ _ => Resolves.mono fun _ => hle.has⟩)
    (fun s id t b' _ hi h => by
      unfold rewriteBlockOf at h
      split at h
      · rename_i b hb
        obtain ⟨hi', hle, hrel⟩ :=
          rewriteBlock_spec hw hi (hknown b (mem_of_buildBlockMap hb).1) h
        exact ⟨hi', hle, b, hb, hrel⟩
      · cases h) hi hfold
  -- a block stands under the id that it is listed with
  have hid : ∀ {id b'}, (∃ b, (buildBlockMap fn.blocks).findOpt id = some b ∧
      BlockRewritten (Resolves prog c.Has) b b') → b'.id = id := by
    rintro id b' ⟨b, hb, hrel⟩
    exact hrel.id.trans (mem_of_buildBlockMap hb).2
  refine ⟨hi', hle, rfl, rfl, rfl, rfl, rfl, rfl, rfl, ?_, ?_⟩
  · intro id b' hb'
    obtain ⟨hmem, rfl⟩ := mem_of_buildBlockMap hb'
    obtain ⟨id, -, hblock⟩ := exists_left_of_forall₂ hrel hmem
    rwa [hid hblock]
  · intro id hreach
    have hlisted := ((computeRpo_spec hcfg).2.2.1 id).mpr hreach
    obtain ⟨b', hb', hblock⟩ := exists_right_of_forall₂ hrel hlisted
    rw [← hid hblock]
    exact isSome_buildBlockMap hb'

end Rewrite

end Syli.Compiler.Mono
