import Syli.Compiler.CirRuns

/-! The monomorphised module runs as the module does, up to the calls of dropped functions. -/
namespace Syli.Compiler.Mono

open Foundation

variable {V M : Type} {p : Primitives V M} {prog out : Module} {dispatch : String → String → Prop}
variable {specializations : IntMap (List FnSpecialization)} {fuel : Nat}
variable {C : String → String → Prop} {n m : String}

/-- A function of the module, or an external, and what may run in its place. -/
def Places (prog : Module) : String → String → Prop := Resolves prog fun _ => True

section Matching

structure FrameMatches (p : Primitives V M) (C : String → String → Prop) (fr fr' : Frame V) :
    Prop where
  fn : Rewritten C fr.fn fr'.fn
  rest : List.Forall₂ (Retargeted C) fr.rest fr'.rest
  terminator : fr'.terminator = fr.terminator
  env : fr'.env = fr.env
  reached : ∀ env id, p.nextBlock env fr.terminator = some id →
    Relation.ReflTransGen (Edge fr.fn.blocks) fr.fn.entryBlock id

structure StateMatches (p : Primitives V M) (C : String → String → Prop) (s s' : State V M) :
    Prop where
  frame : FrameMatches p C s.frame s'.frame
  callers : List.Forall₂ (fun c c' => FrameMatches p C c.1 c'.1 ∧ c'.2 = c.2) s.callers s'.callers
  memory : s'.memory = s.memory

/-- The target of a call and what it was changed to. -/
inductive TargetMatches (C : String → String → Prop) : CallTarget Unit → CallTarget Unit → Prop where
  | direct {n m : String} : C n m → TargetMatches C (.direct n) (.direct m)
  | directFnPtr (ptr : Var Unit) : TargetMatches C (.directFnPtr ptr) (.directFnPtr ptr)
  | apply (closure : Var Unit) : TargetMatches C (.apply closure) (.apply closure)

theorem nextBlock_mem {env : Id → V} {b : Block Unit} {id : Id}
    (h : p.nextBlock env b.terminator.node = some id) : id ∈ successors b := by
  unfold successors
  cases hnode : b.terminator.node with
  | goto target =>
    rw [hnode] at h
    cases h
    exact List.mem_singleton.mpr rfl
  | switch scrutinee cases defaultBlock =>
    rw [hnode, Primitives.nextBlock, Option.or_eq_some_iff] at h
    rcases h with h | ⟨-, h⟩
    · obtain ⟨c, hc, rfl⟩ := Option.map_eq_some_iff.mp h
      exact List.mem_append_right _ (List.mem_map_of_mem (List.mem_of_find?_eq_some hc))
    · exact List.mem_append_left _ (by simp [h])
  | condBr cond thenBlock elseBlock =>
    rw [hnode] at h
    cases h
    by_cases hc : p.truth (env cond.id) <;> simp [hc]
  | ret | matchFailure =>
    rw [hnode] at h
    cases h

/-- The frames at the start of a block that the entry leads to. -/
theorem frameMatches_of_block {g f' : Function Unit} {b b' : Block Unit} {id : Id} (env : Id → V)
    (hfn : Rewritten C g f') (hb : (buildBlockMap g.blocks).findOpt id = some b)
    (hrel : BlockRewritten C b b') (hreach : Relation.ReflTransGen (Edge g.blocks) g.entryBlock id) :
    FrameMatches p C ⟨g, b.statements, b.terminator.node, env⟩
      ⟨f', b'.statements, b'.terminator.node, env⟩ where
  fn := hfn
  rest := hrel.statements
  terminator := by rw [hrel.terminator]
  env := rfl
  reached env' y hy := hreach.tail ⟨b, hb, nextBlock_mem hy⟩

theorem frameAt_backward {g f' : Function Unit} {id : Id} {env : Id → V} {fr' : Frame V}
    (hfn : Rewritten C g f') (hreach : Relation.ReflTransGen (Edge g.blocks) g.entryBlock id)
    (h : frameAt f' id env = some fr') :
    ∃ fr, frameAt g id env = some fr ∧ FrameMatches p C fr fr' := by
  obtain ⟨b', hb', rfl⟩ := Option.map_eq_some_iff.mp h
  obtain ⟨b, hb, hrel⟩ := hfn.blocks id b' hb'
  exact ⟨_, by rw [frameAt, hb]; rfl, frameMatches_of_block env hfn hb hrel hreach⟩

theorem frameAt_forward {g f' : Function Unit} {id : Id} {env : Id → V} {fr : Frame V}
    (hfn : Rewritten C g f') (hreach : Relation.ReflTransGen (Edge g.blocks) g.entryBlock id)
    (h : frameAt g id env = some fr) :
    ∃ fr', frameAt f' id env = some fr' ∧ FrameMatches p C fr fr' := by
  obtain ⟨b, hb, rfl⟩ := Option.map_eq_some_iff.mp h
  obtain ⟨b', hb'⟩ := Option.isSome_iff_exists.mp (hfn.reached id hreach)
  obtain ⟨b₁, hb₁, hrel⟩ := hfn.blocks id b' hb'
  obtain rfl := Option.some.inj (hb.symm.trans hb₁)
  exact ⟨_, by rw [frameAt, hb']; rfl, frameMatches_of_block env hfn hb hrel hreach⟩

theorem Retargeted.of_call_right {s : Statement Unit} {id : Id} {dst : Var Unit}
    {target : CallTarget Unit} {args : List (Operand Unit)} {ty : Unit}
    (h : Retargeted C s ⟨id, .call dst target args, ty⟩) :
    ∃ target₀, s = ⟨id, .call dst target₀ args, ty⟩ ∧ TargetMatches C target₀ target := by
  cases h with
  | same _ hs =>
    refine ⟨target, rfl, ?_⟩
    cases target with
    | direct => cases hs
    | directFnPtr ptr => exact .directFnPtr ptr
    | apply closure => exact .apply closure
  | call _ _ _ _ h => exact ⟨_, rfl, .direct h⟩

theorem Retargeted.of_call_left {s' : Statement Unit} {id : Id} {dst : Var Unit}
    {target : CallTarget Unit} {args : List (Operand Unit)} {ty : Unit}
    (h : Retargeted C ⟨id, .call dst target args, ty⟩ s') :
    ∃ target', s' = ⟨id, .call dst target' args, ty⟩ ∧ TargetMatches C target target' := by
  cases h with
  | same _ hs =>
    refine ⟨target, rfl, ?_⟩
    cases target with
    | direct => cases hs
    | directFnPtr ptr => exact .directFnPtr ptr
    | apply closure => exact .apply closure
  | call _ _ _ _ h => exact ⟨_, rfl, .direct h⟩

theorem Retargeted.not_call_iff {s s' : Statement Unit} (h : Retargeted C s s') :
    (∀ dst target args, s.node ≠ .call dst target args) ↔
      ∀ dst target args, s'.node ≠ .call dst target args := by
  cases h with
  | same => exact Iff.rfl
  | call id dst args => exact ⟨fun h => (h _ _ _ rfl).elim, fun h => (h _ _ _ rfl).elim⟩

theorem Retargeted.eq_of_not_call {s s' : Statement Unit} (h : Retargeted C s s')
    (hs : ∀ dst target args, s.node ≠ .call dst target args) : s' = s := by
  cases h with
  | same => rfl
  | call => exact (hs _ _ _ rfl).elim

end Matching

section Programs

/-- The module before the pass: a closure runs the function that it names. -/
abbrev source (prog : Module) : Program := programOf prog fun n m => m = n

theorem lookup_source {dispatch : String → String → Prop} {g : Function Ty} (hw : WellNamed prog)
    (hg : g ∈ prog.functions) : (programOf prog dispatch).lookup g.name = some (erase g) := by
  have hfind : prog.functions.find? (·.name == g.name) = some g := by
    obtain ⟨f, hf⟩ : ∃ f, prog.functions.find? (·.name == g.name) = some f := by
      rw [← Option.isSome_iff_exists, List.find?_isSome]
      exact ⟨g, hg, beq_self_eq_true g.name⟩
    have hname : f.name = g.name := by simpa using List.find?_some hf
    rw [hf, hw.eq_of_name (List.mem_of_find?_eq_some hf) hg hname]
  simp only [programOf, hfind, Option.map_some]

theorem mem_of_lookup {mod : Module} {f : Function Unit}
    (h : (programOf mod dispatch).lookup n = some f) :
    ∃ f₀ ∈ mod.functions, f₀.name = n ∧ erase f₀ = f := by
  obtain ⟨f₀, hf₀, rfl⟩ := Option.map_eq_some_iff.mp h
  exact ⟨f₀, List.mem_of_find?_eq_some hf₀, by simpa using List.find?_some hf₀, rfl⟩

/-- The pass replaces the functions of the module. -/
structure Replaces (prog out : Module) : Prop where
  externals : out.ffiExternalFunctions = prog.ffiExternalFunctions
  functions : ∀ f' ∈ out.functions, ∃ g ∈ prog.functions,
    Specialises g.name f'.name ∧ Rewritten (Places prog) (erase g) (erase f')

theorem replaces_of_monomorphizeProgram (hw : WellNamed prog)
    (h : monomorphizeProgram fuel specializations prog = some (.ok out)) : Replaces prog out := by
  obtain ⟨all, hall, -, hstands, -⟩ := monomorphizeProgram_functions hw h
  refine ⟨?_, fun f' hf' => ?_⟩
  · obtain ⟨result, -, hout⟩ := Option.map_eq_some_iff.mp h
    cases result with
    | error e => cases hout
    | ok fns =>
      obtain rfl := Except.ok.inj hout
      rfl
  · rw [hall] at hf'
    obtain ⟨g, hg, hf⟩ := hstands f' (List.mem_of_mem_filter hf')
    exact ⟨g, hg, hf.name, hf.erased.mono fun _ _ => Resolves.mono fun _ _ => trivial⟩

variable (hw : WellNamed prog) (hr : Replaces prog out)
include hw hr

/-- The function that runs in the output stands for the one that the module would run. -/
theorem lookup_backward {f' : Function Unit} (hC : Places prog n m)
    (h : (programOf out dispatch).lookup m = some f') :
    ∃ g, (source prog).lookup n = some g ∧ Rewritten (Places prog) g f' := by
  obtain ⟨f₀, hf₀, rfl, rfl⟩ := mem_of_lookup h
  obtain ⟨g, hg, hname, hrel⟩ := hr.functions f₀ hf₀
  rcases hC with ⟨hn, hs, -⟩ | ⟨rfl, hn⟩
  · obtain ⟨g₀, hg₀, rfl⟩ := List.mem_map.mp hn
    obtain rfl := hw.origin_unique hg₀ hg hs hname
    exact ⟨_, lookup_source hw hg₀, hrel⟩
  · exact (hw.not_specialises hg hn hname).elim

theorem lookup_forward {g f' : Function Unit} (hC : Places prog n m)
    (h : (source prog).lookup n = some g) (h' : (programOf out dispatch).lookup m = some f') :
    Rewritten (Places prog) g f' := by
  obtain ⟨g₀, hg₀, hrel⟩ := lookup_backward hw hr hC h'
  obtain rfl := Option.some.inj (h.symm.trans hg₀)
  exact hrel

omit hr in
/-- An external is replaced by nothing else. -/
theorem eq_of_external (hC : Places prog n m)
    (hn : n ∈ prog.ffiExternalFunctions.map (·.syliName)) : m = n := by
  rcases hC with ⟨hmem, -⟩ | ⟨rfl, -⟩
  · obtain ⟨g, hg, rfl⟩ := List.mem_map.mp hmem
    exact (hw.not_specialises hg hn (Or.inl rfl)).elim
  · rfl

omit hr in
theorem mem_externals_iff (hC : Places prog n m) :
    m ∈ prog.ffiExternalFunctions.map (·.syliName) ↔
      m = n ∧ n ∈ prog.ffiExternalFunctions.map (·.syliName) := by
  constructor
  · intro hm
    rcases hC with ⟨hn, hs, -⟩ | h
    · obtain ⟨g, hg, rfl⟩ := List.mem_map.mp hn
      exact (hw.not_specialises hg hm hs).elim
    · exact h
  · rintro ⟨rfl, hn⟩
    exact hn

end Programs

section Simulation

variable {P' : Program} {s s' t t' : State V M}

/-- The dispatch of the output picks a function that specialises the one that a closure names. -/
def Dispatches (prog : Module) (dispatch : String → String → Prop) : Prop :=
  ∀ n m, dispatch n m → Places prog n m

theorem calls_backward {env : Id → V} {mem : M} {target target' : CallTarget Unit}
    {args vs : List V} (hd : Dispatches prog dispatch)
    (ht : TargetMatches (Places prog) target target')
    (h : Calls p (programOf out dispatch) env mem target' args m vs) :
    ∃ n, Calls p (source prog) env mem target args n vs ∧ Places prog n m := by
  cases ht with
  | direct hC =>
    cases h
    exact ⟨_, .direct _ args, hC⟩
  | directFnPtr ptr =>
    cases h with
    | directFnPtr _ hcode hpick => exact ⟨_, .directFnPtr ptr hcode rfl, hd _ _ hpick⟩
  | apply closure =>
    cases h with
    | apply _ hcode hpick => exact ⟨_, .apply closure hcode rfl, hd _ _ hpick⟩

/-- What a call of the output runs is run for the same function of the module, with the same
arguments. -/
theorem calls_unique {env : Id → V} {mem : M} {target target' : CallTarget Unit}
    {args vs vs' : List V} (hd : Dispatches prog dispatch)
    (ht : TargetMatches (Places prog) target target')
    (h : Calls p (source prog) env mem target args n vs)
    (h' : Calls p (programOf out dispatch) env mem target' args m vs') :
    vs' = vs ∧ Places prog n m := by
  cases ht with
  | direct hC =>
    cases h
    cases h'
    exact ⟨rfl, hC⟩
  | directFnPtr ptr =>
    cases h with
    | directFnPtr _ hcode hpick =>
      cases h' with
      | directFnPtr _ hcode' hpick' =>
        obtain ⟨rfl, rfl⟩ := Prod.mk.inj (Option.some.inj (hcode.symm.trans hcode'))
        exact ⟨rfl, hpick ▸ hd _ _ hpick'⟩
  | apply closure =>
    cases h with
    | apply _ hcode hpick =>
      cases h' with
      | apply _ hcode' hpick' =>
        obtain ⟨rfl, rfl⟩ := Prod.mk.inj (Option.some.inj (hcode.symm.trans hcode'))
        exact ⟨rfl, hpick ▸ hd _ _ hpick'⟩

variable (hw : WellNamed prog) (hr : Replaces prog out) (hd : Dispatches prog dispatch)
include hw hr hd

/-- Every step of the output is a step of the module. -/
theorem step_backward (hm : StateMatches p (Places prog) s s')
    (h : Step p (programOf out dispatch) s' t') :
    ∃ t, Step p (source prog) s t ∧ StateMatches p (Places prog) t t' := by
  obtain ⟨fr, callers, mem⟩ := s
  obtain ⟨hframe, hcallers, hmem⟩ := hm
  have henv := hframe.env
  cases h with
  | statement hrest hcall hprim =>
    obtain ⟨s₀, rest, hs, hrest', heq⟩ := List.forall₂_cons_right_iff.mp (hrest ▸ hframe.rest)
    have hleft := hs.not_call_iff.mpr hcall
    obtain rfl := hs.eq_of_not_call hleft
    subst hmem
    dsimp only at henv hprim
    rw [henv] at hprim
    exact ⟨_, .statement heq hleft hprim,
      ⟨hframe.fn, hrest', hframe.terminator, rfl, hframe.reached⟩, hcallers, rfl⟩
  | call hrest hcalls hlookup hcallee =>
    obtain ⟨s₀, rest, hs, hrest', heq⟩ := List.forall₂_cons_right_iff.mp (hrest ▸ hframe.rest)
    obtain ⟨target, rfl, ht⟩ := hs.of_call_right
    subst hmem
    dsimp only at henv hcalls
    rw [henv] at hcalls
    obtain ⟨n, hcalls', hplace⟩ := calls_backward hd ht hcalls
    obtain ⟨g, hg, hrel⟩ := lookup_backward hw hr hplace hlookup
    rw [hrel.params, hrel.entryBlock] at hcallee
    obtain ⟨callee, hcallee', hmatch⟩ := frameAt_backward (p := p) hrel .refl hcallee
    exact ⟨_, .call heq hcalls' hg hcallee', hmatch,
      .cons ⟨⟨hframe.fn, hrest', hframe.terminator, henv, hframe.reached⟩, rfl⟩ hcallers, rfl⟩
  | external hrest hcalls hext hprim =>
    obtain ⟨s₀, rest, hs, hrest', heq⟩ := List.forall₂_cons_right_iff.mp (hrest ▸ hframe.rest)
    obtain ⟨target, rfl, ht⟩ := hs.of_call_right
    subst hmem
    dsimp only at henv hcalls
    rw [henv] at hcalls
    obtain ⟨n, hcalls', hplace⟩ := calls_backward hd ht hcalls
    rw [programOf, hr.externals] at hext
    obtain ⟨rfl, hext'⟩ := (mem_externals_iff hw hplace).mp hext
    refine ⟨_, .external heq hcalls' hext' hprim, ⟨hframe.fn, hrest', hframe.terminator, ?_,
      hframe.reached⟩, hcallers, rfl⟩
    rw [henv]
  | jump hrest hnext hfr =>
    have hnil : fr.rest = [] := List.forall₂_nil_right_iff.mp (hrest ▸ hframe.rest)
    subst hmem
    dsimp only at henv
    have hterm := hframe.terminator
    dsimp only at hterm
    rw [henv, hterm] at hnext
    rw [henv] at hfr
    obtain ⟨fr₁, hfr₁, hmatch⟩ := frameAt_backward (p := p) hframe.fn
      (hframe.reached _ _ hnext) hfr
    exact ⟨_, .jump hnil hnext hfr₁, hmatch, hcallers, rfl⟩
  | ret hrest hret =>
    have hnil : fr.rest = [] := List.forall₂_nil_right_iff.mp (hrest ▸ hframe.rest)
    have hterm := hframe.terminator
    obtain ⟨⟨caller, dst⟩, rest, ⟨hcaller, hdst⟩, hcallers', heq⟩ :=
      List.forall₂_cons_right_iff.mp hcallers
    dsimp only at henv hterm heq hcaller hdst
    subst hmem heq hdst
    refine ⟨_, .ret hnil (hterm.symm.trans hret), ⟨hcaller.fn, hcaller.rest, hcaller.terminator, ?_,
      hcaller.reached⟩, hcallers', rfl⟩
    dsimp only
    rw [henv, hcaller.env]

/-- Every step of the module is one of the output, except where a function was dropped. -/
theorem step_forward (hm : StateMatches p (Places prog) s s')
    (h : Step p (source prog) s t) :
    (∃ t', Step p (programOf out dispatch) s' t' ∧ StateMatches p (Places prog) t t') ∨
      Missing p (programOf out dispatch) s' := by
  obtain ⟨fr', callers', mem'⟩ := s'
  obtain ⟨hframe, hcallers, hmem⟩ := hm
  have henv := hframe.env
  cases h with
  | statement hrest hcall hprim =>
    obtain ⟨s₀', rest', hs, hrest', heq⟩ := List.forall₂_cons_left_iff.mp (hrest ▸ hframe.rest)
    have hright := hs.not_call_iff.mp hcall
    obtain rfl := hs.eq_of_not_call hcall
    dsimp only at henv hmem heq
    subst hmem
    rw [← henv] at hprim
    exact Or.inl ⟨_, .statement heq hright hprim,
      ⟨hframe.fn, hrest', hframe.terminator, rfl, hframe.reached⟩, hcallers, rfl⟩
  | @call _ callee id dst target args ty rest _ _ n vs g hrest hcalls hlookup hcallee =>
    obtain ⟨s₀', rest', hs, hrest', heq⟩ := List.forall₂_cons_left_iff.mp (hrest ▸ hframe.rest)
    obtain ⟨target', rfl, ht⟩ := hs.of_call_left
    dsimp only at henv hmem heq hcalls
    subst hmem
    rw [← henv] at hcalls
    by_cases hfound : ∃ m vs', Calls p (programOf out dispatch) fr'.env mem' target'
        (args.map (p.eval fr'.env)) m vs' ∧ ((programOf out dispatch).lookup m).isSome
    · obtain ⟨m, vs', hcalls', hm⟩ := hfound
      obtain ⟨f', hf'⟩ := Option.isSome_iff_exists.mp hm
      obtain ⟨rfl, hplace⟩ := calls_unique hd ht hcalls hcalls'
      have hrel := lookup_forward hw hr hplace hlookup hf'
      obtain ⟨callee', hcallee', hmatch⟩ := frameAt_forward (p := p) hrel .refl hcallee
      rw [← hrel.params, ← hrel.entryBlock] at hcallee'
      exact Or.inl ⟨_, .call heq hcalls' hf' hcallee', hmatch,
        .cons ⟨⟨hframe.fn, hrest', hframe.terminator, henv, hframe.reached⟩, rfl⟩ hcallers, rfl⟩
    · refine Or.inr ⟨id, dst, target', args, ty, rest', heq, fun m vs' hcalls' => ⟨?_, ?_⟩⟩
      · by_contra hne
        exact hfound ⟨m, vs', hcalls', Option.isSome_iff_ne_none.mpr hne⟩
      · intro hext
        obtain ⟨-, hplace⟩ := calls_unique hd ht hcalls hcalls'
        rw [programOf, hr.externals] at hext
        obtain ⟨g₀, hg₀, rfl, -⟩ := mem_of_lookup hlookup
        exact hw.not_specialises hg₀ ((mem_externals_iff hw hplace).mp hext).2 (Or.inl rfl)
  | @external _ id dst target args ty rest _ _ _ n vs v hrest hcalls hext hprim =>
    obtain ⟨s₀', rest', hs, hrest', heq⟩ := List.forall₂_cons_left_iff.mp (hrest ▸ hframe.rest)
    obtain ⟨target', rfl, ht⟩ := hs.of_call_left
    dsimp only at henv hmem heq hcalls
    subst hmem
    rw [← henv] at hcalls
    by_cases hfound : ∃ m vs', Calls p (programOf out dispatch) fr'.env mem' target'
        (args.map (p.eval fr'.env)) m vs'
    · obtain ⟨m, vs', hcalls'⟩ := hfound
      obtain ⟨rfl, hplace⟩ := calls_unique hd ht hcalls hcalls'
      obtain rfl := eq_of_external hw hplace hext
      have hext' : m ∈ (programOf out dispatch).externals := by
        rw [programOf, hr.externals]
        exact hext
      refine Or.inl ⟨_, .external heq hcalls' hext' hprim, ⟨hframe.fn, hrest', hframe.terminator,
        ?_, hframe.reached⟩, hcallers, rfl⟩
      rw [henv]
    · exact Or.inr ⟨id, dst, target', args, ty, rest', heq,
        fun m vs' hcalls' => (hfound ⟨m, vs', hcalls'⟩).elim⟩
  | jump hrest hnext hfr =>
    have hnil : fr'.rest = [] := List.forall₂_nil_left_iff.mp (hrest ▸ hframe.rest)
    have hterm := hframe.terminator
    dsimp only at henv hmem hterm
    subst hmem
    obtain ⟨fr₁, hfr₁, hmatch⟩ := frameAt_forward (p := p) hframe.fn
      (hframe.reached _ _ hnext) hfr
    rw [← henv, ← hterm] at hnext
    rw [← henv] at hfr₁
    exact Or.inl ⟨_, .jump hnil hnext hfr₁, hmatch, hcallers, rfl⟩
  | ret hrest hret =>
    have hnil : fr'.rest = [] := List.forall₂_nil_left_iff.mp (hrest ▸ hframe.rest)
    have hterm := hframe.terminator
    obtain ⟨⟨caller, dst⟩, rest, ⟨hcaller, hdst⟩, hcallers', heq⟩ :=
      List.forall₂_cons_left_iff.mp hcallers
    dsimp only at henv hmem hterm heq hcaller hdst
    subst hmem heq hdst
    refine Or.inl ⟨_, .ret hnil (hterm.trans hret), ⟨hcaller.fn, hcaller.rest, hcaller.terminator,
      ?_, hcaller.reached⟩, hcallers', rfl⟩
    dsimp only
    rw [henv, hcaller.env]

omit hd in
/-- A call from outside. -/
theorem start_matches {args : List V} {mem : M} (hC : Places prog n m)
    (h : start p (programOf out dispatch) m args mem = some s') :
    ∃ s, start p (source prog) n args mem = some s ∧ StateMatches p (Places prog) s s' := by
  obtain ⟨f', hf', h⟩ := Option.bind_eq_some_iff.mp h
  obtain ⟨fr', hfr', rfl⟩ := Option.map_eq_some_iff.mp h
  obtain ⟨g, hg, hrel⟩ := lookup_backward hw hr hC hf'
  rw [hrel.params, hrel.entryBlock] at hfr'
  obtain ⟨fr, hfr, hmatch⟩ := frameAt_backward (p := p) hrel .refl hfr'
  refine ⟨⟨fr, [], mem⟩, ?_, hmatch, .nil, rfl⟩
  rw [start, hg, Option.bind_some, hfr]
  rfl

theorem run_backward (hm : StateMatches p (Places prog) s s')
    (h : Relation.ReflTransGen (Step p (programOf out dispatch)) s' t') :
    ∃ t, Relation.ReflTransGen (Step p (source prog)) s t ∧
      StateMatches p (Places prog) t t' := by
  induction h with
  | refl => exact ⟨s, .refl, hm⟩
  | tail _ hstep ih =>
    obtain ⟨t, hrun, ht⟩ := ih
    obtain ⟨u, hu, hmu⟩ := step_backward hw hr hd ht hstep
    exact ⟨u, hrun.tail hu, hmu⟩

theorem run_forward (hm : StateMatches p (Places prog) s s')
    (h : Relation.ReflTransGen (Step p (source prog)) s t) :
    ∃ t', Relation.ReflTransGen (Step p (programOf out dispatch)) s' t' ∧
      (StateMatches p (Places prog) t t' ∨ Missing p (programOf out dispatch) t') := by
  induction h with
  | refl => exact ⟨s', .refl, Or.inl hm⟩
  | tail _ hstep ih =>
    obtain ⟨t', hrun, ht | hmissing⟩ := ih
    · rcases step_forward hw hr hd ht hstep with ⟨u', hu', hmu⟩ | hmissing
      · exact ⟨u', hrun.tail hu', Or.inl hmu⟩
      · exact ⟨t', hrun, Or.inr hmissing⟩
    · exact ⟨t', hrun, Or.inr hmissing⟩

end Simulation

/-- A function of the output runs as the function of the module that it stands for: through the same
blocks and calls, in both directions, up to a call of a function that was dropped. -/
theorem monomorphizeProgram_simulates (hw : WellNamed prog)
    (h : monomorphizeProgram fuel specializations prog = some (.ok out))
    (hd : Dispatches prog dispatch) {args : List V} {mem : M} {s' : State V M}
    (hC : Places prog n m) (hs' : start p (programOf out dispatch) m args mem = some s') :
    ∃ s, start p (source prog) n args mem = some s ∧
      (∀ t', Relation.ReflTransGen (Step p (programOf out dispatch)) s' t' →
        ∃ t, Relation.ReflTransGen (Step p (source prog)) s t ∧
          StateMatches p (Places prog) t t') ∧
      ∀ t, Relation.ReflTransGen (Step p (source prog)) s t →
        ∃ t', Relation.ReflTransGen (Step p (programOf out dispatch)) s' t' ∧
          (StateMatches p (Places prog) t t' ∨ Missing p (programOf out dispatch) t') := by
  have hr := replaces_of_monomorphizeProgram hw h
  obtain ⟨s, hs, hm⟩ := start_matches hw hr hC hs'
  exact ⟨s, hs, fun t' => run_backward hw hr hd hm, fun t => run_forward hw hr hd hm⟩

section Identity

/-- Numbers as the values, and no memory. -/
def numbers : Primitives Nat Unit where
  unset := 0
  constant _ := 0
  truth v := v != 0
  number v := v
  statement _ env mem env' mem' := env' = env ∧ mem' = mem
  code _ _ _ := none
  external _ _ _ _ _ := False

theorem monomorphizeProgram_simulates_identity :
    ∃ s' s, start numbers (programOf specialisedProgram (Places genericProgram)) "main" [5] () =
        some s' ∧
      start numbers (source genericProgram) "main" [5] () = some s ∧
      ∀ t', Relation.ReflTransGen
          (Step numbers (programOf specialisedProgram (Places genericProgram))) s' t' →
        ∃ t, Relation.ReflTransGen (Step numbers (source genericProgram)) s t ∧
          StateMatches numbers (Places genericProgram) t t' := by
  obtain ⟨s', hs'⟩ : ∃ s', start numbers (programOf specialisedProgram (Places genericProgram))
      "main" [5] () = some s' := ⟨_, by with_unfolding_all rfl⟩
  obtain ⟨s, hs, hback, -⟩ := monomorphizeProgram_simulates genericProgram_wellNamed
    genericProgram_specialised (fun _ _ h => h)
    (Or.inl ⟨by decide, Or.inl rfl, trivial⟩) hs'
  exact ⟨s', s, hs', hs, hback⟩

end Identity

end Syli.Compiler.Mono
