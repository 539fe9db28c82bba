import Syli.Compiler.ConcreteTypes

/-! The substitution that a call gives: the clone has the types of the call. -/
namespace Syli.Compiler.Mono

open Foundation

variable {θ σ σ' : Subst}

/-- The bindings are those of `θ`, at concrete types. -/
def Agrees (θ σ : Subst) : Prop :=
  ∀ v t, σ.findOpt v = some t → applySubstTy θ (.genericTyp v) = t ∧ hasGenericTy t = false

def Grows (σ σ' : Subst) : Prop := ∀ v, (σ.findOpt v).isSome → (σ'.findOpt v).isSome

/-- The collected bindings are enough for `fixed`, whatever is collected after them. -/
def Collects (θ σ : Subst) (result : Result Subst) (fixed : Subst → Prop) : Prop :=
  ∃ σ', result = .ok σ' ∧ Agrees θ σ' ∧ Grows σ σ' ∧
    ∀ τ, Agrees θ τ → Grows σ' τ → fixed τ

theorem Collects.stop {fixed : Subst → Prop} (ha : Agrees θ σ) (h : ∀ τ, fixed τ) :
    Collects θ σ (.ok σ) fixed :=
  ⟨σ, rfl, ha, fun _ hv => hv, fun τ _ _ => h τ⟩

theorem Collects.bind {r : Result Subst} {f : Subst → Result Subst} {P Q : Subst → Prop}
    (h : Collects θ σ r P) (hf : ∀ σ', Agrees θ σ' → Collects θ σ' (f σ') Q) :
    Collects θ σ (r >>= f) fun τ => P τ ∧ Q τ := by
  obtain ⟨σ₁, rfl, ha₁, hg₁, hP⟩ := h
  obtain ⟨σ₂, h₂, ha₂, hg₂, hQ⟩ := hf σ₁ ha₁
  exact ⟨σ₂, h₂, ha₂, fun v hv => hg₂ v (hg₁ v hv),
    fun τ hτ hg => ⟨hP τ hτ fun v hv => hg v (hg₂ v hv), hQ τ hτ hg⟩⟩

theorem Collects.imp {r : Result Subst} {P Q : Subst → Prop} (h : Collects θ σ r P)
    (hPQ : ∀ τ, P τ → Q τ) : Collects θ σ r Q := by
  obtain ⟨σ', hr, ha, hg, hP⟩ := h
  exact ⟨σ', hr, ha, hg, fun τ hτ hgτ => hPQ τ (hP τ hτ hgτ)⟩

/-- A type variable is bound to its instance. -/
theorem collects_genericTyp {v : Nat} (ha : Agrees θ σ)
    (hc : hasGenericTy (applySubstTy θ (.genericTyp v)) = false) :
    Collects θ σ (.ok (σ.add v (applySubstTy θ (.genericTyp v))))
      fun τ => applySubstTy τ (.genericTyp v) = applySubstTy θ (.genericTyp v) := by
  refine ⟨_, rfl, ?_, ?_, ?_⟩
  · intro w t ht
    by_cases hw : w = v
    · subst hw
      obtain rfl := Option.some.inj (AssocMap.findOpt_add_self.symm.trans ht)
      exact ⟨rfl, hc⟩
    · exact ha w t ((AssocMap.findOpt_add_of_ne hw).symm.trans ht)
  · intro w hw
    by_cases hwv : w = v
    · subst hwv
      simp
    · rwa [AssocMap.findOpt_add_of_ne hwv]
  · intro τ hτ hg
    obtain ⟨t, ht⟩ := Option.isSome_iff_exists.mp (hg v (by simp))
    rw [(hτ v t ht).1, applySubstTy, ht]
    rfl

mutual

theorem collectSubst_instance (σ : Subst) (x : Ty) (ha : Agrees θ σ)
    (hc : hasGenericTy (applySubstTy θ x) = false) :
    Collects θ σ (collectSubst σ x (applySubstTy θ x))
      fun τ => applySubstTy τ x = applySubstTy θ x := by
  match x with
  | .genericTyp v =>
    unfold collectSubst
    exact collects_genericTyp ha hc
  | .arrow args ret =>
    simp only [applySubstTy, hasGenericTy, Bool.or_eq_false_iff] at hc
    simp only [applySubstTy, collectSubst]
    refine ((collectSubsts_instance σ args ha hc.1).bind fun σ' ha' =>
      collectSubst_instance σ' ret ha' hc.2).imp fun τ h => ?_
    rw [h.1, h.2]
  | .obj named kind prop =>
    simp only [applySubstTy, hasGenericTy] at hc
    simp only [applySubstTy, collectSubst]
    exact (collectSubstObjKind_instance σ kind ha hc).imp fun τ h => by rw [h]
  | .objPtr | .bool | .i64 | .i32 | .i16 | .i8 | .u64 | .u32 | .u16 | .u8 | .f32 | .f64 | .fnPtr
  | .char | .string | .void =>
    simp only [applySubstTy, collectSubst]
    exact .stop ha fun τ => trivial

theorem collectSubsts_instance (σ : Subst) (xs : List Ty) (ha : Agrees θ σ)
    (hc : hasGenericTys (applySubstTys θ xs) = false) :
    Collects θ σ (collectSubsts σ xs (applySubstTys θ xs))
      fun τ => applySubstTys τ xs = applySubstTys θ xs := by
  match xs with
  | [] =>
    simp only [applySubstTys, collectSubsts]
    exact .stop ha fun τ => trivial
  | x :: xs =>
    simp only [applySubstTys, hasGenericTys, Bool.or_eq_false_iff] at hc
    simp only [applySubstTys, collectSubsts]
    refine ((collectSubst_instance σ x ha hc.1).bind fun σ' ha' =>
      collectSubsts_instance σ' xs ha' hc.2).imp fun τ h => ?_
    rw [h.1, h.2]

theorem collectSubstObjKind_instance (σ : Subst) (x : ObjKind) (ha : Agrees θ σ)
    (hc : hasGenericObjKind (substObjKind θ x) = false) :
    Collects θ σ (collectSubstObjKind σ x (substObjKind θ x))
      fun τ => substObjKind τ x = substObjKind θ x := by
  match x with
  | .record fields =>
    simp only [substObjKind, hasGenericObjKind] at hc
    simp only [substObjKind, collectSubstObjKind]
    exact (collectSubstFields_instance σ fields ha hc).imp fun τ h => by rw [h]
  | .array ty =>
    simp only [substObjKind, hasGenericObjKind] at hc
    simp only [substObjKind, collectSubstObjKind]
    exact (collectSubst_instance σ ty ha hc).imp fun τ h => by rw [h]
  | .variant constructors =>
    simp only [substObjKind, hasGenericObjKind] at hc
    simp only [substObjKind, collectSubstObjKind]
    exact (collectSubstConstructors_instance σ constructors ha hc).imp fun τ h => by rw [h]

theorem collectSubstFields_instance (σ : Subst) (xs : List RecordFieldTy) (ha : Agrees θ σ)
    (hc : hasGenericFields (substFields θ xs) = false) :
    Collects θ σ (collectSubstFields σ xs (substFields θ xs))
      fun τ => substFields τ xs = substFields θ xs := by
  match xs with
  | [] =>
    simp only [substFields, collectSubstFields]
    exact .stop ha fun τ => trivial
  | .mk idx ty fieldMut :: xs =>
    simp only [substFields, hasGenericFields, Bool.or_eq_false_iff] at hc
    simp only [substFields, collectSubstFields]
    refine ((collectSubst_instance σ ty ha hc.1).bind fun σ' ha' =>
      collectSubstFields_instance σ' xs ha' hc.2).imp fun τ h => ?_
    rw [h.1, h.2]

theorem collectSubstConstructors_instance (σ : Subst) (xs : List VariantCtorLayout) (ha : Agrees θ σ)
    (hc : hasGenericConstructors (substConstructors θ xs) = false) :
    Collects θ σ (collectSubstConstructors σ xs (substConstructors θ xs))
      fun τ => substConstructors τ xs = substConstructors θ xs := by
  match xs with
  | [] =>
    simp only [substConstructors, collectSubstConstructors]
    exact .stop ha fun τ => trivial
  | .mk tag fields :: xs =>
    simp only [substConstructors, hasGenericConstructors, Bool.or_eq_false_iff] at hc
    simp only [substConstructors, collectSubstConstructors]
    refine ((collectSubstFields_instance σ fields ha hc.1).bind fun σ' ha' =>
      collectSubstConstructors_instance σ' xs ha' hc.2).imp fun τ h => ?_
    rw [h.1, h.2]

end

/-- The types of a concrete instance determine the substitution as far as the types need it. -/
theorem createSubst_instance {xs : List Ty} (hc : hasGenericTys (applySubstTys θ xs) = false) :
    ∃ σ, createSubst xs (applySubstTys θ xs) = .ok σ ∧
      applySubstTys σ xs = applySubstTys θ xs := by
  obtain ⟨σ, hσ, ha, -, hfixed⟩ :=
    collectSubsts_instance (θ := θ) [] xs (fun v t ht => by simp at ht) hc
  have hfilter : ∀ v, (σ.filterValues fun _ v => if !hasGenericTy v then some v else none).findOpt v
      = σ.findOpt v := by
    intro v
    rw [AssocMap.findOpt_filterValues]
    cases ht : σ.findOpt v with
    | none => rfl
    | some t => simp [(ha v t ht).2]
  refine ⟨_, by rw [createSubst, hσ]; rfl, hfixed _ ?_ ?_⟩
  · intro v t ht
    exact ha v t ((hfilter v).symm.trans ht)
  · intro v hv
    rw [hfilter v]
    exact hv

theorem genericTys_of_isGenericFunctionName {ctx : Ctx} {fn : String} {callee : Function Ty}
    (hcallee : ctx.functions.findOpt fn = some callee) (h : isGenericFunctionName ctx fn = true) :
    hasGenericTys (callee.returnTy :: callee.params.map Var.ty) = true := by
  rw [isGenericFunctionName, hcallee] at h
  rw [hasGenericTys_eq_any, List.any_cons, List.any_map]
  exact h

/-- The call of a generic function at a concrete instance of its types, under a name that no function
has yet, goes to a new clone: the function at types that make it one of the types of the call. -/
theorem specializeDirectCall_instance {ctx : Ctx} {dst : Var Ty} {fn newName : String}
    {args : List (Operand Ty)} {callee : Function Ty}
    (hcallee : ctx.functions.findOpt fn = some callee)
    (hgeneric : isGenericFunctionName ctx fn = true)
    (hffi : ctx.ffiExterns.findOpt fn = none)
    (hentry : callee.blocks.any (·.id == callee.entryBlock))
    (hinst : dst.ty :: args.map argTyOfOperand =
      applySubstTys θ (callee.returnTy :: callee.params.map Var.ty))
    (hconcrete : hasGenericTys (dst.ty :: args.map argTyOfOperand) = false)
    (hname : specializationName fn (args.map argTyOfOperand) dst.ty = .ok newName)
    (hnew : ctx.functions.findOpt newName = none) :
    ∃ σ, ConcreteSubst σ ∧ specializeDirectCall ctx dst fn args =
        .ok (newFunctionClone ctx (instanceOf σ callee newName), newName) ∧
      (instanceOf σ callee newName).params.map Var.ty = args.map argTyOfOperand ∧
      (instanceOf σ callee newName).returnTy = dst.ty := by
  obtain ⟨σ, hσ, hfixed⟩ := createSubst_instance (hinst ▸ hconcrete)
  rw [← hinst] at hσ hfixed
  have hne : σ.length ≠ 0 := by
    intro hempty
    obtain rfl := List.length_eq_zero_iff.mp hempty
    rw [applySubstTys_nil] at hfixed
    rw [← hfixed, genericTys_of_isGenericFunctionName hcallee hgeneric] at hconcrete
    cases hconcrete
  have hargs : ((args.map argTyOfOperand).any hasGenericTy || hasGenericTy dst.ty) = false := by
    rwa [Bool.or_comm, ← List.any_cons, ← hasGenericTys_eq_any]
  have hclone : cloneFunction σ callee newName = .ok (instanceOf σ callee newName) := by
    have hblocks : (callee.blocks.map (substBlock σ)).any (·.id == callee.entryBlock) = true := by
      rw [List.any_map]
      exact hentry
    unfold cloneFunction
    dsimp only
    rw [if_pos hblocks]
    rfl
  obtain ⟨hret, hparams⟩ := List.cons.inj hfixed
  rw [applySubstTys_eq_map, List.map_map] at hparams
  refine ⟨σ, concreteSubst_createSubst hσ, ?_, ?_, hret⟩
  · unfold specializeDirectCall
    rw [hffi, hcallee]
    simp only [Option.isSome_none, Bool.false_eq_true, if_false, hargs]
    refine bind_eq_ok.mpr ⟨newName, hname, ?_⟩
    rw [hnew]
    refine bind_eq_ok.mpr ⟨σ, hσ, ?_⟩
    rw [if_neg hne]
    exact bind_eq_ok.mpr ⟨_, hclone, rfl⟩
  · rw [← hparams]
    simp [instanceOf, Function.map, Var.map, Function.comp_def]

theorem specializeDirectCall_instance_identity :
    ∃ σ, specializeDirectCall (initialCtx [] genericProgram) (varOf 2 .i64) "id"
        [.var (varOf 1 .i64)] = .ok (newFunctionClone (initialCtx [] genericProgram)
          (instanceOf σ (identityAt "id" (.genericTyp 0)) "id__i64_ret_i64"), "id__i64_ret_i64") ∧
      (instanceOf σ (identityAt "id" (.genericTyp 0)) "id__i64_ret_i64").returnTy = .i64 := by
  have hcallee : (initialCtx [] genericProgram).functions.findOpt "id" =
      some (identityAt "id" (.genericTyp 0)) := by
    with_unfolding_all rfl
  have hname : specializationName "id" ([.var (varOf 1 .i64)].map argTyOfOperand)
      (varOf 2 .i64).ty = .ok "id__i64_ret_i64" := by
    with_unfolding_all rfl
  have hnew : (initialCtx [] genericProgram).functions.findOpt "id__i64_ret_i64" = none := by
    with_unfolding_all rfl
  obtain ⟨σ, -, hcall, -, hret⟩ := specializeDirectCall_instance (θ := [(0, .i64)]) hcallee
    (by with_unfolding_all rfl) (by rfl) (by rfl) (by rfl) (by rfl) hname hnew
  exact ⟨σ, hcall, hret⟩

end Syli.Compiler.Mono
