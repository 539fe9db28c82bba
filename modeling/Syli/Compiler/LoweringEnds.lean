import Syli.Compiler.TypeReferences
import Syli.Foundation.OptionLists

/-! The lowering of a type returns where every cycle of references passes through a variant, and
nowhere else. -/
namespace Syli.Compiler

open Foundation Relation TypedHeap

variable {typeDefs : StringMap TyDeclDesc} {k k' key name : String} {args : List CTy}
variable {t t' arg ret : CTy} {visited : List String} {n m : Nat}

/-- The lowering returns within the fuel. -/
def LowersIn (typeDefs : StringMap TyDeclDesc) (n : Nat) (visited : List String) (t : CTy) : Prop :=
  (mkIrTy (lowerTypeDefs typeDefs) n visited t).isSome

def Lowers (typeDefs : StringMap TyDeclDesc) (visited : List String) (t : CTy) : Prop :=
  ∃ n, LowersIn typeDefs n visited t

/-- A declared type that is a variant is recorded before its parts are lowered. -/
def loweredDecl (typeDefs : StringMap TyDeclDesc) (visited : List String) (key : String) :
    Option (List String × List CTy) :=
  match typeDefs.findOpt key with
  | some (.variant ctors) =>
    if key ∈ visited then some (visited, [])
    else some (key :: visited, (TyDeclDesc.variant ctors).parts)
  | some (.record fields) => some (visited, (TyDeclDesc.record fields).parts)
  | some (.alias t) => some (visited, [t])
  | _ => none

/-- The types that the lowering of a type goes on with, and the variants it has recorded then. -/
def lowered (typeDefs : StringMap TyDeclDesc) (visited : List String) :
    CTy → Option (List String × List CTy)
  | .constant _ | .var _ => some (visited, [])
  | .arrow arg ret =>
    some (visited, (getArgsTy (.arrow arg ret)).filter (!isUnitCty ·) ++
      [getReturnTy (.arrow arg ret)])
  | .tuple tys => some (visited, tys)
  | .array elem => some (visited, [elem])
  | .defined name args => loweredDecl typeDefs visited (materializedName name args)

theorem lowersIn_zero : ¬ LowersIn typeDefs 0 visited t := by
  simp [LowersIn, mkIrTy]

theorem lowersIn_variant {ctors : List ConstructorDecl}
    (hfind : typeDefs.findOpt (materializedName name args) = some (.variant ctors)) :
    LowersIn typeDefs (n + 1) visited (.defined name args) ↔
      (materializedName name args ∈ visited ∨ ∀ t ∈ (TyDeclDesc.variant ctors).parts,
        LowersIn typeDefs n (materializedName name args :: visited) t) := by
  simp only [LowersIn, mkIrTy, findOpt_lowerTypeDefs, hfind, Option.map_some, entryOf]
  split_ifs with hall hvisited
  · have hparts : (TyDeclDesc.variant ctors).parts = [] := by
      simp only [TyDeclDesc.parts, List.flatMap_eq_nil_iff]
      intro c hc
      have harg : c.arg = none := by simpa using List.all_eq_true.mp hall c hc
      rw [harg]
      rfl
    simp [hparts]
  · simp [hvisited]
  · simp only [Option.bind_eq_bind, Option.pure_def, isSome_bind_some, isSome_mapM]
    constructor
    · intro h
      refine Or.inr fun t ht => ?_
      obtain ⟨c, hc, hmem⟩ := List.mem_flatMap.mp ht
      obtain ⟨f, hf, rfl⟩ := List.mem_map.mp hmem
      exact h c hc f hf
    · intro h c hc f hf
      exact h.resolve_left hvisited f.1
        (List.mem_flatMap.mpr ⟨c, hc, List.mem_map.mpr ⟨f, hf, rfl⟩⟩)

theorem lowersIn_succ : LowersIn typeDefs (n + 1) visited t ↔
    ∃ v ts, lowered typeDefs visited t = some (v, ts) ∧ ∀ t' ∈ ts, LowersIn typeDefs n v t' := by
  cases t with
  | constant | var => simp [LowersIn, mkIrTy, lowered]
  | arrow arg ret =>
    have hargs : ∀ o : Option (List Cir.IrType), ∀ o' : Option Cir.IrType,
        (o.bind fun args => o'.bind fun ret => some (Cir.IrType.arrow args ret)).isSome ↔
          o.isSome ∧ o'.isSome := by
      intro o o'
      cases o <;> cases o' <;> simp
    simp only [LowersIn, mkIrTy, lowered, Option.bind_eq_bind, Option.pure_def, hargs, isSome_mapM]
    constructor
    · rintro ⟨hparams, hret⟩
      refine ⟨_, _, rfl, fun t' ht' => ?_⟩
      rcases List.mem_append.mp ht' with ht' | ht'
      · obtain ⟨hmem, hunit⟩ := List.mem_filter.mp ht'
        simpa [by simpa using hunit] using hparams t' hmem
      · cases List.mem_singleton.mp ht'
        exact hret
    · rintro ⟨_, _, ⟨rfl, rfl⟩, hall⟩
      refine ⟨fun t' ht' => ?_, hall _ (by simp)⟩
      by_cases hunit : isUnitCty t' = true
      · simp [hunit]
      · simpa [hunit] using hall t' (by simp [ht', hunit])
  | tuple tys =>
    simp [LowersIn, mkIrTy, lowered, isSome_mapM, isSome_bind_some]
  | array elem =>
    simp [LowersIn, mkIrTy, lowered, isSome_bind_some]
  | defined name args =>
    simp only [lowered, loweredDecl]
    cases hfind : typeDefs.findOpt (materializedName name args) with
    | none => simp [LowersIn, mkIrTy, findOpt_lowerTypeDefs, hfind]
    | some decl =>
      cases decl with
      | variant ctors =>
        rw [lowersIn_variant hfind]
        by_cases hvisited : materializedName name args ∈ visited <;> simp [hvisited]
      | record fields =>
        simp [LowersIn, mkIrTy, findOpt_lowerTypeDefs, hfind, entryOf, TyDeclDesc.parts,
          isSome_mapM, isSome_bind_some]
      | «alias» inner =>
        simp [LowersIn, mkIrTy, findOpt_lowerTypeDefs, hfind, entryOf]
      | abstract => simp [LowersIn, mkIrTy, findOpt_lowerTypeDefs, hfind, entryOf]

theorem LowersIn.mono (h : LowersIn typeDefs n visited t) (hle : n ≤ m) :
    LowersIn typeDefs m visited t := by
  induction n generalizing m visited t with
  | zero => exact (lowersIn_zero h).elim
  | succ n ih =>
    obtain ⟨m, rfl⟩ := Nat.exists_eq_add_one_of_ne_zero (by omega : m ≠ 0)
    obtain ⟨v, ts, hts, hall⟩ := lowersIn_succ.mp h
    exact lowersIn_succ.mpr ⟨v, ts, hts, fun t' ht' => ih (hall t' ht') (by omega)⟩

/-- The parts of a type have a fuel in common. -/
theorem exists_fuel {ts : List CTy} (h : ∀ t ∈ ts, Lowers typeDefs visited t) :
    ∃ n, ∀ t ∈ ts, LowersIn typeDefs n visited t := by
  induction ts with
  | nil => exact ⟨0, by simp⟩
  | cons t ts ih =>
    obtain ⟨n, hn⟩ := h t List.mem_cons_self
    obtain ⟨m, hm⟩ := ih fun t' ht' => h t' (List.mem_cons_of_mem t ht')
    refine ⟨max n m, fun t' ht' => ?_⟩
    rcases List.mem_cons.mp ht' with rfl | ht'
    · exact hn.mono (by omega)
    · exact (hm t' ht').mono (by omega)

theorem lowers_iff : Lowers typeDefs visited t ↔
    ∃ v ts, lowered typeDefs visited t = some (v, ts) ∧ ∀ t' ∈ ts, Lowers typeDefs v t' := by
  constructor
  · rintro ⟨n, hn⟩
    cases n with
    | zero => exact (lowersIn_zero hn).elim
    | succ n =>
      obtain ⟨v, ts, hts, hall⟩ := lowersIn_succ.mp hn
      exact ⟨v, ts, hts, fun t' ht' => ⟨n, hall t' ht'⟩⟩
  · rintro ⟨v, ts, hts, hall⟩
    obtain ⟨n, hn⟩ := exists_fuel hall
    exact ⟨n + 1, lowersIn_succ.mpr ⟨v, ts, hts, hn⟩⟩

/-- A declared type by its key alone. -/
def keyTy (k : String) : CTy := .defined k []

@[simp] theorem lowered_keyTy :
    lowered typeDefs visited (keyTy k) = loweredDecl typeDefs visited k := rfl

theorem lowersIn_defined : LowersIn typeDefs n visited (.defined name args) ↔
    LowersIn typeDefs n visited (keyTy (materializedName name args)) := by
  cases n with
  | zero => simp [lowersIn_zero]
  | succ n =>
    rw [lowersIn_succ, lowersIn_succ]
    rfl

theorem exists_mentions_of_arrow (h : Mentions (.arrow arg ret) k) :
    ∃ t, (t ∈ getArgsTy (.arrow arg ret) ∨ t = getReturnTy (.arrow arg ret)) ∧ Mentions t k := by
  generalize hfn : CTy.arrow arg ret = fn at h
  induction h generalizing arg ret with
  | @arg a r _ h _ =>
    obtain ⟨rfl, rfl⟩ := CTy.arrow.inj hfn
    exact ⟨_, Or.inl List.mem_cons_self, h⟩
  | @ret a r _ h ih =>
    obtain ⟨rfl, rfl⟩ := CTy.arrow.inj hfn
    cases ret with
    | arrow =>
      obtain ⟨t, hmem, ht⟩ := ih rfl
      exact ⟨t, hmem.imp_left (List.mem_cons_of_mem _), ht⟩
    | _ => exact ⟨_, Or.inr rfl, h⟩
  | _ => cases hfn

theorem not_mentions_unit (h : isUnitCty t = true) : ¬ Mentions t k := by
  intro hm
  cases hm <;> simp [isUnitCty] at h

/-- What a type mentions is mentioned by one of its parts. -/
theorem exists_mentions_lowered (hdef : ∀ name args, t ≠ .defined name args) (h : Mentions t k) :
    ∃ ts, lowered typeDefs visited t = some (visited, ts) ∧ ∃ t' ∈ ts, Mentions t' k := by
  cases t with
  | var | constant => cases h
  | arrow arg ret =>
    refine ⟨_, rfl, ?_⟩
    obtain ⟨t', hmem, ht'⟩ := exists_mentions_of_arrow h
    refine ⟨t', List.mem_append.mpr ?_, ht'⟩
    rcases hmem with hmem | rfl
    · have hunit : isUnitCty t' = false := by
        by_contra hunit
        exact not_mentions_unit (by simpa using hunit) ht'
      exact Or.inl (List.mem_filter.mpr ⟨hmem, by simp [hunit]⟩)
    · exact Or.inr (by simp)
  | tuple tys =>
    cases h with
    | tuple hmem ht' => exact ⟨_, rfl, _, hmem, ht'⟩
  | array elem =>
    cases h with
    | array ht' => exact ⟨_, rfl, elem, by simp, ht'⟩
  | defined name args => exact (hdef name args rfl).elim

theorem LowersIn.mentions (h : LowersIn typeDefs n visited t) (hk : Mentions t k) :
    LowersIn typeDefs n visited (keyTy k) := by
  induction n generalizing t with
  | zero => exact (lowersIn_zero h).elim
  | succ n ih =>
    by_cases hdef : ∃ name args, t = .defined name args
    · obtain ⟨name, args, rfl⟩ := hdef
      cases hk
      exact lowersIn_defined.mp h
    · obtain ⟨ts, hts, t', hmem, ht'⟩ :=
        exists_mentions_lowered (fun name args heq => hdef ⟨name, args, heq⟩) hk
      obtain ⟨v, ts', hts', hall⟩ := lowersIn_succ.mp h
      cases hts.symm.trans hts'
      exact (ih (hall t' hmem) ht').mono (by omega)

section Parts

variable {decl : TyDeclDesc}

theorem loweredDecl_of_not_variant (hfind : typeDefs.findOpt k = some decl)
    (hconcrete : decl ≠ .abstract) (hno : ¬ IsVariant typeDefs k) :
    loweredDecl typeDefs visited k = some (visited, decl.parts) := by
  unfold loweredDecl
  rw [hfind]
  cases decl with
  | variant ctors => exact (hno ⟨ctors, hfind⟩).elim
  | record | «alias» => rfl
  | abstract => exact (hconcrete rfl).elim

theorem loweredDecl_of_variant (hfind : typeDefs.findOpt k = some decl)
    (hvariant : IsVariant typeDefs k) : loweredDecl typeDefs visited k =
      if k ∈ visited then some (visited, []) else some (k :: visited, decl.parts) := by
  obtain ⟨ctors, hctors⟩ := hvariant
  cases hctors.symm.trans hfind
  unfold loweredDecl
  rw [hfind]

theorem concrete_of_loweredDecl {v : List String} {ts : List CTy}
    (h : loweredDecl typeDefs visited k = some (v, ts)) : IsConcrete typeDefs k := by
  unfold loweredDecl at h
  split at h
  · exact ⟨_, ‹_›, by simp⟩
  · exact ⟨_, ‹_›, by simp⟩
  · exact ⟨_, ‹_›, by simp⟩
  · cases h

end Parts

theorem Lowers.concrete (h : Lowers typeDefs visited (keyTy k)) : IsConcrete typeDefs k := by
  obtain ⟨v, ts, hts, -⟩ := lowers_iff.mp h
  exact concrete_of_loweredDecl hts

/-- The lowering goes through a reference that is not recorded with less fuel. -/
theorem LowersIn.inlines (h : LowersIn typeDefs (n + 1) visited (keyTy k))
    (hr : Inlines typeDefs k k') : LowersIn typeDefs n visited (keyTy k') := by
  obtain ⟨hno, decl, hfind, t, hmem, ht⟩ := hr
  obtain ⟨v, ts, hts, hall⟩ := lowersIn_succ.mp h
  have hconcrete : decl ≠ .abstract := by
    rintro rfl
    simp [TyDeclDesc.parts] at hmem
  rw [lowered_keyTy, loweredDecl_of_not_variant hfind hconcrete hno] at hts
  cases hts
  exact (hall t hmem).mentions ht

theorem Lowers.not_cycle (h : Lowers typeDefs visited (keyTy k)) :
    ¬ TransGen (Inlines typeDefs) k k := by
  obtain ⟨n, hn⟩ := h
  refine not_cycle_of_acc ?_
  induction n generalizing k with
  | zero => exact (lowersIn_zero hn).elim
  | succ n ih => exact ⟨k, fun k' hk' => ih (hn.inlines hk')⟩

end Syli.Compiler
