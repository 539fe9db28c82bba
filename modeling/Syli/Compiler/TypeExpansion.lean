import Syli.Compiler.LoweringEnds

/-! For which types the lowering and the resolution of aliases return. -/
namespace Syli.Compiler

open Foundation Relation TypedHeap

variable {typeDefs : StringMap TyDeclDesc} {k k' key name : String} {args : List CTy}
variable {t t' : CTy} {visited : List String} {n m : Nat} {ir : Cir.IrType}

/-- Every recorded variant was lowered while it was not recorded. -/
inductive Path (typeDefs : StringMap TyDeclDesc) : List String → Prop where
  | nil : Path typeDefs []
  | cons {k : String} {visited : List String} :
      k ∉ visited → Lowers typeDefs visited (keyTy k) → Path typeDefs visited →
        Path typeDefs (k :: visited)

theorem Path.exists_of_mem (h : Path typeDefs visited) (hk : k ∈ visited) :
    ∃ visited', k ∉ visited' ∧ Lowers typeDefs visited' (keyTy k) ∧ Path typeDefs visited' := by
  induction h with
  | nil => cases hk
  | @cons k' visited' hnew hlowers hpath ih =>
    rcases List.mem_cons.mp hk with rfl | hk
    · exact ⟨visited', hnew, hlowers, hpath⟩
    · exact ih hk

theorem Lowers.mentions (h : Lowers typeDefs visited t) (hk : Mentions t k) :
    Lowers typeDefs visited (keyTy k) := by
  obtain ⟨n, hn⟩ := h
  exact ⟨n, hn.mentions hk⟩

theorem Lowers.decl_mentions {decl : TyDeclDesc} (h : Lowers typeDefs visited (keyTy k))
    (hfind : typeDefs.findOpt k = some decl) (ht : t ∈ decl.parts) (hk : Mentions t k')
    (hnew : k ∉ visited) :
    Lowers typeDefs visited (keyTy k') ∨ Lowers typeDefs (k :: visited) (keyTy k') := by
  obtain ⟨v, ts, hts, hall⟩ := lowers_iff.mp h
  by_cases hvariant : IsVariant typeDefs k
  · rw [lowered_keyTy, loweredDecl_of_variant hfind hvariant, if_neg hnew] at hts
    cases hts
    exact Or.inr ((hall t ht).mentions hk)
  · have hconcrete : decl ≠ .abstract := by
      rintro rfl
      simp [TyDeclDesc.parts] at ht
    rw [lowered_keyTy, loweredDecl_of_not_variant hfind hconcrete hvariant] at hts
    cases hts
    exact Or.inl ((hall t ht).mentions hk)

/-- A reference from a declaration that is lowered leads to one that is lowered: where its variant
is recorded already, it is taken from the place where the variant was recorded. -/
theorem exists_lowers_of_refersTo (hpath : Path typeDefs visited)
    (h : Lowers typeDefs visited (keyTy k)) (hr : RefersTo typeDefs k k') :
    ∃ visited', Path typeDefs visited' ∧ Lowers typeDefs visited' (keyTy k') := by
  obtain ⟨decl, hfind, t, ht, hk'⟩ := hr
  obtain ⟨v, hnew, hlowers, hpathv⟩ : ∃ v, k ∉ v ∧ Lowers typeDefs v (keyTy k) ∧
      Path typeDefs v := by
    by_cases hk : k ∈ visited
    · exact hpath.exists_of_mem hk
    · exact ⟨visited, hk, h, hpath⟩
  rcases hlowers.decl_mentions hfind ht hk' hnew with hl | hl
  · exact ⟨v, hpathv, hl⟩
  · exact ⟨k :: v, .cons hnew hlowers hpathv, hl⟩

theorem Lowers.lowerable (h : Lowers typeDefs [] t) : Lowerable typeDefs t := by
  intro k hk
  obtain ⟨visited, -, hlowers⟩ :
      ∃ visited, Path typeDefs visited ∧ Lowers typeDefs visited (keyTy k) := by
    induction hk with
    | root hk => exact ⟨[], .nil, h.mentions hk⟩
    | step _ hr ih =>
      obtain ⟨visited, hpath, hlowers⟩ := ih
      exact exists_lowers_of_refersTo hpath hlowers hr
  exact ⟨hlowers.concrete, hlowers.not_cycle⟩

/-- A smaller type that mentions no more. -/
def PartOf (t' t : CTy) : Prop := sizeOf t' < sizeOf t ∧ ∀ k, Mentions t' k → Mentions t k

theorem PartOf.trans {t'' : CTy} (h : PartOf t'' t') (h' : PartOf t' t) : PartOf t'' t :=
  ⟨h.1.trans h'.1, fun k hk => h'.2 k (h.2 k hk)⟩

theorem partOf_arg (arg ret : CTy) : PartOf arg (.arrow arg ret) :=
  ⟨by simp; omega, fun _ => .arg⟩

theorem partOf_ret (arg ret : CTy) : PartOf ret (.arrow arg ret) :=
  ⟨by simp, fun _ => .ret⟩

theorem partOf_getArgsTy {t t' : CTy} (h : t' ∈ getArgsTy t) : PartOf t' t := by
  cases t with
  | arrow arg ret =>
    rcases List.mem_cons.mp h with rfl | h
    · exact partOf_arg t' ret
    · exact (partOf_getArgsTy h).trans (partOf_ret arg ret)
  | _ => cases h

theorem partOf_getReturnTy (arg ret : CTy) :
    PartOf (getReturnTy (.arrow arg ret)) (.arrow arg ret) := by
  cases ret with
  | arrow arg' ret' => exact (partOf_getReturnTy arg' ret').trans (partOf_ret arg _)
  | _ => exact partOf_ret arg _

/-- What the lowering of a type that is not declared goes on with. -/
theorem exists_lowered_parts (hdef : ∀ name args, t ≠ .defined name args) :
    ∃ ts, lowered typeDefs visited t = some (visited, ts) ∧ ∀ t' ∈ ts, PartOf t' t := by
  cases t with
  | var | constant => exact ⟨[], rfl, by simp⟩
  | arrow arg ret =>
    refine ⟨_, rfl, fun t' ht' => ?_⟩
    rcases List.mem_append.mp ht' with ht' | ht'
    · exact partOf_getArgsTy (List.mem_filter.mp ht').1
    · cases List.mem_singleton.mp ht'
      exact partOf_getReturnTy arg ret
  | tuple tys =>
    refine ⟨tys, rfl, fun t' ht' => ⟨?_, fun _ => .tuple ht'⟩⟩
    have := List.sizeOf_lt_of_mem ht'
    simp
    omega
  | array elem =>
    refine ⟨[elem], rfl, fun t' ht' => ?_⟩
    cases List.mem_singleton.mp ht'
    exact ⟨by simp, fun _ => .array⟩
  | defined name args => exact (hdef name args rfl).elim

/-- A type is lowered where the declared types that it mentions are. -/
theorem lowers_of_mentions {t : CTy} (h : ∀ k, Mentions t k → Lowers typeDefs visited (keyTy k)) :
    Lowers typeDefs visited t := by
  by_cases hdef : ∃ name args, t = .defined name args
  · obtain ⟨name, args, rfl⟩ := hdef
    obtain ⟨n, hn⟩ := h _ .defined
    exact ⟨n, lowersIn_defined.mpr hn⟩
  · obtain ⟨ts, hts, hparts⟩ := @exists_lowered_parts typeDefs t visited
      fun name args heq => hdef ⟨name, args, heq⟩
    refine lowers_iff.mpr ⟨visited, ts, hts, fun t' ht' => ?_⟩
    have hlt := (hparts t' ht').1
    exact lowers_of_mentions fun k hk => h k ((hparts t' ht').2 k hk)
termination_by sizeOf t

theorem acc_of_not_cycle_inlines (h : ∀ k', ReflTransGen (Inlines typeDefs) k k' →
    IsConcrete typeDefs k' ∧ ¬ TransGen (Inlines typeDefs) k' k') :
    Acc (fun x y => Inlines typeDefs y x) k := by
  refine acc_of_not_cycle ?_ fun k' hk' => (h k' hk').2
  refine (List.finite_toSet (typeDefs.map Prod.fst)).subset fun k' hk' => ?_
  obtain ⟨decl, hfind, -⟩ := (h k' hk').1
  exact List.mem_map.mpr ⟨_, AssocMap.mem_of_findOpt hfind, rfl⟩

theorem Lowerable.part {decl : TyDeclDesc} (h : Lowerable typeDefs (keyTy k))
    (hfind : typeDefs.findOpt k = some decl) (ht : t ∈ decl.parts) : Lowerable typeDefs t := by
  intro k' hk'
  have hself : Reach (RefersTo typeDefs) (Mentions (keyTy k)) k := .root .defined
  exact h k' (hk'.transfer (fun k' hk' => .step hself ⟨decl, hfind, t, ht, hk'⟩)
    fun _ _ hk' hr => .step hk' hr)

theorem Lowerable.mentions (h : Lowerable typeDefs t) (hk : Mentions t k) :
    Lowerable typeDefs (keyTy k) := by
  intro k' hk'
  refine h k' (hk'.transfer (fun k' hk' => ?_) fun _ _ hk' hr => .step hk' hr)
  cases hk'
  exact .root hk

/-- The induction is on the variants that are not recorded, then on the references from records and
aliases. -/
theorem lowers_of_lowerable (h : Lowerable typeDefs t) : Lowers typeDefs visited t := by
  induction hcount : (typeDefs.filter (·.1 ∉ visited)).length using Nat.strong_induction_on
    generalizing visited t with
  | _ count ihVisited =>
    refine lowers_of_mentions fun k hk => ?_
    replace h := h.mentions hk
    clear hk
    have hacc : Acc (fun x y => Inlines typeDefs y x) k := by
      refine acc_of_not_cycle_inlines fun k' hk' => h k' ?_
      induction hk' with
      | refl => exact .root .defined
      | tail _ hr ih => exact .step ih hr.2
    induction hacc with
    | intro k _ ih =>
      obtain ⟨⟨decl, hfind, hconcrete⟩, -⟩ := h k (.root .defined)
      by_cases hvariant : IsVariant typeDefs k
      · by_cases hvisited : k ∈ visited
        · refine lowers_iff.mpr ⟨visited, [], ?_, by simp⟩
          rw [lowered_keyTy, loweredDecl_of_variant hfind hvariant, if_pos hvisited]
        · refine lowers_iff.mpr ⟨k :: visited, decl.parts, ?_, fun t ht => ?_⟩
          · rw [lowered_keyTy, loweredDecl_of_variant hfind hvariant, if_neg hvisited]
          · exact ihVisited _ (hcount ▸ unvisited_lt hvisited hfind) (h.part hfind ht) rfl
      · refine lowers_iff.mpr ⟨visited, decl.parts, ?_, fun t ht => ?_⟩
        · rw [lowered_keyTy, loweredDecl_of_not_variant hfind hconcrete hvariant]
        · refine lowers_of_mentions fun k' hk' => ?_
          exact ih k' ⟨hvariant, decl, hfind, t, ht, hk'⟩ ((h.part hfind ht).mentions hk')

theorem lowers_iff_lowerable : Lowers typeDefs [] t ↔ Lowerable typeDefs t :=
  ⟨Lowers.lowerable, lowers_of_lowerable⟩

theorem expansion_of_mkIrTy (h : mkIrTy (lowerTypeDefs typeDefs) n visited t = some ir) :
    Expansion typeDefs visited t ir := by
  induction n generalizing visited t ir with
  | zero => simp [mkIrTy] at h
  | succ n ih =>
    cases t with
    | constant c =>
      cases h
      exact .constant
    | var v =>
      cases h
      exact .var
    | arrow arg ret =>
      simp only [mkIrTy, Option.bind_eq_bind, Option.bind_eq_some_iff, Option.pure_def,
        Option.some.injEq] at h
      obtain ⟨args, hargs, ir, hret, rfl⟩ := h
      obtain ⟨hlength, hzip⟩ := zip_of_mapM hargs
      refine .arrow hlength (fun p hp hunit => ?_) (fun p hp hunit => ?_) (ih hret)
      · simpa [hunit] using (hzip p hp).symm
      · exact ih (by simpa [hunit] using hzip p hp)
    | tuple tys =>
      simp only [mkIrTy, Option.bind_eq_bind, Option.bind_eq_some_iff, Option.pure_def,
        Option.some.injEq] at h
      obtain ⟨fields, hfields, rfl⟩ := h
      obtain ⟨hlength, hzip⟩ := zip_of_mapM hfields
      exact .tuple hlength fun p hp => ih (hzip p hp)
    | array elem =>
      simp only [mkIrTy, Option.bind_eq_bind, Option.bind_eq_some_iff, Option.pure_def,
        Option.some.injEq] at h
      obtain ⟨element, helement, rfl⟩ := h
      exact .array (ih helement)
    | defined name args =>
      simp only [mkIrTy, findOpt_lowerTypeDefs] at h
      cases hfind : typeDefs.findOpt (materializedName name args) with
      | none => simp [hfind] at h
      | some decl =>
        simp only [hfind, Option.map_some, entryOf] at h
        cases decl with
        | record declFields =>
          simp only [Option.bind_eq_bind, Option.bind_eq_some_iff, Option.pure_def,
            Option.some.injEq] at h
          obtain ⟨fields, hfields, rfl⟩ := h
          obtain ⟨hlength, hzip⟩ := zip_of_mapM hfields
          exact .record hfind hlength fun p hp => ih (hzip p hp)
        | «alias» inner => exact .unalias hfind (ih h)
        | variant ctors =>
          simp only at h
          split_ifs at h with hall hvisited
          · cases h
            exact .tag hfind (by simpa using hall)
          · cases h
            exact .cut hfind hvisited
          · simp only [Option.bind_eq_bind, Option.bind_eq_some_iff, Option.pure_def,
              Option.some.injEq] at h
            obtain ⟨constructors, hctors, rfl⟩ := h
            obtain ⟨hlength, hzip⟩ := zip_of_mapM hctors
            have hctor : ∀ p ∈ ctors.zip constructors, p.2.1 = p.1.tag ∧
                (ctorFields p.1.arg).mapM (fun f => mkIrTy (lowerTypeDefs typeDefs) n
                  (materializedName name args :: visited) f.1) = some p.2.2 := by
              intro p hp
              have hp' := hzip p hp
              simp only [Option.bind_eq_some_iff, Option.some.injEq] at hp'
              obtain ⟨fields, hfields, heq⟩ := hp'
              rw [← heq]
              exact ⟨rfl, hfields⟩
            refine .variant hfind hvisited hlength (fun p hp => ?_) fun p hp q hq => ?_
            · exact ⟨(hctor p hp).1, (zip_of_mapM (hctor p hp).2).1⟩
            · exact ih ((zip_of_mapM (hctor p hp).2).2 q hq)
        | abstract => simp at h

section Aliases

theorem resolveAlias_step (h : AliasStep typeDefs t t') :
    resolveAlias (lowerTypeDefs typeDefs) (n + 1) t =
      resolveAlias (lowerTypeDefs typeDefs) n t' := by
  obtain ⟨name, args, rfl, hfind⟩ := h
  simp [resolveAlias, findOpt_lowerTypeDefs, hfind, entryOf]

theorem resolveAlias_stop (h : ¬ ∃ t', AliasStep typeDefs t t') :
    resolveAlias (lowerTypeDefs typeDefs) (n + 1) t = some t := by
  unfold resolveAlias
  split
  · split
    · rename_i hfind
      rw [findOpt_lowerTypeDefs] at hfind
      obtain ⟨decl, hdecl, hentry⟩ := Option.map_eq_some_iff.mp hfind
      cases hentry
      exact (h ⟨_, _, _, rfl, hdecl⟩).elim
    · rfl
  · rfl

theorem acc_of_resolveAlias {u : CTy}
    (h : resolveAlias (lowerTypeDefs typeDefs) n t = some u) :
    Acc (fun x y => AliasStep typeDefs y x) t := by
  induction n generalizing t with
  | zero => simp [resolveAlias] at h
  | succ n ih =>
    refine ⟨t, fun t' ht' => ih ?_⟩
    rw [← resolveAlias_step ht']
    exact h

theorem resolveAlias_of_acc (h : Acc (fun x y => AliasStep typeDefs y x) t) :
    ∃ n u, resolveAlias (lowerTypeDefs typeDefs) n t = some u := by
  induction h with
  | intro t _ ih =>
    by_cases hstep : ∃ t', AliasStep typeDefs t t'
    · obtain ⟨t', ht'⟩ := hstep
      obtain ⟨n, u, hu⟩ := ih t' ht'
      exact ⟨n + 1, u, (resolveAlias_step ht').trans hu⟩
    · exact ⟨1, t, resolveAlias_stop hstep⟩

theorem acc_of_resolvable (h : Resolvable typeDefs t) :
    Acc (fun x y => AliasStep typeDefs y x) t := by
  refine acc_of_not_cycle ?_ h
  have hfin : {t' : CTy | ∃ k, (k, TyDeclDesc.alias t') ∈ typeDefs}.Finite := by
    refine ((List.finite_toSet typeDefs).image fun e => e.2.parts.headD t).subset ?_
    rintro t' ⟨k, hk⟩
    exact ⟨_, hk, rfl⟩
  refine (hfin.insert t).subset fun t' ht' => ?_
  rcases ht'.cases_tail with heq | ⟨_, -, name, args, -, hfind⟩
  · exact Or.inl heq
  · exact Or.inr ⟨name, AssocMap.mem_of_findOpt hfind⟩

theorem resolves_iff :
    (∃ n u, resolveAlias (lowerTypeDefs typeDefs) n t = some u) ↔ Resolvable typeDefs t := by
  constructor
  · rintro ⟨n, u, hu⟩ t' ht'
    refine not_cycle_of_acc ?_
    induction ht' with
    | refl => exact acc_of_resolveAlias hu
    | tail _ hstep ih => exact ih.inv hstep
  · intro h
    exact resolveAlias_of_acc (acc_of_resolvable h)

end Aliases

/-- The lowering of a type returns its expansion, and its aliases are resolved, exactly where every
cycle of references passes through a variant and the aliases do not come back. -/
theorem type_lowering_ends_iff (typeDefs : StringMap TyDeclDesc) (t : CTy) :
    ((∃ n ir, mkIrTy (lowerTypeDefs typeDefs) n [] t = some ir ∧ Expansion typeDefs [] t ir) ∧
      ∃ n u, resolveAlias (lowerTypeDefs typeDefs) n t = some u) ↔
    Lowerable typeDefs t ∧ Resolvable typeDefs t := by
  have hexpand : (∃ n ir, mkIrTy (lowerTypeDefs typeDefs) n [] t = some ir ∧
      Expansion typeDefs [] t ir) ↔ Lowers typeDefs [] t := by
    constructor
    · rintro ⟨n, ir, hir, -⟩
      exact ⟨n, by simp [LowersIn, hir]⟩
    · rintro ⟨n, hn⟩
      obtain ⟨ir, hir⟩ := Option.isSome_iff_exists.mp hn
      exact ⟨n, ir, hir, expansion_of_mkIrTy hir⟩
  rw [hexpand, lowers_iff_lowerable, resolves_iff]

/-- A record whose field is an array of the record. -/
def ringDefs : StringMap TyDeclDesc :=
  [("ring", .record [⟨.array (.defined "ring" []), .mutable⟩])]

/-- Two aliases for each other. -/
def twinDefs : StringMap TyDeclDesc :=
  [("left", .alias (.defined "right" [])), ("right", .alias (.defined "left" []))]

theorem type_lowering_runs_on :
    (¬ ∃ n ir, mkIrTy (lowerTypeDefs ringDefs) n [] (.defined "ring" []) = some ir) ∧
      ¬ ∃ n u, resolveAlias (lowerTypeDefs twinDefs) n (.defined "left" []) = some u := by
  constructor
  · rintro ⟨n, ir, hir⟩
    have hlowers : Lowers ringDefs [] (keyTy "ring") := ⟨n, by simp [LowersIn, keyTy, hir]⟩
    refine hlowers.not_cycle (.single ⟨?_, ?_⟩)
    · rintro ⟨ctors, hctors⟩
      simp [ringDefs, AssocMap.findOpt] at hctors
    · exact ⟨_, rfl, .array (.defined "ring" []), by simp [TyDeclDesc.parts], .array .defined⟩
  · intro h
    have hleft : AliasStep twinDefs (.defined "left" []) (.defined "right" []) :=
      ⟨"left", [], rfl, rfl⟩
    have hright : AliasStep twinDefs (.defined "right" []) (.defined "left" []) :=
      ⟨"right", [], rfl, rfl⟩
    exact resolves_iff.mp h _ .refl ((TransGen.single hleft).tail hright)

end Syli.Compiler
