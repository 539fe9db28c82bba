import Syli.Compiler.HeapInvariant

/-! The cyclicity of the declared types is sound for the collector, except for arrays that are
written and for closures. -/
namespace Syli.Compiler.TypedHeap

open Foundation Relation

variable {typeDefs : StringMap TyDeclDesc} {h : Heap} {kinds : Nat → Option Kind}
variable {kind : Kind} {o : HeapObject} {t elem : CTy} {a b c i fuel : Nat} {n src : TypeNode}
variable {isMutable : Bool} {flag : MutFlag} {prop : CyclicProp}

/-- An edge of the graph whose source is not mutable-cyclic. -/
def QuietEdge (typeDefs : StringMap TyDeclDesc) (u v : TypeNode) : Prop :=
  (buildCtx typeDefs).graph.Edge u v ∧ lookup (analyze typeDefs) u ≠ .mutableCyclicTrackable

/-- A reference held by an object without the cyclic-mutable bit. -/
def QuietPoints (h : Heap) (a b : Nat) : Prop := Points h a b ∧ ¬ Marked h a

/-- The edges through which the graph stands for a value of the kind in a field of `src`. -/
def Stands (typeDefs : StringMap TyDeclDesc) (src : TypeNode) (isMutable : Bool) : Kind → Prop
  | .tuple tys => ∀ t ∈ tys, Covers typeDefs (buildCtx typeDefs) src isMutable t
  | .array elem => (buildCtx typeDefs).HasEdge src isMutable (arrayNode elem) ∧
      Covers typeDefs (buildCtx typeDefs) (arrayNode elem) false elem
  | .record name args | .ctor name args _ =>
    (buildCtx typeDefs).HasEdge src isMutable (.type (materializedName name args))
  | .closure _ => True

theorem covers_stands (hcov : Covers typeDefs (buildCtx typeDefs) src isMutable t)
    (hty : HasTy typeDefs kinds t (.ref a)) :
    ∃ k, kinds a = some k ∧ Stands typeDefs src isMutable k := by
  generalize hr : Val.ref a = v at hty
  induction hty with
  | constant | immediate => cases hr
  | arrow ha =>
    cases hr
    exact ⟨_, ha, trivial⟩
  | tuple ha =>
    cases hr
    cases hcov with
    | tuple hall => exact ⟨_, ha, hall⟩
  | array ha =>
    cases hr
    cases hcov with
    | array hedge hcov => exact ⟨_, ha, hedge, hcov⟩
  | unalias hfind _ ih =>
    cases hcov with
    | unalias hfind' hcov =>
      cases hfind.symm.trans hfind'
      exact ih hcov hr
    | named hno _ => exact (hno _ hfind).elim
  | record hfind ha | ctor hfind _ _ ha =>
    cases hr
    cases hcov with
    | unalias hfind' _ => cases hfind.symm.trans hfind'
    | named _ hedge => exact ⟨_, ha, hedge⟩

/-- The node of a type leads to the node of each of its records and constructors. -/
theorem edge_body (hdecl : kind.Declared typeDefs) (hbody : kind.IsBody)
    (hstands : Stands typeDefs src isMutable kind) :
    ∃ x n, kind.node = some n ∧ (buildCtx typeDefs).HasEdge src isMutable x ∧
      QuietEdge typeDefs x n := by
  have hquiet : ∀ name, lookup (analyze typeDefs) (.type name) ≠ .mutableCyclicTrackable :=
    fun name => lookup_not_body buildCtx_wellFormed id
  cases hdecl with
  | record hfind => exact ⟨_, _, rfl, hstands, edge_record hfind, hquiet _⟩
  | ctor hfind hc _ => exact ⟨_, _, rfl, hstands, edge_ctor hfind hc, hquiet _⟩
  | tuple | array | closure => exact hbody.elim

/-- On a cycle some reference goes to an object that is not older. -/
theorem exists_younger {r : Nat → Nat → Prop} (hloop : TransGen r a a) :
    ∃ x y, r x y ∧ x ≤ y ∧ ReflTransGen r y x := by
  by_contra hno
  have hdown : ∀ b, TransGen r a b → ReflTransGen r b a → b < a := by
    intro b hab hba
    induction hab with
    | single hstep =>
      by_contra hle
      exact hno ⟨_, _, hstep, by omega, hba⟩
    | tail hpre hstep ih =>
      have hlt := ih (hba.head hstep)
      by_contra hle
      exact hno ⟨_, _, hstep, by omega, hba.trans hpre.to_reflTransGen⟩
  exact Nat.lt_irrefl a (hdown a hloop .refl)

/-- A tuple or an array that a value of the type refers to is of what the type unfolds to. -/
theorem kind_of_hasTy {v : Val} (ha : h[a]? = some o) (hty : HasTy typeDefs (kindsOf h) t v)
    (heq : v = .ref a) : o.kind.IsBody ∨ o.kind.IsClosure ∨
      (∃ tys, o.kind = .tuple tys ∧ ReflTransGen (Expands typeDefs) t (.tuple tys)) ∨
        ∃ e, o.kind = .array e ∧ ReflTransGen (Expands typeDefs) t (.array e) := by
  have hof : ∀ {k : Kind}, kindsOf h a = some k → o.kind = k := by
    intro k hk
    simpa [kindsOf, ha] using hk
  induction hty with
  | constant | immediate => cases heq
  | arrow hk =>
    cases heq
    exact Or.inr (Or.inl (by rw [hof hk]; trivial))
  | tuple hk =>
    cases heq
    exact Or.inr (Or.inr (Or.inl ⟨_, hof hk, .refl⟩))
  | array hk =>
    cases heq
    exact Or.inr (Or.inr (Or.inr ⟨_, hof hk, .refl⟩))
  | unalias hfind _ ih =>
    rcases ih heq with hbody | hclos | ⟨tys, htys, hleads⟩ | ⟨e, he, hleads⟩
    · exact Or.inl hbody
    · exact Or.inr (Or.inl hclos)
    · exact Or.inr (Or.inr (Or.inl ⟨tys, htys, .head (.unalias hfind) hleads⟩))
    · exact Or.inr (Or.inr (Or.inr ⟨e, he, .head (.unalias hfind) hleads⟩))
  | record _ hk | ctor _ _ _ hk =>
    cases heq
    exact Or.inl (by rw [hof hk]; trivial)

section Invariant

variable (hinv : Inv typeDefs h)

include hinv

theorem Inv.points (hp : Points h a b) (ho : h[a]? = some o) :
    ∃ i t flag, o.slots[i]? = some (.ref b) ∧ o.kind.slotTy typeDefs i = some (t, flag) ∧
      HasTy typeDefs (kindsOf h) t (.ref b) := by
  obtain ⟨o', ho', hmem⟩ := hp
  cases ho.symm.trans ho'
  obtain ⟨i, hi⟩ := List.mem_iff_getElem?.mp hmem
  obtain ⟨t, flag, hslot, hty⟩ := hinv.typed a o ho i _ hi
  exact ⟨i, t, flag, hi, hslot, hty⟩

theorem Inv.covers_slot (ho : h[a]? = some o) (hbody : o.kind.IsBody)
    (hn : o.kind.node = some n) (hslot : o.kind.slotTy typeDefs i = some (t, flag)) :
    Covers typeDefs (buildCtx typeDefs) n (flag = .mutable) t := by
  obtain ⟨fuel, hprop⟩ := hinv.header a o ho
  have hunfolds := (unfolds_of_headerProp hprop).2 hbody
  have hdecl := hinv.declared a o ho
  generalize o.kind = kind at hdecl hbody hn hslot hunfolds
  cases hdecl with
  | record hfind =>
    cases hn
    simp only [Kind.slotTy, hfind, recordFields] at hslot hunfolds
    obtain ⟨f, hf, heq⟩ := List.mem_map.mp (List.mem_of_getElem? hslot)
    cases heq
    refine covers_record hfind (fun f' hf' => ?_) f hf
    obtain ⟨j, hj⟩ := List.mem_iff_getElem?.mp hf'
    exact hunfolds j f'.fieldTy f'.fieldMut (by simp [hj])
  | ctor hfind hc _ =>
    cases hn
    refine covers_ctor hfind hc (fun f' hf' => ?_) (t, flag) (List.mem_of_getElem? hslot)
    obtain ⟨j, hj⟩ := List.mem_iff_getElem?.mp hf'
    exact hunfolds j f'.1 f'.2 hj
  | tuple | array | closure => exact hbody.elim

theorem Inv.body_quiet (ho : h[a]? = some o) (hbody : o.kind.IsBody) (hn : o.kind.node = some n)
    (hquiet : ¬ Marked h a) : lookup (analyze typeDefs) n ≠ .mutableCyclicTrackable := by
  obtain ⟨fuel, hprop⟩ := hinv.header a o ho
  obtain ⟨n', hn', heq⟩ := body_prop (hinv.declared a o ho) hbody hprop
  cases hn.symm.trans hn'
  intro hmut
  exact hquiet ⟨o, ho, by rw [heq, hmut]; rfl⟩

/-- A path of the heap from a value in a field of `src` is followed by the graph. -/
theorem Inv.path_covered (hpath : ReflTransGen (QuietPoints h) b c) (hc : h[c]? = some o)
    (hn : o.kind.node = some n) (hcov : Covers typeDefs (buildCtx typeDefs) src isMutable t)
    (hty : HasTy typeDefs (kindsOf h) t (.ref b)) (hbare : Bare h (.ref b)) :
    (∃ x, (buildCtx typeDefs).HasEdge src isMutable x ∧ ReflTransGen (QuietEdge typeDefs) x n) ∧
      ∀ elem, o.kind = .array elem →
        Covers typeDefs (buildCtx typeDefs) (arrayNode elem) false elem := by
  induction hpath using ReflTransGen.head_induction_on generalizing src isMutable t with
  | refl =>
    obtain ⟨k, hk, hstands⟩ := covers_stands hcov hty
    simp only [kindsOf, hc, Option.map_some, Option.some.injEq] at hk
    subst hk
    have hdecl := hinv.declared c o hc
    by_cases hbody : o.kind.IsBody
    · obtain ⟨x, n', hn', hedge, hquiet⟩ := edge_body hdecl hbody hstands
      cases hn.symm.trans hn'
      refine ⟨⟨x, hedge, .single hquiet⟩, fun elem helem => ?_⟩
      rw [helem] at hbody
      exact hbody.elim
    · revert hn hstands hbody
      cases o.kind with
      | array elem =>
        intro hn hstands _
        cases hn
        refine ⟨⟨_, hstands.1, .refl⟩, fun elem' helem => ?_⟩
        cases helem
        exact hstands.2
      | tuple | closure => simp [Kind.node]
      | record | ctor => exact fun _ _ hbody => (hbody trivial).elim
  | head hstep hrest ih =>
    rename_i b b'
    obtain ⟨k, hk, hstands⟩ := covers_stands hcov hty
    obtain ⟨hpoints, hquiet⟩ := hstep
    obtain ⟨ob, hob, hmem⟩ := hpoints
    have hpoints : Points h b b' := ⟨ob, hob, hmem⟩
    simp only [kindsOf, hob, Option.map_some, Option.some.injEq] at hk
    subst hk
    obtain ⟨j, t', flag, hj, hslot, hty'⟩ := hinv.points hpoints hob
    have hbare' := hbare.points hpoints
    have hdecl := hinv.declared b ob hob
    by_cases hbody : ob.kind.IsBody
    · obtain ⟨x, n', hn', hedge, hxn⟩ := edge_body hdecl hbody hstands
      obtain ⟨⟨y, hny, hy⟩, hcovered⟩ :=
        ih (hinv.covers_slot hob hbody hn' hslot) hty' hbare'
      have hny' : QuietEdge typeDefs n' y := ⟨hny.edge, hinv.body_quiet hob hbody hn' hquiet⟩
      exact ⟨⟨x, hedge, .head hxn (.head hny' hy)⟩, hcovered⟩
    · have hnot := fun hclos => hbare.not_points hob hclos hpoints
      revert hstands hslot hbody hnot
      cases ob.kind with
      | tuple tys =>
        intro hstands hslot _ _
        simp only [Kind.slotTy, immutableTys, List.getElem?_map, Option.map_eq_some_iff] at hslot
        obtain ⟨t'', ht'', heq⟩ := hslot
        cases heq
        exact ih (hstands _ (List.mem_of_getElem? ht'')) hty' hbare'
      | array elem =>
        intro hstands hslot _ _
        cases hslot
        obtain ⟨⟨y, hny, hy⟩, hcovered⟩ := ih hstands.2 hty' hbare'
        have hquiet' : QuietEdge typeDefs (arrayNode t') y :=
          ⟨hny.edge, lookup_not_body buildCtx_wellFormed id⟩
        exact ⟨⟨_, hstands.1, .head hquiet' hy⟩, hcovered⟩
      | closure => exact fun _ _ _ hnot => (hnot trivial).elim
      | record | ctor => exact fun _ _ hbody => (hbody trivial).elim

/-- A path to an array either unfolds the type, or passes a record or a constructor. -/
theorem Inv.path_unfolds (hpath : ReflTransGen (QuietPoints h) b c) (hc : h[c]? = some o)
    (helem : o.kind = .array elem) (hty : HasTy typeDefs (kindsOf h) t (.ref b))
    (hbare : Bare h (.ref b)) :
    ReflTransGen (Expands typeDefs) t (.array elem) ∨ ∃ (r : Nat) (ro : HeapObject),
      h[r]? = some ro ∧ ro.kind.IsBody ∧ Bare h (.ref r) ∧ ReflTransGen (QuietPoints h) r c := by
  induction hpath using ReflTransGen.head_induction_on generalizing t with
  | refl =>
    rcases kind_of_hasTy hc hty rfl with hbody | hclos | ⟨tys, htys, -⟩ | ⟨e, he, hleads⟩
    · rw [helem] at hbody
      exact hbody.elim
    · rw [helem] at hclos
      exact hclos.elim
    · rw [helem] at htys
      cases htys
    · rw [helem] at he
      cases he
      exact Or.inl hleads
  | head hstep hrest ih =>
    rename_i b b'
    obtain ⟨ob, hob, hmem⟩ := hstep.1
    have hpoints : Points h b b' := ⟨ob, hob, hmem⟩
    obtain ⟨j, t', flag, hj, hslot, hty'⟩ := hinv.points hpoints hob
    have hrec := ih hty' (hbare.points hpoints)
    rcases kind_of_hasTy hob hty rfl with hbody | hclos | ⟨tys, htys, hleads⟩ | ⟨e, he, hleads⟩
    · exact Or.inr ⟨b, ob, hob, hbody, hbare, hrest.head hstep⟩
    · exact (hbare.not_points hob hclos hpoints).elim
    · simp only [htys, Kind.slotTy, immutableTys, List.getElem?_map, Option.map_eq_some_iff]
        at hslot
      obtain ⟨t'', ht'', heq⟩ := hslot
      cases heq
      refine hrec.imp (fun hrest => hleads.trans (.head (.tuple ?_) hrest)) id
      exact List.mem_of_getElem? ht''
    · simp only [he, Kind.slotTy, Option.some.injEq, Prod.mk.injEq] at hslot
      obtain ⟨rfl, -⟩ := hslot
      exact hrec.imp (fun hrest => hleads.trans (.head .array hrest)) id

theorem Inv.no_quiet_cycle (a : Nat) : ¬ TransGen (QuietPoints h) a a := by
  intro hloop
  obtain ⟨x, y, hxy, hle, hback⟩ := exists_younger hloop
  obtain ⟨hpoints, hquiet⟩ := hxy
  obtain ⟨o, ho, hmem⟩ := hpoints
  have hpoints : Points h x y := ⟨o, ho, hmem⟩
  obtain ⟨i, hi⟩ := List.mem_iff_getElem?.mp hmem
  obtain ⟨⟨t, hslot⟩, harray⟩ := hinv.older x o i y ho hi hle
  obtain ⟨t', flag, hslot', hty⟩ := hinv.typed x o ho i _ hi
  cases hslot.symm.trans hslot'
  by_cases hbody : o.kind.IsBody
  · -- A mutable field: its edge lies on a cycle of the graph.
    obtain ⟨fuel, hprop⟩ := hinv.header x o ho
    obtain ⟨n, hn, heq⟩ := body_prop (hinv.declared x o ho) hbody hprop
    have hbare := hinv.bare x o ho hbody _ hmem
    obtain ⟨⟨z, hnz, hz⟩, -⟩ :=
      hinv.path_covered hback ho hn (hinv.covers_slot ho hbody hn hslot) hty hbare
    have hmut := lookup_of_mutable_cycle buildCtx_wellFormed (hnz.mutable (by simp))
      (hz.lift id fun _ _ hedge => hedge.1)
    exact hinv.body_quiet ho hbody hn hquiet hmut
  · cases hkind : o.kind with
    | array elem =>
      -- An element that was stored later: its type leads back to the type of the array.
      obtain ⟨hbare, hrec⟩ := harray elem hkind
      have hn : o.kind.node = some (arrayNode elem) := by rw [hkind]; rfl
      rw [hkind] at hslot
      cases hslot
      rcases hinv.path_unfolds hback ho hkind hty hbare with hleads | hbody
      · obtain ⟨fuel, hprop⟩ := hinv.header x o ho
        exact ((unfolds_of_headerProp hprop).1 _ hkind).not_loop (.head' .array hleads)
      · obtain ⟨r, ro, hr, hrbody, hrbare, hrx⟩ := hbody
        obtain ⟨fuel, hprop⟩ := hinv.header r ro hr
        obtain ⟨nr, hnr, -⟩ := body_prop (hinv.declared r ro hr) hrbody hprop
        rcases hrx.cases_head with rfl | ⟨r', hstep, hrest⟩
        · cases ho.symm.trans hr
          exact hbody hrbody
        · obtain ⟨j, tr, flag, -, hjslot, hjty⟩ := hinv.points hstep.1 hr
          have hcovers := (hinv.path_covered hrest ho hn (hinv.covers_slot hr hrbody hnr hjslot)
            hjty (hrbare.points hstep.1)).2 _ hkind
          obtain ⟨⟨z, hnz, hz⟩, -⟩ := hinv.path_covered hback ho hn hcovers hty hbare
          refine hrec (.head' ⟨hnz.edge, ?_⟩ hz)
          exact lookup_not_body buildCtx_wellFormed id
    | tuple tys => simp [hkind, Kind.slotTy, immutableTys] at hslot
    | closure captured => simp [hkind, Kind.slotTy, immutableTys] at hslot
    | record | ctor =>
      rw [hkind] at hbody
      exact hbody trivial

end Invariant

/-- The values of the type lead to acyclic objects only; function values are let in on demand. -/
inductive CalmTy (typeDefs : StringMap TyDeclDesc) (arrows : Bool) : CTy → Prop where
  | var {v : Nat} : CalmTy typeDefs arrows (.var v)
  | constant {c : ConstantTy} : CalmTy typeDefs arrows (.constant c)
  | arrow {arg ret : CTy} : arrows = true → CalmTy typeDefs arrows (.arrow arg ret)
  | tuple {ts : List CTy} :
      (∀ t ∈ ts, CalmTy typeDefs arrows t) → CalmTy typeDefs arrows (.tuple ts)
  | array {elem : CTy} : CalmTy typeDefs arrows elem → CalmTy typeDefs arrows (.array elem)
  | unalias {name : String} {args : List CTy} {inner : CTy} :
      typeDefs.findOpt (materializedName name args) = some (.alias inner) →
        CalmTy typeDefs arrows inner → CalmTy typeDefs arrows (.defined name args)
  | record {name : String} {args : List CTy} {fields : List RecordFieldTy} :
      typeDefs.findOpt (materializedName name args) = some (.record fields) →
        lookup (analyze typeDefs) (.record (materializedName name args)) = .acyclic →
          CalmTy typeDefs arrows (.defined name args)
  | variant {name : String} {args : List CTy} {ctors : List ConstructorDecl} :
      typeDefs.findOpt (materializedName name args) = some (.variant ctors) →
        (ctors.all (·.arg.isNone) ∨
          lookup (analyze typeDefs) (.type (materializedName name args)) = .acyclic) →
          CalmTy typeDefs arrows (.defined name args)

  | abstract {name : String} {args : List CTy} :
      (typeDefs.findOpt (materializedName name args) = none ∨
        typeDefs.findOpt (materializedName name args) = some .abstract) →
          CalmTy typeDefs arrows (.defined name args)

def CalmKind (typeDefs : StringMap TyDeclDesc) (arrows : Bool) : Kind → Prop
  | .record name args => lookup (analyze typeDefs) (.record (materializedName name args)) = .acyclic
  | .ctor name args c =>
    lookup (analyze typeDefs) (.ctor (materializedName name args) c.tag) = .acyclic
  | .tuple tys => ∀ t ∈ tys, CalmTy typeDefs arrows t
  | .array elem => CalmTy typeDefs arrows elem
  | .closure _ => arrows = true

theorem calmKind_of_hasTy {arrows : Bool} (hcalm : CalmTy typeDefs arrows t)
    (hty : HasTy typeDefs kinds t (.ref a)) :
    ∃ k, kinds a = some k ∧ CalmKind typeDefs arrows k := by
  generalize hr : Val.ref a = v at hty
  induction hty with
  | constant | immediate => cases hr
  | arrow ha =>
    cases hr
    cases hcalm with
    | arrow harrows => exact ⟨_, ha, harrows⟩
  | tuple ha =>
    cases hr
    cases hcalm with
    | tuple hall => exact ⟨_, ha, hall⟩
  | array ha =>
    cases hr
    cases hcalm with
    | array helem => exact ⟨_, ha, helem⟩
  | unalias hfind _ ih =>
    cases hcalm with
    | unalias hfind' hcalm =>
      cases hfind.symm.trans hfind'
      exact ih hcalm hr
    | record hfind' _ | variant hfind' _ => cases hfind.symm.trans hfind'
    | abstract hno => simp [hfind] at hno
  | record hfind ha =>
    cases hr
    cases hcalm with
    | record _ hacyclic => exact ⟨_, ha, hacyclic⟩
    | unalias hfind' _ | variant hfind' _ => cases hfind.symm.trans hfind'
    | abstract hno => simp [hfind] at hno
  | ctor hfind hc harg ha =>
    cases hr
    cases hcalm with
    | variant hfind' hclass =>
      cases hfind.symm.trans hfind'
      refine ⟨_, ha, ?_⟩
      rcases hclass with hall | hacyclic
      · have hnone := List.all_eq_true.mp hall _ hc
        simp only [Option.isNone_iff_eq_none] at hnone
        rw [hnone] at harg
        cases harg
      · exact lookup_acyclic_edge buildCtx_wellFormed hacyclic (edge_ctor hfind hc)
    | unalias hfind' _ | record hfind' _ => cases hfind.symm.trans hfind'
    | abstract hno => simp [hfind] at hno

theorem all_of_propOfElements {irs : List Cir.IrType} (h : propOfElements irs = .acyclic) :
    ∀ ir ∈ irs, isAcyclicIr ir = true := by
  unfold propOfElements at h
  split at h
  · rename_i hall
    exact List.all_eq_true.mp hall
  · cases h

/-- What the lowering takes for acyclic is calm without function values. -/
theorem calmTy_of_mkIrTy {visited : List String} {ir : Cir.IrType}
    (h : mkIrTy (lowerTypeDefs typeDefs) fuel visited t = some ir) (hir : isAcyclicIr ir = true) :
    CalmTy typeDefs false t := by
  induction fuel generalizing visited t ir with
  | zero => simp [mkIrTy] at h
  | succ fuel ih =>
    cases t with
    | var => exact .var
    | constant => exact .constant
    | arrow arg ret =>
      simp only [mkIrTy, Option.bind_eq_bind, Option.bind_eq_some_iff, Option.pure_def,
        Option.some.injEq] at h
      obtain ⟨args, -, ret', -, rfl⟩ := h
      simp [isAcyclicIr, Cir.IrType.objProp] at hir
    | tuple tys =>
      simp only [mkIrTy, Option.bind_eq_bind, Option.bind_eq_some_iff, Option.pure_def,
        Option.some.injEq] at h
      obtain ⟨irs, hirs, rfl⟩ := h
      simp only [isAcyclicIr, Cir.IrType.objProp, Option.some.injEq, decide_eq_true_eq] at hir
      refine .tuple fun t ht => ?_
      obtain ⟨ir', hmem, hir'⟩ := exists_of_mapM hirs t ht
      exact ih hir' (all_of_propOfElements hir ir' hmem)
    | array elem =>
      simp only [mkIrTy, Option.bind_eq_bind, Option.bind_eq_some_iff, Option.pure_def,
        Option.some.injEq] at h
      obtain ⟨ir', hir', rfl⟩ := h
      simp only [isAcyclicIr, Cir.IrType.objProp, Option.some.injEq, decide_eq_true_eq] at hir
      exact .array (ih hir' (all_of_propOfElements hir ir' List.mem_cons_self))
    | defined name args =>
      simp only [mkIrTy, findOpt_lowerTypeDefs] at h
      cases hfind : typeDefs.findOpt (materializedName name args) with
      | none => exact .abstract (Or.inl hfind)
      | some decl =>
        simp only [hfind, Option.map_some, entryOf] at h
        cases decl with
        | record fields =>
          simp only [Option.bind_eq_bind, Option.bind_eq_some_iff, Option.pure_def,
            Option.some.injEq] at h
          obtain ⟨irs, -, rfl⟩ := h
          exact .record hfind (by simpa [isAcyclicIr, Cir.IrType.objProp] using hir)
        | variant ctors =>
          refine .variant hfind ?_
          by_cases hall : ctors.all (·.arg.isNone)
          · exact Or.inl hall
          · refine Or.inr ?_
            simp only [hall, if_false, Bool.false_eq_true] at h
            split at h
            · cases h
              simp [isAcyclicIr, Cir.IrType.objProp] at hir
            · simp only [Option.bind_eq_bind, Option.bind_eq_some_iff, Option.pure_def,
                Option.some.injEq] at h
              obtain ⟨irs, -, rfl⟩ := h
              simpa [isAcyclicIr, Cir.IrType.objProp] using hir
        | «alias» inner => exact .unalias hfind (ih h hir)
        | abstract => exact .abstract (Or.inr hfind)

/-- What an acyclic node refers to is calm. -/
theorem calmTy_of_covers (hcov : Covers typeDefs (buildCtx typeDefs) src isMutable t)
    (hsrc : lookup (analyze typeDefs) src = .acyclic) : CalmTy typeDefs true t := by
  induction hcov with
  | var => exact .var
  | constant => exact .constant
  | arrow => exact .arrow rfl
  | tuple _ ih => exact .tuple fun t ht => ih t ht hsrc
  | array hedge _ ih =>
    exact .array (ih (lookup_acyclic_edge buildCtx_wellFormed hsrc hedge.edge))
  | unalias hfind _ ih => exact .unalias hfind (ih hsrc)
  | named hno hedge =>
    rename_i src isMutable name args
    have htype := lookup_acyclic_edge buildCtx_wellFormed hsrc hedge.edge
    cases hfind : typeDefs.findOpt (materializedName name args) with
    | none => exact .abstract (Or.inl hfind)
    | some decl =>
      cases decl with
      | record fields =>
        exact .record hfind (lookup_acyclic_edge buildCtx_wellFormed htype (edge_record hfind))
      | variant ctors => exact .variant hfind (Or.inr htype)
      | «alias» inner => exact (hno inner hfind).elim
      | abstract => exact .abstract (Or.inr hfind)

theorem calmKind_of_header (hdecl : kind.Declared typeDefs)
    (hprop : headerProp (lowerTypeDefs typeDefs) fuel kind = some .acyclic) :
    CalmKind typeDefs false kind := by
  have hanon : ∀ t ir, mkIrTy (lowerTypeDefs typeDefs) fuel [] t = some ir →
      ir.objProp = some .acyclic → CalmTy typeDefs false t := by
    intro t ir hir hobj
    apply calmTy_of_mkIrTy hir
    cases ir <;> simp_all [isAcyclicIr, Cir.IrType.objProp]
  cases kind with
  | record | ctor =>
    obtain ⟨n, hn, heq⟩ := body_prop hdecl trivial hprop
    cases hn
    exact heq.symm
  | tuple tys =>
    obtain ⟨ir, hir, hobj⟩ := Option.bind_eq_some_iff.mp hprop
    cases hanon _ ir hir hobj with
    | tuple hall => exact hall
  | array elem =>
    obtain ⟨ir, hir, hobj⟩ := Option.bind_eq_some_iff.mp hprop
    cases hanon _ ir hir hobj with
    | array helem => exact helem
  | closure => simp [headerProp] at hprop

theorem node_of_calmKind {arrows : Bool} (hbody : kind.IsBody) (hn : kind.node = some n)
    (hcalm : CalmKind typeDefs arrows kind) : lookup (analyze typeDefs) n = .acyclic := by
  cases kind with
  | record | ctor =>
    cases hn
    exact hcalm
  | tuple | array | closure => exact hbody.elim

theorem slot_of_calmKind {arrows : Bool} (hbody : ¬ kind.IsBody) (hclos : ¬ kind.IsClosure)
    (hcalm : CalmKind typeDefs arrows kind) (hslot : kind.slotTy typeDefs i = some (t, flag)) :
    CalmTy typeDefs arrows t := by
  cases kind with
  | tuple tys =>
    simp only [Kind.slotTy, immutableTys, List.getElem?_map, Option.map_eq_some_iff] at hslot
    obtain ⟨t', ht', heq⟩ := hslot
    cases heq
    exact hcalm _ (List.mem_of_getElem? ht')
  | array elem =>
    cases hslot
    exact hcalm
  | closure => exact (hclos trivial).elim
  | record | ctor => exact (hbody trivial).elim

theorem not_isClosure_of_calmKind (hcalm : CalmKind typeDefs false kind) : ¬ kind.IsClosure := by
  cases kind with
  | closure => cases hcalm
  | _ => exact id

/-- A calm object leads to calm objects only; where function values are let in, they have captured
no object. -/
def Calm (typeDefs : StringMap TyDeclDesc) (h : Heap) (a : Nat) : Prop :=
  ∃ o, h[a]? = some o ∧ (CalmKind typeDefs false o.kind ∨
    CalmKind typeDefs true o.kind ∧ Bare h (.ref a))

section Invariant

variable (hinv : Inv typeDefs h)

include hinv

theorem Inv.calm_points (hcalm : Calm typeDefs h a) (hp : Points h a b) : Calm typeDefs h b := by
  obtain ⟨o, ho, hkind⟩ := hcalm
  obtain ⟨i, t, flag, hi, hslot, hty⟩ := hinv.points hp ho
  have hof : ∀ {arrows : Bool}, CalmTy typeDefs arrows t →
      ∃ ob, h[b]? = some ob ∧ CalmKind typeDefs arrows ob.kind := by
    intro arrows ht
    obtain ⟨k, hk, hcalm⟩ := calmKind_of_hasTy ht hty
    obtain ⟨ob, hob, rfl⟩ := Option.map_eq_some_iff.mp hk
    exact ⟨ob, hob, hcalm⟩
  by_cases hbody : o.kind.IsBody
  · obtain ⟨fuel, hprop⟩ := hinv.header a o ho
    obtain ⟨n, hn, -⟩ := body_prop (hinv.declared a o ho) hbody hprop
    have hn' := hkind.elim (node_of_calmKind hbody hn) fun hcalm =>
      node_of_calmKind hbody hn hcalm.1
    obtain ⟨ob, hob, hcalm⟩ := hof (calmTy_of_covers (hinv.covers_slot ho hbody hn hslot) hn')
    exact ⟨ob, hob, Or.inr ⟨hcalm, hinv.bare a o ho hbody _ (List.mem_of_getElem? hi)⟩⟩
  · rcases hkind with hstrict | ⟨hcalm, hbare⟩
    · obtain ⟨ob, hob, hb⟩ :=
        hof (slot_of_calmKind hbody (not_isClosure_of_calmKind hstrict) hstrict hslot)
      exact ⟨ob, hob, Or.inl hb⟩
    · have hclos := fun hclos => hbare.not_points ho hclos hp
      obtain ⟨ob, hob, hb⟩ := hof (slot_of_calmKind hbody hclos hcalm hslot)
      exact ⟨ob, hob, Or.inr ⟨hb, hbare.points hp⟩⟩

theorem Inv.calm_not_marked (hcalm : Calm typeDefs h a) : ¬ Marked h a := by
  obtain ⟨o, ho, hkind⟩ := hcalm
  rintro ⟨o', ho', hbit⟩
  cases ho.symm.trans ho'
  obtain ⟨fuel, hprop⟩ := hinv.header a o ho
  have hmut : o.prop = .mutableCyclicTrackable := by
    cases hp : o.prop <;> simp_all [cyclicMutableBitOfProp]
  by_cases hbody : o.kind.IsBody
  · obtain ⟨n, hn, heq⟩ := body_prop (hinv.declared a o ho) hbody hprop
    have hn' := hkind.elim (node_of_calmKind hbody hn) fun hcalm =>
      node_of_calmKind hbody hn hcalm.1
    rw [hmut, hn'] at heq
    cases heq
  · exact anonymous_prop hbody hprop hmut

theorem Inv.sound : Sound h where
  marked := hinv.no_quiet_cycle
  traceable a o b ho hbit hpath := by
    have hprop : o.prop = .acyclic := by
      cases hp : o.prop <;> simp_all [traceableBitOfProp]
    obtain ⟨fuel, hheader⟩ := hinv.header a o ho
    rw [hprop] at hheader
    have hcalm : Calm typeDefs h a :=
      ⟨o, ho, Or.inl (calmKind_of_header (hinv.declared a o ho) hheader)⟩
    have hleads : ∀ x, ReflTransGen (Points h) a x → Calm typeDefs h x := by
      intro x hx
      induction hx with
      | refl => exact hcalm
      | tail _ hstep ih => exact hinv.calm_points ih hstep
    have hquiet : ∀ x y, ReflTransGen (Points h) a x → Points h x y → QuietPoints h x y :=
      fun x y hx hxy => ⟨hxy, hinv.calm_not_marked (hleads x hx)⟩
    intro hloop
    refine hinv.no_quiet_cycle b ?_
    have hlift : ∀ y, TransGen (Points h) b y → TransGen (QuietPoints h) b y := by
      intro y hy
      induction hy with
      | single hstep => exact .single (hquiet _ _ hpath hstep)
      | tail hpre hstep ih =>
        exact ih.tail (hquiet _ _ (hpath.trans hpre.to_reflTransGen) hstep)
    exact hlift b hloop

end Invariant

/-- Along a run of plain steps every cycle is registered by an object on it, and what is not traced
reaches no cycle. -/
theorem cyclicity_sound (hr : Reaches typeDefs (Act.Plain typeDefs) h) : Sound h :=
  (inv_of_reaches hr).sound

/-- `type node = Leaf | Inner of { mutable next : node }`. -/
def nodeDefs : StringMap TyDeclDesc :=
  [("node", .variant [⟨0, none⟩, inner])]
where inner : ConstructorDecl := ⟨1, some (.record [⟨.defined "node" [], .mutable⟩])⟩

theorem bare_of_no_closure {v : Val} (hno : ∀ o ∈ h, ¬ o.kind.IsClosure) : Bare h v :=
  fun _ _ o _ _ ho hclos => (hno o (List.mem_of_getElem? ho) hclos).elim

theorem cyclicity_sound_node : ∃ prop,
    Sound [⟨.ctor "node" [] nodeDefs.inner, prop, [.ref 0]⟩] := by
  have hfind : AssocMap.findOpt nodeDefs (materializedName "node" []) =
      some (.variant [⟨0, none⟩, nodeDefs.inner]) := by
    simp [nodeDefs, materializedName, typeKeys, joinKeys, AssocMap.findOpt]
  obtain ⟨prop, hprop⟩ : ∃ prop, headerProp (lowerTypeDefs nodeDefs) 3
      (.ctor "node" [] nodeDefs.inner) = some prop := by
    simp [headerProp, nodeDefs.inner, ctorFields, mkIrTy, findOpt_lowerTypeDefs, hfind, entryOf]
  have hnew : Reaches nodeDefs (Act.Plain nodeDefs)
      [⟨.ctor "node" [] nodeDefs.inner, prop, [.word]⟩] := by
    refine Reaches.empty.step ?_ (.alloc (.ctor hfind (by simp) rfl) ?_ hprop)
    · exact fun _ v _ => bare_of_no_closure (by simp)
    · intro i v hi
      cases i with
      | zero =>
        cases hi
        exact ⟨_, _, rfl, .immediate hfind List.mem_cons_self rfl⟩
      | succ i => simp at hi
  have hstore : Step nodeDefs [⟨.ctor "node" [] nodeDefs.inner, prop, [.word]⟩] (.store 0 0 (.ref 0))
      [⟨.ctor "node" [] nodeDefs.inner, prop, [.ref 0]⟩] :=
    .store (a := 0) (o := ⟨.ctor "node" [] nodeDefs.inner, prop, [.word]⟩) rfl rfl
      (.ctor (c := nodeDefs.inner) hfind (by simp) rfl rfl)
  have hplain : Act.Plain nodeDefs [⟨.ctor "node" [] nodeDefs.inner, prop, [.word]⟩]
      (.store 0 0 (.ref 0)) := by
    refine ⟨bare_of_no_closure (by simp [Kind.IsClosure]), fun o elem b ho helem => ?_⟩
    cases ho
    cases helem
  exact ⟨prop, cyclicity_sound (hnew.step hplain hstore)⟩

theorem unmarked_of_no_mutable (hno : (buildCtx typeDefs).mutableEdges = [])
    (hdecl : kind.Declared typeDefs)
    (hprop : headerProp (lowerTypeDefs typeDefs) fuel kind = some prop) :
    cyclicMutableBitOfProp prop ≠ 1 := by
  have hne : prop ≠ .mutableCyclicTrackable := by
    by_cases hbody : kind.IsBody
    · obtain ⟨n, -, rfl⟩ := body_prop hdecl hbody hprop
      unfold analyze
      rw [lookup_classify]
      simp only [Ctx.classOf, Ctx.isMutableSource, hno, List.any_nil, Bool.false_eq_true, and_false,
        if_false]
      split_ifs <;> simp
    · exact anonymous_prop hbody hprop
  cases prop <;> simp_all [cyclicMutableBitOfProp]

/-- `type tree = Leaf | Node of array<tree>`. -/
def treeDefs : StringMap TyDeclDesc :=
  [("tree", .variant [⟨0, none⟩, node])]
where node : ConstructorDecl := ⟨1, some (.ty (.array (.defined "tree" [])))⟩

/-- A node is stored into the array that it holds. -/
theorem array_cycle : ∃ h, Reaches treeDefs (fun _ _ => True) h ∧ ¬ Sound h := by
  have hfind : AssocMap.findOpt treeDefs (materializedName "tree" []) =
      some (.variant [⟨0, none⟩, treeDefs.node]) := by
    simp [treeDefs, materializedName, typeKeys, joinKeys, AssocMap.findOpt]
  have hno : (buildCtx treeDefs).mutableEdges = [] := by
    simp [buildCtx, treeDefs, addDecl, addCtor, addBodyEdges, ctorFields, addRefs, Ctx.addEdge,
      Ctx.addNode, Ctx.empty, treeDefs.node, materializedName, typeKeys, joinKeys,
      AssocMap.findOpt]
  obtain ⟨arrayProp, harray⟩ : ∃ prop, headerProp (lowerTypeDefs treeDefs) 5
      (.array (.defined "tree" [])) = some prop := by
    simp [headerProp, treeDefs.node, ctorFields, mkIrTy, findOpt_lowerTypeDefs, hfind, entryOf,
      Cir.IrType.objProp]
  obtain ⟨nodeProp, hnode⟩ : ∃ prop, headerProp (lowerTypeDefs treeDefs) 5
      (.ctor "tree" [] treeDefs.node) = some prop := by
    simp [headerProp, treeDefs.node, ctorFields, mkIrTy, findOpt_lowerTypeDefs, hfind, entryOf]
  have hdecl : (Kind.ctor "tree" [] treeDefs.node).Declared treeDefs := .ctor hfind (by simp) rfl
  have hfirst : Reaches treeDefs (fun _ _ => True)
      [⟨.array (.defined "tree" []), arrayProp, [.word]⟩] := by
    refine Reaches.empty.step trivial (.alloc .array ?_ harray)
    intro i v hi
    cases i with
    | zero =>
      cases hi
      exact ⟨_, _, rfl, .immediate hfind List.mem_cons_self rfl⟩
    | succ i => simp at hi
  have hsecond : Reaches treeDefs (fun _ _ => True)
      [⟨.array (.defined "tree" []), arrayProp, [.word]⟩,
        ⟨.ctor "tree" [] treeDefs.node, nodeProp, [.ref 0]⟩] := by
    refine hfirst.step trivial (.alloc hdecl ?_ hnode)
    intro i v hi
    cases i with
    | zero =>
      cases hi
      exact ⟨_, _, rfl, .array rfl⟩
    | succ i => simp at hi
  have hthird : Reaches treeDefs (fun _ _ => True)
      [⟨.array (.defined "tree" []), arrayProp, [.ref 1]⟩,
        ⟨.ctor "tree" [] treeDefs.node, nodeProp, [.ref 0]⟩] :=
    hsecond.step trivial
      (.store (a := 0) (i := 0) (o := ⟨.array (.defined "tree" []), arrayProp, [.word]⟩) rfl rfl
        (.ctor (a := 1) (c := treeDefs.node) hfind (by simp) rfl rfl))
  refine ⟨_, hthird, fun hsound => hsound.marked 0 (.head (b := 1) ⟨⟨_, rfl, by simp⟩, ?_⟩
    (.single ⟨⟨_, rfl, by simp⟩, ?_⟩))⟩
  · rintro ⟨o, ho, hbit⟩
    cases ho
    exact unmarked_of_no_mutable hno .array harray hbit
  · rintro ⟨o, ho, hbit⟩
    cases ho
    exact unmarked_of_no_mutable hno hdecl hnode hbit

/-- The type of functions from `unit` to `i64`. -/
def thunk : CTy := .arrow (.constant .unit) (.constant .int64)

/-- `type cell = { mutable f : unit -> i64 }`. -/
def cellDefs : StringMap TyDeclDesc := [("cell", .record [⟨thunk, .mutable⟩])]

/-- A closure that has captured a cell is stored into the cell. -/
theorem closure_cycle : ∃ h, Reaches cellDefs (fun _ _ => True) h ∧ ¬ Sound h := by
  have hfind : AssocMap.findOpt cellDefs (materializedName "cell" []) =
      some (.record [⟨thunk, .mutable⟩]) := by
    simp [cellDefs, materializedName, typeKeys, joinKeys, AssocMap.findOpt]
  have hno : (buildCtx cellDefs).mutableEdges = [] := by
    simp [buildCtx, cellDefs, addDecl, addBodyEdges, addRefs, Ctx.addEdge, Ctx.addNode, Ctx.empty,
      thunk]
  obtain ⟨cellProp, hcell⟩ : ∃ prop, headerProp (lowerTypeDefs cellDefs) 3 (.record "cell" []) =
      some prop := by
    simp [headerProp, mkIrTy, findOpt_lowerTypeDefs, hfind, entryOf, thunk, getArgsTy, getReturnTy,
      isUnitCty, Cir.IrType.objProp]
  have hslot : (Kind.record "cell" []).slotTy cellDefs 0 = some (thunk, .mutable) := by
    simp [Kind.slotTy, hfind, recordFields]
  have hclosure : ∀ {captured : List CTy}, headerProp (lowerTypeDefs cellDefs) 0
      (.closure captured) = some .unknownCyclicProp := rfl
  have hfirst : Reaches cellDefs (fun _ _ => True) [⟨.closure [], .unknownCyclicProp, []⟩] :=
    Reaches.empty.step trivial (.alloc .closure (by intro i v hi; simp at hi) hclosure)
  have hsecond : Reaches cellDefs (fun _ _ => True)
      [⟨.closure [], .unknownCyclicProp, []⟩, ⟨.record "cell" [], cellProp, [.ref 0]⟩] := by
    refine hfirst.step trivial (.alloc (.record hfind) ?_ hcell)
    intro i v hi
    cases i with
    | zero =>
      cases hi
      exact ⟨_, _, hslot, .arrow rfl⟩
    | succ i => simp at hi
  have hthird : Reaches cellDefs (fun _ _ => True)
      [⟨.closure [], .unknownCyclicProp, []⟩, ⟨.record "cell" [], cellProp, [.ref 0]⟩,
        ⟨.closure [.defined "cell" []], .unknownCyclicProp, [.ref 1]⟩] := by
    refine hsecond.step trivial (.alloc .closure ?_ hclosure)
    intro i v hi
    cases i with
    | zero =>
      cases hi
      exact ⟨_, _, rfl, .record hfind rfl⟩
    | succ i => simp at hi
  have hfourth : Reaches cellDefs (fun _ _ => True)
      [⟨.closure [], .unknownCyclicProp, []⟩, ⟨.record "cell" [], cellProp, [.ref 2]⟩,
        ⟨.closure [.defined "cell" []], .unknownCyclicProp, [.ref 1]⟩] :=
    hthird.step trivial
      (.store (a := 1) (i := 0) (o := ⟨.record "cell" [], cellProp, [.ref 0]⟩) rfl hslot
        (.arrow (a := 2) rfl))
  refine ⟨_, hfourth, fun hsound => hsound.marked 1 (.head (b := 2) ⟨⟨_, rfl, by simp⟩, ?_⟩
    (.single ⟨⟨_, rfl, by simp⟩, ?_⟩))⟩
  · rintro ⟨o, ho, hbit⟩
    cases ho
    exact unmarked_of_no_mutable hno (.record hfind) hcell hbit
  · rintro ⟨o, ho, hbit⟩
    cases ho
    cases hbit

theorem cycle_unmarked : (∃ h, Reaches treeDefs (fun _ _ => True) h ∧ ¬ Sound h) ∧
    ∃ h, Reaches cellDefs (fun _ _ => True) h ∧ ¬ Sound h :=
  ⟨array_cycle, closure_cycle⟩

end Syli.Compiler.TypedHeap
