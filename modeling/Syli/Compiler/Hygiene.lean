import Syli.Compiler.BinderNames

/-! Desugaring is hygienic exactly for the programs whose spellings do not clash. -/
namespace Syli.Compiler.Desugar

open Foundation

variable {root : String} {n : Nat} {scope : List Binder} {x : Name}

theorem lookup_entries (scope : List Binder) (x : Name) :
    (scope.map (Binder.entry root)).lookup x =
      (scope.find? (fun b => b.key = x)).map (Binder.qualified root) := by
  induction scope with
  | nil => rfl
  | cons b scope ih =>
    by_cases h : b.key = x
    · subst h
      simp [Binder.entry]
    · have hne : (x == b.key) = false := by
        simpa using fun hx : x = b.key => h hx.symm
      simp only [List.map_cons, Binder.entry, List.lookup_cons, hne, List.find?_cons, h,
        decide_false]
      exact ih

theorem qualifyName_ok {q : String} (h : qualifyName (scope.map (Binder.entry root)) x = .ok q) :
    ∃ b, scope.find? (fun b => b.key = x) = some b ∧ b.qualified root = q := by
  unfold qualifyName at h
  rw [lookup_entries] at h
  cases hfind : scope.find? (fun b => b.key = x) with
  | none =>
    rw [hfind] at h
    cases h
  | some b =>
    rw [hfind] at h
    exact ⟨b, rfl, Except.ok.inj h⟩

theorem source_eq_some {b : Binder} :
    (b.binding root).source = some x ↔ b.named = true ∧ b.key = x := by
  simp [Binder.binding]

/-- Desugaring takes the innermost binder recorded under the name: it is the lexical one unless the
user did not write it. -/
theorem resolves_iff {q : String} (hs : Settled n scope) (hp : scope.Pairwise Binder.Apart)
    (hq : qualifyName (scope.map (Binder.entry root)) x = .ok q) :
    Scope.Resolves (scope.map (Binder.binding root)) x q ↔ NotCaptured scope x := by
  obtain ⟨b, hfind, hb⟩ := qualifyName_ok hq
  obtain ⟨hkey, outer, rest, rfl, houter⟩ := List.find?_eq_some_iff_append.mp hfind
  have hkey : b.key = x := of_decide_eq_true hkey
  have hcaptured : NotCaptured (outer ++ b :: rest) x ↔ b.named = true := by
    unfold NotCaptured
    rw [hfind]
    exact ⟨fun h => h b rfl, fun h b' hb' => Option.some.inj hb' ▸ h⟩
  rw [hcaptured]
  constructor
  · rintro ⟨bound, hbound, hcore⟩
    by_contra hnamed
    have hmem := List.mem_of_find?_eq_some hbound
    have hsource : bound.source = some x := by simpa using List.find?_some hbound
    obtain ⟨b', hb', rfl⟩ := List.mem_map.mp hmem
    obtain ⟨hnamed', hkey'⟩ := source_eq_some.mp hsource
    have hrest : b' ∈ rest := by
      obtain hmem | hmem := List.mem_append.mp hb'
      · have := houter b' hmem
        simp [hkey'] at this
      · obtain rfl | hmem := List.mem_cons.mp hmem
        · exact (hnamed hnamed').elim
        · exact hmem
    have hdistinct : ((outer ++ b :: rest).map (Binder.binding root)).Pairwise Binding.Distinct :=
      hs.pairwise_iff.mpr hp
    rw [List.map_append, List.map_cons, List.pairwise_append, List.pairwise_cons] at hdistinct
    obtain hne | ⟨hparam, -⟩ := hdistinct.2.1.1 _ (List.mem_map_of_mem hrest)
    · exact hne (hb.trans hcore.symm)
    · exact hnamed (b.named_of_param (of_decide_eq_true hparam))
  · intro hnamed
    refine ⟨b.binding root, ?_, hb⟩
    rw [List.find?_eq_some_iff_append]
    refine ⟨by simpa using source_eq_some.mpr ⟨hnamed, hkey⟩, outer.map (Binder.binding root),
      rest.map (Binder.binding root), by simp, ?_⟩
    intro bound hbound
    obtain ⟨b', hb', rfl⟩ := List.mem_map.mp hbound
    have hne := houter b' hb'
    simp only [Bool.not_eq_true', decide_eq_false_iff_not] at hne ⊢
    exact fun hsource => hne (source_eq_some.mp hsource).2

theorem numberedBinders_append (xs ys : List Name) :
    numberedBinders n (xs ++ ys) = numberedBinders n xs ++ numberedBinders (n + xs.length) ys := by
  induction xs generalizing n with
  | nil => rfl
  | cons x xs ih =>
    rw [List.cons_append, numberedBinders, numberedBinders, ih, List.cons_append, List.length_cons,
      Nat.add_right_comm, Nat.add_assoc]

/-- A pattern binds its variables under consecutive numbers. -/
structure PatternAgrees (root : String) (n : Nat) (scope : List Binder) (xs : List Name)
    (bound : List Binding) (r : Subst × Nat) : Prop where
  number : r.2 = n + xs.length
  subst : r.1 = ((numberedBinders n xs).reverse ++ scope).map (Binder.entry root)
  binds : bound = (numberedBinders n xs).map (Binder.binding root)

mutual

theorem desugarPattern_agrees (root : String) : (p : Pattern) → ∀ (n : Nat) (scope : List Binder),
    PatternAgrees root n scope p.vars
      (p.binds (desugarPattern (scope.map (Binder.entry root)) n p).1)
      (desugarPattern (scope.map (Binder.entry root)) n p).2
  | .unit _, _, _ | .any _, _, _ | .literal, _, _ => ⟨rfl, rfl, rfl⟩
  | .ident x, n, scope => ⟨rfl, rfl, rfl⟩
  | .compound ps, n, scope => by
    have hps := desugarPatterns_agrees root ps n scope
    exact ⟨hps.number, hps.subst, hps.binds⟩

theorem desugarPatterns_agrees (root : String) : (ps : List Pattern) →
    ∀ (n : Nat) (scope : List Binder),
    PatternAgrees root n scope (patternsVars ps)
      (patternsBind ps (desugarPatterns (scope.map (Binder.entry root)) n ps).1)
      (desugarPatterns (scope.map (Binder.entry root)) n ps).2
  | [], _, _ => ⟨rfl, rfl, rfl⟩
  | p :: ps, n, scope => by
    have hp := desugarPattern_agrees root p n scope
    have hps := desugarPatterns_agrees root ps (n + p.vars.length)
      ((numberedBinders n p.vars).reverse ++ scope)
    rw [← hp.subst, ← hp.number] at hps
    refine ⟨?_, ?_, ?_⟩
    · rw [desugarPatterns, hps.number, hp.number, patternsVars, List.length_append, Nat.add_assoc]
    · rw [desugarPatterns, hps.subst, hp.number, patternsVars, numberedBinders_append,
        List.reverse_append, List.append_assoc]
    · rw [desugarPatterns, patternsBind, hps.binds, hp.binds, hp.number, patternsVars,
        numberedBinders_append, List.map_append]

end

theorem letIdent_ok {onError : DesugarError} {p : Pattern} {i : Ident}
    (h : letIdent onError p = .ok i) :
    i.name = p.key ∧ i.id = p.id ∧ p.source = if p.named then some p.key else none := by
  cases p <;> cases h <;> exact ⟨rfl, rfl, rfl⟩

theorem desugarLambdaParams_ok {params : List Pattern} {r : List String × Subst}
    (h : desugarLambdaParams (scope.map (Binder.entry root)) params = .ok r) :
    params.length = r.1.length ∧
      paramBinds params r.1 = (params.filterMap paramBinder).map (Binder.binding root) ∧
      r.2 = ((params.filterMap paramBinder).reverse ++ scope).map (Binder.entry root) := by
  simp only [desugarLambdaParams, bind_eq_ok, pure_eq_ok] at h
  obtain ⟨bound, hbound, rfl⟩ := h
  have hall : params.length = bound.length ∧
      paramBinds params (bound.map Prod.fst) =
        (params.filterMap paramBinder).map (Binder.binding root) ∧
      bound.filterMap Prod.snd = (params.filterMap paramBinder).map (Binder.entry root) := by
    induction params generalizing bound with
    | nil =>
      cases hbound
      exact ⟨rfl, rfl, rfl⟩
    | cons p params ih =>
      rw [List.mapM_cons] at hbound
      obtain ⟨b, hb, hbound⟩ := bind_eq_ok.mp hbound
      obtain ⟨bs, hbs, hbound⟩ := bind_eq_ok.mp hbound
      cases hbound
      obtain ⟨hlength, hbinds, hentries⟩ := ih bs hbs
      cases p <;> cases hb <;>
        simp [paramBinds, paramBinder, List.filterMap_cons, hlength, hbinds, hentries,
          Binder.binding, Binder.entry, Binder.qualified]
  obtain ⟨hlength, hbinds, hentries⟩ := hall
  refine ⟨by simpa using hlength, hbinds, ?_⟩
  rw [hentries, List.map_append, List.map_reverse]

/-- What desugaring an expression draws, binds and returns. -/
structure Agrees (root : String) (n : Nat) (scope : List Binder) (e : Expr)
    (r : CoreExpr × Subst × Nat) : Prop where
  number : r.2.2 = n + e.draws
  subst : r.2.1 = ((e.binders n).reverse ++ scope).map (Binder.entry root)
  binds : e.binds r.1 = (e.binders n).map (Binder.binding root)
  hygienic : e.Hygienic (scope.map (Binder.binding root)) r.1 ↔ e.ClashFree n scope

structure SeqAgrees (root : String) (n : Nat) (scope : List Binder) (es : List Expr)
    (r : List CoreExpr × Subst × Nat) : Prop where
  number : r.2.2 = n + exprsDraws es
  subst : r.2.1 = ((exprsBinders n es).reverse ++ scope).map (Binder.entry root)
  binds : exprsBind es r.1 = (exprsBinders n es).map (Binder.binding root)
  hygienic : seqHygienic (scope.map (Binder.binding root)) es r.1 ↔ seqClashFree n scope es

theorem ident_agrees {i : Ident} {isUnit : Bool} {r : CoreExpr × Subst × Nat}
    (hs : Settled n scope)
    (h : desugarExpr (scope.map (Binder.entry root)) n (.ident i isUnit) = .ok r) :
    Agrees root n scope (.ident i isUnit) r := by
  rw [desugarExpr] at h
  cases isUnit with
  | true =>
    cases h
    exact ⟨rfl, rfl, rfl, by simp [Expr.Hygienic, Expr.ClashFree, hs.pairwise_iff]⟩
  | false =>
    obtain ⟨q, hq, h⟩ := bind_eq_ok.mp h
    cases h
    refine ⟨rfl, rfl, rfl, ?_⟩
    simp only [Expr.Hygienic, Expr.ClashFree, hs.pairwise_iff, forall_const]
    apply and_congr_right
    intro hp
    rw [← resolves_iff hs hp hq]
    simp

mutual

theorem desugarExpr_agrees : (e : Expr) → ∀ {n : Nat} {scope : List Binder}
    {r : CoreExpr × Subst × Nat}, Settled n scope →
    desugarExpr (scope.map (Binder.entry root)) n e = .ok r → Agrees root n scope e r
  | .constant, n, scope, r, hs, h => by
    rw [desugarExpr] at h
    cases h
    exact ⟨rfl, rfl, rfl, hs.pairwise_iff⟩
  | .ident i isUnit, n, scope, r, hs, h => ident_agrees hs h
  | .tuple es, n, scope, r, hs, h => by
    rw [desugarExpr] at h
    obtain ⟨rs, hrs, h⟩ := bind_eq_ok.mp h
    cases h
    have hes := desugarSeq_agrees es hs hrs
    exact ⟨hes.number, hes.subst, hes.binds, hes.hygienic⟩
  | .seq es, n, scope, r, hs, h => by
    rw [desugarExpr] at h
    obtain ⟨rs, hrs, h⟩ := bind_eq_ok.mp h
    cases h
    have hes := desugarSeq_agrees es hs hrs
    exact ⟨hes.number, hes.subst, hes.binds, hes.hygienic⟩
  | .operation op es, n, scope, r, hs, h => by
    rw [desugarExpr] at h
    obtain ⟨rs, hrs, h⟩ := bind_eq_ok.mp h
    cases h
    obtain ⟨hnumber, hhygienic⟩ := desugarOperands_agrees es hs hrs
    exact ⟨hnumber, rfl, rfl, by simpa [Expr.Hygienic, Expr.ClashFree] using hhygienic⟩
  | .whileLoop condition body, n, scope, r, hs, h => by
    rw [desugarExpr] at h
    obtain ⟨b, hb, h⟩ := bind_eq_ok.mp h
    obtain ⟨c, hc, h⟩ := bind_eq_ok.mp h
    cases h
    have hbody := desugarExpr_agrees body hs hb
    rw [hbody.number] at hc
    have hcondition := desugarExpr_agrees condition (hs.mono (Nat.le_add_right n _)) hc
    refine ⟨?_, rfl, rfl, and_congr hbody.hygienic hcondition.hygienic⟩
    rw [hcondition.number, Expr.draws, Nat.add_assoc]
  | .lambda params body, n, scope, r, hs, h => by
    rw [desugarExpr] at h
    obtain ⟨ps, hps, h⟩ := bind_eq_ok.mp h
    obtain ⟨b, hb, h⟩ := bind_eq_ok.mp h
    cases h
    obtain ⟨hlength, hbinds, hsubst⟩ := desugarLambdaParams_ok hps
    rw [hsubst] at hb
    have hbody := desugarExpr_agrees body hs.params hb
    refine ⟨hbody.number, rfl, rfl, ?_⟩
    rw [Expr.Hygienic, Expr.ClashFree, hbinds, ← hbody.hygienic, List.map_append, List.map_reverse]
    exact and_iff_right hlength
  | .letIn isRec p value, n, scope, r, hs, h => by
    rw [desugarExpr] at h
    obtain ⟨i, hi, h⟩ := bind_eq_ok.mp h
    obtain ⟨v, hv, h⟩ := bind_eq_ok.mp h
    cases h
    obtain ⟨hkey, -, hsource⟩ := letIdent_ok hi
    have hentry : (i.name, rename (n + 1) i.name) = (letBinder n p).entry root := by
      rw [hkey]
      rfl
    have hbinding : ⟨p.source, rename (n + 1) i.name, false⟩ = (letBinder n p).binding root := by
      rw [hkey, hsource]
      rfl
    have hvalue : (value.Hygienic ((if isRec then letBinder n p :: scope else scope).map
        (Binder.binding root)) v.1 ↔
        value.ClashFree (n + 1) (if isRec then letBinder n p :: scope else scope)) ∧
        v.2.2 = n + 1 + value.draws := by
      rw [hentry] at hv
      cases isRec with
      | true =>
        have hvalue := desugarExpr_agrees value (hs.letBinder p (Nat.le_refl (n + 1))) hv
        exact ⟨hvalue.hygienic, hvalue.number⟩
      | false =>
        have hvalue := desugarExpr_agrees value (hs.mono (Nat.le_succ n)) hv
        exact ⟨hvalue.hygienic, hvalue.number⟩
    obtain ⟨hhygienic, hnumber⟩ := hvalue
    refine ⟨?_, ?_, ?_, ?_⟩
    · rw [hnumber, Expr.draws, Nat.add_assoc]
    · exact congrArg (· :: _) hentry
    · exact congrArg (fun b => [b]) hbinding
    · rw [Expr.Hygienic, Expr.ClashFree, ← hhygienic, hbinding]
      cases isRec <;> simp
  | .matchWith scrutinee cases, n, scope, r, hs, h => by
    rw [desugarExpr] at h
    obtain ⟨s, hscrutinee, h⟩ := bind_eq_ok.mp h
    obtain ⟨cs, hcases, h⟩ := bind_eq_ok.mp h
    cases h
    have hsc := desugarExpr_agrees scrutinee hs hscrutinee
    rw [hsc.number] at hcases
    obtain ⟨hnumber, hhygienic⟩ :=
      desugarCases_agrees cases (hs.mono (Nat.le_add_right n _)) hcases
    refine ⟨?_, rfl, rfl, and_congr hsc.hygienic hhygienic⟩
    rw [hnumber, Expr.draws, Nat.add_assoc]

theorem desugarSeq_agrees : (es : List Expr) → ∀ {n : Nat} {scope : List Binder}
    {r : List CoreExpr × Subst × Nat}, Settled n scope →
    desugarSeq (scope.map (Binder.entry root)) n es = .ok r → SeqAgrees root n scope es r
  | [], n, scope, r, hs, h => by
    rw [desugarSeq] at h
    cases h
    exact ⟨rfl, rfl, rfl, hs.pairwise_iff⟩
  | e :: es, n, scope, r, hs, h => by
    rw [desugarSeq] at h
    obtain ⟨c, hc, h⟩ := bind_eq_ok.mp h
    obtain ⟨cs, hcs, h⟩ := bind_eq_ok.mp h
    cases h
    have he := desugarExpr_agrees e hs hc
    rw [he.subst, he.number] at hcs
    have hes := desugarSeq_agrees es (hs.binders e) hcs
    refine ⟨?_, ?_, ?_, ?_⟩
    · rw [hes.number, exprsDraws, Nat.add_assoc]
    · rw [hes.subst, exprsBinders, List.reverse_append, List.append_assoc]
    · rw [exprsBind, exprsBinders, he.binds, hes.binds, List.map_append]
    · rw [seqHygienic, seqClashFree, he.binds, ← List.map_reverse, ← List.map_append]
      exact and_congr he.hygienic hes.hygienic

theorem desugarOperands_agrees : (es : List Expr) → ∀ {n : Nat} {scope : List Binder}
    {r : List CoreExpr × Nat}, Settled n scope →
    desugarOperands (scope.map (Binder.entry root)) n es = .ok r →
    r.2 = n + exprsDraws es ∧ (operandsHygienic (scope.map (Binder.binding root)) es r.1 ↔
      operandsClashFree n scope es)
  | [], n, scope, r, hs, h => by
    rw [desugarOperands] at h
    cases h
    exact ⟨rfl, hs.pairwise_iff⟩
  | e :: es, n, scope, r, hs, h => by
    rw [desugarOperands] at h
    obtain ⟨c, hc, h⟩ := bind_eq_ok.mp h
    obtain ⟨cs, hcs, h⟩ := bind_eq_ok.mp h
    cases h
    have he := desugarExpr_agrees e hs hc
    rw [he.number] at hcs
    obtain ⟨hnumber, hhygienic⟩ :=
      desugarOperands_agrees es (hs.mono (Nat.le_add_right n _)) hcs
    refine ⟨?_, and_congr he.hygienic hhygienic⟩
    rw [hnumber, exprsDraws, Nat.add_assoc]

theorem desugarCases_agrees : (cases : List Case) → ∀ {n : Nat} {scope : List Binder}
    {r : List CoreCase × Nat}, Settled n scope →
    desugarCases (scope.map (Binder.entry root)) n cases = .ok r →
    r.2 = n + casesDraws cases ∧ (casesHygienic (scope.map (Binder.binding root)) cases r.1 ↔
      casesClashFree n scope cases)
  | [], n, scope, r, hs, h => by
    rw [desugarCases] at h
    cases h
    exact ⟨rfl, hs.pairwise_iff⟩
  | .mk p none body :: cases, n, scope, r, hs, h => by
    rw [desugarCases] at h
    obtain ⟨b, hb, h⟩ := bind_eq_ok.mp h
    obtain ⟨cs, hcs, h⟩ := bind_eq_ok.mp h
    cases h
    have hp := desugarPattern_agrees root p n scope
    rw [hp.subst, hp.number] at hb
    have hbody := desugarExpr_agrees body hs.numberedBinders hb
    rw [hbody.number] at hcs
    obtain ⟨hnumber, hhygienic⟩ := desugarCases_agrees cases (hs.mono (by omega)) hcs
    constructor
    · rw [hnumber, casesDraws]
      omega
    · rw [casesHygienic, casesClashFree, hp.binds, ← List.map_reverse, ← List.map_append]
      exact and_congr hbody.hygienic hhygienic
  | .mk p (some guard) body :: cases, n, scope, r, hs, h => by
    rw [desugarCases] at h
    obtain ⟨b, hb, h⟩ := bind_eq_ok.mp h
    obtain ⟨w, hw, h⟩ := bind_eq_ok.mp h
    obtain ⟨cs, hcs, h⟩ := bind_eq_ok.mp h
    cases h
    have hp := desugarPattern_agrees root p n scope
    rw [hp.subst, hp.number] at hb
    have hbody := desugarExpr_agrees body hs.numberedBinders hb
    rw [hp.subst, hbody.number] at hw
    have hguard := desugarExpr_agrees guard (hs.numberedBinders.mono (Nat.le_add_right _ _)) hw
    rw [hguard.number] at hcs
    obtain ⟨hnumber, hhygienic⟩ := desugarCases_agrees cases (hs.mono (by omega)) hcs
    constructor
    · rw [hnumber, casesDraws]
      omega
    · rw [casesHygienic, casesClashFree, hp.binds, ← List.map_reverse, ← List.map_append]
      exact and_congr hbody.hygienic (and_congr hguard.hygienic hhygienic)

end

end Syli.Compiler.Desugar
