import Syli.Compiler.MatchHeads

/-! When the decision tree of a match has first-match semantics. -/
namespace Syli.Compiler.PatternMatching

open Foundation

variable {Ident Expr T L : Type} [DecidableEq L] {den : Constant → L}
  {holds : Expr → Set (Ident × Value L) → Bool} {shape : T → Shape T} {m : Matrix Ident Expr}
  {r : Row Ident Expr} {p : Pattern Ident} {v root : Value L} {vs ws : List (Value L)} {t : T}
  {tys : List T} {first occ : Occurrence} {col : Nat} {h : ColumnHead} {fuel : Nat}
  {tree : DecisionTree Ident Expr}

/-- What a row binds: what was recorded before, and what its patterns bind. -/
def Row.bindings (den : Constant → L) (root : Value L) (vs : List (Value L))
    (r : Row Ident Expr) : Option (Set (Ident × Value L)) :=
  both (some (boundAt root r.binds)) (Pattern.bindingsList den r.pats vs)

def firstRow (den : Constant → L) (holds : Expr → Set (Ident × Value L) → Bool) (root : Value L)
    (vs : List (Value L)) (rows : List (Row Ident Expr)) : Option (Set (Ident × Value L) × Expr) :=
  firstOf holds (rows.map fun r => (r.bindings den root vs, r.guard, r.body))

/-- The occurrences of the columns hold the values `vs`. -/
structure Located (root : Value L) (m : Matrix Ident Expr) (vs : List (Value L)) : Prop where
  occs : List.Forall₂ (fun o w => Occurrence.value root o = some w) m.occs vs
  binds : ∀ r ∈ m.rows, Defined root r.binds

/-- What a split relies on: binders in the chosen column only where it is column 0, one spelling
for a literal, and records that name a field once. -/
structure Faithful (den : Constant → L) (m : Matrix Ident Expr) (col : Nat) : Prop where
  binders : col = 0 ∨ ∀ r ∈ m.rows, ∀ id, r.pats[col]? ≠ some (.ident id)
  spelling : ∀ h ∈ m.heads col, ∀ h' ∈ m.heads col, headValue den h = headValue den h' → h = h'
  fields : ∀ r ∈ m.rows, ∀ fields, r.pats[col]? = some (.record fields) →
    (fields.map (·.1)).Nodup

def AllFaithful (den : Constant → L) (m : Matrix Ident Expr) : Prop :=
  ∀ m' col, Arises m m' → chooseColumn m'.rows = .ok col → Faithful den m' col

section Rows

omit [DecidableEq L] in
theorem boundAt_recordBind {binds : ActionBinds Ident}
    (hocc : occ.value root = some v ∨ ∀ id, p ≠ .ident id) :
    boundAt root (recordBind p occ binds) = binder p v ∪ boundAt root binds := by
  cases p with
  | ident id =>
    obtain hocc | hne := hocc
    · ext ⟨x, w⟩
      simp only [boundAt, recordBind, binder, Set.mem_ofPred_eq, List.mem_cons, Prod.mk.injEq,
        Set.mem_union, Set.mem_singleton_iff]
      constructor
      · rintro ⟨o, ⟨rfl, rfl⟩ | hmem, hw⟩
        · exact Or.inl ⟨rfl, Option.some.inj (hw.symm.trans hocc)⟩
        · exact Or.inr ⟨o, hmem, hw⟩
      · rintro (⟨rfl, rfl⟩ | ⟨o, hmem, hw⟩)
        · exact ⟨occ, Or.inl ⟨rfl, rfl⟩, hocc⟩
        · exact ⟨o, Or.inr hmem, hw⟩
    · exact (hne id rfl).elim
  | any | constant | tuple | record | constructor => simp [recordBind, binder]

omit [DecidableEq L] in
theorem defined_recordBind {binds : ActionBinds Ident} (hd : Defined root binds)
    (hocc : occ.value root = some v ∨ ∀ id, p ≠ .ident id) :
    Defined root (recordBind p occ binds) := by
  cases p with
  | ident id =>
    obtain hocc | hne := hocc
    · intro x hx
      rcases List.mem_cons.mp hx with rfl | hx
      · exact ⟨v, hocc⟩
      · exact hd x hx
    · exact (hne id rfl).elim
  | any | constant | tuple | record | constructor => exact hd

omit [DecidableEq L] in
theorem boundAt_append (bs bs' : ActionBinds Ident) :
    boundAt root (bs ++ bs') = boundAt root bs ∪ boundAt root bs' := by
  ext x
  simp only [boundAt, Set.mem_ofPred_eq, List.mem_append, Set.mem_union, or_and_right, exists_or]

/-- Rows that bind the same, or do not match, have the same first row. -/
theorem firstRow_filterMap {g : Row Ident Expr → Option (Row Ident Expr)}
    {rows : List (Row Ident Expr)} (hnone : ∀ r ∈ rows, g r = none → r.bindings den root vs = none)
    (hsome : ∀ r ∈ rows, ∀ r', g r = some r' → r'.bindings den root ws = r.bindings den root vs ∧
      r'.guard = r.guard ∧ r'.body = r.body) :
    firstRow den holds root ws (rows.filterMap g) = firstRow den holds root vs rows := by
  induction rows with
  | nil => rfl
  | cons r rows ih =>
    have ih := ih (fun r' hr' => hnone r' (by simp [hr'])) fun r' hr' => hsome r' (by simp [hr'])
    unfold firstRow at ih ⊢
    cases hg : g r with
    | none =>
      rw [List.filterMap_cons_none hg, ih, List.map_cons, hnone r (by simp) hg, firstOf]
    | some r' =>
      obtain ⟨hb, hguard, hbody⟩ := hsome r (by simp) r' hg
      rw [List.filterMap_cons_some hg, List.map_cons, List.map_cons, hb, hguard, hbody]
      cases r.bindings den root vs with
      | none => simpa only [firstOf] using ih
      | some b => simp only [firstOf, ih]

/-- What the leaf of a row records is what its wildcards and binders bind. -/
theorem bindings_leaf (den : Constant → L) {pats : List (Pattern Ident)} {occs : List Occurrence}
    {acc : ActionBinds Ident} (hd : pats.all isDefaultPattern = true)
    (hlen : pats.length = occs.length)
    (hocc : List.Forall₂ (fun o w => Occurrence.value root o = some w) occs vs)
    (hacc : Defined root acc) :
    let binds := (pats.zip occs).foldl (fun acc po => recordBind po.1 po.2 acc) acc
    Defined root binds ∧
      both (some (boundAt root acc)) (Pattern.bindingsList den pats vs) =
        some (boundAt root binds) := by
  induction pats generalizing occs vs acc with
  | nil =>
    obtain rfl := List.length_eq_zero_iff.mp hlen.symm
    cases hocc
    exact ⟨hacc, by simp [Pattern.bindingsList]⟩
  | cons p pats ih =>
    cases hocc with
    | nil => simp at hlen
    | @cons o w occs vs ho hocc =>
      simp only [List.all_cons, Bool.and_eq_true] at hd
      obtain ⟨hdef, hb⟩ := ih hd.2 (Nat.succ.inj hlen) hocc
        (defined_recordBind hacc (p := p) (Or.inl ho))
      refine ⟨hdef, ?_⟩
      rw [boundAt_recordBind (Or.inl ho)] at hb
      rw [bindingsList_cons, bindings_default hd.1, ← both_assoc, List.zip_cons_cons,
        List.foldl_cons, ← hb]
      congr 1
      simp [both, Set.union_comm]

end Rows

section Splits

variable (hm : MatrixTy shape m tys) (hc : Chosen m tys col first occ t)
  (hf : Faithful den m col) (hvs : List.Forall₂ (ValueTy shape) vs tys) (hl : Located root m vs)

theorem mem_heads {head : Refutable} (hr : r ∈ m.rows) (hp : r.pats[col]? = some p)
    (hhead : headOf p = .refutable head) : head ∈ m.heads col := by
  refine List.mem_filterMap.mpr ⟨swapRow col r, List.mem_map_of_mem hr, ?_⟩
  have hpats : (swapRow col r).pats = p :: r.pats.eraseIdx col := moveToFront_eq hp
  simp only [refutableHead, hpats, hhead]

theorem headOf_constant {c : Constant} (hne : c ≠ .unit) :
    headOf (.constant c : Pattern Ident) = .refutable (.constant c) := by
  cases c <;> first | rfl | exact (hne rfl).elim

omit [DecidableEq L] in
include hc hf in
/-- A binder of the chosen column is recorded with the occurrence of that column. -/
theorem first_value (hr : r ∈ m.rows) (hp : r.pats[col]? = some p)
    (hocc : occ.value root = some v) :
    first.value root = some v ∨ ∀ id, p ≠ .ident id := by
  rcases hf.binders with rfl | hno
  · obtain rfl := Option.some.inj (hc.first.symm.trans hc.occ)
    exact Or.inl hocc
  · exact Or.inr fun id heq => hno r hr id (heq ▸ hp)

omit [DecidableEq L] in
include hf in
theorem agrees_of_faithful (hh : h.HeadTy shape t tys) (hty : HasTy shape p t) (hr : r ∈ m.rows)
    (hp : r.pats[col]? = some p) (hmem : ∀ head, h = .refutable head → head ∈ m.heads col)
    (hfields : m.FieldsIn col h) : Agrees den h p := by
  constructor
  · rintro c c' rfl rfl hden
    have hmem' : Refutable.constant c' ∈ m.heads col := by
      cases hh with
      | literal hshape =>
        cases hty with
        | literal _ hne => exact mem_heads hr hp (headOf_constant hne)
        | unit hshape' => cases hshape.symm.trans hshape'
    have heq := hf.spelling _ (hmem _ rfl) _ hmem' (by simp only [headValue, hden])
    exact Refutable.constant.inj heq
  · rintro fields rfl
    exact hf.fields r hr fields hp
  · rintro fields indices rfl hrec
    exact hfields indices hrec r hr fields hp

variable {tys' : List T}

include hm hc hf hvs hl in
/-- The rows below the head of the value select what the rows of the matrix select. -/
theorem below_sound (holds : Expr → Set (Ident × Value L) → Bool)
    (hh : h.HeadTy shape t tys') (hv : vs[col]? = some v)
    (hocc : occ.value root = some v) (hw : HasHead den h v ws)
    (hmem : ∀ head, h = .refutable head → head ∈ m.heads col) (hfields : m.FieldsIn col h) :
    Located root (m.below col first occ h) (ws ++ vs.eraseIdx col) ∧
      List.Forall₂ (ValueTy shape) (ws ++ vs.eraseIdx col) (tys' ++ tys.eraseIdx col) ∧
      firstRow den holds root (ws ++ vs.eraseIdx col) (m.below col first occ h).rows =
        firstRow den holds root vs m.rows := by
  have hvty : ValueTy shape v t := by
    obtain ⟨v', hv', hvty⟩ := forall₂_getElem? hvs hc.ty
    obtain rfl := Option.some.inj (hv.symm.trans hv')
    exact hvty
  have hwty := hasHead_typed hh hvty hw
  have hrow : ∀ r ∈ m.rows, ∃ p, r.pats[col]? = some p ∧ HasTy shape p t ∧
      (specializeRow first h ∘ swapRow col) r = (h.subs p).map fun subs =>
        { r with pats := subs ++ r.pats.eraseIdx col, binds := recordBind p first r.binds } := by
    intro r hr
    obtain ⟨p, hp, hpats, hty, -⟩ := swapRow_typed (hm.rows r hr) hc.ty
    exact ⟨p, hp, hty, specializeRow_cons hpats⟩
  have hrows : (m.below col first occ h).rows =
      m.rows.filterMap (specializeRow first h ∘ swapRow col) := List.filterMap_map ..
  refine ⟨⟨List.rel_append (hasHead_located hocc hw) (forall₂_eraseIdx hl.occs col), ?_⟩,
    List.rel_append hwty (forall₂_eraseIdx hvs col), ?_⟩
  · intro r' hr'
    rw [hrows] at hr'
    obtain ⟨r, hr, hspec⟩ := List.mem_filterMap.mp hr'
    obtain ⟨p, hp, -, heq⟩ := hrow r hr
    rw [heq, Option.map_eq_some_iff] at hspec
    obtain ⟨subs, -, rfl⟩ := hspec
    exact defined_recordBind (hl.binds r hr) (first_value hc hf hr hp hocc)
  · rw [hrows]
    have hbind : ∀ r ∈ m.rows, ∀ p, r.pats[col]? = some p → HasTy shape p t →
        r.bindings den root vs = both (some (boundAt root r.binds))
          (both ((h.subs p).bind fun subs =>
              both (some (binder p v)) (Pattern.bindingsList den subs ws))
            (Pattern.bindingsList den (r.pats.eraseIdx col) (vs.eraseIdx col))) := by
      intro r hr p hp hty
      rw [Row.bindings, bindingsList_eraseIdx hp hv,
        bindings_eq hh hty hw (agrees_of_faithful hf hh hty hr hp hmem hfields)]
    refine firstRow_filterMap (fun r hr hnone => ?_) fun r hr r' hsome => ?_
    · obtain ⟨p, hp, hty, heq⟩ := hrow r hr
      rw [heq, Option.map_eq_none_iff] at hnone
      simp [hbind r hr p hp hty, hnone]
    · obtain ⟨p, hp, hty, heq⟩ := hrow r hr
      rw [heq, Option.map_eq_some_iff] at hsome
      obtain ⟨subs, hsubs, rfl⟩ := hsome
      refine ⟨?_, rfl, rfl⟩
      have hlen : subs.length = ws.length :=
        (subs_typed hh hty hsubs).length_eq.trans hwty.length_eq.symm
      have hfirst : boundAt root (recordBind p first r.binds) =
          binder p v ∪ boundAt root r.binds :=
        boundAt_recordBind (first_value hc hf hr hp hocc)
      rw [hbind r hr p hp hty, hsubs, Option.bind_some, Row.bindings, bindingsList_append hlen,
        hfirst, ← both_some, both_comm (some (binder p v)), both_assoc, both_assoc]

/-- A pattern whose head the value does not have does not match it. -/
theorem bindings_of_no_test (hr : r ∈ m.rows) (hp : r.pats[col]? = some p)
    (hty : HasTy shape p t) (hd : isDefaultPattern p = false) (hheads : m.heads col ≠ [])
    (htyped : ∀ head ∈ m.heads col, ∃ tys', (ColumnHead.refutable head).HeadTy shape t tys')
    (hno : ∀ head ∈ m.heads col, testMatches den (testOf occ head) v = false) :
    p.bindings den v = none := by
  obtain ⟨head, hhead⟩ := List.exists_mem_of_ne_nil _ hheads
  obtain ⟨tys', hh⟩ := htyped head hhead
  cases hty with
  | any | ident => cases hd
  | @literal _ c hshape hne =>
    have hno := hno _ (mem_heads hr hp (headOf_constant hne))
    simp only [testOf, testMatches] at hno
    simp [Pattern.bindings, hno]
  | constant hshape hlookup | constructor hshape hlookup =>
    have hno := hno _ (mem_heads hr hp rfl)
    cases v with
    | constructor tag payload =>
      simp only [testOf, testMatches, decide_eq_false_iff_not] at hno
      simp [Pattern.bindings, hno]
    | unit | literal | tuple | record => simp [Pattern.bindings]
  | unit hshape | tuple hshape | record hshape =>
    cases hh with
    | literal hshape' | constant hshape' | constructor hshape' => cases hshape.symm.trans hshape'

include hm hc hf hl in
/-- For a value without a head of the column, the default rows select what the matrix selects. -/
theorem defaults_sound (holds : Expr → Set (Ident × Value L) → Bool)
    (hv : vs[col]? = some v) (hocc : occ.value root = some v)
    (hheads : m.heads col ≠ [])
    (htyped : ∀ head ∈ m.heads col, ∃ tys', (ColumnHead.refutable head).HeadTy shape t tys')
    (hno : ∀ head ∈ m.heads col, testMatches den (testOf occ head) v = false) :
    Located root (m.defaults col first) (vs.eraseIdx col) ∧
      firstRow den holds root (vs.eraseIdx col) (m.defaults col first).rows =
        firstRow den holds root vs m.rows := by
  have hrow : ∀ r ∈ m.rows, ∃ p, r.pats[col]? = some p ∧ HasTy shape p t ∧
      (defaultRow first ∘ swapRow col) r = if isDefaultPattern p = true then
        some { r with pats := r.pats.eraseIdx col, binds := recordBind p first r.binds }
      else none := by
    intro r hr
    obtain ⟨p, hp, hpats, hty, -⟩ := swapRow_typed (hm.rows r hr) hc.ty
    refine ⟨p, hp, hty, ?_⟩
    simp only [Function.comp, defaultRow, hpats]
    rfl
  have hrows : (m.defaults col first).rows = m.rows.filterMap (defaultRow first ∘ swapRow col) :=
    List.filterMap_map ..
  refine ⟨⟨forall₂_eraseIdx hl.occs col, ?_⟩, ?_⟩
  · intro r' hr'
    rw [hrows] at hr'
    obtain ⟨r, hr, hspec⟩ := List.mem_filterMap.mp hr'
    obtain ⟨p, hp, -, heq⟩ := hrow r hr
    rw [heq, Option.ite_none_right_eq_some] at hspec
    obtain ⟨-, hspec⟩ := hspec
    obtain rfl := Option.some.inj hspec
    exact defined_recordBind (hl.binds r hr) (first_value hc hf hr hp hocc)
  · rw [hrows]
    refine firstRow_filterMap (fun r hr hnone => ?_) fun r hr r' hsome => ?_
    · obtain ⟨p, hp, hty, heq⟩ := hrow r hr
      have hd : isDefaultPattern p = false := by
        by_contra hd
        rw [heq, if_pos (by simpa using hd)] at hnone
        cases hnone
      rw [Row.bindings, bindingsList_eraseIdx hp hv,
        bindings_of_no_test hr hp hty hd hheads htyped hno]
      simp
    · obtain ⟨p, hp, hty, heq⟩ := hrow r hr
      rw [heq, Option.ite_none_right_eq_some] at hsome
      obtain ⟨hd, hsome⟩ := hsome
      obtain rfl := Option.some.inj hsome
      refine ⟨?_, rfl, rfl⟩
      have hfirst : boundAt root (recordBind p first r.binds) =
          binder p v ∪ boundAt root r.binds :=
        boundAt_recordBind (first_value hc hf hr hp hocc)
      rw [Row.bindings, Row.bindings, bindingsList_eraseIdx hp hv, bindings_default hd, hfirst,
        ← both_some, both_comm (some (binder p v)), both_assoc]

end Splits

omit [DecidableEq L] in
theorem AllFaithful.child {m' : Matrix Ident Expr} {s : Split Ident Expr}
    (hall : AllFaithful den m) (hs : split m = .ok s) (hmem : m' ∈ s.children) :
    AllFaithful den m' :=
  fun m'' col ha hcol => hall m'' col (.child hs hmem ha) hcol

theorem firstRow_cons {b : Set (Ident × Value L)} {rest : List (Row Ident Expr)}
    (hb : r.bindings den root vs = some b) :
    firstRow den holds root vs (r :: rest) =
      if guardHolds holds r.guard b then some (b, r.body)
      else firstRow den holds root vs rest := by
  rw [firstRow, List.map_cons, hb, firstOf]
  rfl

/-- The leaf of a row without heads binds what the row binds. -/
theorem row_leaf (den : Constant → L) (hm : MatrixTy shape m tys) (hl : Located root m vs)
    (hr : r ∈ m.rows) (hd : r.pats.all isDefaultPattern = true) :
    let binds := (r.pats.zip m.occs).foldl (fun acc po => recordBind po.1 po.2 acc) [] ++ r.binds
    Defined root binds ∧ r.bindings den root vs = some (boundAt root binds) := by
  have hlen : r.pats.length = m.occs.length := (hm.rows r hr).length_eq.trans hm.occs.symm
  have hnil : Defined root ([] : ActionBinds Ident) := fun x hx => by cases hx
  obtain ⟨hdef, hb⟩ := bindings_leaf den hd hlen hl.occs hnil
  refine ⟨fun x hx => ?_, ?_⟩
  · rcases List.mem_append.mp hx with hx | hx
    · exact hdef x hx
    · exact hl.binds r hr x hx
  · have hempty : boundAt root ([] : ActionBinds Ident) = ∅ := by simp [boundAt]
    rw [hempty, empty_both] at hb
    rw [Row.bindings, hb, boundAt_append, both_some, Set.union_comm]

omit [DecidableEq L] in
theorem values_located (hc : Chosen m tys col first occ t) (hl : Located root m vs)
    (hvs : List.Forall₂ (ValueTy shape) vs tys) :
    ∃ v, vs[col]? = some v ∧ occ.value root = some v ∧ ValueTy shape v t := by
  obtain ⟨v, hv, hocc⟩ := forall₂_getElem? hl.occs.flip hc.occ
  obtain ⟨v', hv', hty⟩ := forall₂_getElem? hvs hc.ty
  obtain rfl := Option.some.inj (hv.symm.trans hv')
  exact ⟨v, hv, hocc, hty⟩

/-- The tree of a matrix selects the first row that matches, if every split is faithful. -/
theorem compile_sound {o : Option (Set (Ident × Value L) × Expr)} (hm : MatrixTy shape m tys)
    (hvs : List.Forall₂ (ValueTy shape) vs tys) (hl : Located root m vs)
    (hall : AllFaithful den m) (hok : compile fuel m = .ok tree) :
    Eval den holds root tree o ↔ o = firstRow den holds root vs m.rows := by
  induction fuel generalizing m tys vs tree with
  | zero => cases hok
  | succ fuel ih =>
    obtain ⟨fuel', s, hfuel, hs, htree⟩ := compile_cases hok
    obtain rfl : fuel = fuel' := by omega
    obtain ⟨s', hs', hof⟩ := split_ok hm
    obtain rfl := Except.ok.inj (hs.symm.trans hs')
    have htyped : ∀ m' ∈ s.children, ∃ tys', MatrixTy shape m' tys' :=
      fun m' hmem => (children_typed hm hof hmem).2
    have hchild := fun m' (hmem : m' ∈ s.children) => hall.child hs hmem
    cases hof with
    | fail hrows =>
      cases htree
      rw [eval_fail, hrows]
      rfl
    | @leaf r rest hrows hd hg =>
      cases htree
      obtain ⟨hdef, hb⟩ := row_leaf den hm hl (by simp [hrows]) hd
      rw [eval_leaf hdef, hrows, firstRow_cons hb, hg]
      rfl
    | @guard r rest g hrows hd hg =>
      cases htree with
      | guard hfail =>
        obtain ⟨hdef, hb⟩ := row_leaf den hm hl (by simp [hrows]) hd
        have hrest : Located root ⟨m.occs, rest⟩ vs :=
          ⟨hl.occs, fun r' hr' => hl.binds r' (by simp [hrows, List.mem_cons_of_mem _ hr'])⟩
        have hrestTy : MatrixTy shape ⟨m.occs, rest⟩ tys :=
          ⟨hm.occs, fun r' hr' => hm.rows r' (by simp [hrows, List.mem_cons_of_mem _ hr'])⟩
        have hrec := ih hrestTy hvs hrest (hchild _ (List.mem_singleton.mpr rfl)) hfail
        rw [eval_guard hdef, hrows, firstRow_cons hb, hg, guardHolds]
        split
        · rfl
        · exact hrec
    | @switch col first occ t hc hheads hheadTys =>
      cases htree with
      | @switch _ _ cases' _ default' hcases hdefault =>
        obtain ⟨v, hv, hocc, hvty⟩ := values_located hc hl hvs
        have hf := hall m col .refl hc.choose
        cases hfind : cases'.find? fun c => testMatches den c.1 v with
        | none =>
          have hno : ∀ head ∈ m.heads col, testMatches den (testOf occ head) v = false := by
            intro head hhead
            have hcase : (testOf occ head, m.below col first occ (.refutable head)) ∈
                (ComparatorSet.ofList (m.heads col)).elements.reverse.map fun head =>
                  (testOf occ head, m.below col first occ (.refutable head)) :=
              List.mem_map_of_mem
                (List.mem_reverse.mpr (ComparatorSet.mem_elements_ofList.mpr hhead))
            obtain ⟨c', hc', htest, -⟩ := exists_right_of_forall₂ hcases hcase
            have hnone := List.find?_eq_none.mp hfind c' hc'
            rw [htest] at hnone
            exact Bool.eq_false_of_not_eq_true hnone
          obtain ⟨hl', heq⟩ := defaults_sound hm hc hf hl holds hv hocc hheads
            hheadTys hno
          rw [eval_default hocc hfind, ← heq]
          exact ih (defaults_typed hm hc) (forall₂_eraseIdx hvs col) hl'
            (hchild _ (by simp [Split.children])) hdefault
        | some c =>
          obtain ⟨c₀, hc₀, htest, hok₀⟩ :=
            exists_left_of_forall₂ hcases (List.mem_of_find?_eq_some hfind)
          have hmem : c₀.2 ∈ (Split.switch occ _ (m.defaults col first)).children :=
            List.mem_append_left _ (List.mem_map_of_mem hc₀)
          obtain ⟨head, hhead, rfl⟩ := List.mem_map.mp hc₀
          have hhead := ComparatorSet.mem_elements_ofList.mp (List.mem_reverse.mp hhead)
          obtain ⟨tys', hh⟩ := hheadTys head hhead
          have hmatch := List.find?_some hfind
          simp only [htest] at hmatch
          obtain ⟨ws, hw⟩ := hasHead_of_testMatches hh hvty hmatch
          obtain ⟨hl', hvs', heq⟩ := below_sound hm hc hf hvs hl holds hh hv hocc hw
            (fun head' heq => ColumnHead.refutable.inj heq ▸ hhead) fun _ heq => by cases heq
          rw [eval_case hocc hfind, ← heq]
          exact ih (below_typed hm hc hh) hvs' hl' (hchild _ hmem) hok₀
    | @expand col first occ t h tys' hc hheads hh hne hfields =>
      cases htree with
      | expand hok =>
        obtain ⟨v, hv, hocc, hvty⟩ := values_located hc hl hvs
        have hf := hall m col .refl hc.choose
        obtain ⟨ws, hw⟩ := hasHead_irrefutable den hh hvty hne
        obtain ⟨hl', hvs', heq⟩ := below_sound hm hc hf hvs hl holds hh hv hocc hw
          (fun head heq => (hne head heq).elim) hfields
        rw [← heq]
        exact ih (below_typed hm hc hh) hvs' hl' (hchild _ (by simp [Split.children])) hok

/-- Well-typed cases are compiled, and the tree has first-match semantics if every split is
faithful. -/
theorem first_match_preserved (den : Constant → L) (holds : Expr → Set (Ident × Value L) → Bool)
    {cases : List (PatternCase Ident Expr)} (hcases : ∀ c ∈ cases, HasTy shape c.pattern t) :
    ∃ tree, compileMatch cases = .ok tree ∧ (AllFaithful den (matrixOf cases) →
      ∀ v, ValueTy shape v t → ∀ o, Eval den holds v tree o ↔ o = firstMatch den holds cases v) := by
  have hm := matrixOf_typed hcases
  obtain ⟨tree, hok⟩ := compile_ok hm (Nat.lt_succ_self _)
  refine ⟨tree, hok, fun hall v hv o => ?_⟩
  have hl : Located v (matrixOf cases) [v] := by
    refine ⟨.cons rfl .nil, fun r hr => ?_⟩
    obtain ⟨c, -, rfl⟩ := List.mem_map.mp hr
    exact fun x hx => by cases hx
  rw [compile_sound hm (.cons hv .nil) hl hall hok]
  have hrow : firstRow den holds v [v] (matrixOf cases).rows = firstMatch den holds cases v := by
    simp only [firstRow, firstMatch, matrixOf, List.map_map]
    congr 1
    refine List.map_congr_left fun c _ => ?_
    have hempty : boundAt v ([] : ActionBinds Ident) = ∅ := by simp [boundAt]
    simp [Row.bindings, hempty, Pattern.bindingsList]
  rw [hrow]

section Example

/-- Pairs of numbers. -/
inductive CoordTy where
  | point
  | coord

def coordShape : CoordTy → Shape CoordTy
  | .point => .tuple [.coord, .coord]
  | .coord => .literal

omit [DecidableEq L] in
/-- A matrix all of whose descendants are in a list of faithful ones. -/
theorem allFaithful_of_closed {l : List (Matrix Ident Expr)} (hm : m ∈ l)
    (hclosed : ∀ m' ∈ l, ∃ s, split m' = .ok s ∧ ∀ c ∈ s.children, c ∈ l)
    (hfaithful : ∀ m' ∈ l, ∀ col, chooseColumn m'.rows = .ok col → Faithful den m' col) :
    AllFaithful den m := by
  intro m' col ha hcol
  refine hfaithful m' ?_ col hcol
  clear hcol
  induction ha with
  | refl => exact hm
  | child hs hmem _ ih =>
    obtain ⟨s, hs', hchildren⟩ := hclosed _ hm
    obtain rfl := Except.ok.inj (hs'.symm.trans hs)
    exact ih (hchildren _ hmem)

theorem coords_typed {p q : Pattern String} (hp : HasTy coordShape p .coord)
    (hq : HasTy coordShape q .coord) : HasTy coordShape (.tuple [p, q]) .point := by
  refine .tuple rfl rfl fun i r ty hr hty => ?_
  match i with
  | 0 =>
    obtain rfl := Option.some.inj hr
    obtain rfl := Option.some.inj hty
    exact hp
  | 1 =>
    obtain rfl := Option.some.inj hr
    obtain rfl := Option.some.inj hty
    exact hq
  | i + 2 => simp at hr

/-- The origin, the other points of an axis, and the rest. -/
def axisCases : List (PatternCase String Nat) :=
  [⟨.tuple [.constant (.intLit "0"), .constant (.intLit "0")], none, 0⟩,
    ⟨.tuple [.ident "u", .constant (.intLit "0")], none, 1⟩,
    ⟨.tuple [.ident "u", .ident "w"], none, 2⟩]

theorem axisCases_typed : ∀ c ∈ axisCases, HasTy coordShape c.pattern .point := by
  intro c hc
  simp only [axisCases, List.mem_cons, List.not_mem_nil, or_false] at hc
  rcases hc with rfl | rfl | rfl
  · exact coords_typed (.literal rfl nofun) (.literal rfl nofun)
  · exact coords_typed .ident (.literal rfl nofun)
  · exact coords_typed .ident .ident

/-- The matrices that arise, from the one of the cases to those of the leaves. -/
def axisMatrices : List (Matrix String Nat) :=
  let zero : Pattern String := .constant (.intLit "0")
  let fst : Occurrence := .tuple .scrutinee 0
  let snd : Occurrence := .tuple .scrutinee 1
  let u : String × Occurrence := ("u", fst)
  let w : String × Occurrence := ("w", snd)
  [matrixOf axisCases,
    ⟨[fst, snd], [⟨[zero, zero], [], none, 0⟩, ⟨[.ident "u", zero], [], none, 1⟩,
      ⟨[.ident "u", .ident "w"], [], none, 2⟩]⟩,
    ⟨[snd], [⟨[zero], [], none, 0⟩, ⟨[zero], [u], none, 1⟩, ⟨[.ident "w"], [u], none, 2⟩]⟩,
    ⟨[snd], [⟨[zero], [u], none, 1⟩, ⟨[.ident "w"], [u], none, 2⟩]⟩,
    ⟨[], [⟨[], [], none, 0⟩, ⟨[], [u], none, 1⟩, ⟨[], [w, u], none, 2⟩]⟩,
    ⟨[], [⟨[], [u], none, 1⟩, ⟨[], [w, u], none, 2⟩]⟩, ⟨[], [⟨[], [w, u], none, 2⟩]⟩]

theorem axisMatrices_closed :
    ∀ m ∈ axisMatrices, ∃ s, split m = .ok s ∧ ∀ c ∈ s.children, c ∈ axisMatrices := by
  intro m hm
  simp only [axisMatrices, List.mem_cons, List.not_mem_nil, or_false] at hm
  rcases hm with rfl | rfl | rfl | rfl | rfl | rfl | rfl
  all_goals
    refine ⟨_, rfl, ?_⟩
    simp [Split.children, axisMatrices, recordBind, matrixOf, axisCases, List.range_succ]

theorem axisCases_faithful : AllFaithful constantValue (matrixOf axisCases) := by
  refine allFaithful_of_closed List.mem_cons_self axisMatrices_closed ?_
  intro m hm col hcol
  have hone : col = 0 ∧ (∀ h ∈ m.heads 0, h = .constant (.intLit "0")) ∧
      ∀ r ∈ m.rows, ∀ fields, r.pats[0]? ≠ some (.record fields) := by
    simp only [List.mem_cons, List.not_mem_nil, or_false] at hm
    rcases hm with rfl | rfl | rfl | rfl | rfl | rfl | rfl
    · exact ⟨(Except.ok.inj hcol).symm, by decide, by simp [matrixOf, axisCases]⟩
    · exact ⟨(Except.ok.inj hcol).symm, by decide, by simp⟩
    · exact ⟨(Except.ok.inj hcol).symm, by decide, by simp⟩
    · exact ⟨(Except.ok.inj hcol).symm, by decide, by simp⟩
    all_goals cases hcol
  obtain ⟨rfl, hheads, hrecord⟩ := hone
  refine ⟨Or.inl rfl, fun h hh h' hh' _ => ?_, fun r hr fields hp => (hrecord r hr fields hp).elim⟩
  rw [hheads h hh, hheads h' hh']

theorem first_match_axisCases :
    ∃ tree, compileMatch axisCases = .ok tree ∧ ∀ v, ValueTy coordShape v .point →
      ∀ o, Eval constantValue (fun _ _ => true) v tree o ↔
        o = firstMatch constantValue (fun _ _ => true) axisCases v := by
  obtain ⟨tree, hok, h⟩ :=
    first_match_preserved constantValue (fun (_ : Nat) _ => true) axisCases_typed
  exact ⟨tree, hok, h axisCases_faithful⟩

/-- The first case splits column 1, where the second one has a binder. -/
def swappedCases : List (PatternCase String Nat) :=
  [⟨.tuple [.any, .constant (.intLit "0")], none, 0⟩,
    ⟨.tuple [.ident "u", .ident "w"], none, 1⟩]

theorem swappedCases_typed : ∀ c ∈ swappedCases, HasTy coordShape c.pattern .point := by
  intro c hc
  simp only [swappedCases, List.mem_cons, List.not_mem_nil, or_false] at hc
  rcases hc with rfl | rfl
  · exact coords_typed .any (.literal rfl nofun)
  · exact coords_typed .ident .ident

def defaultLeaf : CompileResult (DecisionTree String Nat) →
    Option (Occurrence × List PatternTest × ActionBinds String × Nat)
  | .ok (.switch occ cases (.leaf binds body)) => some (occ, cases.map (·.1), binds, body)
  | _ => none

def fiveSeven : Value (Constant ⊕ Nat) := .tuple [.literal (.inr 5), .literal (.inr 7)]

theorem fiveSeven_typed : ValueTy coordShape fiveSeven .point := by
  refine .tuple rfl rfl fun i v ty hv hty => ?_
  match i with
  | 0 | 1 =>
    obtain rfl := Option.some.inj hv
    obtain rfl := Option.some.inj hty
    exact .literal rfl
  | i + 2 => simp at hv

/-- The second variable of the default leaf is bound to the first number. -/
theorem second_variable_bound_to_first :
    (∀ c ∈ swappedCases, HasTy coordShape c.pattern .point) ∧
      ValueTy coordShape fiveSeven .point ∧
      ∃ tree, compileMatch swappedCases = .ok tree ∧
        ¬ ∀ o, Eval constantValue (fun _ _ => true) fiveSeven tree o ↔
          o = firstMatch constantValue (fun _ _ => true) swappedCases fiveSeven := by
  refine ⟨swappedCases_typed, fiveSeven_typed, ?_⟩
  obtain ⟨tree, hok⟩ := compile_ok (matrixOf_typed swappedCases_typed) (Nat.lt_succ_self _)
  refine ⟨tree, hok, fun heval => ?_⟩
  have htree : compileMatch swappedCases = .ok tree := hok
  have hroot : defaultLeaf (compileMatch swappedCases) =
      some (.tuple .scrutinee 1, [.constant (.intLit "0")],
        [("u", .tuple .scrutinee 0), ("w", .tuple .scrutinee 0)], 1) := by
    decide +kernel
  rw [htree] at hroot
  cases tree with
  | switch occ cases default =>
    cases default with
    | leaf binds body =>
      simp only [defaultLeaf, Option.some.injEq, Prod.mk.injEq] at hroot
      obtain ⟨rfl, htests, rfl, rfl⟩ := hroot
      have hocc : (Occurrence.tuple .scrutinee 1).value fiveSeven =
          some (.literal (.inr 7)) := rfl
      have hfind : cases.find? (fun c =>
          testMatches constantValue c.1 (.literal (.inr 7))) = none := by
        refine List.find?_eq_none.mpr fun c hc => ?_
        have htest : c.1 ∈ cases.map (·.1) := List.mem_map_of_mem hc
        rw [htests, List.mem_singleton] at htest
        rw [htest]
        decide
      have hdef : Defined fiveSeven [("u", .tuple .scrutinee 0), ("w", .tuple .scrutinee 0)] := by
        intro x hx
        simp only [List.mem_cons, List.not_mem_nil, or_false] at hx
        rcases hx with rfl | rfl <;> exact ⟨.literal (.inr 5), rfl⟩
      have hbound := (heval _).mp ((eval_default hocc hfind).mpr ((eval_leaf hdef).mpr rfl))
      have hfirst : firstMatch constantValue (fun _ _ => true) swappedCases fiveSeven =
          some ({("u", .literal (.inr 5))} ∪ {("w", .literal (.inr 7))}, 1) := by
        have hno : matchesConstant constantValue (.intLit "0") (.literal (.inr 7)) = false := by
          decide
        simp [firstMatch, swappedCases, fiveSeven, firstOf, Pattern.bindings,
          Pattern.bindingsList, hno, guardHolds, both_some]
      rw [hfirst] at hbound
      obtain ⟨hset, -⟩ := Prod.mk.inj (Option.some.inj hbound)
      have hmem : ("w", Value.literal (.inr 5)) ∈ boundAt fiveSeven
          [("u", .tuple .scrutinee 0), ("w", .tuple .scrutinee 0)] :=
        ⟨.tuple .scrutinee 0, by simp, rfl⟩
      rw [hset] at hmem
      simp at hmem
    | fail | guard | switch => cases hroot
  | fail | leaf | guard => cases hroot

end Example

end Syli.Compiler.PatternMatching
