import Syli.Compiler.PatternTyping

/-! What one call of the match compiler does with a well-typed matrix. -/
namespace Syli.Compiler.PatternMatching

open Foundation

variable {Ident Expr T : Type} {shape : T → Shape T} {m : Matrix Ident Expr} {tys : List T}
  {rows : List (Row Ident Expr)} {r : Row Ident Expr} {col : Nat} {t : T}
  {first occ : Occurrence} {h : ColumnHead}

def moveToFront {α : Type} (col : Nat) (l : List α) : List α := l[col]?.toList ++ l.eraseIdx col

def swapRow (col : Nat) (r : Row Ident Expr) : Row Ident Expr :=
  { r with pats := moveToFront col r.pats }

/-- The row without column 0, if it has no head there. -/
def defaultRow (occ : Occurrence) (r : Row Ident Expr) : Option (Row Ident Expr) :=
  match r.pats with
  | p :: rest =>
    if isDefaultPattern p then some { r with pats := rest, binds := recordBind p occ r.binds }
    else none
  | [] => none

namespace Matrix

/-- The heads of column `col`, from the first row to the last. -/
def heads (m : Matrix Ident Expr) (col : Nat) : List Refutable :=
  (m.rows.map (swapRow col)).filterMap refutableHead

/-- `first` is the occurrence of column 0 before the columns are swapped. -/
def below (m : Matrix Ident Expr) (col : Nat) (first occ : Occurrence) (h : ColumnHead) :
    Matrix Ident Expr where
  occs := h.subOccs occ ++ m.occs.eraseIdx col
  rows := (m.rows.map (swapRow col)).filterMap (specializeRow first h)

/-- A record head has the fields of every record in the column. -/
def FieldsIn (m : Matrix Ident Expr) (col : Nat) (h : ColumnHead) : Prop :=
  ∀ indices, h = .record indices → ∀ r ∈ m.rows, ∀ fields, r.pats[col]? = some (.record fields) →
    ∀ f ∈ fields, f.1 ∈ indices

def defaults (m : Matrix Ident Expr) (col : Nat) (first : Occurrence) : Matrix Ident Expr where
  occs := m.occs.eraseIdx col
  rows := (m.rows.map (swapRow col)).filterMap (defaultRow first)

end Matrix

/-- The column that `choose_column` picks: the first one with a head in the first row. -/
structure Chosen (m : Matrix Ident Expr) (tys : List T) (col : Nat) (first occ : Occurrence)
    (t : T) : Prop where
  choose : chooseColumn m.rows = .ok col
  head : ∃ r rest p, m.rows = r :: rest ∧ r.pats[col]? = some p ∧ isDefaultPattern p = false ∧
    ∀ (i : Nat) (q : Pattern Ident), i < col → r.pats[i]? = some q → isDefaultPattern q = true
  first : m.occs[0]? = some first
  occ : m.occs[col]? = some occ
  ty : tys[col]? = some t

/-- The outcomes of `split`. -/
inductive SplitOf (shape : T → Shape T) (m : Matrix Ident Expr) (tys : List T) :
    Split Ident Expr → Prop where
  | fail : m.rows = [] → SplitOf shape m tys .fail
  | leaf {r : Row Ident Expr} {rest : List (Row Ident Expr)} : m.rows = r :: rest →
      r.pats.all isDefaultPattern = true → r.guard = none →
      SplitOf shape m tys (.leaf ((r.pats.zip m.occs).foldl
        (fun acc po => recordBind po.1 po.2 acc) [] ++ r.binds) r.body)
  | guard {r : Row Ident Expr} {rest : List (Row Ident Expr)} {g : Expr} : m.rows = r :: rest →
      r.pats.all isDefaultPattern = true → r.guard = some g →
      SplitOf shape m tys (.guard ((r.pats.zip m.occs).foldl
        (fun acc po => recordBind po.1 po.2 acc) [] ++ r.binds) g r.body ⟨m.occs, rest⟩)
  | switch {col : Nat} {first occ : Occurrence} {t : T} : Chosen m tys col first occ t →
      m.heads col ≠ [] →
      (∀ head ∈ m.heads col, ∃ tys', (ColumnHead.refutable head).HeadTy shape t tys') →
      SplitOf shape m tys (.switch occ
        ((ComparatorSet.ofList (m.heads col)).elements.reverse.map fun head =>
          (testOf occ head, m.below col first occ (.refutable head)))
        (m.defaults col first))
  | expand {col : Nat} {first occ : Occurrence} {t : T} {h : ColumnHead} {tys' : List T} :
      Chosen m tys col first occ t → m.heads col = [] → h.HeadTy shape t tys' →
      (∀ head, h ≠ .refutable head) → m.FieldsIn col h →
      SplitOf shape m tys (.expand (m.below col first occ h))

section Columns

theorem forall₂_eraseIdx {α β : Type} {R : α → β → Prop} {l : List α} {l' : List β}
    (h : List.Forall₂ R l l') (i : Nat) : List.Forall₂ R (l.eraseIdx i) (l'.eraseIdx i) := by
  induction h generalizing i with
  | nil => simp
  | cons hab _ ih =>
    cases i with
    | zero => simpa
    | succ i => exact .cons hab (ih i)

theorem forall₂_getElem? {α β : Type} {R : α → β → Prop} {l : List α} {l' : List β}
    (h : List.Forall₂ R l l') {i : Nat} {b : β} (hb : l'[i]? = some b) :
    ∃ a, l[i]? = some a ∧ R a b := by
  induction h generalizing i with
  | nil => simp at hb
  | cons hab _ ih =>
    cases i with
    | zero =>
      obtain rfl := Option.some.inj hb
      exact ⟨_, rfl, hab⟩
    | succ i => exact ih hb

theorem moveToFront_eq {α : Type} {l : List α} {a : α} (ha : l[col]? = some a) :
    moveToFront col l = a :: l.eraseIdx col := by
  rw [moveToFront, ha]
  rfl

/-- A row of a well-typed matrix, with the chosen column in front. -/
theorem swapRow_typed (hr : List.Forall₂ (HasTy shape) r.pats tys) (ht : tys[col]? = some t) :
    ∃ p, r.pats[col]? = some p ∧ (swapRow col r).pats = p :: r.pats.eraseIdx col ∧
      HasTy shape p t ∧ List.Forall₂ (HasTy shape) (r.pats.eraseIdx col) (tys.eraseIdx col) := by
  obtain ⟨p, hp, hty⟩ := forall₂_getElem? hr ht
  exact ⟨p, hp, moveToFront_eq hp, hty, forall₂_eraseIdx hr col⟩

theorem swapRow_zero {p : Pattern Ident} (hp : r.pats[0]? = some p) : swapRow 0 r = r := by
  have hpats : moveToFront 0 r.pats = r.pats := by
    cases hr : r.pats with
    | nil => simp [hr] at hp
    | cons p rest => rfl
  rw [swapRow, hpats]

theorem columnTy_swap (hm : MatrixTy shape m tys) (ht : tys[col]? = some t) :
    ColumnTy shape (m.rows.map (swapRow col)) t := by
  intro r' hr'
  obtain ⟨r, hr, rfl⟩ := List.mem_map.mp hr'
  obtain ⟨p, -, hpats, hty, -⟩ := swapRow_typed (hm.rows r hr) ht
  exact ⟨p, _, hpats, hty⟩

theorem mapM_pure {α β : Type} {f : α → CompileResult β} {g : α → β} {l : List α}
    (hf : ∀ a ∈ l, f a = .ok (g a)) : l.mapM f = .ok (l.map g) := by
  induction l with
  | nil => rfl
  | cons a l ih =>
    rw [List.mapM_cons, hf a (by simp), ih fun b hb => hf b (by simp [hb])]
    rfl

theorem swapI_eq (hm : MatrixTy shape m tys) (hocc : m.occs[col]? = some occ)
    (ht : tys[col]? = some t) :
    swapI col m.rows m.occs = .ok (m.rows.map (swapRow col), occ, m.occs.eraseIdx col) := by
  have hrows : reorderRows col m.rows = .ok (m.rows.map (swapRow col)) := by
    unfold reorderRows
    split
    · rename_i hzero
      subst hzero
      have hid : m.rows.map (swapRow 0) = m.rows.map id := by
        refine List.map_congr_left fun r hr => ?_
        obtain ⟨p, hp, -⟩ := swapRow_typed (hm.rows r hr) ht
        exact swapRow_zero hp
      rw [hid, List.map_id]
    · refine mapM_pure fun r hr => ?_
      obtain ⟨p, hp, -⟩ := swapRow_typed (hm.rows r hr) ht
      simp only [reorderHead, pickN, hp, swapRow, moveToFront_eq hp]
      rfl
  rw [swapI, hrows]
  simp only [pickN, hocc]
  rfl

theorem refutableGroup_eq (rows : List (Row Ident Expr)) :
    refutableGroup rows = ComparatorSet.ofList (rows.filterMap refutableHead) := by
  unfold refutableGroup ComparatorSet.ofList
  rw [List.foldl_filterMap]
  congr 1
  funext acc row
  cases refutableHead row <;> rfl

theorem ofList_cardinal_pos {l : List Refutable} :
    0 < (ComparatorSet.ofList l).cardinal ↔ l ≠ [] := by
  rw [ComparatorSet.cardinal_eq, List.length_pos_iff_exists_mem]
  simp only [ComparatorSet.mem_elements_ofList]
  exact ⟨fun ⟨_, ha⟩ => List.ne_nil_of_mem ha, List.exists_mem_of_ne_nil l⟩

/-- A refutable head of a well-typed column belongs to its type. -/
theorem refutableHead_typed {head : Refutable} (hcol : ColumnTy shape rows t)
    (hmem : head ∈ rows.filterMap refutableHead) :
    ∃ tys', (ColumnHead.refutable head).HeadTy shape t tys' := by
  obtain ⟨r, hr, hhead⟩ := List.mem_filterMap.mp hmem
  obtain ⟨p, rest, hpats, hp⟩ := hcol r hr
  unfold refutableHead at hhead
  rw [hpats] at hhead
  cases hp with
  | any | ident | unit | tuple | record => cases hhead
  | @literal _ c hshape hc =>
    have hheadOf : headOf (.constant c : Pattern Ident) = .refutable (.constant c) := by
      cases c <;> first | rfl | exact (hc rfl).elim
    simp only [hheadOf] at hhead
    obtain rfl := Option.some.inj hhead
    exact ⟨[], .literal hshape⟩
  | constant hshape hlookup =>
    obtain rfl := Option.some.inj hhead
    exact ⟨[], .constant hshape hlookup⟩
  | constructor hshape hlookup =>
    obtain rfl := Option.some.inj hhead
    exact ⟨_, .constructor hshape hlookup⟩

theorem defaultRows_eq {os : List Occurrence} (hcol : ColumnTy shape rows t) :
    (defaultRows rows).mapM (stripHead (first :: os)) =
      .ok (rows.filterMap (defaultRow first)) := by
  induction rows with
  | nil => rfl
  | cons r rows ih =>
    have ih := ih fun r' hr' => hcol r' (by simp [hr'])
    obtain ⟨p, rest, hpats, -⟩ := hcol r (by simp)
    unfold defaultRows at ih ⊢
    by_cases hp : isDefaultPattern p = true
    · rw [List.filter_cons_of_pos (by simp [hpats, hp]), List.mapM_cons, stripHead,
        expandHead_cons hpats, ih, List.filterMap_cons_some (b := _)
          (by rw [defaultRow, hpats]; exact if_pos hp)]
      rfl
    · rw [List.filter_cons_of_neg (by simp [hpats, hp]), ih, List.filterMap_cons_none
        (by rw [defaultRow, hpats]; exact if_neg hp)]

theorem chooseColumn_eq (rest : List (Row Ident Expr))
    (hd : r.pats.all isDefaultPattern = false) :
    ∃ col p, chooseColumn (r :: rest) = .ok col ∧ r.pats[col]? = some p ∧
      isDefaultPattern p = false ∧
      ∀ (i : Nat) (q : Pattern Ident), i < col → r.pats[i]? = some q →
        isDefaultPattern q = true := by
  cases hfind : r.pats.findIdx? fun x => !isDefaultPattern x with
  | none =>
    rw [List.findIdx?_eq_none_iff] at hfind
    rw [List.all_eq_false] at hd
    obtain ⟨p, hp, hdp⟩ := hd
    simpa [hdp] using hfind p hp
  | some col =>
    have hok : chooseColumn (r :: rest) = .ok col := by
      simp only [chooseColumn, hfind]
    obtain ⟨hlt, hcol, hbefore⟩ := List.findIdx?_eq_some_iff_getElem.mp hfind
    refine ⟨col, r.pats[col], hok, List.getElem?_eq_getElem hlt, by simpa using hcol, ?_⟩
    intro i q hi hq
    obtain ⟨hilt, rfl⟩ := List.getElem?_eq_some_iff.mp hq
    simpa using hbefore i hi

theorem foldl_cases {α : Type} {f : Refutable → CompileResult α} {g : Refutable → α}
    (l : List Refutable) (acc : List α) (hf : ∀ x ∈ l, f x = .ok (g x)) :
    l.foldl (fun (b : CompileResult (List α)) x => do
      let cases ← b
      let a ← f x
      return a :: cases) (.ok acc) = .ok ((l.map g).reverse ++ acc) := by
  induction l generalizing acc with
  | nil => rfl
  | cons x l ih =>
    have hstep : (do
        let cases ← (.ok acc : CompileResult (List α))
        let a ← f x
        return a :: cases) = .ok (g x :: acc) := by
      rw [hf x (by simp)]
      rfl
    rw [List.foldl_cons, hstep, ih _ fun y hy => hf y (by simp [hy])]
    simp

theorem Chosen.occs_eq (hc : Chosen m tys col first occ t) : ∃ os, m.occs = first :: os :=
  List.head?_eq_some_iff.mp (List.head?_eq_getElem?.trans hc.first)

theorem splitRefutable_eq (hm : MatrixTy shape m tys) (hc : Chosen m tys col first occ t)
    (htyped : ∀ head ∈ m.heads col, ∃ tys', (ColumnHead.refutable head).HeadTy shape t tys') :
    splitRefutable m (m.rows.map (swapRow col)) occ (m.occs.eraseIdx col) =
      .ok (.switch occ
        ((ComparatorSet.ofList (m.heads col)).elements.reverse.map fun head =>
          (testOf occ head, m.below col first occ (.refutable head)))
        (m.defaults col first)) := by
  have hcol := columnTy_swap hm hc.ty
  obtain ⟨os, hos⟩ := hc.occs_eq
  have hcases : ∀ head ∈ (ComparatorSet.ofList (m.heads col)).elements,
      (do
        let m' ← specialize m.occs occ (m.occs.eraseIdx col) (m.rows.map (swapRow col)) head
        return (testOf occ head, m')) =
      (.ok (testOf occ head, m.below col first occ (.refutable head)) :
        CompileResult (PatternTest × Matrix Ident Expr)) := by
    intro head hmem
    obtain ⟨tys', hh⟩ := htyped head (ComparatorSet.mem_elements_ofList.mp hmem)
    rw [Matrix.below, hos, specialize_eq hh hcol]
    rfl
  have hfold := foldl_cases _ [] hcases
  have hdefault : (defaultRows (m.rows.map (swapRow col))).mapM (stripHead m.occs) =
      .ok (m.defaults col first).rows := by
    rw [hos]
    exact defaultRows_eq hcol
  simp only [splitRefutable, ComparatorSet.fold_eq, refutableGroup_eq, hdefault]
  simp only [bind_assoc, pure_bind] at hfold
  rw [Matrix.heads] at hfold ⊢
  simp only [hfold, List.append_nil, ← List.map_reverse]
  rfl

theorem exists_forall₂_getElem? {α : Type} {l : List α} {indices : List Nat}
    (h : ∀ i ∈ indices, i < l.length) :
    ∃ l', List.Forall₂ (fun i a => l[i]? = some a) indices l' := by
  induction indices with
  | nil => exact ⟨[], .nil⟩
  | cons i indices ih =>
    obtain ⟨l', hl'⟩ := ih fun j hj => h j (by simp [hj])
    have hi := h i (by simp)
    exact ⟨l[i] :: l', .cons (List.getElem?_eq_getElem hi) hl'⟩

/-- Without a refutable head, the first row has another head in the chosen column. -/
theorem splitIrrefutable_eq (hm : MatrixTy shape m tys) (hc : Chosen m tys col first occ t)
    (hheads : m.heads col = []) :
    ∃ h tys', h.HeadTy shape t tys' ∧ (∀ head, h ≠ ColumnHead.refutable head) ∧
      m.FieldsIn col h ∧
      splitIrrefutable m (m.rows.map (swapRow col)) occ (m.occs.eraseIdx col) =
        .ok (.expand (m.below col first occ h)) := by
  have hcol := columnTy_swap hm hc.ty
  obtain ⟨r, rest, p, hrows, hp, hdefault, -⟩ := hc.head
  obtain ⟨os, hos⟩ := hc.occs_eq
  have hr : r ∈ m.rows := by simp [hrows]
  obtain ⟨p', hp', hpats, hty, -⟩ := swapRow_typed (hm.rows r hr) hc.ty
  obtain rfl := Option.some.inj (hp.symm.trans hp')
  have hno : refutableHead (swapRow col r) = none := by
    have hmem : swapRow col r ∈ m.rows.map (swapRow col) := List.mem_map_of_mem hr
    exact List.filterMap_eq_nil_iff.mp hheads _ hmem
  unfold refutableHead at hno
  rw [hpats] at hno
  have hhd : hd (m.rows.map (swapRow col)) = .ok (swapRow col r) := by
    rw [hrows]
    rfl
  cases hty with
  | any | ident => cases hdefault
  | unit hshape =>
    refine ⟨.unit, [], .unit hshape, nofun, nofun, ?_⟩
    simp only [splitIrrefutable, hhd, Matrix.below, hos, bind, Except.bind, hpats, headOf,
      specializeUnit_eq hshape hcol]
    rfl
  | @tuple _ elements elementTys hshape hlen hall =>
    refine ⟨.tuple elementTys.length, elementTys, .tuple hshape, nofun, nofun, ?_⟩
    simp only [splitIrrefutable, hhd, Matrix.below, hos, bind, Except.bind, hpats, headOf, hlen,
      specializeTuple_eq hshape hcol]
    rfl
  | @record _ fields fieldTys hshape hlt hall =>
    obtain ⟨indices, hnodup, hidx, hnamed, hok⟩ := specializeRecord_eq first os occ hshape hcol
    obtain ⟨tys', htys'⟩ := exists_forall₂_getElem? hidx
    refine ⟨.record indices, tys', .record hshape hnodup htys', nofun, ?_, ?_⟩
    · intro indices' heq r₁ hr₁ fields₁ hp₁ f hf
      obtain rfl := ColumnHead.record.inj heq
      exact hnamed (swapRow col r₁) (List.mem_map_of_mem hr₁) fields₁ _ (moveToFront_eq hp₁) f hf
    · simp only [splitIrrefutable, hhd, Matrix.below, hos, bind, Except.bind, hpats, headOf, hok]
      rfl
  | @literal _ c hshape hne =>
    have hheadOf : headOf (.constant c : Pattern Ident) = .refutable (.constant c) := by
      cases c <;> first | rfl | exact (hne rfl).elim
    simp [hheadOf] at hno
  | constant hshape hlookup | constructor hshape hlookup => cases hno

/-- A well-typed matrix is split without an error. -/
theorem split_ok (hm : MatrixTy shape m tys) :
    ∃ s, split m = .ok s ∧ SplitOf shape m tys s := by
  cases hrows : m.rows with
  | nil =>
    refine ⟨.fail, ?_, .fail hrows⟩
    simp only [split, hrows]
  | cons r rest =>
    have hr := hm.rows r (by simp [hrows])
    by_cases hd : r.pats.all isDefaultPattern = true
    · have hlen : r.pats.length = m.occs.length := hr.length_eq.trans hm.occs.symm
      cases hg : r.guard with
      | none =>
        refine ⟨_, ?_, .leaf hrows hd hg⟩
        simp only [split, hrows, if_pos hd, bindVars, if_pos hlen, hg]
        rfl
      | some g =>
        refine ⟨_, ?_, .guard hrows hd hg⟩
        simp only [split, hrows, if_pos hd, bindVars, if_pos hlen, hg]
        rfl
    · obtain ⟨col, p, hcol, hp, hdp, hbefore⟩ := chooseColumn_eq rest
        (Bool.eq_false_of_not_eq_true hd)
      have hlt : col < tys.length := hr.length_eq ▸ (List.getElem?_eq_some_iff.mp hp).1
      have hocc : ∀ i, i ≤ col → ∃ o, m.occs[i]? = some o := fun i hi =>
        ⟨_, List.getElem?_eq_getElem (by rw [hm.occs]; omega)⟩
      obtain ⟨first, hfirst⟩ := hocc 0 (Nat.zero_le _)
      obtain ⟨occ, hocc⟩ := hocc col le_rfl
      have hc : Chosen m tys col first occ tys[col] :=
        ⟨hrows ▸ hcol, ⟨r, rest, p, hrows, hp, hdp, hbefore⟩, hfirst, hocc,
          List.getElem?_eq_getElem hlt⟩
      have hsplit : split m =
          if 0 < (refutableGroup (m.rows.map (swapRow col))).cardinal then
            splitRefutable m (m.rows.map (swapRow col)) occ (m.occs.eraseIdx col)
          else splitIrrefutable m (m.rows.map (swapRow col)) occ (m.occs.eraseIdx col) := by
        have hswap := swapI_eq hm hocc hc.ty
        rw [hrows] at hswap ⊢
        simp only [split, hrows, if_neg hd, hcol, hswap, bind, Except.bind]
      have hgroup : refutableGroup (m.rows.map (swapRow col)) =
          ComparatorSet.ofList (m.heads col) := refutableGroup_eq _
      rw [hsplit, hgroup]
      by_cases hheads : m.heads col = []
      · rw [if_neg (fun hpos => ofList_cardinal_pos.mp hpos hheads)]
        obtain ⟨h, tys', hh, hne, hnamed, hok⟩ := splitIrrefutable_eq hm hc hheads
        exact ⟨_, hok, .expand hc hheads hh hne hnamed⟩
      · rw [if_pos (ofList_cardinal_pos.mpr hheads)]
        have htyped : ∀ head ∈ m.heads col, ∃ tys',
            (ColumnHead.refutable head).HeadTy shape tys[col] tys' :=
          fun head hmem => refutableHead_typed (columnTy_swap hm hc.ty) hmem
        exact ⟨_, splitRefutable_eq hm hc htyped, .switch hc hheads htyped⟩

end Columns

section Children

variable {tys' : List T} {s : Split Ident Expr}

/-- The matrices of the recursive calls. -/
def Split.children : Split Ident Expr → List (Matrix Ident Expr)
  | .fail | .leaf _ _ => []
  | .guard _ _ _ rest => [rest]
  | .switch _ cases default => cases.map (·.2) ++ [default]
  | .expand m => [m]

theorem length_subOccs (hh : h.HeadTy shape t tys') : (h.subOccs occ).length = tys'.length := by
  cases hh with
  | literal | constant | constructor | unit => rfl
  | tuple => simp [ColumnHead.subOccs]
  | record _ _ hidx => simp [ColumnHead.subOccs, hidx.length_eq]

theorem below_typed (hm : MatrixTy shape m tys) (hc : Chosen m tys col first occ t)
    (hh : h.HeadTy shape t tys') :
    MatrixTy shape (m.below col first occ h) (tys' ++ tys.eraseIdx col) := by
  have hcol : col < m.occs.length := (List.getElem?_eq_some_iff.mp hc.occ).1
  constructor
  · simp only [Matrix.below, List.length_append, length_subOccs hh,
      List.length_eraseIdx_of_lt hcol, hm.occs, List.length_eraseIdx_of_lt (hm.occs ▸ hcol)]
  · intro r' hr'
    obtain ⟨rs, hrs, hspec⟩ := List.mem_filterMap.mp hr'
    obtain ⟨r, hr, rfl⟩ := List.mem_map.mp hrs
    obtain ⟨p, -, hpats, hp, hrest⟩ := swapRow_typed (hm.rows r hr) hc.ty
    rw [specializeRow_cons hpats, Option.map_eq_some_iff] at hspec
    obtain ⟨subs, hsubs, rfl⟩ := hspec
    exact List.rel_append (subs_typed hh hp hsubs) hrest

theorem defaults_typed (hm : MatrixTy shape m tys) (hc : Chosen m tys col first occ t) :
    MatrixTy shape (m.defaults col first) (tys.eraseIdx col) := by
  have hcol : col < m.occs.length := (List.getElem?_eq_some_iff.mp hc.occ).1
  constructor
  · simp only [Matrix.defaults, List.length_eraseIdx_of_lt hcol, hm.occs,
      List.length_eraseIdx_of_lt (hm.occs ▸ hcol)]
  · intro r' hr'
    obtain ⟨rs, hrs, hspec⟩ := List.mem_filterMap.mp hr'
    obtain ⟨r, hr, rfl⟩ := List.mem_map.mp hrs
    obtain ⟨p, -, hpats, hp, hrest⟩ := swapRow_typed (hm.rows r hr) hc.ty
    simp only [defaultRow, hpats, Option.ite_none_right_eq_some] at hspec
    obtain ⟨-, hspec⟩ := hspec
    obtain rfl := Option.some.inj hspec
    exact hrest

theorem sizeList_eraseIdx {ps : List (Pattern Ident)} {p : Pattern Ident}
    (hp : ps[col]? = some p) :
    Pattern.sizeList ps = p.size + Pattern.sizeList (ps.eraseIdx col) := by
  induction ps generalizing col with
  | nil => simp at hp
  | cons q ps ih =>
    cases col with
    | zero =>
      obtain rfl := Option.some.inj hp
      rfl
    | succ col =>
      have hrest : Pattern.sizeList ps = p.size + Pattern.sizeList (ps.eraseIdx col) := ih hp
      simp only [List.eraseIdx_cons_succ, Pattern.sizeList]
      omega

/-- The rule for what specialisation does to the size: no row grows, and the first one shrinks or
is dropped. -/
theorem sum_filterMap_lt {g : Row Ident Expr → Option (Row Ident Expr)} {r : Row Ident Expr}
    {rest : List (Row Ident Expr)} (hfirst : ∀ r', g r = some r' → r'.size < r.size)
    (hrest : ∀ s ∈ rest, ∀ r', g s = some r' → r'.size ≤ s.size) :
    (((r :: rest).filterMap g).map Row.size).sum < ((r :: rest).map Row.size).sum := by
  have hle : ((rest.filterMap g).map Row.size).sum ≤ (rest.map Row.size).sum := by
    induction rest with
    | nil => exact le_rfl
    | cons s rest ih =>
      have ih := ih fun s' hs' => hrest s' (by simp [hs'])
      rw [List.filterMap_cons]
      cases hg : g s with
      | none =>
        simp only [List.map_cons, List.sum_cons]
        omega
      | some r' =>
        have := hrest s (by simp) r' hg
        simp only [List.map_cons, List.sum_cons]
        omega
  rw [List.filterMap_cons]
  cases hg : g r with
  | none =>
    have : 0 < r.size := Nat.lt_of_lt_of_le Nat.zero_lt_one (Nat.le_add_right _ _)
    simp only [List.map_cons, List.sum_cons]
    omega
  | some r' =>
    have := hfirst r' hg
    simp only [List.map_cons, List.sum_cons]
    omega

theorem size_specializeRow {r' : Row Ident Expr}
    (hr : List.Forall₂ (HasTy shape) r.pats tys) (ht : tys[col]? = some t)
    (hh : h.HeadTy shape t tys') (hspec : specializeRow first h (swapRow col r) = some r') :
    ∃ p, r.pats[col]? = some p ∧ r'.size + (if isDefaultPattern p then 0 else 1) ≤ r.size := by
  obtain ⟨p, hp, hpats, hty, -⟩ := swapRow_typed hr ht
  rw [specializeRow_cons hpats, Option.map_eq_some_iff] at hspec
  obtain ⟨subs, hsubs, rfl⟩ := hspec
  have hsize := size_subs hh hty hsubs
  have herase := sizeList_eraseIdx hp
  refine ⟨p, hp, ?_⟩
  simp only [Row.size, sizeList_append]
  omega

theorem size_below_lt (hm : MatrixTy shape m tys) (hc : Chosen m tys col first occ t)
    (hh : h.HeadTy shape t tys') : (m.below col first occ h).size < m.size := by
  obtain ⟨r, rest, p, hrows, hp, hdefault, -⟩ := hc.head
  simp only [Matrix.size, Matrix.below, List.filterMap_map]
  rw [hrows]
  refine sum_filterMap_lt ?_ ?_
  · intro r' hspec
    obtain ⟨q, hq, hsize⟩ := size_specializeRow (hm.rows r (by simp [hrows])) hc.ty hh hspec
    obtain rfl := Option.some.inj (hp.symm.trans hq)
    rw [hdefault] at hsize
    exact hsize
  · intro s hs r' hspec
    obtain ⟨q, -, hsize⟩ := size_specializeRow (hm.rows s (by simp [hrows, hs])) hc.ty hh hspec
    omega

theorem size_defaults_lt (hm : MatrixTy shape m tys) (hc : Chosen m tys col first occ t) :
    (m.defaults col first).size < m.size := by
  obtain ⟨r, rest, p, hrows, hp, hdefault, -⟩ := hc.head
  have hrow : ∀ s ∈ m.rows, ∀ r', defaultRow first (swapRow col s) = some r' →
      ∃ q, s.pats[col]? = some q ∧ isDefaultPattern q = true ∧ r'.size ≤ s.size := by
    intro s hs r' hspec
    obtain ⟨q, hq, hpats, -, -⟩ := swapRow_typed (hm.rows s hs) hc.ty
    simp only [defaultRow, hpats, Option.ite_none_right_eq_some] at hspec
    obtain ⟨hdef, hspec⟩ := hspec
    obtain rfl := Option.some.inj hspec
    have herase := sizeList_eraseIdx hq
    refine ⟨q, hq, hdef, ?_⟩
    simp only [Row.size]
    omega
  simp only [Matrix.size, Matrix.defaults, List.filterMap_map]
  rw [hrows] at hrow ⊢
  refine sum_filterMap_lt ?_ ?_
  · intro r' hspec
    obtain ⟨q, hq, hdef, -⟩ := hrow r (by simp) r' hspec
    obtain rfl := Option.some.inj (hp.symm.trans hq)
    simp [hdefault] at hdef
  · intro s hs r' hspec
    obtain ⟨-, -, -, hsize⟩ := hrow s (by simp [hs]) r' hspec
    exact hsize

/-- The recursive calls get smaller well-typed matrices. -/
theorem children_typed (hm : MatrixTy shape m tys) (hs : SplitOf shape m tys s)
    {m' : Matrix Ident Expr} (hmem : m' ∈ s.children) :
    m'.size < m.size ∧ ∃ tys', MatrixTy shape m' tys' := by
  cases hs with
  | fail | leaf => cases hmem
  | @guard r rest g hrows hd hg =>
    obtain rfl := List.mem_singleton.mp hmem
    refine ⟨?_, tys, hm.occs, fun r' hr' => hm.rows r' (by simp [hrows, hr'])⟩
    simp only [Matrix.size, hrows, List.map_cons, List.sum_cons, Row.size]
    omega
  | switch hc hheads htyped =>
    simp only [Split.children, List.mem_append, List.map_map, List.mem_map, List.mem_reverse,
      List.mem_singleton, ComparatorSet.mem_elements_ofList, Function.comp] at hmem
    rcases hmem with ⟨head, hhead, rfl⟩ | rfl
    · obtain ⟨tys', hh⟩ := htyped head hhead
      exact ⟨size_below_lt hm hc hh, _, below_typed hm hc hh⟩
    · exact ⟨size_defaults_lt hm hc, _, defaults_typed hm hc⟩
  | expand hc hheads hh hne =>
    obtain rfl := List.mem_singleton.mp hmem
    exact ⟨size_below_lt hm hc hh, _, below_typed hm hc hh⟩

end Children

end Syli.Compiler.PatternMatching
