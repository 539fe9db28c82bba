import Syli.Compiler.PatternMatching
import Mathlib.Data.List.Forall2

/-! Well-typed pattern matrices, and what their specialisation keeps. -/
namespace Syli.Compiler.PatternMatching

open Foundation

/-- What the values of a type look like, one level deep. -/
inductive Shape (T : Type) where
  | unit
  | literal
  | tuple (elements : List T)
  | record (fields : List T)
  | variant (constructors : List (Nat × Option T))

variable {Ident Expr T : Type} (shape : T → Shape T)

inductive HasTy : Pattern Ident → T → Prop where
  | any {t : T} : HasTy .any t
  | ident {id : Ident} {t : T} : HasTy (.ident id) t
  | unit {t : T} : shape t = .unit → HasTy (.constant .unit) t
  | literal {t : T} {c : Constant} : shape t = .literal → c ≠ .unit → HasTy (.constant c) t
  | tuple {t : T} {elements : List (Pattern Ident)} {tys : List T} : shape t = .tuple tys →
      elements.length = tys.length →
      (∀ (i : Nat) (p : Pattern Ident) (ty : T), elements[i]? = some p → tys[i]? = some ty →
        HasTy p ty) → HasTy (.tuple elements) t
  | record {t : T} {fields : List (Nat × Option (Pattern Ident))} {tys : List T} :
      shape t = .record tys → (∀ f ∈ fields, f.1 < tys.length) →
      (∀ (idx : Nat) (p : Pattern Ident) (ty : T), (idx, some p) ∈ fields → tys[idx]? = some ty →
        HasTy p ty) → HasTy (.record fields) t
  | constant {t : T} {tag : Nat} {constructors : List (Nat × Option T)} :
      shape t = .variant constructors → constructors.lookup tag = some none →
      HasTy (.constructor tag none) t
  | constructor {t ty : T} {tag : Nat} {p : Pattern Ident}
      {constructors : List (Nat × Option T)} : shape t = .variant constructors →
      constructors.lookup tag = some (some ty) → HasTy p ty →
      HasTy (.constructor tag (some p)) t

/-- One type for each column. -/
structure MatrixTy (m : Matrix Ident Expr) (tys : List T) : Prop where
  occs : m.occs.length = tys.length
  rows : ∀ r ∈ m.rows, List.Forall₂ (HasTy shape) r.pats tys

/-- The head along which a column is decomposed. -/
inductive ColumnHead where
  | refutable (h : Refutable)
  | unit
  | tuple (n : Nat)
  | record (indices : List Nat)
deriving DecidableEq

namespace ColumnHead

def subOccs (occ : Occurrence) : ColumnHead → List Occurrence
  | refutable (.variant _ .one) => [.payload occ]
  | refutable _ | unit => []
  | tuple n => (List.range n).map fun i => .tuple occ i
  | record indices => indices.map fun idx => .field occ idx

/-- The patterns below a pattern of the column, unless it has another head. -/
def subs : ColumnHead → Pattern Ident → Option (List (Pattern Ident))
  | refutable (.constant c), .constant c' => if c' = c then some [] else none
  | refutable (.constant _), .any | refutable (.constant _), .ident _ => some []
  | refutable (.variant _ .none), .any | refutable (.variant _ .none), .ident _ => some []
  | refutable (.variant _ .one), .any | refutable (.variant _ .one), .ident _ => some [.any]
  | refutable (.variant tag .none), .constructor t _ => if t = tag then some [] else none
  | refutable (.variant tag .one), .constructor t p =>
    if t = tag then some [p.getD .any] else none
  | unit, .any | unit, .ident _ | unit, .constant .unit => some []
  | tuple n, .any | tuple n, .ident _ => some (List.replicate n .any)
  | tuple _, .tuple elements => some elements
  | record indices, .any | record indices, .ident _ => some (indices.map fun _ => .any)
  | record indices, .record fields => some (subsForIndices indices fields)
  | _, _ => none

/-- The head belongs to the type `t`, and `tys` are the types below it. -/
inductive HeadTy : ColumnHead → T → List T → Prop where
  | literal {t : T} {c : Constant} : shape t = .literal → HeadTy (refutable (.constant c)) t []
  | constant {t : T} {tag : Nat} {constructors : List (Nat × Option T)} :
      shape t = .variant constructors → constructors.lookup tag = some none →
      HeadTy (refutable (.variant tag .none)) t []
  | constructor {t ty : T} {tag : Nat} {constructors : List (Nat × Option T)} :
      shape t = .variant constructors → constructors.lookup tag = some (some ty) →
      HeadTy (refutable (.variant tag .one)) t [ty]
  | unit {t : T} : shape t = .unit → HeadTy unit t []
  | tuple {t : T} {tys : List T} : shape t = .tuple tys → HeadTy (tuple tys.length) t tys
  | record {t : T} {fieldTys tys : List T} {indices : List Nat} : shape t = .record fieldTys →
      indices.Nodup → List.Forall₂ (fun i ty => fieldTys[i]? = some ty) indices tys →
      HeadTy (record indices) t tys

end ColumnHead

/-- The row below a head, with the binder of column 0 recorded for `occ`. -/
def specializeRow (occ : Occurrence) (h : ColumnHead) (r : Row Ident Expr) :
    Option (Row Ident Expr) :=
  match r.pats with
  | p :: rest => (h.subs p).map fun subs =>
    { r with pats := subs ++ rest, binds := recordBind p occ r.binds }
  | [] => none

variable {shape} {p : Pattern Ident} {subs : List (Pattern Ident)} {h : ColumnHead} {t : T}
  {tys : List T}

theorem forall₂_of_getElem? {α β : Type} {R : α → β → Prop} {l : List α} {l' : List β}
    (hlen : l.length = l'.length)
    (hall : ∀ (i : Nat) (a : α) (b : β), l[i]? = some a → l'[i]? = some b → R a b) :
    List.Forall₂ R l l' := by
  refine List.forall₂_iff_get.mpr ⟨hlen, fun i hi hi' => ?_⟩
  exact hall i _ _ (List.getElem?_eq_getElem hi) (List.getElem?_eq_getElem hi')

theorem forall₂_any {α : Type} (l : List α) (hlen : l.length = tys.length) :
    List.Forall₂ (HasTy shape) (l.map fun _ => (.any : Pattern Ident)) tys := by
  refine forall₂_of_getElem? (by simpa using hlen) fun i a b ha _ => ?_
  rw [List.getElem?_map] at ha
  obtain ⟨-, -, rfl⟩ := Option.map_eq_some_iff.mp ha
  exact .any

theorem findField_some {fields : List (Nat × Option (Pattern Ident))} {idx : Nat}
    (hf : findField fields idx = some p) : (idx, some p) ∈ fields := by
  unfold findField at hf
  split at hf
  · rename_i idx' pattern hfind
    have hidx : idx' = idx := by simpa using List.find?_some hfind
    subst hidx hf
    exact List.mem_of_find?_eq_some hfind
  · cases hf

@[simp] theorem sizeList_append (ps qs : List (Pattern Ident)) :
    Pattern.sizeList (ps ++ qs) = Pattern.sizeList ps + Pattern.sizeList qs := by
  induction ps with
  | nil => simp [Pattern.sizeList]
  | cons p ps ih => simp [Pattern.sizeList, ih, Nat.add_assoc]

theorem sizeList_any {α : Type} (l : List α) :
    Pattern.sizeList (l.map fun _ => (.any : Pattern Ident)) = 0 := by
  induction l with
  | nil => rfl
  | cons a l ih => simp only [List.map_cons, Pattern.sizeList, Pattern.size, ih]

theorem findField_cons (f : Nat × Option (Pattern Ident))
    (fields : List (Nat × Option (Pattern Ident))) (idx : Nat) :
    findField (f :: fields) idx = if f.1 = idx then f.2 else findField fields idx := by
  unfold findField
  by_cases hf : f.1 = idx <;> simp [hf]

theorem size_getD (q : Option (Pattern Ident)) : (q.getD .any).size = Pattern.sizeOption q := by
  cases q <;> rfl

/-- Each field of a record pattern is used for one column at most. -/
theorem sizeList_subsForIndices_cons (f : Nat × Option (Pattern Ident))
    (fields : List (Nat × Option (Pattern Ident))) {indices : List Nat} (hn : indices.Nodup) :
    Pattern.sizeList (subsForIndices indices (f :: fields)) ≤
      Pattern.sizeField f + Pattern.sizeList (subsForIndices indices fields) := by
  have hother : ∀ indices : List Nat, f.1 ∉ indices →
      subsForIndices indices (f :: fields) = subsForIndices indices fields := by
    intro indices hf
    refine List.map_congr_left fun i hi => ?_
    have hne : f.1 ≠ i := fun heq => hf (heq ▸ hi)
    rw [findField_cons, if_neg hne]
  induction indices with
  | nil => simp [subsForIndices, Pattern.sizeList]
  | cons i indices ih =>
    obtain ⟨hi, hn⟩ := List.nodup_cons.mp hn
    by_cases hf : f.1 = i
    · have hrest := hother indices (hf ▸ hi)
      simp only [subsForIndices, List.map_cons, Pattern.sizeList] at hrest ⊢
      rw [findField_cons, if_pos hf, size_getD, hrest, Pattern.sizeField]
      omega
    · have hrest := ih hn
      simp only [subsForIndices, List.map_cons, Pattern.sizeList] at hrest ⊢
      rw [findField_cons, if_neg hf]
      omega

theorem sizeList_subsForIndices (fields : List (Nat × Option (Pattern Ident)))
    {indices : List Nat} (hn : indices.Nodup) :
    Pattern.sizeList (subsForIndices indices fields) ≤ Pattern.sizeFields fields := by
  induction fields with
  | nil =>
    have hnil : subsForIndices indices ([] : List (Nat × Option (Pattern Ident))) =
        indices.map fun _ => .any := rfl
    rw [hnil, sizeList_any]
    exact Nat.zero_le _
  | cons f fields ih =>
    have hcons := sizeList_subsForIndices_cons f fields hn
    simp only [Pattern.sizeFields]
    omega

/-- A constant and a constructor with a payload have different tags. -/
theorem tag_ne_of_payload {tag tag' : Nat} {ty : T}
    {constructors constructors' : List (Nat × Option T)}
    (hshape : shape t = .variant constructors) (hlookup : constructors.lookup tag = some none)
    (hshape' : shape t = .variant constructors')
    (hlookup' : constructors'.lookup tag' = some (some ty)) : tag ≠ tag' := by
  rintro rfl
  obtain rfl := Shape.variant.inj (hshape.symm.trans hshape')
  cases hlookup.symm.trans hlookup'

/-- Below a wildcard or a binder there are wildcards; below another pattern there are its own parts,
which are well-typed and smaller. -/
theorem subs_cases (hh : h.HeadTy shape t tys) (hp : HasTy shape p t)
    (hs : h.subs p = some subs) :
    (isDefaultPattern p = true ∧
      ∃ l : List Nat, l.length = tys.length ∧ subs = l.map fun _ => .any) ∨
    (isDefaultPattern p = false ∧ List.Forall₂ (HasTy shape) subs tys ∧
      Pattern.sizeList subs + 1 ≤ p.size) := by
  cases hp with
  | any | ident =>
    left
    refine ⟨rfl, ?_⟩
    cases hh with
    | literal | constant | unit =>
      cases hs
      exact ⟨[], rfl, rfl⟩
    | constructor =>
      cases hs
      exact ⟨[0], rfl, rfl⟩
    | tuple =>
      cases hs
      exact ⟨List.range tys.length, by simp, by simp⟩
    | @record _ _ _ indices _ _ hidx =>
      cases hs
      exact ⟨indices, hidx.length_eq, rfl⟩
  | unit hshape =>
    cases hh with
    | unit =>
      cases hs
      exact Or.inr ⟨rfl, .nil, le_rfl⟩
    | literal hshape' | constant hshape' | constructor hshape' | tuple hshape' | record hshape' =>
      cases hshape.symm.trans hshape'
  | literal hshape hne =>
    cases hh with
    | literal =>
      simp only [ColumnHead.subs, Option.ite_none_right_eq_some] at hs
      obtain ⟨-, hs⟩ := hs
      cases hs
      exact Or.inr ⟨rfl, .nil, le_rfl⟩
    | unit hshape' | constant hshape' | constructor hshape' | tuple hshape' | record hshape' =>
      cases hshape.symm.trans hshape'
  | tuple hshape hlen hall =>
    cases hh with
    | tuple hshape' =>
      cases hs
      obtain rfl := Shape.tuple.inj (hshape'.symm.trans hshape)
      refine Or.inr ⟨rfl, forall₂_of_getElem? hlen hall, ?_⟩
      rw [Pattern.size]
      omega
    | unit hshape' | literal hshape' | constant hshape' | constructor hshape' | record hshape' =>
      cases hshape.symm.trans hshape'
  | @record _ fields _ hshape hlt hall =>
    cases hh with
    | @record _ _ _ indices hshape' hnodup hidx =>
      cases hs
      obtain rfl := Shape.record.inj (hshape'.symm.trans hshape)
      refine Or.inr ⟨rfl, ?_, ?_⟩
      · rw [subsForIndices, List.forall₂_map_left_iff]
        refine hidx.imp fun idx ty hty => ?_
        cases hf : findField fields idx with
        | none => exact .any
        | some q => exact hall idx q ty (findField_some hf) hty
      · have hle := sizeList_subsForIndices fields hnodup
        rw [Pattern.size]
        omega
    | unit hshape' | literal hshape' | constant hshape' | constructor hshape' | tuple hshape' =>
      cases hshape.symm.trans hshape'
  | constant hshape hlookup =>
    cases hh with
    | constant =>
      simp only [ColumnHead.subs, Option.ite_none_right_eq_some] at hs
      obtain ⟨-, hs⟩ := hs
      cases hs
      exact Or.inr ⟨rfl, .nil, le_rfl⟩
    | constructor hshape' hlookup' =>
      simp only [ColumnHead.subs, Option.ite_none_right_eq_some] at hs
      exact (tag_ne_of_payload hshape hlookup hshape' hlookup' hs.1).elim
    | unit hshape' | literal hshape' | tuple hshape' | record hshape' =>
      cases hshape.symm.trans hshape'
  | constructor hshape hlookup hq =>
    cases hh with
    | constant hshape' hlookup' =>
      simp only [ColumnHead.subs, Option.ite_none_right_eq_some] at hs
      exact (tag_ne_of_payload hshape' hlookup' hshape hlookup hs.1.symm).elim
    | constructor hshape' hlookup' =>
      simp only [ColumnHead.subs, Option.ite_none_right_eq_some] at hs
      obtain ⟨rfl, hs⟩ := hs
      cases hs
      obtain rfl := Shape.variant.inj (hshape.symm.trans hshape')
      obtain rfl := Option.some.inj (Option.some.inj (hlookup.symm.trans hlookup'))
      refine Or.inr ⟨rfl, .cons hq .nil, ?_⟩
      simp only [Pattern.size, Pattern.sizeList, Option.getD_some, Pattern.sizeOption]
      omega
    | unit hshape' | literal hshape' | tuple hshape' | record hshape' =>
      cases hshape.symm.trans hshape'

/-- The patterns below a well-typed pattern are well-typed. -/
theorem subs_typed (hh : h.HeadTy shape t tys) (hp : HasTy shape p t)
    (hs : h.subs p = some subs) : List.Forall₂ (HasTy shape) subs tys := by
  rcases subs_cases hh hp hs with ⟨-, l, hlen, rfl⟩ | ⟨-, htyped, -⟩
  · exact forall₂_any l hlen
  · exact htyped

/-- What lies below a pattern is smaller, unless the pattern is a wildcard or a binder. -/
theorem size_subs (hh : h.HeadTy shape t tys) (hp : HasTy shape p t)
    (hs : h.subs p = some subs) :
    Pattern.sizeList subs + (if isDefaultPattern p then 0 else 1) ≤ p.size := by
  rcases subs_cases hh hp hs with ⟨hd, l, -, rfl⟩ | ⟨hd, -, hsize⟩
  · rw [sizeList_any, hd]
    simp
  · rw [hd]
    exact hsize

section Specialize

variable {o : Occurrence} {os : List Occurrence} {occ : Occurrence} {restOccs : List Occurrence}
  {rows : List (Row Ident Expr)} {r : Row Ident Expr} {m : Matrix Ident Expr}

/-- Column 0 of the rows has the type `t`. -/
def ColumnTy (shape : T → Shape T) (rows : List (Row Ident Expr)) (t : T) : Prop :=
  ∀ r ∈ rows, ∃ p rest, r.pats = p :: rest ∧ HasTy shape p t

theorem expandHead_cons {rest : List (Pattern Ident)} (hr : r.pats = p :: rest) :
    expandHead (o :: os) r subs =
      .ok { r with pats := subs ++ rest, binds := recordBind p o r.binds } := by
  unfold expandHead
  rw [hr]
  rfl

theorem filterRows_pure {f : Row Ident Expr → CompileResult (Option (Row Ident Expr))}
    {g : Row Ident Expr → Option (Row Ident Expr)} (hf : ∀ r ∈ rows, f r = .ok (g r)) :
    filterRows f rows = .ok (rows.filterMap g) := by
  induction rows with
  | nil => rfl
  | cons r rows ih =>
    rw [filterRows, hf r (by simp), ih fun r' hr' => hf r' (by simp [hr'])]
    cases hg : g r <;> simp [hg, bind, Except.bind, pure, Except.pure]

theorem specializeRow_cons {rest : List (Pattern Ident)} (hr : r.pats = p :: rest) :
    specializeRow o h r = (h.subs p).map fun subs =>
      { r with pats := subs ++ rest, binds := recordBind p o r.binds } := by
  unfold specializeRow
  rw [hr]

theorem specializeConstant_eq {c : Constant} (hshape : shape t = .literal)
    (hcol : ColumnTy shape rows t) :
    specializeConstant (o :: os) c rows =
      .ok (rows.filterMap (specializeRow o (.refutable (.constant c)))) := by
  refine filterRows_pure fun r hr => ?_
  obtain ⟨p, rest, hpats, hp⟩ := hcol r hr
  rw [specializeRow_cons hpats]
  simp only [hpats, stripHead, expandHead_cons hpats]
  cases hp with
  | any | ident => rfl
  | literal hshape' hc =>
    rename_i c'
    simp only [constantOfLiteral, ColumnHead.subs]
    split <;> rfl
  | unit hshape' | tuple hshape' | record hshape' | constant hshape' | constructor hshape' =>
    cases hshape.symm.trans hshape'

theorem specializeVariant_eq {tag : Nat} {payload : Payload}
    {constructors : List (Nat × Option T)} (hshape : shape t = .variant constructors)
    (hcol : ColumnTy shape rows t) :
    specializeVariant (o :: os) occ tag payload rows =
      .ok (ColumnHead.subOccs occ (.refutable (.variant tag payload)),
        rows.filterMap (specializeRow o (.refutable (.variant tag payload)))) := by
  have hrows : filterRows (variantRow (o :: os) (ColumnHead.subOccs occ
      (.refutable (.variant tag payload))) tag payload) rows =
        .ok (rows.filterMap (specializeRow o (.refutable (.variant tag payload)))) := by
    refine filterRows_pure fun r hr => ?_
    obtain ⟨p, rest, hpats, hp⟩ := hcol r hr
    rw [specializeRow_cons hpats]
    simp only [variantRow, hpats, expandHead_cons hpats]
    cases hp with
    | any | ident => cases payload <;> rfl
    | constant hshape' hlookup | constructor hshape' hlookup =>
      cases payload <;> (simp only [ColumnHead.subs]; split <;> rfl)
    | unit hshape' | literal hshape' | tuple hshape' | record hshape' =>
      cases hshape.symm.trans hshape'
  cases payload <;>
  · simp only [specializeVariant]
    simp only [ColumnHead.subOccs] at hrows
    rw [hrows]
    rfl

/-- The case of a head holds the rows below that head. -/
theorem specialize_eq {head : Refutable} (hh : (ColumnHead.refutable head).HeadTy shape t tys)
    (hcol : ColumnTy shape rows t) :
    specialize (o :: os) occ restOccs rows head =
      .ok ⟨ColumnHead.subOccs occ (.refutable head) ++ restOccs,
        rows.filterMap (specializeRow o (.refutable head))⟩ := by
  cases hh with
  | literal hshape =>
    simp only [specialize, specializeConstant_eq hshape hcol]
    rfl
  | constant hshape hlookup | constructor hshape hlookup =>
    simp only [specialize, specializeVariant_eq hshape hcol]
    rfl

theorem specializeUnit_eq (hshape : shape t = .unit) (hcol : ColumnTy shape rows t) :
    specializeUnit (o :: os) rows = .ok (rows.filterMap (specializeRow o .unit)) := by
  refine filterRows_pure fun r hr => ?_
  obtain ⟨p, rest, hpats, hp⟩ := hcol r hr
  rw [specializeRow_cons hpats]
  simp only [hpats, stripHead, expandHead_cons hpats]
  cases hp with
  | any | ident | unit => rfl
  | literal hshape' | tuple hshape' | record hshape' | constant hshape' | constructor hshape' =>
    cases hshape.symm.trans hshape'

theorem specializeTuple_eq {elementTys : List T} {n : Nat} (hshape : shape t = .tuple elementTys)
    (hcol : ColumnTy shape rows t) :
    specializeTuple (o :: os) occ n rows =
      .ok (ColumnHead.subOccs occ (.tuple n), rows.filterMap (specializeRow o (.tuple n))) := by
  have hrows : filterRows (tupleRow (o :: os) n) rows =
      .ok (rows.filterMap (specializeRow o (.tuple n))) := by
    refine filterRows_pure fun r hr => ?_
    obtain ⟨p, rest, hpats, hp⟩ := hcol r hr
    rw [specializeRow_cons hpats]
    simp only [tupleRow, hpats, expandHead_cons hpats]
    cases hp with
    | any | ident | tuple => rfl
    | unit hshape' | literal hshape' | record hshape' | constant hshape' | constructor hshape' =>
      cases hshape.symm.trans hshape'
  simp only [specializeTuple, hrows]
  rfl

/-- The fields that column 0 names, as far as it is a record column. -/
theorem recordFields_eq {fieldTys : List T} (hshape : shape t = .record fieldTys)
    (hcol : ColumnTy shape rows t) :
    ∃ indices, recordFields rows = .ok indices ∧ (∀ i ∈ indices, i < fieldTys.length) ∧
      ∀ r ∈ rows, ∀ fields rest, r.pats = .record fields :: rest → ∀ f ∈ fields, f.1 ∈ indices := by
  induction rows with
  | nil => exact ⟨[], rfl, by simp, by simp⟩
  | cons r rows ih =>
    obtain ⟨indices, hok, hlt, hnamed⟩ := ih fun r' hr' => hcol r' (by simp [hr'])
    obtain ⟨p, rest, hpats, hp⟩ := hcol r (by simp)
    unfold recordFields
    rw [hpats]
    cases hp with
    | any | ident =>
      refine ⟨indices, hok, hlt, fun r' hr' fields' rest' hpats' => ?_⟩
      rcases List.mem_cons.mp hr' with rfl | hr'
      · cases hpats.symm.trans hpats'
      · exact hnamed r' hr' fields' rest' hpats'
    | record hshape' hidx =>
      obtain rfl := Shape.record.inj (hshape.symm.trans hshape')
      simp only [hok]
      refine ⟨_, rfl, fun i hi => ?_, fun r' hr' fields' rest' hpats' f hf => ?_⟩
      · rcases List.mem_append.mp hi with hi | hi
        · obtain ⟨f, hf, rfl⟩ := List.mem_map.mp hi
          exact hidx f hf
        · exact hlt i hi
      · apply List.mem_append.mpr
        rcases List.mem_cons.mp hr' with rfl | hr'
        · cases hpats.symm.trans hpats'
          exact Or.inl (List.mem_map_of_mem hf)
        · exact Or.inr (hnamed r' hr' fields' rest' hpats' f hf)
    | unit hshape' | literal hshape' | tuple hshape' | constant hshape' | constructor hshape' =>
      cases hshape.symm.trans hshape'

theorem mem_sortUniq {l : List Nat} {i : Nat} : i ∈ sortUniq l ↔ i ∈ l := by
  simp [sortUniq]

theorem nodup_sortUniq (l : List Nat) : (sortUniq l).Nodup :=
  (List.perm_insertionSort _ _).nodup_iff.mpr l.nodup_dedup

theorem specializeRecord_eq (o : Occurrence) (os : List Occurrence) (occ : Occurrence)
    {fieldTys : List T} (hshape : shape t = .record fieldTys)
    (hcol : ColumnTy shape rows t) :
    ∃ indices, indices.Nodup ∧ (∀ i ∈ indices, i < fieldTys.length) ∧
      (∀ r ∈ rows, ∀ fields rest, r.pats = .record fields :: rest → ∀ f ∈ fields, f.1 ∈ indices) ∧
      specializeRecord (o :: os) occ rows = .ok (ColumnHead.subOccs occ (.record indices),
        rows.filterMap (specializeRow o (.record indices))) := by
  obtain ⟨fields, hok, hlt, hnamed⟩ := recordFields_eq hshape hcol
  refine ⟨sortUniq fields, nodup_sortUniq fields, fun i hi => hlt i (mem_sortUniq.mp hi), ?_, ?_⟩
  · exact fun r hr fields' rest hpats f hf =>
      mem_sortUniq.mpr (hnamed r hr fields' rest hpats f hf)
  have hrows : filterRows (recordRow (o :: os) (sortUniq fields)) rows =
      .ok (rows.filterMap (specializeRow o (.record (sortUniq fields)))) := by
    refine filterRows_pure fun r hr => ?_
    obtain ⟨p, rest, hpats, hp⟩ := hcol r hr
    rw [specializeRow_cons hpats]
    simp only [recordRow, hpats, expandHead_cons hpats]
    cases hp with
    | any | ident | record => rfl
    | unit hshape' | literal hshape' | tuple hshape' | constant hshape' | constructor hshape' =>
      cases hshape.symm.trans hshape'
  simp only [specializeRecord, hok, bind, Except.bind]
  rw [hrows]
  rfl

end Specialize

end Syli.Compiler.PatternMatching
