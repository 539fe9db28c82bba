import Syli.Compiler.SwitchTests
import Syli.Compiler.MatchSemantics

/-! What lies below a head, for patterns and for values. -/
namespace Syli.Compiler.PatternMatching

open Foundation

variable {Ident Expr T L : Type} [DecidableEq L] {den : Constant → L} {shape : T → Shape T}
  {h : ColumnHead} {p : Pattern Ident} {v root : Value L} {ws vs : List (Value L)} {t : T}
  {tys : List T} {occ : Occurrence}

/-- The value `v` has the head `h`, with the values `ws` below it. -/
inductive HasHead (den : Constant → L) : ColumnHead → Value L → List (Value L) → Prop where
  | constant {c : Constant} {v : Value L} : matchesConstant den c v = true →
      HasHead den (.refutable (.constant c)) v []
  | bare {tag : Nat} : HasHead den (.refutable (.variant tag .none)) (.constructor tag none) []
  | constructor {tag : Nat} {v : Value L} :
      HasHead den (.refutable (.variant tag .one)) (.constructor tag (some v)) [v]
  | unit : HasHead den .unit .unit []
  | tuple {vs : List (Value L)} : HasHead den (.tuple vs.length) (.tuple vs) vs
  | record {indices : List Nat} {vs ws : List (Value L)} :
      List.Forall₂ (fun i w => vs[i]? = some w) indices ws →
      HasHead den (.record indices) (.record vs) ws

section Values

/-- A column without a refutable head is decomposed for every value. -/
theorem hasHead_irrefutable (den : Constant → L) (hh : h.HeadTy shape t tys)
    (hv : ValueTy shape v t) (hne : ∀ head, h ≠ .refutable head) : ∃ ws, HasHead den h v ws := by
  cases hh with
  | literal | constant | constructor => exact (hne _ rfl).elim
  | unit hshape =>
    cases hv with
    | unit => exact ⟨[], .unit⟩
    | literal hshape' | tuple hshape' | record hshape' | constant hshape' | constructor hshape' =>
      cases hshape.symm.trans hshape'
  | tuple hshape =>
    cases hv with
    | @tuple _ vs tys' hshape' hlen =>
      obtain rfl := Shape.tuple.inj (hshape.symm.trans hshape')
      refine ⟨vs, ?_⟩
      rw [← hlen]
      exact .tuple
    | unit hshape' | literal hshape' | record hshape' | constant hshape' | constructor hshape' =>
      cases hshape.symm.trans hshape'
  | record hshape hnodup hidx =>
    cases hv with
    | @record _ vs tys' hshape' hlen hall =>
      obtain rfl := Shape.record.inj (hshape.symm.trans hshape')
      have hlt : ∀ i ∈ _, i < vs.length := fun i hi => by
        obtain ⟨ty, -, hty⟩ := exists_right_of_forall₂ hidx hi
        rw [hlen]
        exact (List.getElem?_eq_some_iff.mp hty).1
      obtain ⟨ws, hws⟩ := exists_forall₂_getElem? hlt
      exact ⟨ws, .record hws⟩
    | unit hshape' | literal hshape' | tuple hshape' | constant hshape' | constructor hshape' =>
      cases hshape.symm.trans hshape'

/-- A test that matches finds the head of its case. -/
theorem hasHead_of_testMatches {head : Refutable}
    (hh : (ColumnHead.refutable head).HeadTy shape t tys) (hv : ValueTy shape v t)
    (hm : testMatches den (testOf occ head) v = true) :
    ∃ ws, HasHead den (.refutable head) v ws := by
  cases hh with
  | literal hshape => exact ⟨[], .constant hm⟩
  | constant hshape hlookup =>
    cases hv with
    | constant hshape' hlookup' =>
      obtain rfl : _ = _ := by simpa [testOf, testMatches] using hm
      exact ⟨[], .bare⟩
    | constructor hshape' hlookup' =>
      obtain rfl : _ = _ := by simpa [testOf, testMatches] using hm
      obtain rfl := Shape.variant.inj (hshape.symm.trans hshape')
      cases hlookup.symm.trans hlookup'
    | unit hshape' | literal hshape' | tuple hshape' | record hshape' =>
      cases hshape.symm.trans hshape'
  | constructor hshape hlookup =>
    cases hv with
    | constructor hshape' hlookup' =>
      obtain rfl : _ = _ := by simpa [testOf, testMatches] using hm
      exact ⟨_, .constructor⟩
    | constant hshape' hlookup' =>
      obtain rfl : _ = _ := by simpa [testOf, testMatches] using hm
      obtain rfl := Shape.variant.inj (hshape.symm.trans hshape')
      cases hlookup.symm.trans hlookup'
    | unit hshape' | literal hshape' | tuple hshape' | record hshape' =>
      cases hshape.symm.trans hshape'

/-- The values below a head have the types below it. -/
theorem hasHead_typed (hh : h.HeadTy shape t tys) (hv : ValueTy shape v t)
    (hw : HasHead den h v ws) : List.Forall₂ (ValueTy shape) ws tys := by
  cases hw with
  | constant | bare | unit =>
    cases hh
    exact .nil
  | constructor =>
    cases hh with
    | constructor hshape hlookup =>
      cases hv with
      | constructor hshape' hlookup' hv =>
        obtain rfl := Shape.variant.inj (hshape.symm.trans hshape')
        obtain rfl := Option.some.inj (Option.some.inj (hlookup.symm.trans hlookup'))
        exact .cons hv .nil
  | tuple =>
    cases hv with
    | tuple hshape' hlen hall =>
      generalize hn : ColumnHead.tuple _ = head at hh
      cases hh with
      | tuple hshape =>
        obtain rfl := Shape.tuple.inj (hshape.symm.trans hshape')
        exact forall₂_of_getElem? hlen hall
      | literal | constant | constructor | unit | record => cases hn
  | record hws =>
    cases hh with
    | record hshape hnodup hidx =>
      cases hv with
      | record hshape' hlen hall =>
        obtain rfl := Shape.record.inj (hshape.symm.trans hshape')
        refine forall₂_of_getElem? (hws.length_eq.symm.trans hidx.length_eq) fun i w ty hw hty => ?_
        obtain ⟨idx, hi, hw'⟩ := forall₂_getElem? hws hw
        obtain ⟨idx', hi', hty'⟩ := forall₂_getElem? hidx hty
        obtain rfl := Option.some.inj (hi.symm.trans hi')
        exact hall idx w ty hw' hty'

/-- The occurrences below a head hold the values below it. -/
theorem hasHead_located (hocc : occ.value root = some v) (hw : HasHead den h v ws) :
    List.Forall₂ (fun o w => Occurrence.value root o = some w) (h.subOccs occ) ws := by
  cases hw with
  | constant | bare | unit => exact .nil
  | constructor => exact .cons (by simp only [Occurrence.value, hocc]) .nil
  | tuple =>
    refine forall₂_of_getElem? (by simp [ColumnHead.subOccs]) fun i o w ho hw => ?_
    simp only [ColumnHead.subOccs, List.getElem?_map, Option.map_eq_some_iff] at ho
    obtain ⟨j, hj, rfl⟩ := ho
    obtain ⟨-, rfl⟩ := List.getElem?_eq_some_iff.mp hj
    simpa only [Occurrence.value, hocc, List.getElem_range] using hw
  | record hws =>
    rw [ColumnHead.subOccs, List.forall₂_map_left_iff]
    exact hws.imp fun i w hi => by simpa only [Occurrence.value, hocc] using hi

end Values

section Fields

variable {fields : List (Nat × Option (Pattern Ident))} {indices : List Nat}

theorem subsForIndices_cons {f : Nat × Option (Pattern Ident)} (hf : f.1 ∉ indices) :
    subsForIndices indices (f :: fields) = subsForIndices indices fields := by
  refine List.map_congr_left fun i hi => ?_
  have hne : f.1 ≠ i := fun heq => hf (heq ▸ hi)
  rw [findField_cons, if_neg hne]

theorem findField_eq_none {idx : Nat} (hidx : idx ∉ fields.map (·.1)) :
    findField fields idx = none := by
  have hnone : fields.find? (fun x => x.1 == idx) = none := by
    simp only [List.find?_eq_none, beq_iff_eq]
    intro f hf heq
    exact hidx (heq ▸ List.mem_map_of_mem hf)
  simp only [findField, hnone]

/-- The patterns for the fields match as the record pattern does, if it names each field once. -/
theorem bindingsFields_eq (hn : indices.Nodup) (hf : (fields.map (·.1)).Nodup)
    (hsub : ∀ f ∈ fields, f.1 ∈ indices)
    (hws : List.Forall₂ (fun i w => vs[i]? = some w) indices ws) :
    Pattern.bindingsList den (subsForIndices indices fields) ws =
      Pattern.bindingsFields den fields vs := by
  induction fields with
  | nil =>
    rw [Pattern.bindingsFields]
    exact bindingsList_any hws.length_eq
  | cons f fields ih =>
    simp only [List.map_cons, List.nodup_cons] at hf
    have ih := ih hf.2 fun f' hf' => hsub f' (by simp [hf'])
    obtain ⟨k, hk⟩ := List.mem_iff_getElem?.mp (hsub f (by simp))
    obtain ⟨w, hw, hvs⟩ := forall₂_getElem? hws.flip hk
    have hnotin : f.1 ∉ indices.eraseIdx k := by
      obtain ⟨hlt, hget⟩ := List.getElem?_eq_some_iff.mp hk
      rw [← hget, ← hn.erase_getElem k hlt]
      exact hn.not_mem_erase
    have hat : ∀ fs : List (Nat × Option (Pattern Ident)),
        (subsForIndices indices fs)[k]? = some ((findField fs f.1).getD .any) := fun fs => by
      rw [subsForIndices, List.getElem?_map, hk]
      rfl
    have herase : ∀ fs : List (Nat × Option (Pattern Ident)),
        (subsForIndices indices fs).eraseIdx k = subsForIndices (indices.eraseIdx k) fs := fun fs =>
      List.eraseIdx_map _ _ _
    rw [Pattern.bindingsFields, ← ih, bindingsList_eraseIdx (hat (f :: fields)) hw,
      bindingsList_eraseIdx (hat fields) hw, herase, herase, subsForIndices_cons hnotin,
      findField_eq_none hf.1, findField_cons, if_pos rfl]
    have hfirst : Pattern.bindings den (f.2.getD .any) w = Pattern.bindingsField den f vs := by
      obtain ⟨idx, q⟩ := f
      rw [Pattern.bindingsField, hvs]
      cases q <;> simp [Pattern.bindings, Pattern.bindingsOption]
    rw [hfirst]
    simp [Pattern.bindings]

end Fields

/-- What a pattern binds itself. -/
def binder (p : Pattern Ident) (v : Value L) : Set (Ident × Value L) :=
  match p with
  | .ident id => {(id, v)}
  | _ => ∅

theorem bindings_default (hd : isDefaultPattern p = true) :
    p.bindings den v = some (binder p v) := by
  cases p <;> simp_all [isDefaultPattern, Pattern.bindings, binder]

/-- What one head of a column asks of the patterns of the column. -/
structure Agrees (den : Constant → L) (h : ColumnHead) (p : Pattern Ident) : Prop where
  spelling : ∀ c c', h = .refutable (.constant c) → p = .constant c' → den c = den c' → c = c'
  fields : ∀ fields, p = .record fields → (fields.map (·.1)).Nodup
  indices : ∀ fields indices, p = .record fields → h = .record indices →
    ∀ f ∈ fields, f.1 ∈ indices

theorem subs_default (hd : isDefaultPattern p = true) (hw : HasHead den h v ws) :
    ∃ indices : List Nat, h.subs p = some (indices.map fun _ => .any) ∧
      indices.length = ws.length := by
  have hcases : p = .any ∨ ∃ id, p = .ident id := by
    cases p <;> simp_all [isDefaultPattern]
  cases hw with
  | constant | bare | unit =>
    refine ⟨[], ?_, rfl⟩
    rcases hcases with rfl | ⟨id, rfl⟩ <;> rfl
  | constructor =>
    refine ⟨[0], ?_, rfl⟩
    rcases hcases with rfl | ⟨id, rfl⟩ <;> rfl
  | tuple =>
    refine ⟨List.range _, ?_, List.length_range⟩
    rw [List.map_const', List.length_range]
    rcases hcases with rfl | ⟨id, rfl⟩ <;> rfl
  | record hws =>
    refine ⟨_, ?_, hws.length_eq⟩
    rcases hcases with rfl | ⟨id, rfl⟩ <;> rfl

theorem hasHead_tuple {n : Nat} (hw : HasHead den (.tuple n) v ws) : v = .tuple ws := by
  generalize hn : ColumnHead.tuple n = head at hw
  cases hw with
  | tuple => rfl
  | constant | bare | constructor | unit | record => cases hn

/-- A pattern matches a value as what lies below the head matches what lies below the value. -/
theorem bindings_eq (hh : h.HeadTy shape t tys) (hp : HasTy shape p t)
    (hw : HasHead den h v ws) (ha : Agrees den h p) :
    p.bindings den v =
      (h.subs p).bind fun subs => both (some (binder p v)) (Pattern.bindingsList den subs ws) := by
  have hdefault : isDefaultPattern p = true → p.bindings den v = (h.subs p).bind fun subs =>
      both (some (binder p v)) (Pattern.bindingsList den subs ws) := by
    intro hd
    obtain ⟨indices, hsubs, hlen⟩ := subs_default hd hw
    rw [bindings_default hd, hsubs, Option.bind_some, bindingsList_any hlen, both_empty]
  cases hp with
  | any | ident => exact hdefault rfl
  | unit hshape =>
    cases hh with
    | unit =>
      cases hw
      simp [ColumnHead.subs, Pattern.bindings, Pattern.bindingsList, matchesConstant, binder]
    | literal hshape' | constant hshape' | constructor hshape' | tuple hshape' | record hshape' =>
      cases hshape.symm.trans hshape'
  | @literal _ c' hshape hne =>
    cases hh with
    | @literal _ c hshape' =>
      cases hw with
      | constant hm =>
        simp only [ColumnHead.subs, Pattern.bindings, binder]
        by_cases hc : c' = c
        · subst hc
          simp [hm, Pattern.bindingsList]
        · have hno : matchesConstant den c' v = false := by
            cases v with
            | unit => simp [matchesConstant, hne]
            | literal l =>
              simp only [matchesConstant, decide_eq_true_eq, decide_eq_false_iff_not] at hm ⊢
              exact fun hm' => hc (ha.spelling c c' rfl rfl (hm.2.trans hm'.2.symm)).symm
            | tuple | record | constructor => simp [matchesConstant] at hm
          simp [hc, hno]
    | unit hshape' | constant hshape' | constructor hshape' | tuple hshape' | record hshape' =>
      cases hshape.symm.trans hshape'
  | @tuple _ elements _ hshape =>
    cases hh with
    | tuple hshape' =>
      obtain rfl := hasHead_tuple hw
      simp [ColumnHead.subs, Pattern.bindings, binder]
    | unit hshape' | literal hshape' | constant hshape' | constructor hshape' | record hshape' =>
      cases hshape.symm.trans hshape'
  | @record _ fields _ hshape =>
    cases hh with
    | record hshape' hnodup hidx =>
      cases hw with
      | record hws =>
        have hsub := fun f hf => ha.indices fields _ rfl rfl f hf
        have heq : Pattern.bindingsList den (subsForIndices _ fields) _ =
            Pattern.bindingsFields den fields _ :=
          bindingsFields_eq hnodup (ha.fields fields rfl) hsub hws
        simp [ColumnHead.subs, Pattern.bindings, binder, heq]
    | unit hshape' | literal hshape' | constant hshape' | constructor hshape' | tuple hshape' =>
      cases hshape.symm.trans hshape'
  | @constant _ tag _ hshape hlookup =>
    cases hh with
    | @constant _ tag' _ hshape' hlookup' =>
      cases hw
      by_cases ht : tag = tag'
      · simp [ColumnHead.subs, Pattern.bindings, Pattern.bindingsOption, Pattern.bindingsList,
          binder, ht]
      · simp [ColumnHead.subs, Pattern.bindings, ht, Ne.symm ht]
    | @constructor _ _ tag' _ hshape' hlookup' =>
      cases hw
      have ht : tag ≠ tag' := tag_ne_of_payload hshape hlookup hshape' hlookup'
      simp [ColumnHead.subs, Pattern.bindings, ht, Ne.symm ht]
    | unit hshape' | literal hshape' | tuple hshape' | record hshape' =>
      cases hshape.symm.trans hshape'
  | @constructor _ _ tag p _ hshape hlookup =>
    cases hh with
    | @constant _ tag' _ hshape' hlookup' =>
      cases hw
      have ht : tag ≠ tag' := (tag_ne_of_payload hshape' hlookup' hshape hlookup).symm
      simp [ColumnHead.subs, Pattern.bindings, ht, Ne.symm ht]
    | @constructor _ _ tag' _ hshape' hlookup' =>
      cases hw
      by_cases ht : tag = tag'
      · simp [ColumnHead.subs, Pattern.bindings, Pattern.bindingsOption, Pattern.bindingsList,
          binder, ht]
      · simp [ColumnHead.subs, Pattern.bindings, ht, Ne.symm ht]
    | unit hshape' | literal hshape' | tuple hshape' | record hshape' =>
      cases hshape.symm.trans hshape'

end Syli.Compiler.PatternMatching
