import Syli.Compiler.PrimitiveTypes

/-! Which declared types are instances of the types of a primitive. -/
namespace Syli.Compiler.Ast

open Foundation

variable {pat actual t : Ty} {pats actuals : List Ty} {σ : String → Ty}

mutual

def hasWildcard : Ty → Bool
  | .any => true
  | .var _ | .constant _ => false
  | .arrow arg ret => hasWildcard arg || hasWildcard ret
  | .tuple elems => anyWildcard elems
  | .array elem => hasWildcard elem
  | .defined _ args => anyWildcard args

def anyWildcard : List Ty → Bool
  | [] => false
  | t :: ts => hasWildcard t || anyWildcard ts

end

mutual

/-- The type with every variable replaced. -/
def subst (σ : String → Ty) : Ty → Ty
  | .any => .any
  | .var x => σ x
  | .constant c => .constant c
  | .arrow arg ret => .arrow (subst σ arg) (subst σ ret)
  | .tuple elems => .tuple (substAll σ elems)
  | .array elem => .array (subst σ elem)
  | .defined name args => .defined name (substAll σ args)

def substAll (σ : String → Ty) : List Ty → List Ty
  | [] => []
  | t :: ts => subst σ t :: substAll σ ts

end

mutual

/-- The occurrences of the variables of a type, from left to right. -/
def occurrences : Ty → List String
  | .any | .constant _ => []
  | .var x => [x]
  | .arrow arg ret => occurrences arg ++ occurrences ret
  | .tuple elems => occurrencesAll elems
  | .array elem => occurrences elem
  | .defined _ args => occurrencesAll args

def occurrencesAll : List Ty → List String
  | [] => []
  | t :: ts => occurrences t ++ occurrencesAll ts

end

mutual

/-- Each occurrence of a variable of the pattern with the type that stands in its place. -/
def bindings : Ty → Ty → List (String × Ty)
  | .var x, t => [(x, t)]
  | .arrow parg pret, .arrow aarg aret => bindings parg aarg ++ bindings pret aret
  | .tuple pats, .tuple actuals => bindingsAll pats actuals
  | .array pat, .array actual => bindings pat actual
  | .defined _ pargs, .defined _ aargs => bindingsAll pargs aargs
  | _, _ => []

def bindingsAll : List Ty → List Ty → List (String × Ty)
  | pat :: pats, actual :: actuals => bindings pat actual ++ bindingsAll pats actuals
  | _, _ => []

end

mutual

/-- A pattern accepts each of its instances. -/
theorem tyMatchesPattern_subst : ∀ pat : Ty, tyMatchesPattern pat (subst σ pat) = true
  | .any => by simp [tyMatchesPattern]
  | .var _ => by simp [tyMatchesPattern]
  | .constant _ => by simp [tyMatchesPattern, subst]
  | .arrow arg ret => by
    simp [tyMatchesPattern, subst, tyMatchesPattern_subst arg, tyMatchesPattern_subst ret]
  | .tuple elems => by simp [tyMatchesPattern, subst, tysMatchPatterns_subst elems]
  | .array elem => by simp [tyMatchesPattern, subst, tyMatchesPattern_subst elem]
  | .defined _ args => by simp [tyMatchesPattern, subst, tysMatchPatterns_subst args]

theorem tysMatchPatterns_subst : ∀ pats : List Ty, tysMatchPatterns pats (substAll σ pats) = true
  | [] => by simp [tysMatchPatterns, substAll]
  | pat :: pats => by
    simp [tysMatchPatterns, substAll, tyMatchesPattern_subst pat, tysMatchPatterns_subst pats]

end

mutual

theorem mem_bindings_subst : ∀ (pat : Ty) {e : String × Ty}, e ∈ bindings pat (subst σ pat) →
    e.2 = σ e.1
  | .any, _, h => by simp [bindings] at h
  | .var x, _, h => by
    simp only [bindings, subst, List.mem_singleton] at h
    rw [h]
  | .constant _, _, h => by simp [bindings] at h
  | .arrow arg ret, _, h => by
    simp only [bindings, subst, List.mem_append] at h
    rcases h with h | h
    · exact mem_bindings_subst arg h
    · exact mem_bindings_subst ret h
  | .tuple elems, _, h => mem_bindingsAll_subst elems (by simpa [bindings, subst] using h)
  | .array elem, _, h => mem_bindings_subst elem (by simpa [bindings, subst] using h)
  | .defined _ args, _, h => mem_bindingsAll_subst args (by simpa [bindings, subst] using h)

theorem mem_bindingsAll_subst : ∀ (pats : List Ty) {e : String × Ty},
    e ∈ bindingsAll pats (substAll σ pats) → e.2 = σ e.1
  | [], _, h => by simp [bindingsAll] at h
  | pat :: pats, _, h => by
    simp only [bindingsAll, substAll, List.mem_append] at h
    rcases h with h | h
    · exact mem_bindings_subst pat h
    · exact mem_bindingsAll_subst pats h

end

mutual

/-- An accepted type is the instance under a substitution that agrees with the bindings. -/
theorem subst_eq_of_bindings : ∀ (pat actual : Ty), tyMatchesPattern pat actual = true →
    hasWildcard pat = false → hasWildcard actual = false →
    (∀ e ∈ bindings pat actual, e.2 = σ e.1) → subst σ pat = actual
  | .any, _, _, hp, _, _ => by simp [hasWildcard] at hp
  | .var x, t, _, _, _, hb => (hb (x, t) (by simp [bindings])).symm
  | .constant c, actual, hm, _, ha, _ => by
    cases actual <;> simp_all [tyMatchesPattern, hasWildcard, subst]
  | .arrow parg pret, actual, hm, hp, ha, hb => by
    cases actual with
    | arrow aarg aret =>
      simp only [tyMatchesPattern, Bool.and_eq_true] at hm
      simp only [hasWildcard, Bool.or_eq_false_iff] at hp ha
      simp only [bindings, List.mem_append] at hb
      have harg := subst_eq_of_bindings parg aarg hm.1 hp.1 ha.1 fun e he => hb e (Or.inl he)
      have hret := subst_eq_of_bindings pret aret hm.2 hp.2 ha.2 fun e he => hb e (Or.inr he)
      rw [subst, harg, hret]
    | _ => simp_all [tyMatchesPattern, hasWildcard]
  | .tuple pats, actual, hm, hp, ha, hb => by
    cases actual with
    | tuple actuals =>
      have helems := substAll_eq_of_bindings pats actuals (by simpa [tyMatchesPattern] using hm)
        (by simpa [hasWildcard] using hp) (by simpa [hasWildcard] using ha)
        (by simpa [bindings] using hb)
      rw [subst, helems]
    | _ => simp_all [tyMatchesPattern, hasWildcard]
  | .array pat, actual, hm, hp, ha, hb => by
    cases actual with
    | array actual =>
      have helem := subst_eq_of_bindings pat actual (by simpa [tyMatchesPattern] using hm)
        (by simpa [hasWildcard] using hp) (by simpa [hasWildcard] using ha)
        (by simpa [bindings] using hb)
      rw [subst, helem]
    | _ => simp_all [tyMatchesPattern, hasWildcard]
  | .defined pname pargs, actual, hm, hp, ha, hb => by
    cases actual with
    | defined aname aargs =>
      simp only [tyMatchesPattern, Bool.and_eq_true, decide_eq_true_eq] at hm
      have hargs := substAll_eq_of_bindings pargs aargs hm.2 (by simpa [hasWildcard] using hp)
        (by simpa [hasWildcard] using ha) (by simpa [bindings] using hb)
      rw [subst, hargs, hm.1]
    | _ => simp_all [tyMatchesPattern, hasWildcard]

theorem substAll_eq_of_bindings : ∀ (pats actuals : List Ty),
    tysMatchPatterns pats actuals = true → anyWildcard pats = false → anyWildcard actuals = false →
    (∀ e ∈ bindingsAll pats actuals, e.2 = σ e.1) → substAll σ pats = actuals
  | [], [], _, _, _, _ => by simp [substAll]
  | [], _ :: _, hm, _, _, _ => by simp [tysMatchPatterns] at hm
  | _ :: _, [], hm, _, _, _ => by simp [tysMatchPatterns] at hm
  | pat :: pats, actual :: actuals, hm, hp, ha, hb => by
    simp only [tysMatchPatterns, Bool.and_eq_true] at hm
    simp only [anyWildcard, Bool.or_eq_false_iff] at hp ha
    simp only [bindingsAll, List.mem_append] at hb
    have hhead := subst_eq_of_bindings pat actual hm.1 hp.1 ha.1 fun e he => hb e (Or.inl he)
    have htail := substAll_eq_of_bindings pats actuals hm.2 hp.2 ha.2 fun e he => hb e (Or.inr he)
    rw [substAll, hhead, htail]

end

mutual

theorem fst_bindings_sublist : ∀ pat actual : Ty,
    ((bindings pat actual).map Prod.fst).Sublist (occurrences pat)
  | .any, _ => by simp [bindings]
  | .var x, _ => by simp [bindings, occurrences]
  | .constant _, _ => by simp [bindings]
  | .arrow parg pret, actual => by
    cases actual with
    | arrow aarg aret =>
      simp only [bindings, occurrences, List.map_append]
      exact (fst_bindings_sublist parg aarg).append (fst_bindings_sublist pret aret)
    | _ => simp [bindings]
  | .tuple pats, actual => by
    cases actual with
    | tuple actuals => simpa [bindings, occurrences] using fst_bindingsAll_sublist pats actuals
    | _ => simp [bindings]
  | .array pat, actual => by
    cases actual with
    | array actual => simpa [bindings, occurrences] using fst_bindings_sublist pat actual
    | _ => simp [bindings]
  | .defined _ pargs, actual => by
    cases actual with
    | defined _ aargs => simpa [bindings, occurrences] using fst_bindingsAll_sublist pargs aargs
    | _ => simp [bindings]

theorem fst_bindingsAll_sublist : ∀ pats actuals : List Ty,
    ((bindingsAll pats actuals).map Prod.fst).Sublist (occurrencesAll pats)
  | [], _ => by simp [bindingsAll]
  | _ :: _, [] => by simp [bindingsAll]
  | pat :: pats, actual :: actuals => by
    simp only [bindingsAll, occurrencesAll, List.map_append]
    exact (fst_bindings_sublist pat actual).append (fst_bindingsAll_sublist pats actuals)

end

/-- Every variable is replaced by the same type at all its occurrences. -/
def IsInstance (t actual : Ty) : Prop := ∃ σ, subst σ t = actual

/-- What a pattern accepts is an instance exactly when no variable stands for two types. -/
theorem isInstance_iff (hm : tyMatchesPattern pat actual = true) (hp : hasWildcard pat = false)
    (ha : hasWildcard actual = false) :
    IsInstance pat actual ↔
      ∀ x t t', (x, t) ∈ bindings pat actual → (x, t') ∈ bindings pat actual → t = t' := by
  constructor
  · rintro ⟨σ, rfl⟩ x t t' ht ht'
    exact (mem_bindings_subst pat ht).trans (mem_bindings_subst pat ht').symm
  · intro hagree
    refine ⟨fun x => (AssocMap.findOpt (bindings pat actual) x).getD .any, ?_⟩
    apply subst_eq_of_bindings pat actual hm hp ha
    rintro ⟨x, t⟩ he
    cases hx : AssocMap.findOpt (bindings pat actual) x with
    | none =>
      have hkeys := List.lookup_eq_none_iff.mp hx (x, t) he
      simp at hkeys
    | some t' => exact hagree x t t' he (AssocMap.mem_of_findOpt hx)

/-- A pattern that names no variable twice accepts its instances and no other types. -/
theorem tyMatchesPattern_iff_of_nodup (hp : hasWildcard pat = false)
    (hn : (occurrences pat).Nodup) (ha : hasWildcard actual = false) :
    tyMatchesPattern pat actual = true ↔ IsInstance pat actual := by
  constructor
  · intro hm
    rw [isInstance_iff hm hp ha]
    intro x t t' ht ht'
    have hfst : ((bindings pat actual).map Prod.fst).Nodup := (fst_bindings_sublist _ _).nodup hn
    have hx := AssocMap.findOpt_of_mem hfst ht
    exact Option.some.inj (hx.symm.trans (AssocMap.findOpt_of_mem hfst ht'))
  · rintro ⟨σ, rfl⟩
    exact tyMatchesPattern_subst pat

theorem arrow_of_matches {arg ret : Ty} (hm : tyMatchesPattern (.arrow arg ret) actual = true)
    (ha : hasWildcard actual = false) :
    ∃ aarg aret, actual = .arrow aarg aret ∧
      (tyMatchesPattern arg aarg = true ∧ hasWildcard aarg = false) ∧
      (tyMatchesPattern ret aret = true ∧ hasWildcard aret = false) := by
  cases actual with
  | arrow aarg aret =>
    simp only [tyMatchesPattern, Bool.and_eq_true] at hm
    simp only [hasWildcard, Bool.or_eq_false_iff] at ha
    exact ⟨aarg, aret, rfl, ⟨hm.1, ha.1⟩, hm.2, ha.2⟩
  | _ => simp_all [tyMatchesPattern, hasWildcard]

theorem array_of_matches {elem : Ty} (hm : tyMatchesPattern (.array elem) actual = true)
    (ha : hasWildcard actual = false) : ∃ aelem, actual = .array aelem := by
  cases actual with
  | array aelem => exact ⟨aelem, rfl⟩
  | _ => simp_all [tyMatchesPattern, hasWildcard]

theorem constant_of_matches {c : ConstantTy} (hm : tyMatchesPattern (.constant c) actual = true)
    (ha : hasWildcard actual = false) : actual = .constant c := by
  cases actual <;> simp_all [tyMatchesPattern, hasWildcard]

/-- The types that are written for getting and setting at an index, with the types of the elements
and of the value. -/
def indexGetTy (elem value : Ty) : Ty := .arrow (.array elem) (.arrow (.constant .int64) value)

def indexSetTy (elem value : Ty) : Ty :=
  .arrow (.array elem) (.arrow (.constant .int64) (.arrow value (.constant .unit)))

theorem indexGet_matches_iff (ha : hasWildcard actual = false) :
    tyMatchesPattern indexGetPrimTy actual = true ↔
      ∃ elem value, actual = indexGetTy elem value := by
  constructor
  · intro hm
    obtain ⟨arr, rest, rfl, ⟨harr, hwarr⟩, hrest, hwrest⟩ := arrow_of_matches hm ha
    obtain ⟨elem, rfl⟩ := array_of_matches harr hwarr
    obtain ⟨index, value, rfl, ⟨hindex, hwindex⟩, -⟩ := arrow_of_matches hrest hwrest
    obtain rfl := constant_of_matches hindex hwindex
    exact ⟨elem, value, rfl⟩
  · rintro ⟨elem, value, rfl⟩
    simp [indexGetPrimTy, indexGetTy, tyMatchesPattern]

theorem indexSet_matches_iff (ha : hasWildcard actual = false) :
    tyMatchesPattern indexSetPrimTy actual = true ↔
      ∃ elem value, actual = indexSetTy elem value := by
  constructor
  · intro hm
    obtain ⟨arr, rest, rfl, ⟨harr, hwarr⟩, hrest, hwrest⟩ := arrow_of_matches hm ha
    obtain ⟨elem, rfl⟩ := array_of_matches harr hwarr
    obtain ⟨index, rest, rfl, ⟨hindex, hwindex⟩, hset, hwset⟩ := arrow_of_matches hrest hwrest
    obtain rfl := constant_of_matches hindex hwindex
    obtain ⟨value, unit, rfl, -, hunit, hwunit⟩ := arrow_of_matches hset hwset
    obtain rfl := constant_of_matches hunit hwunit
    exact ⟨elem, value, rfl⟩
  · rintro ⟨elem, value, rfl⟩
    simp [indexSetPrimTy, indexSetTy, tyMatchesPattern]

theorem isInstance_indexGet_iff : IsInstance indexGetPrimTy actual ↔
    ∃ elem, actual = indexGetTy elem elem := by
  constructor
  · rintro ⟨σ, rfl⟩
    exact ⟨σ "a", by simp [indexGetPrimTy, indexGetTy, subst]⟩
  · rintro ⟨elem, rfl⟩
    exact ⟨fun _ => elem, by simp [indexGetPrimTy, indexGetTy, subst]⟩

theorem isInstance_indexSet_iff : IsInstance indexSetPrimTy actual ↔
    ∃ elem, actual = indexSetTy elem elem := by
  constructor
  · rintro ⟨σ, rfl⟩
    exact ⟨σ "a", by simp [indexSetPrimTy, indexSetTy, subst]⟩
  · rintro ⟨elem, rfl⟩
    exact ⟨fun _ => elem, by simp [indexSetPrimTy, indexSetTy, subst]⟩

/-- The value that is got or set does not have the type of the elements. -/
def ElementMismatch (p : PrimitiveInstances) (ty : Ty) : Prop :=
  ∃ elem value, elem ≠ value ∧
    (p.name = "array_index_get" ∧ ty = indexGetTy elem value ∨
      p.name = "array_index_set" ∧ ty = indexSetTy elem value)

theorem diagonal_iff {f : Ty → Ty → Ty} (hf : ∀ a b c d, f a b = f c d → a = c ∧ b = d) :
    ((∃ a b, t = f a b) ↔ ∃ a, t = f a a) ↔ ¬ ∃ a b, a ≠ b ∧ t = f a b := by
  constructor
  · rintro hiff ⟨a, b, hne, ht⟩
    obtain ⟨c, hc⟩ := hiff.mp ⟨a, b, ht⟩
    obtain ⟨rfl, rfl⟩ := hf a b c c (ht.symm.trans hc)
    exact hne rfl
  · intro hdiag
    constructor
    · rintro ⟨a, b, rfl⟩
      by_cases hab : a = b
      · exact ⟨a, by rw [hab]⟩
      · exact absurd ⟨a, b, hab, rfl⟩ hdiag
    · rintro ⟨a, rfl⟩
      exact ⟨a, a, rfl⟩

theorem linear_of_name : ∀ p ∈ primitives, p.name ≠ "array_index_get" →
    p.name ≠ "array_index_set" → ∀ t ∈ p.tys, hasWildcard t = false ∧ (occurrences t).Nodup := by
  decide

theorem tys_of_index_name : ∀ p ∈ primitives,
    (p.name = "array_index_get" → p.tys = [indexGetPrimTy]) ∧
    (p.name = "array_index_set" → p.tys = [indexSetPrimTy]) := by
  simp [primitives]

/-- A declared type is accepted exactly when it is an instance of the primitive, but for the two
primitives that name their variable twice. -/
theorem accepts_iff_isInstance (p : PrimitiveInstances) (hp : p ∈ primitives) (ty : Ty)
    (hty : hasWildcard ty = false) :
    (tyMatchPrimitiveInstance ty p = true ↔ ∃ t ∈ p.tys, IsInstance t ty) ↔
      ¬ ElementMismatch p ty := by
  simp only [tyMatchPrimitiveInstance, List.any_eq_true]
  by_cases hget : p.name = "array_index_get"
  · rw [(tys_of_index_name p hp).1 hget]
    simp only [List.mem_singleton, exists_eq_left, indexGet_matches_iff hty,
      isInstance_indexGet_iff]
    rw [diagonal_iff fun _ _ _ _ h => by simpa [indexGetTy] using h]
    simp [ElementMismatch, hget]
  by_cases hset : p.name = "array_index_set"
  · rw [(tys_of_index_name p hp).2 hset]
    simp only [List.mem_singleton, exists_eq_left, indexSet_matches_iff hty,
      isInstance_indexSet_iff]
    rw [diagonal_iff fun _ _ _ _ h => by simpa [indexSetTy] using h]
    simp [ElementMismatch, hset]
  have hlinear := linear_of_name p hp hget hset
  refine iff_of_true ?_ ?_
  · refine exists_congr fun t => and_congr_right fun ht => ?_
    exact tyMatchesPattern_iff_of_nodup (hlinear t ht).1 (hlinear t ht).2 hty
  · rintro ⟨_, _, -, ⟨h, -⟩ | ⟨h, -⟩⟩
    · exact hget h
    · exact hset h

end Syli.Compiler.Ast
