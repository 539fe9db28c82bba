import Mathlib.Data.List.Perm.Subperm
import Mathlib.Data.List.Nodup
import Syli.Compiler.RecordTyping

/-! Which record values assign every field of their declaration. -/
namespace Syli.Compiler.Records

open Foundation

variable {S E V T C O : Type} {inf : Inference S E V T} {ctx : DeclEnv T} {s s' : S}
  {names : List String} {name : String} {tds : List (ParsedTyDecl T)} {lit : List (String × E)}
  {declared : List (String × T)} {fields : List (RecordField V)}

section Registering

variable {I X : Type} {key : X → String} {info : X → I} {k : String}

def infosOf (env : StringMap (List I)) (k : String) : List I := (env.findOpt k).getD []

theorem infosOf_pushInfo (env : StringMap (List I)) (k' : String) (i : I) :
    infosOf (pushInfo env k' i) k = if k' = k then i :: infosOf env k else infosOf env k := by
  unfold pushInfo infosOf
  by_cases hk : k' = k
  · subst hk
    cases env.findOpt k' <;> simp
  · have hne : k ≠ k' := fun h => hk h.symm
    cases env.findOpt k' <;> simp [hk, AssocMap.findOpt_add_of_ne hne]

/-- The infos that are added last come first. -/
theorem infosOf_foldl (l : List X) (env : StringMap (List I)) :
    infosOf (l.foldl (fun env x => pushInfo env (key x) (info x)) env) k =
      ((l.filter fun x => key x = k).reverse.map info) ++ infosOf env k := by
  induction l generalizing env with
  | nil => rfl
  | cons x l ih =>
    rw [List.foldl_cons, ih, infosOf_pushInfo]
    by_cases hx : key x = k <;> simp [hx]

end Registering

theorem findRecordByFieldNames_eq (hne : names ≠ []) :
    findRecordByFieldNames ctx names =
      (infosOf ctx.recordEnv (names.head hne)).find? (hasFields names) := by
  cases names with
  | nil => exact absurd rfl hne
  | cons n names =>
    rw [findRecordByFieldNames, List.head_cons, infosOf]
    cases ctx.recordEnv.findOpt n <;> simp

theorem findConstructorByName_eq :
    findConstructorByName ctx name = (infosOf ctx.constructorEnv name).head? := by
  unfold findConstructorByName infosOf
  cases ctx.constructorEnv.findOpt name with
  | none => rfl
  | some infos => cases infos <;> rfl

theorem find?_map_const_append {α X : Type} {p : α → Bool} {a : α} (l : List X) (rest : List α) :
    ((l.map fun _ => a) ++ rest).find? p = if l ≠ [] ∧ p a then some a else rest.find? p := by
  induction l with
  | nil => simp
  | cons x l ih =>
    by_cases ha : p a = true
    · simp [ha]
    · simp [ha] at ih ⊢

theorem fieldName_fieldsOfParsing :
    (fieldsOfParsing declared).map RecordFieldDecl.fieldName = declared.map Prod.fst := by
  apply List.ext_getElem
  · simp [fieldsOfParsing]
  · simp [fieldsOfParsing]

/-- The declaration has all the names among its fields. -/
def recordWith (names : List String) (td : ParsedTyDecl T) :
    Option (ParsedTyDecl T × List (String × T)) :=
  match td.body with
  | .record declared => if names ⊆ declared.map Prod.fst then some (td, declared) else none
  | _ => none

/-- The last record declaration that has all the names among its fields. -/
def newestRecord (tds : List (ParsedTyDecl T)) (names : List String) :
    Option (ParsedTyDecl T × List (String × T)) :=
  tds.foldl (fun best td => (recordWith names td).or best) none

def constructorNamed (name : String) (td : ParsedTyDecl T) :
    Option (ParsedTyDecl T × Option (ConstructorArg (String × T) T)) :=
  match td.body with
  | .variant ctors => (ctors.reverse.find? fun c => c.1 = name).map fun c => (td, c.2)
  | _ => none

/-- The constructor of that name that is declared last: its declaration and its argument. -/
def newestConstructor (tds : List (ParsedTyDecl T)) (name : String) :
    Option (ParsedTyDecl T × Option (ConstructorArg (String × T) T)) :=
  tds.foldl (fun best td => (constructorNamed name td).or best) none

def recordInfo (e : ParsedTyDecl T × List (String × T)) : TyRecordInfo T :=
  { recordFields := fieldsOfParsing e.2, tyDecl := tyDeclOfParsing e.1 }

theorem hasFields_recordInfo (td : ParsedTyDecl T) :
    hasFields names (recordInfo (td, declared)) = true ↔ names ⊆ declared.map Prod.fst := by
  simp only [hasFields, recordInfo, List.all_eq_true, List.any_eq_true, decide_eq_true_eq,
    ← fieldName_fieldsOfParsing, List.subset_def, List.mem_map]
  refine forall₂_congr fun n _ => exists_congr fun f => and_congr_right fun _ => ?_
  exact eq_comm

theorem find_registerTyDecl (td : ParsedTyDecl T) (hne : names ≠ []) :
    findRecordByFieldNames (registerTyDecl ctx (tyDeclOfParsing td)) names =
      ((recordWith names td).map recordInfo).or (findRecordByFieldNames ctx names) := by
  rw [findRecordByFieldNames_eq hne, findRecordByFieldNames_eq hne]
  cases hbody : td.body with
  | record declared =>
    have henv : (registerTyDecl ctx (tyDeclOfParsing td)).recordEnv =
        (fieldsOfParsing declared).foldl (fun env field =>
          pushInfo env field.fieldName (recordInfo (td, declared))) ctx.recordEnv := by
      simp [registerTyDecl, tyDeclOfParsing, hbody, recordInfo]
    rw [henv, infosOf_foldl, find?_map_const_append, recordWith]
    simp only [hbody]
    by_cases hsub : names ⊆ declared.map Prod.fst
    · have hhead : names.head hne ∈ (fieldsOfParsing declared).map RecordFieldDecl.fieldName := by
        rw [fieldName_fieldsOfParsing]
        exact hsub (List.head_mem hne)
      obtain ⟨f, hf, hname⟩ := List.mem_map.mp hhead
      have hlist : ((fieldsOfParsing declared).filter fun f =>
          f.fieldName = names.head hne).reverse ≠ [] := by
        simp only [ne_eq, List.reverse_eq_nil_iff]
        exact List.ne_nil_of_mem (List.mem_filter.mpr ⟨hf, by simpa using hname⟩)
      rw [if_pos ⟨hlist, (hasFields_recordInfo td).mpr hsub⟩, if_pos hsub]
      rfl
    · rw [if_neg fun h => hsub ((hasFields_recordInfo td).mp h.2), if_neg hsub]
      rfl
  | tyAlias t => simp [registerTyDecl, tyDeclOfParsing, recordWith, hbody]
  | variant ctors => simp [registerTyDecl, tyDeclOfParsing, recordWith, hbody]
  | abstract => simp [registerTyDecl, tyDeclOfParsing, recordWith, hbody]

/-- The inference takes the newest declaration that has the names. -/
theorem find_registerAll (hne : names ≠ []) :
    findRecordByFieldNames (registerAll tds) names = (newestRecord tds names).map recordInfo := by
  have hall : ∀ (tds : List (ParsedTyDecl T)) (ctx : DeclEnv T) best,
      findRecordByFieldNames ctx names = best.map recordInfo →
      findRecordByFieldNames (tds.foldl (fun ctx td => registerTyDecl ctx (tyDeclOfParsing td)) ctx)
        names = (tds.foldl (fun best td => (recordWith names td).or best) best).map recordInfo := by
    intro tds
    induction tds with
    | nil => exact fun _ _ h => h
    | cons td tds ih =>
      intro ctx best h
      apply ih
      rw [find_registerTyDecl td hne, h]
      exact (Option.map_or).symm
  apply hall
  rw [findRecordByFieldNames_eq hne]
  rfl

theorem arg_ctorsOfParsing (ctors : List (String × Option (ConstructorArg (String × T) T))) :
    (ctorsOfParsing ctors).map (fun c => (c.name, c.arg)) =
      ctors.map fun c => (c.1, c.2.map ctorArgOfParsing) := by
  apply List.ext_getElem
  · simp [ctorsOfParsing]
  · simp [ctorsOfParsing]

def constructorInfo (e : ParsedTyDecl T × Option (ConstructorArg (String × T) T)) :
    TyDecl T × Option (ConstructorArg (RecordFieldDecl T) T) :=
  (tyDeclOfParsing e.1, e.2.map ctorArgOfParsing)

/-- The constructor that the inference finds, with its declaration. -/
def foundConstructor (ctx : DeclEnv T) (name : String) :
    Option (TyDecl T × Option (ConstructorArg (RecordFieldDecl T) T)) :=
  (findConstructorByName ctx name).map fun info => (info.tyDecl, info.constructor.arg)

theorem foundConstructor_registerTyDecl (td : ParsedTyDecl T) :
    foundConstructor (registerTyDecl ctx (tyDeclOfParsing td)) name =
      ((constructorNamed name td).map constructorInfo).or (foundConstructor ctx name) := by
  unfold foundConstructor
  rw [findConstructorByName_eq, findConstructorByName_eq]
  cases hbody : td.body with
  | variant ctors =>
    have henv : (registerTyDecl ctx (tyDeclOfParsing td)).constructorEnv =
        (ctorsOfParsing ctors).foldl (fun env c =>
          pushInfo env c.name { constructor := c, tyDecl := tyDeclOfParsing td })
          ctx.constructorEnv := by
      simp [registerTyDecl, tyDeclOfParsing, hbody]
    have hlast : ((ctorsOfParsing ctors).reverse.find? fun c => c.name = name).map
        VariantConstructorDecl.arg =
        ((ctors.reverse.find? fun c => c.1 = name).map Prod.snd).map
          (Option.map ctorArgOfParsing) := by
      have hpairs := congrArg (fun l => (l.reverse.find? fun c => c.1 = name).map Prod.snd)
        (arg_ctorsOfParsing ctors)
      simpa [← List.map_reverse, List.find?_map, Function.comp_def] using hpairs
    have hlast := congrArg (Option.map fun arg => (tyDeclOfParsing td, arg)) hlast
    rw [henv, infosOf_foldl, constructorNamed]
    simp only [hbody, Option.map_map, Function.comp_def] at hlast ⊢
    have hinfo : (fun c : String × Option (ConstructorArg (String × T) T) =>
        constructorInfo (td, c.2)) = fun c => (tyDeclOfParsing td, c.2.map ctorArgOfParsing) := rfl
    rw [hinfo, ← hlast, List.head?_append, List.head?_map, ← List.filter_reverse,
      List.head?_filter]
    cases (ctorsOfParsing ctors).reverse.find? fun c => c.name = name <;> simp
  | tyAlias t => simp [registerTyDecl, tyDeclOfParsing, constructorNamed, hbody]
  | record declared => simp [registerTyDecl, tyDeclOfParsing, constructorNamed, hbody]
  | abstract => simp [registerTyDecl, tyDeclOfParsing, constructorNamed, hbody]

/-- The inference takes the constructor of the name that is declared last. -/
theorem foundConstructor_registerAll :
    foundConstructor (registerAll tds) name =
      (newestConstructor tds name).map constructorInfo := by
  have hall : ∀ (tds : List (ParsedTyDecl T)) (ctx : DeclEnv T) best,
      foundConstructor ctx name = best.map constructorInfo →
      foundConstructor (tds.foldl (fun ctx td => registerTyDecl ctx (tyDeclOfParsing td)) ctx)
        name = (tds.foldl (fun best td => (constructorNamed name td).or best) best).map
          constructorInfo := by
    intro tds
    induction tds with
    | nil => exact fun _ _ h => h
    | cons td tds ih =>
      intro ctx best h
      apply ih
      rw [foundConstructor_registerTyDecl td, h]
      exact (Option.map_or).symm
  apply hall
  rw [foundConstructor, findConstructorByName_eq]
  rfl

theorem inferFields_names {infos : List (String × V)}
    (h : inferFields inf s lit = .ok (s', infos)) :
    infos.map Prod.fst = lit.map Prod.fst := by
  induction lit generalizing s s' infos with
  | nil =>
    cases h
    rfl
  | cons e lit ih =>
    obtain ⟨n, value⟩ := e
    rw [inferFields] at h
    cases hv : inf.inferExpr s value with
    | error msg => simp [hv, bind, Except.bind] at h
    | ok v =>
      cases hr : inferFields inf v.1 lit with
      | error msg => simp [hv, hr, bind, Except.bind] at h
      | ok r =>
        simp only [hv, hr, bind, Except.bind, pure, Except.pure, Except.ok.injEq,
          Prod.mk.injEq] at h
        obtain ⟨-, rfl⟩ := h
        simp [ih hr]

/-- Each value gets the slot of the first declared field of its name. -/
theorem unify_slots {declFields : List (RecordFieldDecl T)} {infos : List (String × V)}
    {idxFields : List Nat}
    (h : unifyRecordExprFieldsWithDecl inf declFields s infos = .ok (s', idxFields)) :
    List.Forall₂ (fun (info : String × V) idx => ∃ d, (declFields.find? fun d =>
      d.fieldName = info.1) = some d ∧ d.fieldIdx = idx) infos idxFields := by
  induction infos generalizing s s' idxFields with
  | nil =>
    cases h
    exact .nil
  | cons e infos ih =>
    obtain ⟨n, value⟩ := e
    rw [unifyRecordExprFieldsWithDecl] at h
    cases hd : declFields.find? fun d => d.fieldName = n with
    | none => simp [hd] at h
    | some d =>
      simp only [hd] at h
      cases hu : inf.unifyInto s (inf.tyOf value) d.fieldTy with
      | error msg => simp [hu, bind, Except.bind] at h
      | ok t =>
        cases hr : unifyRecordExprFieldsWithDecl inf declFields t infos with
        | error msg => simp [hu, hr, bind, Except.bind] at h
        | ok r =>
          simp only [hu, hr, bind, Except.bind, pure, Except.pure, Except.ok.injEq,
            Prod.mk.injEq] at h
          obtain ⟨-, rfl⟩ := h
          exact .cons ⟨d, hd, rfl⟩ (ih hr)

theorem idxOf_of_find {d : RecordFieldDecl T} {n : String}
    (h : ((fieldsOfParsing declared).find? fun d => d.fieldName = n) = some d) :
    n ∈ declared.map Prod.fst ∧ d.fieldIdx = (declared.map Prod.fst).idxOf n := by
  obtain ⟨hn, i, hi, rfl, hbefore⟩ := List.find?_eq_some_iff_getElem.mp h
  have hlt : i < (declared.map Prod.fst).length := by simpa [fieldsOfParsing] using hi
  have hname : (declared.map Prod.fst)[i] = n := by simpa [fieldsOfParsing] using hn
  refine ⟨hname ▸ List.getElem_mem hlt, ?_⟩
  have hidx : (declared.map Prod.fst).idxOf n = i := by
    apply (List.findIdx_eq hlt).mpr
    refine ⟨by simpa using hname, fun j hj => ?_⟩
    have hne := hbefore j hj
    simpa [fieldsOfParsing] using hne
  rw [hidx]
  simp [fieldsOfParsing]

/-- A value that is inferred for the literal, with the slots of its declaration. -/
structure Typed (declared : List (String × T)) (names : List String)
    (fields : List (RecordField V)) : Prop where
  names_eq : fields.map RecordField.fieldName = names
  names_subset : names ⊆ declared.map Prod.fst
  slots_eq : fields.map RecordField.fieldIdx = names.map (declared.map Prod.fst).idxOf

theorem typed_of_unify {infos : List (String × V)} {idxFields : List Nat}
    (h : unifyRecordExprFieldsWithDecl inf (fieldsOfParsing declared) s infos =
      .ok (s', idxFields)) :
    Typed declared (infos.map Prod.fst) (typedFields infos idxFields) := by
  have hslots := unify_slots h
  clear h
  induction hslots with
  | nil => exact ⟨rfl, by simp, rfl⟩
  | @cons info idx infos idxFields hd _ ih =>
    obtain ⟨d, hfind, rfl⟩ := hd
    obtain ⟨hmem, hidx⟩ := idxOf_of_find hfind
    refine ⟨?_, ?_, ?_⟩
    · exact congrArg (info.1 :: ·) ih.names_eq
    · exact List.cons_subset.mpr ⟨hmem, ih.names_subset⟩
    · simp only [List.map_cons, ← hidx]
      exact congrArg (d.fieldIdx :: ·) ih.slots_eq

/-- Every declared field is assigned exactly once, and no other. -/
structure EachOnce (declared : List (String × T)) (fields : List (RecordField V)) : Prop where
  slots : (fields.map RecordField.fieldIdx).Perm (List.range declared.length)
  names : (fields.map RecordField.fieldName).Perm (declared.map Prod.fst)

/-- The object is made with `n` slots, the fields are set in it and nothing else is done, and each
slot is set. -/
def ObjectComplete (low : Lowering C V T O) (n : Nat) (fields : List (RecordField V)) (obj : Id)
    (stmts : List (Stmt O)) : Prop :=
  ∃ c, stmts = .objectCreate obj n :: (setFields low obj c fields).2 ∧
    ∀ i < n, ∃ v, .objectSet obj i v ∈ (setFields low obj c fields).2

/-- No name is written or declared twice, and as many are written as are declared. -/
structure CountsAgree (names : List String) (declared : List (String × T)) : Prop where
  names_nodup : names.Nodup
  declared_nodup : (declared.map Prod.fst).Nodup
  length_eq : names.length = declared.length

theorem map_idxOf_self {l : List String} (h : l.Nodup) : l.map l.idxOf = List.range l.length := by
  apply List.ext_getElem
  · simp
  · intro i hi hi'
    simp only [List.getElem_map, List.getElem_range]
    exact h.idxOf_getElem i _

theorem eachOnce_iff (h : Typed declared names fields) :
    EachOnce declared fields ↔ CountsAgree names declared := by
  constructor
  · rintro ⟨hslots, hnames⟩
    rw [h.names_eq] at hnames
    rw [h.slots_eq] at hslots
    have hnodup : names.Nodup := (hslots.nodup_iff.mpr List.nodup_range).of_map
    exact ⟨hnodup, hnames.nodup_iff.mp hnodup, by simpa using hnames.length_eq⟩
  · rintro ⟨hnodup, hdeclared, hlength⟩
    have hperm : names.Perm (declared.map Prod.fst) :=
      (hnodup.subperm h.names_subset).perm_of_length_le (by simp [hlength])
    refine ⟨?_, h.names_eq ▸ hperm⟩
    rw [h.slots_eq]
    have hmap := hperm.map (declared.map Prod.fst).idxOf
    rwa [map_idxOf_self hdeclared, List.length_map] at hmap

theorem set_of_mem_fields (low : Lowering C V T O) (obj : Id) (c : C) {f : RecordField V}
    (hf : f ∈ fields) : ∃ v, .objectSet obj f.fieldIdx v ∈ (setFields low obj c fields).2 := by
  induction fields generalizing c with
  | nil => simp at hf
  | cons g fields ih =>
    simp only [setFields, List.mem_append, List.mem_cons]
    rcases List.mem_cons.mp hf with rfl | hf
    · exact ⟨_, Or.inr (Or.inl rfl)⟩
    · obtain ⟨v, hv⟩ := ih (low.lowerExpr c g.fieldValue).1 hf
      exact ⟨v, Or.inr (Or.inr hv)⟩

theorem set_of_eachOnce (low : Lowering C V T O) (obj : Id) (c : C) (h : EachOnce declared fields) :
    ∀ i < declared.length, ∃ v, .objectSet obj i v ∈ (setFields low obj c fields).2 := by
  intro i hi
  have hmem : i ∈ fields.map RecordField.fieldIdx := h.slots.mem_iff.mpr (List.mem_range.mpr hi)
  obtain ⟨f, hf, rfl⟩ := List.mem_map.mp hmem
  exact set_of_mem_fields low obj c hf

theorem EachOnce.length_eq (h : EachOnce declared fields) : fields.length = declared.length := by
  simpa using h.slots.length_eq

theorem objectComplete_lowerRecord (low : Lowering C V T O) (c : C)
    (h : EachOnce declared fields) : ObjectComplete low declared.length fields
      (lowerRecord low c fields).2.2 (lowerRecord low c fields).2.1 :=
  ⟨_, by rw [← h.length_eq]; rfl, set_of_eachOnce low _ _ h⟩

theorem objectComplete_lowerVariantPayload (low : Lowering C V T O) (c : C)
    {declFields : List (Nat × T)} (h : EachOnce declared fields)
    (hlength : declFields.length = declared.length) :
    ObjectComplete low declared.length fields
      (lowerVariantPayload low c (.record declFields) fields).2.2
      (lowerVariantPayload low c (.record declFields) fields).2.1 :=
  ⟨_, by rw [← hlength]; rfl, set_of_eachOnce low _ _ h⟩

theorem bind_eq_ok {α β : Type} {x : Except String α} {f : α → Except String β} {b : β} :
    x >>= f = .ok b ↔ ∃ a, x = .ok a ∧ f a = .ok b := by
  cases x <;> simp [bind, Except.bind]

/-- What the inference of an accepted literal takes from the declarations. -/
theorem typed_of_inferRecord {td : TyDecl T}
    (h : inferRecord inf (registerAll tds) s lit = .ok (s', td, fields)) :
    ∃ ptd declared, newestRecord tds (lit.map Prod.fst) = some (ptd, declared) ∧
      td = tyDeclOfParsing ptd ∧ Typed declared (lit.map Prod.fst) fields := by
  obtain ⟨⟨t, infos⟩, hinfos, h⟩ := bind_eq_ok.mp h
  have hnames := inferFields_names hinfos
  dsimp only at h
  rw [hnames] at h
  cases hfind : findRecordByFieldNames (registerAll tds) (lit.map Prod.fst) with
  | none => simp [hfind] at h
  | some info =>
    simp only [hfind] at h
    obtain ⟨⟨t', idxFields⟩, hunify, h⟩ := bind_eq_ok.mp h
    obtain ⟨-, rfl, rfl⟩ : t' = s' ∧ info.tyDecl = td ∧ typedFields infos idxFields = fields := by
      simpa [pure, Except.pure] using h
    have hne : lit.map Prod.fst ≠ [] := by
      intro hnil
      rw [hnil] at hfind
      simp [findRecordByFieldNames] at hfind
    rw [find_registerAll hne] at hfind
    obtain ⟨⟨ptd, declared⟩, hnewest, rfl⟩ := Option.map_eq_some_iff.mp hfind
    exact ⟨ptd, declared, hnewest, rfl, hnames ▸ typed_of_unify hunify⟩

/-- What the inference of an accepted payload takes from the declarations. -/
theorem typed_of_inferVariantConstructor {ty : T} {ctor : VariantConstructorDecl T}
    (h : inferVariantConstructor inf (registerAll tds) s name (some (.record lit)) =
      .ok (s', some (.inline fields), ty, ctor)) :
    ∃ ptd declared, newestConstructor tds name = some (ptd, some (.record declared)) ∧
      ty = inf.defined ptd.name ∧ ctor.arg = some (.record (fieldsOfParsing declared)) ∧
      Typed declared (lit.map Prod.fst) fields := by
  unfold inferVariantConstructor at h
  have hnewest := @foundConstructor_registerAll T name tds
  cases hfind : findConstructorByName (registerAll tds) name with
  | none => simp [hfind] at h
  | some info =>
    obtain ⟨c, td⟩ := info
    simp only [hfind] at h
    rw [foundConstructor, hfind] at hnewest
    cases harg : c.arg with
    | none => simp [harg] at h
    | some arg =>
      cases arg with
      | ty t =>
        simp only [harg] at h
        obtain ⟨⟨t, decl, typed⟩, -, h⟩ := bind_eq_ok.mp h
        obtain ⟨t', -, h⟩ := bind_eq_ok.mp h
        simp [pure, Except.pure] at h
      | record declFields =>
        simp only [harg] at h
        obtain ⟨⟨t, infos⟩, hinfos, h⟩ := bind_eq_ok.mp h
        obtain ⟨⟨t', idxFields⟩, hunify, h⟩ := bind_eq_ok.mp h
        obtain ⟨-, rfl, hty, rfl⟩ : t' = s' ∧ typedFields infos idxFields = fields ∧
            inf.defined td.name = ty ∧ c = ctor := by
          simpa [pure, Except.pure] using h
        obtain ⟨⟨ptd, parg⟩, hparg, hinfo⟩ := Option.map_eq_some_iff.mp hnewest.symm
        obtain ⟨rfl, hof⟩ := Prod.mk.inj hinfo
        replace hof := hof.trans harg
        obtain ⟨declared, hdeclared, heq⟩ := Option.map_eq_some_iff.mp hof
        cases declared with
        | ty t => simp [ctorArgOfParsing] at heq
        | record declared =>
          obtain rfl : fieldsOfParsing declared = declFields := by
            simpa [ctorArgOfParsing] using heq
          refine ⟨ptd, declared, hdeclared ▸ hparg, hty.symm, harg, ?_⟩
          rw [← inferFields_names hinfos]
          exact typed_of_unify hunify

/-- A literal is complete: its declaration's fields are each assigned once, and so are the slots of
the object made for it. -/
def LiteralComplete (declared : List (String × T)) (fields : List (RecordField V)) : Prop :=
  EachOnce declared fields ∧ ∀ (C O : Type) (low : Lowering C V T O) (c : C),
    ObjectComplete low declared.length fields (lowerRecord low c fields).2.2
      (lowerRecord low c fields).2.1

/-- The type declarations of the core program, and the names of the types in scope. -/
structure CoreScope (T : Type) where
  items : List (String × CoreBody T)
  typeSubst : StringMap String

/-- The lowering of a payload of the type of that name, in its scope. -/
def lowerPayload (low : Lowering C V T O) (scope : CoreScope T) (c : C) (tyName : String)
    (tag : Nat) (fields : List (RecordField V)) : Except String (C × List (Stmt O) × O) :=
  qualifyTypeName scope.typeSubst tyName >>= fun qname =>
    lowerVariantConstructor low (typeDefsOf scope.items) c qname tag fields

/-- A payload is complete: its declaration's fields are each assigned once, and where it is lowered,
so are the slots of the object that is its value. -/
def PayloadComplete (scope : CoreScope T) (tyName : String) (tag : Nat)
    (declared : List (String × T)) (fields : List (RecordField V)) : Prop :=
  EachOnce declared fields ∧ ∀ (C O : Type) (low : Lowering C V T O) (c : C) r,
    lowerPayload low scope c tyName tag fields = .ok r →
    ∃ obj, r.2.2 = low.var obj ∧ ObjectComplete low declared.length fields obj r.2.1

/-- Where the lowering finds a constructor again by the name of its type and its tag, it finds one of
as many fields. -/
def FoundAgain (scope : CoreScope T) (tyName : String) (tag n : Nat) : Prop :=
  ∀ qname ctor, qualifyTypeName scope.typeSubst tyName = .ok qname →
    findCtor (typeDefsOf scope.items) qname tag = .ok ctor →
    ∃ declFields, ctor.arg = some (.record declFields) ∧ declFields.length = n

theorem literalComplete_iff (h : Typed declared names fields) :
    LiteralComplete declared fields ↔ CountsAgree names declared := by
  rw [← eachOnce_iff h]
  exact ⟨fun hc => hc.1, fun hc => ⟨hc, fun _ _ low c => objectComplete_lowerRecord low c hc⟩⟩

section Lookup

variable {scope : CoreScope T} {tyName qname : String} {tag : Nat} {ctor : CoreConstructor T}

/-- A lowering of values that emits no statement. -/
def silent (V T : Type) : Lowering Unit V T Unit where
  lowerExpr _ _ := ((), [], ())
  freshVar _ := ((), 0)
  var _ := ()
  constantCtor _ _ := ((), [], ())
  tupleTys _ := none

theorem lowerPayload_found (low : Lowering C V T O) (c : C) (fields : List (RecordField V))
    (hname : qualifyTypeName scope.typeSubst tyName = .ok qname)
    (hctor : findCtor (typeDefsOf scope.items) qname tag = .ok ctor) :
    lowerPayload low scope c tyName tag fields = .ok (match ctor.arg with
      | none => low.constantCtor c tag
      | some ctorArg => ((lowerVariantPayload low c ctorArg fields).1,
        (lowerVariantPayload low c ctorArg fields).2.1,
        low.var (lowerVariantPayload low c ctorArg fields).2.2)) := by
  have hlookup : lowerPayload low scope c tyName tag fields =
      lowerVariantConstructor low (typeDefsOf scope.items) c qname tag fields := by
    rw [lowerPayload, hname]
    rfl
  rw [hlookup, lowerVariantConstructor, hctor]
  rfl

/-- Only a record of as many fields gives a complete object. -/
theorem record_of_complete {n : Nat} {obj : Id} {ctorArg : ConstructorArg (Nat × T) T}
    (h : ObjectComplete (silent V T) n fields obj
      (lowerVariantPayload (silent V T) () ctorArg fields).2.1) :
    ∃ declFields, ctorArg = .record declFields ∧ declFields.length = n := by
  obtain ⟨c, hstmts, -⟩ := h
  cases ctorArg with
  | record declFields =>
    obtain ⟨hcreate, -⟩ := List.cons.inj hstmts
    exact ⟨declFields, rfl, (Stmt.objectCreate.inj hcreate).2⟩
  | ty t =>
    -- the record is an object of its own, made after the block of the constructor
    obtain ⟨-, hrest⟩ := List.cons.inj hstmts
    cases fields with
    | nil => cases hrest
    | cons f fields => cases (List.cons.inj hrest).1

theorem foundAgain_of_complete
    (h : PayloadComplete scope tyName tag declared fields) :
    FoundAgain scope tyName tag declared.length := by
  intro qname ctor hname hctor
  have hlower := lowerPayload_found (silent V T) () fields hname hctor
  obtain ⟨obj, -, hobj⟩ := h.2 Unit Unit _ () _ hlower
  cases harg : ctor.arg with
  | none =>
    obtain ⟨c, hstmts, -⟩ := hobj
    rw [harg] at hstmts
    cases hstmts
  | some ctorArg =>
    rw [harg] at hobj
    obtain ⟨declFields, rfl, hlength⟩ := record_of_complete hobj
    exact ⟨declFields, rfl, hlength⟩

theorem payloadComplete_of_foundAgain (honce : EachOnce declared fields)
    (h : FoundAgain scope tyName tag declared.length) :
    PayloadComplete scope tyName tag declared fields := by
  refine ⟨honce, fun C O low c r hr => ?_⟩
  cases hname : qualifyTypeName scope.typeSubst tyName with
  | error msg =>
    rw [lowerPayload, hname] at hr
    cases hr
  | ok qname =>
    cases hctor : findCtor (typeDefsOf scope.items) qname tag with
    | error msg =>
      rw [lowerPayload, hname] at hr
      simp only [bind, Except.bind, lowerVariantConstructor, hctor, Except.map] at hr
      cases hr
    | ok ctor =>
      obtain ⟨declFields, harg, hlength⟩ := h qname ctor hname hctor
      rw [lowerPayload_found low c _ hname hctor, harg] at hr
      obtain rfl := Except.ok.inj hr
      exact ⟨_, rfl, objectComplete_lowerVariantPayload low c honce hlength⟩

theorem payloadComplete_iff (h : Typed declared names fields) :
    PayloadComplete scope tyName tag declared fields ↔
      CountsAgree names declared ∧ FoundAgain scope tyName tag declared.length := by
  rw [← eachOnce_iff h]
  exact ⟨fun hc => ⟨hc.1, foundAgain_of_complete hc⟩,
    fun hc => payloadComplete_of_foundAgain hc.1 hc.2⟩

end Lookup

/-- Values are integers, and every type is the one of the integers. -/
def integersOnly : Inference Unit Int Int Unit :=
  { inferExpr := fun s e => .ok (s, e), tyOf := fun _ => (), unifyInto := fun s _ _ => .ok s
    defined := fun _ => (), arrow := fun _ _ => () }

def pointDecl : ParsedTyDecl Unit := { name := "point", body := .record [("x", ()), ("y", ())] }

def shapeDecl : ParsedTyDecl Unit :=
  { name := "shape", body := .variant [("Rect", some (.record [("w", ()), ("h", ())]))] }

/-- The declarations of a module `m`, all of them in scope. -/
def scopeOf (tds : List (ParsedTyDecl Unit)) : CoreScope Unit :=
  { items := tds.map fun td => ("m." ++ td.name, desugarTypeDecl (tyDeclOfParsing td).body)
    typeSubst := tds.map fun td => (td.name, "m." ++ td.name) }

end Syli.Compiler.Records
