import Syli.Compiler.LambdaLifting

/-! The lifted function receives the captured variables in the reverse of the order in which the
closure stores them. -/
namespace Syli.Compiler

open Foundation

variable {ctx : LowerCtx} {lambdaId : Id} {params : List String} {lamTy : CTy}
variable {lifted : LiftedParams} {name : String} {v : Cir.Var} {l : List (String × Cir.Var)}

/-- The value of a source name inside the lifted function, called on the parameter values `args`. -/
def LiftedParams.valueOf {α : Type} (lifted : LiftedParams) (args : List α) (name : String) :
    Option α :=
  (lifted.bodyCtx.env.findOpt name).bind fun v =>
    AssocMap.findOpt ((lifted.params.map Cir.Var.id).zip args) v.id

/-- The captured fields of a closure, with the values `rho` of the variables of its definition. -/
def storedValues {α : Type} (ctx : LowerCtx) (lambdaId : Id) (rho : Id → α) : List α :=
  (lowerMakeClosure (ctx.closureFreeVars lambdaId) []).map fun field => rho field.2.id

/-- The lifted function finds each captured value in the parameter that stands for its variable, and
its own parameters after them; so a captured name has the value it had at the definition. -/
structure CaptureLaw (ctx : LowerCtx) (lambdaId : Id) (params : List String) (lamTy : CTy)
    (lifted : LiftedParams) : Prop where
  same_variable : ∀ i v, (1 + i, v) ∈ lowerMakeClosure (ctx.closureFreeVars lambdaId) [] →
    ∃ p, lifted.params[i]? = some p ∧ p.id = v.id
  arity : lifted.params.length = (ctx.closureFreeVars lambdaId).length + params.length
  own_params : ∀ j p, params[j]? = some p → ∀ t, (getArgsTy lamTy)[j]? = some t →
    isUnitCty t = false →
      ∃ q : Cir.Var, lifted.params[(ctx.closureFreeVars lambdaId).length + j]? = some q ∧ q.name = p
  same_value : ∀ {α : Type} (rho : Id → α) (args : List α), args.length = params.length →
    ∀ name ∈ ctx.freeIdents lambdaId, ∀ v, ctx.env.findOpt name = some v →
      (∀ q ∈ lifted.params.drop (ctx.closureFreeVars lambdaId).length, q.name ≠ name) →
        lifted.valueOf (storedValues ctx lambdaId rho ++ args) name = some (rho v.id)

/-- The captured names with their variables, in the order of the names. -/
def found (ctx : LowerCtx) (lambdaId : Id) : List (String × Id) :=
  (ctx.freeIdents lambdaId).filterMap fun name =>
    (ctx.env.findOpt name).map fun v => (name, v.id)

theorem closureFreeVars_ids :
    (ctx.closureFreeVars lambdaId).map Cir.Var.id = (found ctx lambdaId).map Prod.snd := by
  unfold LowerCtx.closureFreeVars found
  induction ctx.freeIdents lambdaId with
  | nil => rfl
  | cons name l ih => cases h : ctx.env.findOpt name <;> simp [h, ih]

theorem capturedVars_ids : (ctx.capturedVars lambdaId).map (fun e => (e.1, e.2.id)) =
    (found ctx lambdaId).reverse := by
  have hall : ∀ (l : List String) (k : Nat), ((l.mapIdx fun i name =>
      (ctx.env.findOpt name).map fun v =>
        (name, { v with name := "sy_" ++ v.name ++ "_cap_" ++ toString (i + k) })).filterMap
          id).map (fun e => (e.1, e.2.id)) = l.filterMap fun name =>
            (ctx.env.findOpt name).map fun v => (name, v.id) := by
    intro l
    induction l with
    | nil => simp
    | cons name l ih =>
      intro k
      have hrest := ih (k + 1)
      cases h : ctx.env.findOpt name <;>
        simp [List.mapIdx_cons, h, ← hrest, Nat.add_assoc, Nat.add_comm 1 k]
  rw [LowerCtx.capturedVars, List.map_reverse]
  exact congrArg List.reverse (hall (ctx.freeIdents lambdaId) 0)

theorem foldl_addFreeVar_vars (ctx : LowerCtx) (acc : List Cir.Var) :
    (l.foldl addFreeVar (ctx, acc)).2 = (l.map Prod.snd).reverse ++ acc := by
  induction l generalizing ctx acc with
  | nil => rfl
  | cons e l ih => simp [addFreeVar, ih]

/-- A name that is added stands for the variable added last. -/
theorem foldl_addFreeVar_env (acc : List Cir.Var) (h : ∃ v, (name, v) ∈ l) :
    ∃ v, (name, v) ∈ l ∧ (l.foldl addFreeVar (ctx, acc)).1.env.findOpt name = some v := by
  have hother : ∀ (l : List (String × Cir.Var)) (ctx : LowerCtx) (acc : List Cir.Var),
      name ∉ l.map Prod.fst →
        (l.foldl addFreeVar (ctx, acc)).1.env.findOpt name = ctx.env.findOpt name := by
    intro l
    induction l with
    | nil => exact fun _ _ _ => rfl
    | cons e l ih =>
      intro ctx acc hn
      rw [List.map_cons, List.mem_cons, not_or] at hn
      rw [List.foldl_cons, addFreeVar, ih _ _ hn.2]
      exact AssocMap.findOpt_add_of_ne hn.1
  induction l generalizing ctx acc with
  | nil => simp at h
  | cons e l ih =>
    rw [List.foldl_cons]
    by_cases hmem : ∃ v, (name, v) ∈ l
    · obtain ⟨v, hv, hfind⟩ := ih (e.2 :: acc) hmem
      exact ⟨v, List.mem_cons_of_mem e hv, hfind⟩
    · obtain ⟨v, hv⟩ := h
      rcases List.mem_cons.mp hv with rfl | hv
      · refine ⟨v, List.mem_cons_self, ?_⟩
        rw [addFreeVar, hother]
        · exact AssocMap.findOpt_add_self
        · intro hin
          obtain ⟨⟨n, w⟩, hw, rfl⟩ := List.mem_map.mp hin
          exact hmem ⟨w, hw⟩
      · exact absurd ⟨v, hv⟩ hmem

/-- The parameters of the lambda are added behind those that are there. -/
theorem foldl_addParam (ps : List (String × CTy)) (st : ParamState) :
    ∃ own : List Cir.Var, (ps.foldl addParam st).vars = own.reverse ++ st.vars ∧
      own.length = ps.length ∧
      (∀ (j : Nat) (p : String) (t : CTy), ps[j]? = some (p, t) → isUnitCty t = false →
        ∃ q : Cir.Var, own[j]? = some q ∧ q.name = p) ∧
      ∀ name, (∀ q ∈ own, q.name ≠ name) →
        (ps.foldl addParam st).ctx.env.findOpt name = st.ctx.env.findOpt name := by
  induction ps generalizing st with
  | nil => exact ⟨[], rfl, rfl, by simp, fun _ _ => rfl⟩
  | cons p ps ih =>
    obtain ⟨own, hvars, hlen, hnames, henv⟩ := ih (addParam st p)
    obtain ⟨v, hv, hadd⟩ : ∃ v, (isUnitCty p.2 = false → v.name = p.1) ∧
        (addParam st p).vars = v :: st.vars ∧
          (addParam st p).ctx.env = st.ctx.env.add v.name v := by
      unfold addParam
      split
      · rename_i hunit
        exact ⟨_, fun h => absurd (hunit.symm.trans h) (by simp), rfl, rfl⟩
      · exact ⟨_, fun _ => rfl, rfl, rfl⟩
    refine ⟨v :: own, ?_, by simp [hlen], ?_, ?_⟩
    · rw [List.foldl_cons, hvars, hadd.1]
      simp
    · rintro (_ | j) q t hq ht
      · simp only [List.getElem?_cons_zero, Option.some.injEq] at hq
        subst hq
        exact ⟨v, rfl, hv ht⟩
      · exact hnames j q t hq ht
    · intro name hname
      rw [List.foldl_cons, henv name fun q hq => hname q (List.mem_cons_of_mem v hq), hadd.2]
      exact AssocMap.findOpt_add_of_ne (hname v List.mem_cons_self).symm

/-- The parameters of the lifted function: the captured variables, then those of the lambda. -/
theorem lowerLambdaParams_eq (h : lowerLambdaParams ctx params lamTy lambdaId = some lifted) :
    ∃ own : List Cir.Var, lifted.params = (ctx.capturedVars lambdaId).map Prod.snd ++ own ∧
      own.length = params.length ∧
      (∀ (j : Nat) (p : String), params[j]? = some p → ∀ t, (getArgsTy lamTy)[j]? = some t →
        isUnitCty t = false → ∃ q : Cir.Var, own[j]? = some q ∧ q.name = p) ∧
      ∀ name, (∀ q ∈ own, q.name ≠ name) → lifted.bodyCtx.env.findOpt name =
        ((ctx.capturedVars lambdaId).foldl addFreeVar (ctx, [])).1.env.findOpt name := by
  unfold lowerLambdaParams at h
  dsimp only at h
  split at h
  · rename_i hlen
    obtain ⟨own, hvars, hown, hnames, henv⟩ := foldl_addParam
      (params.zip ((getArgsTy lamTy).take params.length))
      { ctx := ((ctx.capturedVars lambdaId).foldl addFreeVar (ctx, [])).1
        vars := ((ctx.capturedVars lambdaId).foldl addFreeVar (ctx, [])).2
        unitPos := []
        idx := ((ctx.capturedVars lambdaId).foldl addFreeVar (ctx, [])).2.length }
    obtain rfl := Option.some.inj h
    refine ⟨own, ?_, ?_, ?_, henv⟩
    · exact (congrArg List.reverse hvars).trans (by simp [foldl_addFreeVar_vars])
    · rw [hown, List.length_zip, ← hlen, Nat.min_self]
    · intro j p hp t ht hunit
      have hj : j < params.length := (List.getElem?_eq_some_iff.mp hp).1
      refine hnames j p t ?_ hunit
      rw [List.getElem?_zip_eq_some]
      exact ⟨hp, by rw [List.getElem?_take_of_lt hj, ht]⟩
  · cases h

theorem mem_lowerMakeClosure {i : Nat} {l : List Cir.Var} :
    (1 + i, v) ∈ lowerMakeClosure l [] ↔ l[i]? = some v := by
  unfold lowerMakeClosure
  rw [List.append_nil, List.mem_mapIdx]
  constructor
  · rintro ⟨k, hk, heq⟩
    obtain ⟨hki, hkv⟩ := Prod.mk.inj heq
    obtain rfl : k = i := by omega
    exact List.getElem?_eq_some_iff.mpr ⟨hk, hkv⟩
  · intro h
    obtain ⟨hi, hv⟩ := List.getElem?_eq_some_iff.mp h
    exact ⟨i, hi, by rw [hv]⟩

theorem storedValues_eq {α : Type} (rho : Id → α) :
    storedValues ctx lambdaId rho = ((found ctx lambdaId).map Prod.snd).map rho := by
  have hall : ∀ (l : List Cir.Var) (k : Nat),
      (l.mapIdx fun i value => (k + i, value)).map (fun field => rho field.2.id) =
        (l.map Cir.Var.id).map rho := by
    intro l
    induction l with
    | nil => exact fun _ => rfl
    | cons v l ih =>
      intro k
      have hrest := ih (k + 1)
      simp only [List.mapIdx_cons, List.map_cons]
      rw [← hrest]
      simp [Nat.add_assoc, Nat.add_comm 1]
  rw [storedValues, lowerMakeClosure, List.append_nil, hall, closureFreeVars_ids]

theorem findOpt_zip_map {α : Type} {ids : List Id} {i : Id} (rho : Id → α) (h : i ∈ ids)
    (rest : List Id) (args : List α) :
    AssocMap.findOpt ((ids ++ rest).zip (ids.map rho ++ args)) i = some (rho i) := by
  induction ids with
  | nil => simp at h
  | cons k ids ih =>
    by_cases hk : i = k
    · subst hk
      exact AssocMap.findOpt_add_self
    · exact (AssocMap.findOpt_add_of_ne hk).trans (ih ((List.mem_cons.mp h).resolve_left hk))

/-- `let f a b = let g x = .. in ..` where the body of `g` uses `a` and `b`. -/
def twoCaptures : LowerCtx where
  env := [("a", ⟨1, "a"⟩), ("b", ⟨2, "b"⟩)]
  closureInfos := [(7, { elements := ["a", "b"], sorted := by decide })]
  nextId := 3

/-- `let f a = let g x = .. in ..` where the body of `g` uses `a`. -/
def oneCapture : LowerCtx where
  env := [("a", ⟨1, "a"⟩)]
  closureInfos := [(7, { elements := ["a"], sorted := by decide })]
  nextId := 2

def intToInt : CTy := .arrow (.constant .int64) (.constant .int64)

end Syli.Compiler
