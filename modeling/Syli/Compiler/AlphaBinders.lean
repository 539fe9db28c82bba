import Syli.Compiler.AlphaNames

/-! The binders that each step of the alpha renaming adds, and the numbers that it takes. -/
namespace Syli.Compiler.Alpha

open Foundation RenameEnv

variable {n k lo hi : Nat} {env : RenameEnv} {s t : Scope SourceName} {xs : List SourceName}

/-- Some binders take one number each, and their names are fresh. -/
structure Takes (n k : Nat) (xs : List SourceName) (counter : Nat) (names : List String) :
    Prop where
  counter_eq : counter = n + (k + xs.length)
  names_eq : names = freshNames (n + k) xs

/-- What a step of the traversal takes, and the binders that it adds to the accumulator. -/
structure Binds {α : Type} (n k : Nat) (env : RenameEnv) (added : Scope SourceName)
    (xs : List SourceName) (names : List String) (r : Renamed α) : Prop
    extends Takes n k xs r.counter names where
  env_eq : r.env = renamedEnv n added ++ env

section Append

variable {α β : Type} {counter counter' : Nat} {ys : List SourceName} {names names' : List String}
  {added added' passed : Scope SourceName} {r : Renamed α} {rs : Renamed β}

theorem Takes.length (h : Takes n k xs counter names) : names.length = xs.length := by
  rw [h.names_eq, length_freshNames]

/-- The second binders start with the counter that the first ones left. -/
theorem Takes.append (h : Takes n k xs counter names)
    (hs : Takes n (k + xs.length) ys counter' names') :
    Takes n k (xs ++ ys) counter' (names ++ names') := by
  constructor
  · rw [hs.counter_eq, List.length_append]
    omega
  · rw [h.names_eq, hs.names_eq, freshNames_append, Nat.add_assoc]

/-- The entries of the new names, in the renamed program. -/
theorem Takes.entries_eq (h : Takes n k xs counter names) :
    entries k names = renamedScope n (entries k xs) := by
  rw [h.names_eq, entries_freshNames]

theorem Binds.env_append (h : Binds n k (renamedEnv n passed) added xs names r) :
    r.env = renamedEnv n (added ++ passed) := by
  rw [h.env_eq, renamedEnv_append]

theorem Binds.env_trans (h : Binds n k env added xs names r)
    (hs : Binds n (k + xs.length) r.env added' ys names' rs) :
    rs.env = renamedEnv n (added' ++ added) ++ env := by
  rw [hs.env_eq, h.env_eq, renamedEnv_append, List.append_assoc]

end Append

mutual

theorem bindPattern_binds (n : Nat) (p : Pattern SourceName) : ∀ (k : Nat) (env : RenameEnv),
    Binds n k env (entries k p.binders) p.binders (bindPattern env (n + k) p).node.binders
      (bindPattern env (n + k) p) := by
  intro k env
  cases p with
  | literal | any => exact ⟨⟨rfl, rfl⟩, rfl⟩
  | ident info x => exact ⟨⟨rfl, rfl⟩, rfl⟩
  | compound info form elements =>
    have h := bindPatterns_binds n elements k env
    exact ⟨⟨h.counter_eq, h.names_eq⟩, h.env_eq⟩

theorem bindPatterns_binds (n : Nat) (ps : List (Pattern SourceName)) :
    ∀ (k : Nat) (env : RenameEnv), Binds n k env (entries k (patternsBinders ps))
      (patternsBinders ps) (patternsBinders (bindPatterns env (n + k) ps).node)
      (bindPatterns env (n + k) ps) := by
  intro k env
  cases ps with
  | nil => exact ⟨⟨rfl, rfl⟩, rfl⟩
  | cons p ps =>
    have hp := bindPattern_binds n p k env
    have hps := bindPatterns_binds n ps (k + p.binders.length) (bindPattern env (n + k) p).env
    rw [← hp.counter_eq] at hps
    rw [patternsBinders, entries_append]
    have henv := hp.env_trans hps
    exact ⟨hp.toTakes.append hps.toTakes, henv⟩

end

theorem renameParams_binds (n : Nat) (ps : List (Param SourceName)) :
    ∀ (k : Nat) (env : RenameEnv), Binds n k env (entries k (paramsBinders ps))
      (paramsBinders ps) (paramsBinders (renameParams env (n + k) ps).node)
      (renameParams env (n + k) ps) := by
  induction ps with
  | nil => exact fun k env => ⟨⟨rfl, rfl⟩, rfl⟩
  | cons p ps ih =>
    intro k env
    have hp := bindPattern_binds n p.pattern k env
    have hps := ih (k + p.pattern.binders.length) (bindPattern env (n + k) p.pattern).env
    rw [← hp.counter_eq] at hps
    rw [paramsBinders, entries_append]
    have henv := hp.env_trans hps
    exact ⟨hp.toTakes.append hps.toTakes, henv⟩

mutual

/-- The binders that an expression leaves in the accumulator. -/
def Expr.passed (k : Nat) : Expr SourceName → Scope SourceName
  | .letIn _ _ pattern value => entries (k + value.binders.length) pattern.binders
  | .form _ _ operands => exprsPassed k operands
  | _ => []

def exprsPassed (k : Nat) : List (Expr SourceName) → Scope SourceName
  | [] => []
  | e :: es => exprsPassed (k + e.binders.length) es ++ e.passed k

end

mutual

theorem renameExpr_binds (n : Nat) (e : Expr SourceName) : ∀ (k : Nat) (env : RenameEnv),
    Binds n k env (e.passed k) e.binders (renameExpr env (n + k) e).node.binders
      (renameExpr env (n + k) e) := by
  intro k env
  cases e with
  | ident info x => exact ⟨⟨rfl, rfl⟩, rfl⟩
  | lambda info params body retTy loc =>
    have hps := renameParams_binds n params k env
    have hb := renameExpr_binds n body (k + (paramsBinders params).length)
      (renameParams env (n + k) params).env
    rw [← hps.counter_eq] at hb
    exact ⟨hps.toTakes.append hb.toTakes, rfl⟩
  | letIn info header pattern value =>
    have hv := renameExpr_binds n value k env
    have hp := bindPattern_binds n pattern (k + value.binders.length) env
    rw [← hv.counter_eq] at hp
    exact ⟨hv.toTakes.append hp.toTakes, hp.env_eq⟩
  | matchWith info scrutinee cases =>
    have hs := renameExpr_binds n scrutinee k env
    have hcs := renameCases_binds n cases (k + scrutinee.binders.length) env
    rw [← hs.counter_eq] at hcs
    exact ⟨hs.toTakes.append hcs.toTakes, rfl⟩
  | form info f operands =>
    have h := renameExprs_binds n operands k env
    exact ⟨⟨h.counter_eq, h.names_eq⟩, h.env_eq⟩

theorem renameExprs_binds (n : Nat) (es : List (Expr SourceName)) : ∀ (k : Nat) (env : RenameEnv),
    Binds n k env (exprsPassed k es) (exprsBinders es)
      (exprsBinders (renameExprs env (n + k) es).node) (renameExprs env (n + k) es) := by
  intro k env
  cases es with
  | nil => exact ⟨⟨rfl, rfl⟩, rfl⟩
  | cons e es =>
    have he := renameExpr_binds n e k env
    have hes := renameExprs_binds n es (k + e.binders.length) (renameExpr env (n + k) e).env
    rw [← he.counter_eq] at hes
    have henv := he.env_trans hes
    exact ⟨he.toTakes.append hes.toTakes, henv⟩

theorem renameCases_binds (n : Nat) (cases : List (Case SourceName)) :
    ∀ (k : Nat) (env : RenameEnv),
    Binds n k env [] (casesBinders cases) (casesBinders (renameCases env (n + k) cases).node)
      (renameCases env (n + k) cases) := by
  intro k env
  match cases with
  | [] => exact ⟨⟨rfl, rfl⟩, rfl⟩
  | .mk info pattern none body :: cases =>
    have hp := bindPattern_binds n pattern k env
    have hb := renameExpr_binds n body (k + pattern.binders.length)
      (bindPattern env (n + k) pattern).env
    rw [← hp.counter_eq] at hb
    have hcs := renameCases_binds n cases (k + pattern.binders.length + body.binders.length) env
    rw [← hb.counter_eq] at hcs
    have h := hp.toTakes.append (hb.toTakes.append hcs.toTakes)
    rw [← List.append_assoc, ← List.append_assoc] at h
    exact ⟨h, rfl⟩
  | .mk info pattern (some guard) body :: cases =>
    have hp := bindPattern_binds n pattern k env
    have hw := renameExpr_binds n guard (k + pattern.binders.length)
      (bindPattern env (n + k) pattern).env
    rw [← hp.counter_eq] at hw
    have hb := renameExpr_binds n body (k + pattern.binders.length + guard.binders.length)
      (bindPattern env (n + k) pattern).env
    rw [← hw.counter_eq] at hb
    have hcs := renameCases_binds n cases
      (k + pattern.binders.length + guard.binders.length + body.binders.length) env
    rw [← hb.counter_eq] at hcs
    have h := hp.toTakes.append (hw.toTakes.append (hb.toTakes.append hcs.toTakes))
    simp only [← List.append_assoc] at h
    exact ⟨h, rfl⟩

end

mutual

/-- The exported binders of the renamed expression are those of the source. -/
theorem exports_renameExpr (n : Nat) (e : Expr SourceName) : ∀ (k : Nat) (env : RenameEnv),
    (renameExpr env (n + k) e).node.exports k = renamedScope n (e.exports k) := by
  intro k env
  cases e with
  | ident | lambda | matchWith => rfl
  | letIn info header pattern value =>
    have hv := renameExpr_binds n value k env
    have hp := bindPattern_binds n pattern (k + value.binders.length) env
    rw [← hv.counter_eq] at hp
    rw [renameExpr, Expr.exports, Expr.exports, hv.length, hp.entries_eq]
  | form info f operands =>
    have h := exports_renameExprs n operands k env
    rw [renameExpr, Expr.exports, Expr.exports, h]
    cases f.sequential <;> rfl

theorem exports_renameExprs (n : Nat) (es : List (Expr SourceName)) :
    ∀ (k : Nat) (env : RenameEnv),
    exprsExports k (renameExprs env (n + k) es).node = renamedScope n (exprsExports k es) := by
  intro k env
  cases es with
  | nil => rfl
  | cons e es =>
    have he := renameExpr_binds n e k env
    have hes := exports_renameExprs n es (k + e.binders.length) (renameExpr env (n + k) e).env
    rw [← he.counter_eq] at hes
    rw [renameExprs, exprsExports, exprsExports, he.length, hes, exports_renameExpr n e k env,
      renamedScope_append]

end

mutual

/-- A binder of a pattern is known by its place. -/
theorem nameless_bindPattern (p : Pattern SourceName) : ∀ (n k : Nat) (env : RenameEnv),
    (bindPattern env (n + k) p).node.nameless k = p.nameless k := by
  intro n k env
  cases p with
  | literal | any | ident => rfl
  | compound info form elements =>
    rw [bindPattern, Pattern.nameless, Pattern.nameless, nameless_bindPatterns elements n k env]

theorem nameless_bindPatterns (ps : List (Pattern SourceName)) : ∀ (n k : Nat) (env : RenameEnv),
    patternsNameless k (bindPatterns env (n + k) ps).node = patternsNameless k ps := by
  intro n k env
  cases ps with
  | nil => rfl
  | cons p ps =>
    have hp := bindPattern_binds n p k env
    have hps := nameless_bindPatterns ps n (k + p.binders.length) (bindPattern env (n + k) p).env
    rw [← hp.counter_eq] at hps
    rw [bindPatterns, patternsNameless, patternsNameless, nameless_bindPattern p n k env,
      hp.length, hps]

end

theorem nameless_renameParams (ps : List (Param SourceName)) : ∀ (n k : Nat) (env : RenameEnv),
    paramsNameless k (renameParams env (n + k) ps).node = paramsNameless k ps := by
  induction ps with
  | nil => exact fun n k env => rfl
  | cons p ps ih =>
    intro n k env
    have hp := bindPattern_binds n p.pattern k env
    have hps := ih n (k + p.pattern.binders.length) (bindPattern env (n + k) p.pattern).env
    rw [← hp.counter_eq] at hps
    rw [renameParams, paramsNameless, paramsNameless, nameless_bindPattern p.pattern n k env,
      hp.length, hps]

/-- Binders with numbers between `lo` and `hi`, for exactly the names `xs`. -/
structure Block (lo hi : Nat) (xs : List SourceName) (s : Scope SourceName) : Prop where
  names : ∀ x, x ∈ xs ↔ x ∈ s.map Prod.fst
  numbers : ∀ x b, (x, b) ∈ s → ∃ i, b = .local i ∧ lo ≤ i ∧ i < hi

theorem Block.nil : Block lo hi [] [] := ⟨fun x => Iff.rfl, by simp⟩

theorem Block.mono {lo' hi' : Nat} (h : Block lo hi xs s) (hlo : lo' ≤ lo) (hhi : hi ≤ hi') :
    Block lo' hi' xs s := by
  refine ⟨h.names, ?_⟩
  intro x b hmem
  obtain ⟨i, hb, hle, hlt⟩ := h.numbers x b hmem
  exact ⟨i, hb, by omega, by omega⟩

theorem Block.append {ys : List SourceName} (hs : Block lo hi xs s) (ht : Block lo hi ys t) :
    Block lo hi (xs ++ ys) (t ++ s) := by
  constructor
  · intro x
    rw [List.mem_append, List.map_append, List.mem_append, hs.names x, ht.names x, or_comm]
  · intro x b hmem
    rcases List.mem_append.mp hmem with hmem | hmem
    · exact ht.numbers x b hmem
    · exact hs.numbers x b hmem

theorem entries_block (k : Nat) (xs : List SourceName) :
    Block k (k + xs.length) xs (entries k xs) := by
  induction xs generalizing k with
  | nil => exact Block.nil
  | cons x xs ih =>
    have hone : Block k (k + 1) [x] [(x, .local k)] := by
      constructor
      · simp
      · simp only [List.mem_singleton, Prod.mk.injEq]
        rintro y b ⟨-, rfl⟩
        exact ⟨k, rfl, by omega, by omega⟩
    have hfirst : Block k (k + 1 + xs.length) [x] [(x, .local k)] := hone.mono le_rfl (by omega)
    have hrest : Block k (k + 1 + xs.length) xs (entries (k + 1) xs) :=
      (ih (k + 1)).mono (by omega) le_rfl
    rw [List.length_cons, show k + (xs.length + 1) = k + 1 + xs.length by omega]
    exact hfirst.append hrest

mutual

theorem Expr.passed_block (e : Expr SourceName) : ∀ k : Nat,
    Block k (k + e.binders.length) e.leaves (e.passed k) := by
  intro k
  cases e with
  | ident | lambda | matchWith => exact Block.nil
  | letIn info header pattern value =>
    rw [Expr.leaves, Expr.passed, Expr.binders, List.length_append]
    exact (entries_block _ _).mono (by omega) (by omega)
  | form info f operands => exact exprsPassed_block operands k

theorem exprsPassed_block (es : List (Expr SourceName)) : ∀ k : Nat,
    Block k (k + (exprsBinders es).length) (exprsLeaves es) (exprsPassed k es) := by
  intro k
  cases es with
  | nil => exact Block.nil
  | cons e es =>
    have he := e.passed_block k
    have hes := exprsPassed_block es (k + e.binders.length)
    rw [exprsLeaves, exprsPassed, exprsBinders, List.length_append]
    exact Block.append (he.mono le_rfl (by omega)) (hes.mono (by omega) (by omega))

end

mutual

theorem Expr.exports_subset (e : Expr SourceName) : ∀ k : Nat, e.exports k ⊆ e.passed k := by
  intro k
  cases e with
  | ident | lambda | matchWith => exact List.nil_subset _
  | letIn info header pattern value => exact fun b hb => hb
  | form info f operands =>
    rw [Expr.exports, Expr.passed]
    split
    · exact exprsExports_subset operands k
    · exact List.nil_subset _

theorem exprsExports_subset (es : List (Expr SourceName)) : ∀ k : Nat,
    exprsExports k es ⊆ exprsPassed k es := by
  intro k
  cases es with
  | nil => exact List.nil_subset _
  | cons e es =>
    rw [exprsExports, exprsPassed]
    intro b hb
    rw [List.mem_append] at hb ⊢
    exact hb.imp (fun h => exprsExports_subset es _ h) (fun h => e.exports_subset k h)

end

/-- The binders that the items leave in the accumulator, those of nested modules too. -/
def Structure.passed (k : Nat) : Structure SourceName → Scope SourceName
  | .nil => []
  | .letDef _ _ pattern value rest =>
    let m := k + value.binders.length
    rest.passed (m + pattern.binders.length) ++ entries m pattern.binders
  | .external _ _ _ _ rest | .type _ _ rest | .moduleSignature _ _ _ _ rest => rest.passed k
  | .moduleStructure _ _ _ items rest =>
    rest.passed (k + items.binders.length) ++ items.passed k

theorem Structure.passed_block (items : Structure SourceName) : ∀ k : Nat,
    Block k (k + items.binders.length) items.leaves (items.passed k) := by
  induction items with
  | nil => exact fun k => Block.nil
  | letDef info header pattern value rest ih =>
    intro k
    have hp := entries_block (k + value.binders.length) pattern.binders
    have hrest := ih (k + value.binders.length + pattern.binders.length)
    rw [Structure.leaves, Structure.passed, Structure.binders, List.length_append,
      List.length_append]
    exact Block.append (hp.mono (by omega) (by omega)) (hrest.mono (by omega) (by omega))
  | external info fname ty externalFn rest ih => exact ih
  | type info td rest ih => exact ih
  | moduleStructure info strInfo name items rest ihitems ihrest =>
    intro k
    have hitems := ihitems k
    have hrest := ihrest (k + items.binders.length)
    rw [Structure.leaves, Structure.passed, Structure.binders, List.length_append]
    exact Block.append (hitems.mono le_rfl (by omega)) (hrest.mono (by omega) (by omega))
  | moduleSignature info sigInfo name sigItems rest ih => exact ih

theorem renameItems_binds (n : Nat) (items : Structure SourceName) :
    ∀ (k : Nat) (env : RenameEnv), Binds n k env (items.passed k) items.binders
      (renameItems env (n + k) items).node.binders (renameItems env (n + k) items) := by
  induction items with
  | nil => exact fun k env => ⟨⟨rfl, rfl⟩, rfl⟩
  | letDef info header pattern value rest ih =>
    intro k env
    have hv := renameExpr_binds n value k env
    have hp := bindPattern_binds n pattern (k + value.binders.length) env
    rw [← hv.counter_eq] at hp
    have hr := ih (k + value.binders.length + pattern.binders.length)
      (bindPattern env (renameExpr env (n + k) value).counter pattern).env
    rw [← hp.counter_eq] at hr
    have h := hv.toTakes.append (hp.toTakes.append hr.toTakes)
    rw [← List.append_assoc, ← List.append_assoc] at h
    have henv := hp.env_trans hr
    exact ⟨h, henv⟩
  | external info fname ty externalFn rest ih =>
    intro k env
    exact ⟨⟨(ih k env).counter_eq, (ih k env).names_eq⟩, (ih k env).env_eq⟩
  | type info td rest ih =>
    intro k env
    exact ⟨⟨(ih k env).counter_eq, (ih k env).names_eq⟩, (ih k env).env_eq⟩
  | moduleStructure info strInfo name items rest ihitems ihrest =>
    intro k env
    have hm := ihitems k env
    have hr := ihrest (k + items.binders.length) (renameItems env (n + k) items).env
    rw [← hm.counter_eq] at hr
    have henv := hm.env_trans hr
    exact ⟨hm.toTakes.append hr.toTakes, henv⟩
  | moduleSignature info sigInfo name sigItems rest ih =>
    intro k env
    exact ⟨⟨(ih k env).counter_eq, (ih k env).names_eq⟩, (ih k env).env_eq⟩

/-- An external keeps its name. -/
theorem externals_renameItems (items : Structure SourceName) : ∀ (counter : Nat) (env : RenameEnv),
    (renameItems env counter items).node.externals = items.externals.map SourceName.text := by
  induction items with
  | nil => exact fun counter env => rfl
  | letDef info header pattern value rest ih => exact fun counter env => ih _ _
  | external info fname ty externalFn rest ih =>
    exact fun counter env => congrArg (fname.name.text :: ·) (ih _ _)
  | type info td rest ih => exact fun counter env => ih _ _
  | moduleStructure info strInfo name items rest ihitems ihrest =>
    intro counter env
    rw [renameItems, Structure.externals, ihitems, ihrest, Structure.externals, List.map_append]
  | moduleSignature info sigInfo name sigItems rest ih => exact fun counter env => ih _ _

end Syli.Compiler.Alpha
