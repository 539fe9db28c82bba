import Syli.Compiler.AlphaBinders

/-! The alpha renaming preserves the binding of exactly the programs without stray names. -/
namespace Syli.Compiler.Alpha

open Foundation RenameEnv

variable {n k j lo hi : Nat} {passed scope s t : Scope SourceName} {left stray xs : List SourceName}
  {x : SourceName}

/-- The stray names are those for which the accumulator does not hold the visible binder. -/
def Tracks (passed scope : Scope SourceName) (stray : List SourceName) : Prop :=
  ∀ x, x ∈ stray ↔ passed.visible x ≠ scope.visible x

/-- No binder has a number between `lo` and `hi`. -/
def Away (lo hi : Nat) (s : Scope SourceName) : Prop :=
  ∀ x i, (x, Binder.local i) ∈ s → i < lo ∨ hi ≤ i

theorem Away.mono {lo' hi' : Nat} (h : Away lo hi s) (hlo : lo ≤ lo') (hhi : hi' ≤ hi) :
    Away lo' hi' s := by
  intro x i hmem
  have := h x i hmem
  omega

theorem Away.append (hs : Away lo hi s) (ht : Away lo hi t) : Away lo hi (s ++ t) := by
  intro x i hmem
  rcases List.mem_append.mp hmem with hmem | hmem
  · exact hs x i hmem
  · exact ht x i hmem

theorem Away.subset (h : Away lo hi s) (hsub : t ⊆ s) : Away lo hi t :=
  fun x i hmem => h x i (hsub hmem)

theorem Block.away {lo' hi' : Nat} (h : Block lo' hi' xs s) (hdisjoint : hi ≤ lo' ∨ hi' ≤ lo) :
    Away lo hi s := by
  intro x i hmem
  obtain ⟨m, hb, hle, hlt⟩ := h.numbers x _ hmem
  cases hb
  omega

theorem Away.visible_ne (h : Away lo hi s) {i : Nat} (hle : lo ≤ i) (hlt : i < hi) :
    s.visible x ≠ some i := by
  intro hvisible
  have := h x i (AssocMap.mem_of_findOpt (visible_eq_some.mp hvisible))
  omega

/-- A name of the block is visible with a number of the block, whatever is behind it. -/
theorem Block.visible_of_mem (h : Block lo hi xs s) (hx : x ∈ xs) :
    ∃ i, lo ≤ i ∧ i < hi ∧ ∀ t, Scope.visible (s ++ t) x = some i := by
  cases hfind : s.findOpt x with
  | none => exact (AssocMap.findOpt_eq_none_iff.mp hfind ((h.names x).mp hx)).elim
  | some b =>
    obtain ⟨i, rfl, hle, hlt⟩ := h.numbers x b (AssocMap.mem_of_findOpt hfind)
    refine ⟨i, hle, hlt, ?_⟩
    intro t
    rw [visible_eq_some, AssocMap.findOpt_append, hfind]
    rfl

theorem Block.visible_of_not_mem (h : Block lo hi xs s) (hx : x ∉ xs) (t : Scope SourceName) :
    Scope.visible (s ++ t) x = t.visible x := by
  have hfind : s.findOpt x = none :=
    AssocMap.findOpt_eq_none_iff.mpr fun hmem => hx ((h.names x).mpr hmem)
  rw [Scope.visible, Scope.visible, AssocMap.findOpt_append, hfind]
  rfl

theorem mem_without {ν : Type} [DecidableEq ν] {stray names : List ν} {x : ν} :
    x ∈ without stray names ↔ x ∈ stray ∧ x ∉ names := by
  simp [without]

namespace Tracks

/-- Binders that the accumulator and the scope both get are not stray. -/
theorem both (h : Tracks passed scope stray) (hs : Block lo hi xs s) :
    Tracks (s ++ passed) (s ++ scope) (without stray xs) := by
  intro x
  rw [mem_without]
  by_cases hx : x ∈ xs
  · obtain ⟨i, -, -, hvisible⟩ := hs.visible_of_mem hx
    simp [hx, hvisible]
  · rw [hs.visible_of_not_mem hx, hs.visible_of_not_mem hx, h x]
    simp [hx]

/-- Binders that only the accumulator gets are stray. -/
theorem passedOnly (h : Tracks passed scope stray) (hs : Block lo hi xs s)
    (haway : Away lo hi scope) : Tracks (s ++ passed) scope (xs ++ stray) := by
  intro x
  rw [List.mem_append]
  by_cases hx : x ∈ xs
  · obtain ⟨i, hle, hlt, hvisible⟩ := hs.visible_of_mem hx
    rw [hvisible]
    simp only [hx, true_or, true_iff]
    exact (haway.visible_ne hle hlt).symm
  · rw [hs.visible_of_not_mem hx, ← h x]
    simp [hx]

/-- Binders that only the scope gets are stray. -/
theorem scopeOnly (h : Tracks passed scope stray) (hs : Block lo hi xs s)
    (haway : Away lo hi passed) : Tracks passed (s ++ scope) (xs ++ stray) := by
  intro x
  rw [List.mem_append]
  by_cases hx : x ∈ xs
  · obtain ⟨i, hle, hlt, hvisible⟩ := hs.visible_of_mem hx
    rw [hvisible]
    simp only [hx, true_or, true_iff]
    exact haway.visible_ne hle hlt
  · rw [hs.visible_of_not_mem hx, ← h x]
    simp [hx]

end Tracks

mutual

/-- The stray names behind an expression, when what it exports is in scope. -/
theorem Expr.tracks_after (e : Expr SourceName) : ∀ {k : Nat} {passed scope : Scope SourceName}
    {stray : List SourceName}, Tracks passed scope stray → Away k (k + e.binders.length) scope →
    Tracks (e.passed k ++ passed) (e.exports k ++ scope) (e.strayAfter stray) := by
  intro k passed scope stray h haway
  cases e with
  | ident | lambda | matchWith => exact h
  | letIn info header pattern value => exact h.both (entries_block _ _)
  | form info f operands =>
    have hops := exprsTracks_after operands f.sequential h haway
    rw [Expr.passed, Expr.exports, Expr.strayAfter]
    exact hops

theorem exprsTracks_after (es : List (Expr SourceName)) : ∀ (sequential : Bool) {k : Nat}
    {passed scope : Scope SourceName} {stray : List SourceName}, Tracks passed scope stray →
    Away k (k + (exprsBinders es).length) scope →
    Tracks (exprsPassed k es ++ passed)
      ((if sequential then exprsExports k es else []) ++ scope)
      (exprsStrayAfter sequential stray es) := by
  intro sequential k passed scope stray h haway
  cases es with
  | nil => cases sequential <;> exact h
  | cons e es =>
    rw [exprsBinders, List.length_append] at haway
    have he : Away k (k + e.binders.length) scope := haway.mono le_rfl (by omega)
    have hes : Away (k + e.binders.length)
        (k + e.binders.length + (exprsBinders es).length) scope := haway.mono (by omega) (by omega)
    rw [exprsPassed, exprsExports, exprsStrayAfter, List.append_assoc]
    cases sequential with
    | true =>
      have hexports : Away (k + e.binders.length)
          (k + e.binders.length + (exprsBinders es).length) (e.exports k) :=
        ((e.passed_block k).away (Or.inr le_rfl)).subset (e.exports_subset k)
      have htail := exprsTracks_after es true (e.tracks_after h he) (hexports.append hes)
      rw [if_pos rfl] at htail ⊢
      rw [List.append_assoc]
      exact htail
    | false => exact exprsTracks_after es false (h.passedOnly (e.passed_block k) he) hes

end

/-- The numbers that an expression takes are not those of a binder around it. -/
structure Around (lo hi : Nat) (passed scope : Scope SourceName) (stray : List SourceName) :
    Prop where
  tracks : Tracks passed scope stray
  passedAway : Away lo hi passed
  scopeAway : Away lo hi scope

namespace Around

theorem mono {lo' hi' : Nat} (h : Around lo hi passed scope stray) (hlo : lo ≤ lo')
    (hhi : hi' ≤ hi) : Around lo' hi' passed scope stray :=
  ⟨h.tracks, h.passedAway.mono hlo hhi, h.scopeAway.mono hlo hhi⟩

theorem both {lo' hi' : Nat} (h : Around lo hi passed scope stray) (hs : Block lo' hi' xs s)
    (hdisjoint : hi ≤ lo' ∨ hi' ≤ lo) :
    Around lo hi (s ++ passed) (s ++ scope) (without stray xs) :=
  ⟨h.tracks.both hs, (hs.away hdisjoint).append h.passedAway, (hs.away hdisjoint).append h.scopeAway⟩

/-- Under the binders of a parameter list or of a pattern of a case. -/
theorem under (h : Around k hi passed scope stray) (xs : List SourceName) :
    Around (k + xs.length) hi (entries k xs ++ passed) (entries k xs ++ scope)
      (without stray xs) :=
  (h.mono (by omega) le_rfl).both (entries_block k xs) (Or.inr le_rfl)

/-- The binders of a recursive let are in the scope of its value, and nowhere else. -/
theorem recScope (h : Around lo hi passed scope stray) (pattern : Pattern SourceName) {m : Nat}
    (hlo : lo ≤ m) (hhi : m + pattern.binders.length ≤ hi) (isRec : Bool) :
    Around lo m passed (if isRec then entries m pattern.binders ++ scope else scope)
      (if isRec then pattern.binders ++ stray else stray) := by
  have hinner := h.mono le_rfl (show m ≤ hi by omega)
  have hblock := entries_block m pattern.binders
  cases isRec with
  | true =>
    exact ⟨h.tracks.scopeOnly hblock (h.passedAway.mono hlo hhi), hinner.passedAway,
      (hblock.away (Or.inl le_rfl)).append hinner.scopeAway⟩
  | false => exact hinner

/-- The next operand sees the binders of this one in its scope, when the form is sequential. -/
theorem operand (h : Around k hi passed scope stray) (e : Expr SourceName) (sequential : Bool)
    (hhi : k + e.binders.length ≤ hi) :
    Around (k + e.binders.length) hi (e.passed k ++ passed)
      (if sequential then e.exports k ++ scope else scope)
      (if sequential then e.strayAfter stray else e.leaves ++ stray) := by
  have hrest := h.mono (show k ≤ k + e.binders.length by omega) le_rfl
  have hpassed : Away (k + e.binders.length) hi (e.passed k) :=
    (e.passed_block k).away (Or.inr le_rfl)
  have htaken := h.scopeAway.mono le_rfl hhi
  cases sequential with
  | true =>
    exact ⟨e.tracks_after h.tracks htaken, hpassed.append hrest.passedAway,
      (hpassed.subset (e.exports_subset k)).append hrest.scopeAway⟩
  | false =>
    exact ⟨h.tracks.passedOnly (e.passed_block k) htaken, hpassed.append hrest.passedAway,
      hrest.scopeAway⟩

end Around

mutual

/-- The identifiers of an expression keep their binders exactly when none of them is stray. -/
theorem nameless_renameExpr (n : Nat) (e : Expr SourceName) : ∀ {k hi : Nat}
    {passed scope : Scope SourceName} {stray : List SourceName},
    Around k hi passed scope stray → k + e.binders.length ≤ hi →
    ((renameExpr (renamedEnv n passed) (n + k) e).node.nameless id k (renamedScope n scope) =
      e.nameless SourceName.text k scope ↔ e.Clear stray) := by
  intro k hi passed scope stray h hhi
  cases e with
  | ident info x =>
    rw [Expr.Clear, h.tracks x.name, not_not, ← reference_iff n]
    simp [renameExpr, Expr.nameless]
  | lambda info params body retTy loc =>
    rw [Expr.binders, List.length_append] at hhi
    have hps := renameParams_binds n params k (renamedEnv n passed)
    have hbody := nameless_renameExpr n body (h.under (paramsBinders params)) (by omega)
    rw [← hps.env_append, ← hps.counter_eq, renamedScope_append, ← hps.entries_eq] at hbody
    rw [renameExpr, Expr.nameless, Expr.nameless, Expr.Clear, ← hbody, hps.length,
      nameless_renameParams params n k]
    simp
  | letIn info header pattern value =>
    rw [Expr.binders, List.length_append] at hhi
    have hv := renameExpr_binds n value k (renamedEnv n passed)
    have hp := bindPattern_binds n pattern (k + value.binders.length) (renamedEnv n passed)
    have hpattern := nameless_bindPattern pattern n (k + value.binders.length) (renamedEnv n passed)
    rw [← hv.counter_eq] at hp hpattern
    have hvalue := nameless_renameExpr n value (h.recScope pattern
      (show k ≤ k + value.binders.length by omega) (by omega) header.isRec) le_rfl
    rw [renameExpr, Expr.nameless, Expr.nameless, Expr.Clear, ← hvalue, hv.length, hpattern,
      hp.entries_eq]
    cases header.isRec <;> simp
  | matchWith info scrutinee cases =>
    rw [Expr.binders, List.length_append] at hhi
    have hs := renameExpr_binds n scrutinee k (renamedEnv n passed)
    have hscrutinee := nameless_renameExpr n scrutinee h (by omega)
    have hcases := nameless_renameCases n cases
      (h.mono (show k ≤ k + scrutinee.binders.length by omega) le_rfl) (by omega)
    rw [← hs.counter_eq] at hcases
    rw [renameExpr, Expr.nameless, Expr.nameless, Expr.Clear, ← hscrutinee, ← hcases, hs.length]
    simp
  | form info f operands =>
    rw [renameExpr, Expr.nameless, Expr.nameless, Expr.Clear,
      ← nameless_renameExprs n operands f.sequential h hhi]
    simp

theorem nameless_renameExprs (n : Nat) (es : List (Expr SourceName)) : ∀ (sequential : Bool)
    {k hi : Nat} {passed scope : Scope SourceName} {stray : List SourceName},
    Around k hi passed scope stray → k + (exprsBinders es).length ≤ hi →
    (exprsNameless id sequential k (renamedScope n scope)
        (renameExprs (renamedEnv n passed) (n + k) es).node =
      exprsNameless SourceName.text sequential k scope es ↔ exprsClear sequential stray es) := by
  intro sequential k hi passed scope stray h hhi
  cases es with
  | nil => simp [renameExprs, exprsNameless, exprsClear]
  | cons e es =>
    rw [exprsBinders, List.length_append] at hhi
    have he := renameExpr_binds n e k (renamedEnv n passed)
    have hexports := exports_renameExpr n e k (renamedEnv n passed)
    have hhead := nameless_renameExpr n e h (by omega)
    have htail := nameless_renameExprs n es sequential (h.operand e sequential (by omega)) (by omega)
    rw [← he.env_append, ← he.counter_eq] at htail
    rw [renameExprs, exprsNameless, exprsNameless, exprsClear, ← hhead, ← htail, he.length,
      hexports]
    cases sequential <;> simp

theorem nameless_renameCases (n : Nat) (cases : List (Case SourceName)) : ∀ {k hi : Nat}
    {passed scope : Scope SourceName} {stray : List SourceName},
    Around k hi passed scope stray → k + (casesBinders cases).length ≤ hi →
    (casesNameless id k (renamedScope n scope)
        (renameCases (renamedEnv n passed) (n + k) cases).node =
      casesNameless SourceName.text k scope cases ↔ casesClear stray cases) := by
  intro k hi passed scope stray h hhi
  match cases with
  | [] => simp [renameCases, casesNameless, casesClear]
  | .mk info pattern none body :: cases =>
    rw [casesBinders, List.length_append, List.length_append] at hhi
    have hp := bindPattern_binds n pattern k (renamedEnv n passed)
    have hbody := nameless_renameExpr n body (h.under pattern.binders) (by omega)
    have hb := renameExpr_binds n body (k + pattern.binders.length)
      (bindPattern (renamedEnv n passed) (n + k) pattern).env
    rw [← hp.env_append, ← hp.counter_eq, renamedScope_append, ← hp.entries_eq] at hbody
    rw [← hp.counter_eq] at hb
    have hcases := nameless_renameCases n cases (h.mono
      (show k ≤ k + pattern.binders.length + body.binders.length by omega) le_rfl) (by omega)
    rw [← hb.counter_eq] at hcases
    rw [renameCases, casesNameless, casesNameless, casesClear, ← hbody, ← hcases, hp.length,
      hb.length, nameless_bindPattern pattern n k]
    simp
  | .mk info pattern (some guard) body :: cases =>
    rw [casesBinders, List.length_append, List.length_append, List.length_append] at hhi
    have hp := bindPattern_binds n pattern k (renamedEnv n passed)
    have hinner := h.under pattern.binders
    have hguard := nameless_renameExpr n guard hinner (by omega)
    have hw := renameExpr_binds n guard (k + pattern.binders.length)
      (bindPattern (renamedEnv n passed) (n + k) pattern).env
    have hbody := nameless_renameExpr n body (hinner.mono
      (show _ ≤ k + pattern.binders.length + guard.binders.length by omega) le_rfl) (by omega)
    have hb := renameExpr_binds n body (k + pattern.binders.length + guard.binders.length)
      (bindPattern (renamedEnv n passed) (n + k) pattern).env
    rw [← hp.counter_eq] at hw
    rw [← hw.counter_eq] at hb
    rw [← hp.env_append, ← hp.counter_eq, renamedScope_append, ← hp.entries_eq] at hguard
    rw [← hp.env_append, ← hw.counter_eq, renamedScope_append, ← hp.entries_eq] at hbody
    have hcases := nameless_renameCases n cases (h.mono
      (show k ≤ k + pattern.binders.length + guard.binders.length + body.binders.length by omega)
      le_rfl) (by omega)
    rw [← hb.counter_eq] at hcases
    rw [renameCases, casesNameless, casesNameless, casesClear, ← hguard, ← hbody, ← hcases,
      hp.length, hw.length, hb.length, nameless_bindPattern pattern n k]
    simp [and_assoc]

end

/-- The names that are in the accumulator at an item. -/
structure AroundItem (lo hi : Nat) (passed scope : Scope SourceName)
    (left stray : List SourceName) : Prop extends Around lo hi passed scope stray where
  left_iff : ∀ x, x ∈ left ↔ passed.visible x ≠ none

theorem Block.left_iff (h : Block lo hi xs s)
    (hleft : ∀ x, x ∈ left ↔ passed.visible x ≠ none) (x : SourceName) :
    x ∈ xs ++ left ↔ Scope.visible (s ++ passed) x ≠ none := by
  rw [List.mem_append]
  by_cases hx : x ∈ xs
  · obtain ⟨i, -, -, hvisible⟩ := h.visible_of_mem hx
    simp [hx, hvisible]
  · rw [h.visible_of_not_mem hx, ← hleft x]
    simp [hx]

namespace AroundItem

theorem letDef {lo' hi' : Nat} (h : AroundItem lo hi passed scope left stray)
    (hs : Block lo' hi' xs s) (hdisjoint : hi ≤ lo' ∨ hi' ≤ lo) :
    AroundItem lo hi (s ++ passed) (s ++ scope) (xs ++ left) (without stray xs) :=
  ⟨h.toAround.both hs hdisjoint, hs.left_iff h.left_iff⟩

/-- An external hides the binder of its name from the scope only. -/
theorem external (h : AroundItem lo hi passed scope left stray) (y : SourceName) (j : Nat) :
    AroundItem lo hi passed (scope.add y (.external j)) left
      (if y ∈ left then y :: stray else without stray [y]) := by
  refine ⟨⟨?_, h.passedAway, ?_⟩, h.left_iff⟩
  · intro x
    by_cases hxy : x = y
    · subst hxy
      have hnone : Scope.visible (scope.add x (.external j)) x = none := by
        rw [Scope.visible, AssocMap.findOpt_add_self]
      rw [hnone, ← h.left_iff x]
      split
      · rename_i hleft
        simp [hleft]
      · rename_i hleft
        simp [hleft, mem_without]
    · have hsame : Scope.visible (scope.add y (.external j)) x = scope.visible x := by
        rw [Scope.visible, AssocMap.findOpt_add_of_ne hxy]
        rfl
      rw [hsame, ← h.tracks x]
      split
      · simp [hxy]
      · simp [hxy, mem_without]
  · intro x i hmem
    simp only [AssocMap.add, List.mem_cons, Prod.mk.injEq, reduceCtorEq, and_false, false_or] at hmem
    exact h.scopeAway x i hmem

/-- What a nested module leaves in the accumulator is not visible behind it. -/
theorem moduleStructure (h : AroundItem k hi passed scope left stray)
    (items : Structure SourceName) (hhi : k + items.binders.length ≤ hi) :
    AroundItem (k + items.binders.length) hi (items.passed k ++ passed) scope
      (items.leaves ++ left) (items.leaves ++ stray) := by
  have hblock := items.passed_block k
  have hrest := h.mono (show k ≤ k + items.binders.length by omega) le_rfl
  have haway : Away (k + items.binders.length) hi (items.passed k) := hblock.away (Or.inr le_rfl)
  exact ⟨⟨h.tracks.passedOnly hblock (h.scopeAway.mono le_rfl hhi), haway.append hrest.passedAway,
    hrest.scopeAway⟩, hblock.left_iff h.left_iff⟩

end AroundItem

theorem nameless_renameItems (n : Nat) (items : Structure SourceName) : ∀ {k j hi : Nat}
    {passed scope : Scope SourceName} {left stray : List SourceName},
    AroundItem k hi passed scope left stray → k + items.binders.length ≤ hi →
    ((renameItems (renamedEnv n passed) (n + k) items).node.nameless id k j
        (renamedScope n scope) =
      items.nameless SourceName.text k j scope ↔ items.Clear left stray) := by
  induction items with
  | nil =>
    intro k j hi passed scope left stray h hhi
    simp [renameItems, Structure.nameless, Structure.Clear]
  | letDef info header pattern value rest ih =>
    intro k j hi passed scope left stray h hhi
    rw [Structure.binders, List.length_append, List.length_append] at hhi
    have hv := renameExpr_binds n value k (renamedEnv n passed)
    have hp := bindPattern_binds n pattern (k + value.binders.length) (renamedEnv n passed)
    rw [← hv.counter_eq] at hp
    have hlet := nameless_renameExpr n (.letIn info header pattern value) h.toAround
      (by rw [Expr.binders, List.length_append]; omega)
    have hinner : AroundItem (k + value.binders.length + pattern.binders.length) hi
        (entries (k + value.binders.length) pattern.binders ++ passed)
        (entries (k + value.binders.length) pattern.binders ++ scope)
        (pattern.binders ++ left) (without stray pattern.binders) :=
      AroundItem.letDef ⟨h.mono (by omega) le_rfl, h.left_iff⟩ (entries_block _ _) (Or.inr le_rfl)
    have hrest := ih (j := j) hinner (by omega)
    rw [renameExpr, Expr.nameless, Expr.nameless, Expr.Clear, hv.length, hp.entries_eq] at hlet
    rw [← hp.env_append, ← hp.counter_eq, renamedScope_append] at hrest
    rw [renameItems, Structure.nameless, Structure.nameless, Structure.Clear, ← hlet, ← hrest,
      hv.length, hp.length, hp.entries_eq]
    simp [and_assoc]
  | external info fname ty externalFn rest ih =>
    intro k j hi passed scope left stray h hhi
    have hrest := ih (j := j + 1) (h.external fname.name j) hhi
    rw [renamedScope_external] at hrest
    rw [renameItems, Structure.nameless, Structure.nameless, Structure.Clear, ← hrest]
    simp
  | type info td rest ih =>
    intro k j hi passed scope left stray h hhi
    rw [renameItems, Structure.nameless, Structure.nameless, Structure.Clear, ← ih (j := j) h hhi]
    simp
  | moduleStructure info strInfo name items rest ihitems ihrest =>
    intro k j hi passed scope left stray h hhi
    rw [Structure.binders, List.length_append] at hhi
    have hm := renameItems_binds n items k (renamedEnv n passed)
    have hexternals := externals_renameItems items (n + k) (renamedEnv n passed)
    have hitems := ihitems (j := j) h (by omega)
    have hrest := ihrest (j := j + items.externals.length) (h.moduleStructure items (by omega))
      (by omega)
    rw [← hm.env_append, ← hm.counter_eq] at hrest
    rw [renameItems, Structure.nameless, Structure.nameless, Structure.Clear, ← hitems, ← hrest,
      hm.length, hexternals, List.length_map]
    simp
  | moduleSignature info sigInfo name sigItems rest ih =>
    intro k j hi passed scope left stray h hhi
    rw [renameItems, Structure.nameless, Structure.nameless, Structure.Clear, ← ih (j := j) h hhi]
    simp

/-- The renamed program has no binder twice exactly when the source has no external twice. -/
theorem binders_nodup_iff (n : Nat) (prog : Structure SourceName) :
    ((run n prog).node.binders ++ (run n prog).node.externals).Nodup ↔ prog.externals.Nodup := by
  have hbinders : (renameItems [] n prog).node.binders = freshNames n prog.binders :=
    (renameItems_binds n prog 0 []).names_eq
  have htext : Function.Injective SourceName.text := by
    intro x y h
    cases x
    cases y
    cases h
    rfl
  rw [run, externals_renameItems, hbinders, List.nodup_append,
    List.nodup_map_iff htext]
  constructor
  · exact fun h => h.2.1
  · intro h
    refine ⟨freshNames_nodup _ _, h, ?_⟩
    rintro name hname _ hmem rfl
    obtain ⟨x, m, -, rfl⟩ := exists_of_mem_freshNames hname
    obtain ⟨y, -, hy⟩ := List.mem_map.mp hmem
    exact freshName_ne_text x y m hy.symm

theorem nameless_run (n : Nat) (prog : Structure SourceName) :
    (run n prog).node.nameless id 0 0 [] = prog.nameless SourceName.text 0 0 [] ↔
      prog.Clear [] [] := by
  have haround : AroundItem 0 (0 + prog.binders.length) [] [] [] [] :=
    ⟨⟨by simp [Tracks], by simp [Away], by simp [Away]⟩, by simp [Scope.visible]⟩
  exact nameless_renameItems n prog haround le_rfl

/-- The renaming preserves the binding of exactly the programs without stray names and without two
externals of one name. -/
theorem run_preservesBinding_iff (n : Nat) (prog : Structure SourceName) :
    PreservesBinding prog (run n prog).node ↔ prog.externals.Nodup ∧ prog.Clear [] [] := by
  rw [← binders_nodup_iff n prog, ← nameless_run n prog]
  constructor
  · exact fun h => ⟨h.distinct, h.nameless⟩
  · exact fun h => ⟨h.2, h.1⟩

def nowhere : Location := ⟨0, 0, ""⟩

/-- `let rec f x = f x` -/
def recursiveLet : Structure SourceName :=
  let f : SourceName := ⟨"f", by decide⟩
  let x : SourceName := ⟨"x", by decide⟩
  let use (id : Nat) (y : SourceName) : Expr SourceName := .ident ⟨id, nowhere⟩ ⟨y, id + 1, nowhere⟩
  .letDef ⟨1, nowhere⟩ ⟨.letFun, true, none, nowhere⟩ (.ident ⟨2, nowhere⟩ ⟨f, 3, nowhere⟩)
    (.lambda ⟨4, nowhere⟩ [⟨.ident ⟨5, nowhere⟩ ⟨x, 6, nowhere⟩, none, nowhere⟩]
      (.apply ⟨7, nowhere⟩ (use 8 f) [use 10 x]) none nowhere)
    .nil

/-- The use of the function in its own value stays without a binder. -/
theorem recursiveLet_unbound : ¬ PreservesBinding recursiveLet (run 0 recursiveLet).node := by
  intro h
  have hclear := (nameless_run 0 recursiveLet).mp h.nameless
  simp [recursiveLet, Structure.Clear, Expr.Clear, Expr.apply, exprsClear, Pattern.binders,
    paramsBinders, without] at hclear

end Syli.Compiler.Alpha
