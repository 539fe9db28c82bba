import Syli.Compiler.OwnershipStep

/-! The releases that liveness places: with them a statement and a block keep the holders of the
live variables. -/
namespace Syli.Compiler

open Foundation

variable {fn : FunctionOir} {b p : Block} {s : Statement} {pre rest post : List Statement}
variable {st : OwnState} {L M S A B : IntSet} {v : Id} {u : Var} {la : Id → Bool}
variable {fresh : Id → Id} {varMap : IntMap Var} {K : Prop}

/-- The map binds ids to variables of these ids. -/
def Keyed (varMap : IntMap Var) : Prop := ∀ v u, varMap.findOpt v = some u → u.id = v

theorem Keyed.add (h : Keyed varMap) (u : Var) : Keyed (varMap.add u.id u) := by
  intro v w hw
  by_cases hv : v = u.id
  · subst hv
    exact congrArg Var.id (Option.some.inj (AssocMap.findOpt_add_self.symm.trans hw)).symm
  · exact h v w ((AssocMap.findOpt_add_of_ne hv).symm.trans hw)

theorem Keyed.foldl {α : Type} {f : IntMap Var → α → IntMap Var} (h : Keyed varMap)
    (hf : ∀ m a, Keyed m → Keyed (f m a)) (l : List α) : Keyed (l.foldl f varMap) := by
  induction l generalizing varMap with
  | nil => exact h
  | cons a l ih => exact ih (hf _ a h)

theorem keyed_addVarsOfStmt (h : Keyed varMap) (s : Statement) : Keyed (addVarsOfStmt varMap s) := by
  unfold addVarsOfStmt
  split
  · exact h.add _
  · exact h.add _
  · exact h.add _
  · exact h.add _
  · exact h.add _
  · exact h

theorem keyed_buildVarMap (fn : FunctionOir) : Keyed (buildVarMap fn) := by
  have hnil : Keyed [] := fun v u h => by simp at h
  refine Keyed.foldl (Keyed.foldl (Keyed.foldl hnil ?_ _) ?_ _) ?_ _
  · exact fun m v hm => hm.add v
  · exact fun m v hm => hm.add v
  · exact fun m b hm => hm.foldl (fun m s hm => keyed_addVarsOfStmt hm s) _

/-- A binding survives the additions that follow it. -/
def Bound (varMap : IntMap Var) (v : Id) : Prop := (varMap.findOpt v).isSome

theorem Bound.add (h : Bound varMap v) (u : Var) : Bound (varMap.add u.id u) v := by
  unfold Bound
  by_cases hv : v = u.id
  · subst hv
    simp [AssocMap.findOpt_add_self]
  · rwa [AssocMap.findOpt_add_of_ne hv]

theorem Bound.self (u : Var) : Bound (varMap.add u.id u) u.id := by
  simp [Bound, AssocMap.findOpt_add_self]

theorem Bound.addVarsOfStmt (h : Bound varMap v) (s : Statement) :
    Bound (addVarsOfStmt varMap s) v := by
  unfold Compiler.addVarsOfStmt
  split
  · exact h.add _
  · exact h.add _
  · exact h.add _
  · exact h.add _
  · exact h.add _
  · exact h

theorem Bound.foldl {α : Type} {f : IntMap Var → α → IntMap Var} {l : List α}
    (h : Bound varMap v ∨ ∃ a ∈ l, ∀ m, Bound (f m a) v)
    (hf : ∀ m a, Bound m v → Bound (f m a) v) : Bound (l.foldl f varMap) v := by
  induction l generalizing varMap with
  | nil => simpa using h
  | cons a l ih =>
    apply ih
    rcases h with h | ⟨c, hc, h⟩
    · exact Or.inl (hf _ a h)
    · rcases List.mem_cons.mp hc with rfl | hc
      · exact Or.inl (h _)
      · exact Or.inr ⟨c, hc, h⟩

/-- Parameters and destinations are known by name. -/
theorem bound_buildVarMap (h : v ∈ fn.entryParams ∨ ∃ b ∈ fn.blocks, ∃ s ∈ b.statements,
    v ∈ refDefOfStmt s) : Bound (buildVarMap fn) v := by
  have hstmts : ∀ m (b : Block), Bound m v → Bound (b.statements.foldl addVarsOfStmt m) v :=
    fun m b hm => Bound.foldl (Or.inl hm) fun m s hm => hm.addVarsOfStmt s
  have hlocals : ∀ m, Bound m v → Bound (fn.locals.foldl (fun (m : IntMap Var) v => m.add v.id v) m)
      v := fun m hm => Bound.foldl (Or.inl hm) fun m u hm => hm.add u
  rcases h with h | ⟨b, hb, s, hs, hdef⟩
  · obtain ⟨p, hp, -, rfl⟩ := FunctionOir.mem_entryParams.mp h
    refine Bound.foldl (Or.inl (hlocals _ (Bound.foldl (Or.inr ⟨p, hp, fun m => .self p⟩) ?_)))
      hstmts
    exact fun m u hm => hm.add u
  · have hself : ∀ m, Bound (addVarsOfStmt m s) v := by
      intro m
      unfold refDefOfStmt at hdef
      unfold addVarsOfStmt
      split at hdef
      all_goals first
        | (split at hdef <;> simp only [Finset.mem_singleton, Finset.notMem_empty] at hdef
           subst hdef
           simp_all [Bound])
        | simp at hdef
    refine Bound.foldl (Or.inr ⟨b, hb, fun m => ?_⟩) hstmts
    exact Bound.foldl (Or.inr ⟨s, hs, hself⟩) fun m s hm => hm.addVarsOfStmt s

/-- The releases of the known variables of a list. -/
def releasesOf (fresh : Id → Id) (varMap : IntMap Var) (l : List Id) : List Statement :=
  l.filterMap fun vid => (varMap.findOpt vid).map (mkRelease (fresh vid))

/-- Each release gives up the count of one variable. -/
theorem Held.releases {l : List Id} (h : Held M st) (hkey : Keyed varMap) (hn : l.Nodup)
    (hl : ∀ v ∈ l, v ∈ M) :
    Takes M (M \ l.toFinset) st (∀ v ∈ l, Bound varMap v)
      (st.execAll (releasesOf fresh varMap l)) := by
  induction l generalizing M st with
  | nil =>
    rw [List.toFinset_nil, Finset.sdiff_empty]
    exact .intro h fun ha _ => ha
  | cons v l ih =>
    obtain ⟨hnot, hn⟩ := List.nodup_cons.mp hn
    have hrest : ∀ w ∈ l, w ∈ M.erase v := by
      intro w hw
      refine Finset.mem_erase.mpr ⟨?_, hl w (List.mem_cons_of_mem v hw)⟩
      rintro rfl
      exact hnot hw
    have heq : M \ (v :: l).toFinset = M.erase v \ l.toFinset := by
      rw [List.toFinset_cons, Finset.sdiff_insert, Finset.erase_sdiff_comm]
    rw [heq]
    cases hv : varMap.findOpt v with
    | none =>
      have hnone : releasesOf fresh varMap (v :: l) = releasesOf fresh varMap l := by
        simp [releasesOf, hv]
      rw [hnone]
      obtain ⟨st', hst', hheld, -⟩ := ih (h.mono (Finset.erase_subset v M)) hn hrest
      refine ⟨st', hst', hheld, fun _ hb => ?_⟩
      have := hb v List.mem_cons_self
      simp [Bound, hv] at this
    | some u =>
      have hsome : releasesOf fresh varMap (v :: l) =
          mkRelease (fresh v) u :: releasesOf fresh varMap l := by
        simp [releasesOf, hv]
      rw [hsome]
      obtain ⟨st₁, hst₁, hheld₁, hacc₁⟩ := h.giveUp (hl v List.mem_cons_self)
      obtain ⟨st₂, hst₂, hheld₂, hacc₂⟩ := ih hheld₁ hn hrest
      have hexec : st.exec (mkRelease (fresh v) u) = .ok st₁ := by
        rw [← hst₁, ← hkey v u hv]
        rfl
      refine ⟨st₂, ?_, hheld₂, fun ha hb =>
        hacc₂ (hacc₁ ha) fun w hw => hb w (List.mem_cons_of_mem v hw)⟩
      rw [OwnState.execAll, List.foldlM_cons, hexec]
      exact hst₂

theorem mkReleases_eq (fresh : Id → Id) (S : IntSet) (varMap : IntMap Var) :
    mkReleases fresh S varMap = releasesOf fresh varMap S.elements.reverse := by
  have hall : ∀ (l : List Id) (acc : List Statement),
      l.foldl (addRelease fresh varMap) acc = releasesOf fresh varMap l.reverse ++ acc := by
    intro l acc
    induction l generalizing acc with
    | nil => rfl
    | cons v l ih =>
      rw [List.foldl_cons, ih, List.reverse_cons, releasesOf, releasesOf, List.filterMap_append,
        List.append_assoc]
      cases hv : varMap.findOpt v <;> simp [addRelease, hv]
  exact (hall S.elements []).trans (List.append_nil _)

theorem Held.mkReleases (h : Held M st) (fresh : Id → Id) (hkey : Keyed varMap) (hS : S ⊆ M) :
    Takes M (M \ S) st (∀ v ∈ S, Bound varMap v) (st.execAll (mkReleases fresh S varMap)) := by
  have hset : S.elements.reverse.toFinset = S := by
    ext v
    rw [List.mem_toFinset, List.mem_reverse, IntSet.mem_elements]
  have hmem : ∀ v ∈ S.elements.reverse, v ∈ S := fun v hv => by
    rwa [List.mem_reverse, IntSet.mem_elements] at hv
  rw [mkReleases_eq]
  refine (h.releases hkey (List.nodup_reverse.mpr S.nodup_elements)
    fun v hv => hS (hmem v hv)).of_eq (by rw [hset]) fun hb v hv => hb v (hmem v hv)

/-- What a statement gives up itself is dead after it. -/
theorem annotateStmt_dead (fresh : Id → Id) (hun : Unmarked s) (hok : StmtOk la s) :
    ∀ v ∈ (annotateStmt fresh la s).2, la v = false := by
  obtain ⟨sid, node⟩ := s
  intro v hv
  cases node with
  | assign dst rv =>
    cases rv with
    | objectGet obj p ty marker =>
      obtain rfl : marker = .unknown := hun
      cases obj <;> simp [annotateStmt] at hv
    | cast src ty marker =>
      obtain rfl : marker = .unknown := hun
      cases src with
      | constant c cty => simp [annotateStmt] at hv
      | var u =>
        by_cases hsrc : isRefTy u.ty = true ∧ isRefTy dst.ty = false
        · cases hu : la u.id <;> simp [annotateStmt, hsrc, hu] at hv
          rw [hv, hu]
        · simp [annotateStmt, hsrc] at hv
    | move src =>
      cases src with
      | constant c cty => simp [annotateStmt] at hv
      | var u =>
        by_cases href : isRefTy u.ty
        · simp only [annotateStmt, href, if_true, Finset.mem_singleton] at hv
          rw [hv]
          exact hok href
        · simp [annotateStmt, href] at hv
    | binOp op lhs rhs => simp [annotateStmt] at hv
    | unOp op src => simp [annotateStmt] at hv
    | objectLength obj => simp [annotateStmt] at hv
    | objectSize obj => simp [annotateStmt] at hv
    | objectGetTag obj => simp [annotateStmt] at hv
    | addrFn fn => simp [annotateStmt] at hv
  | objectSet obj p value ty marker =>
    obtain rfl : marker = .unknown := hun.1
    by_cases href : isRefTy ty
    · cases value with
      | constant c cty => simp [annotateStmt, href] at hv
      | var u =>
        cases hu : la u.id <;> simp [annotateStmt, href, hu] at hv
        rw [hv, hu]
    · simp [annotateStmt, href] at hv
  | objectCreate dst length => simp [annotateStmt] at hv
  | call dst target args =>
    simp only [annotateStmt, foldl_annotateArg hun.1, Finset.empty_union, List.mem_toFinset] at hv
    obtain ⟨a, -, ha⟩ := List.mem_filterMap.mp hv
    split at ha
    · split at ha
      · rename_i hu
        rw [← Option.some.inj ha]
        exact hu.2
      · cases ha
    · cases ha
  | storeGlobal global value marker =>
    obtain rfl : marker = .unknown := hun
    cases value with
    | constant c cty => simp [annotateStmt] at hv
    | var u =>
      by_cases href : isRefTy u.ty
      · cases hu : la u.id <;> simp [annotateStmt, href, hu] at hv
        rw [hv, hu]
      · simp [annotateStmt, href] at hv
  | release obj => exact absurd hok id
  | gcCycle => simp [annotateStmt] at hv
  | nop => simp [annotateStmt] at hv

theorem sdiff_sdiff_dead {D skip : IntSet} (hskip : ∀ v ∈ A, v ∉ skip)
    (hB : ∀ v ∈ A, v ∈ D ∨ v ∈ B) : ((B \ skip) ∪ (D ∩ A)) \ ((B \ A) \ skip) = A := by
  ext v
  have hs := hskip v
  have hb := hB v
  simp only [Finset.mem_sdiff, Finset.mem_union, Finset.mem_inter]
  grind

/-- A statement with the releases after it takes the holders of the variables live before it to
those of the variables live after it. -/
theorem Held.annotated {stmts : IntMap LiveInfoStmt} {fresh : Id → Id → Id}
    (h : Held (liveBeforeStmt A s) st)
    (hinfo : stmts.findOpt s.id = some { liveBefore := liveBeforeStmt A s, liveAfter := A })
    (hun : Unmarked s) (hok : StmtOk (isLiveAfter stmts s.id) s)
    (hdst : ∀ v ∈ refDefOfStmt s, v ∉ refUseOfStmt s) (hkey : Keyed varMap)
    (hfresh : fresh s.id 0 ∉ liveBeforeStmt A s) :
    Takes (liveBeforeStmt A s) A st
      (LeakOk (isLiveAfter stmts s.id) s ∧ ∀ v ∈ liveBeforeStmt A s, Bound varMap v)
      (st.execAll (annotateStatements fresh stmts varMap s)) := by
  have hla : ∀ v, isLiveAfter stmts s.id v = true ↔ v ∈ A := by
    intro v
    simp [isLiveAfter, hinfo]
  have hnot : ∀ v ∈ refDefOfStmt s, v ∉ liveBeforeStmt A s := by
    intro v hv hmem
    rcases mem_liveBeforeStmt.mp hmem with hu | ⟨-, hd⟩
    · exact hdst v hv hu
    · exact hd hv
  obtain ⟨st₁, hst₁, hheld₁, hacc₁⟩ := performs h (fresh s.id) hla hun hok
    (fun v hv => mem_liveBeforeStmt.mpr (Or.inl hv)) hnot hfresh
  have hskip := annotateStmt_dead (fresh s.id) hun hok
  generalize hsk : (annotateStmt (fresh s.id) (isLiveAfter stmts s.id) s).2 = skip at *
  have hsub : (liveBeforeStmt A s \ A) \ skip ⊆
      (liveBeforeStmt A s \ skip) ∪ (refDefOfStmt s ∩ A) := by
    intro v hv
    simp only [Finset.mem_sdiff, Finset.mem_union] at hv ⊢
    exact Or.inl ⟨hv.1.1, hv.2⟩
  obtain ⟨st₂, hst₂, hheld₂, hacc₂⟩ := hheld₁.mkReleases (fresh s.id) hkey hsub
  have hdisj : ∀ v ∈ A, v ∉ skip := by
    intro v hA hv
    have hdead := hskip v hv
    rw [(hla v).mpr hA] at hdead
    exact Bool.noConfusion hdead
  have heq := sdiff_sdiff_dead hdisj fun v hA => by
    by_cases hd : v ∈ refDefOfStmt s
    · exact Or.inl hd
    · exact Or.inr (mem_liveBeforeStmt.mpr (Or.inr ⟨hA, hd⟩))
  rw [heq] at hheld₂ hacc₂
  refine ⟨st₂, ?_, hheld₂, fun ha hok => hacc₂ (hacc₁ ha hok.1) fun v hv => hok.2 v ?_⟩
  · rw [annotateStatements]
    simp only [releasesOfDeadObj, hinfo, execAll_append, hst₁, hsk]
    exact hst₂
  · exact (Finset.mem_sdiff.mp (Finset.mem_sdiff.mp hv).1).1

end Syli.Compiler
