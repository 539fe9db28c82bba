import Syli.Compiler.TypeSubstitution
import Mathlib.Data.Finset.Card

/-! Unification of types without the wildcard: it ends, and its result is the most general one. -/
namespace Syli.Compiler.Typing

open Foundation Relation

variable {s r s' u : Subst} {t t' a b x y : Ty} {v w n m : Nat} {σ τ : Nat → Ty}
variable {U : Finset Nat} {E E' : (Nat → Ty) → Prop} {xs ys : List Ty}

/-- A type without the wildcard over the variables of `U`. -/
structure Over (U : Finset Nat) (t : Ty) : Prop where
  anyFree : t.anyFree = true
  vars : ∀ v, occurs v t = true → v ∈ U

structure Good (U : Finset Nat) (s : Subst) : Prop where
  acyclic : Acyclic s
  ranges : ∀ v t, s.findOpt v = some t → Over U t

/-- The variables of `U` that are not bound. -/
def unbound (U : Finset Nat) (s : Subst) : Nat := (U.filter fun v => s.findOpt v = none).card

/-- The bindings stay, and a new one uses up a variable. -/
structure Grows (U : Finset Nat) (s r : Subst) : Prop where
  keeps : ∀ v t, s.findOpt v = some t → r.findOpt v = some t
  unbound : r = s ∨ unbound U r < unbound U s

/-- The outcome decides the equation `E` for the solutions of `s`. -/
inductive Settles (U : Finset Nat) (s : Subst) (E : (Nat → Ty) → Prop) :
    Except TypeError Subst → Prop where
  | ok {r : Subst} : Good U r → Grows U s r → (∀ τ, Solves τ s → (E τ ↔ Solves τ r)) →
      Settles U s E (.ok r)
  | error {e : TypeError} : (∀ τ, Solves τ s → ¬ E τ) → Settles U s E (.error e)

/-- From some fuel on, the outcome does not change. -/
def Returns (f : Nat → Option (Except TypeError Subst)) (out : Except TypeError Subst) : Prop :=
  ∃ n, ∀ m ≥ n, f m = some out

theorem Grows.refl : Grows U s s := ⟨fun _ _ h => h, Or.inl rfl⟩

theorem Grows.trans (h : Grows U s s') (h' : Grows U s' r) : Grows U s r := by
  refine ⟨fun v t hfind => h'.keeps v t (h.keeps v t hfind), ?_⟩
  rcases h.unbound with rfl | hlt
  · exact h'.unbound
  · rcases h'.unbound with rfl | hlt'
    · exact Or.inr hlt
    · exact Or.inr (hlt'.trans hlt)

theorem Grows.solves (h : Grows U s r) (hτ : Solves τ r) : Solves τ s :=
  fun v t hfind => hτ v t (h.keeps v t hfind)

theorem Settles.congr {out : Except TypeError Subst} (h : Settles U s E out)
    (hE : ∀ τ, Solves τ s → (E τ ↔ E' τ)) : Settles U s E' out := by
  cases h with
  | ok hgood hgrows hsolves =>
    exact .ok hgood hgrows fun τ hτ => (hE τ hτ).symm.trans (hsolves τ hτ)
  | error hno => exact .error fun τ hτ h => hno τ hτ ((hE τ hτ).mpr h)

theorem settles_refl (hs : Good U s) (hE : ∀ τ, E τ) : Settles U s E (.ok s) :=
  .ok hs .refl fun τ hτ => ⟨fun _ => hτ, fun _ => hE τ⟩

section Bind

theorem findOpt_bind : (s.bind v t).findOpt w = if w = v then some t else s.findOpt w := by
  by_cases h : w = v
  · subst h
    simp [Subst.bind]
  · simp [Subst.bind, AssocMap.findOpt_add_of_ne h, h]

theorem Acyclic.bind (hs : Acyclic s) (ht : ∀ w, occurs w t = true → s.findOpt w = none)
    (hocc : occurs v t = false) : Acyclic (s.bind v t) := by
  have hleaf : ∀ w, occurs w t = true → Acc (fun w v' => Leads (s.bind v t) v' w) w := by
    intro w hw
    refine ⟨w, fun x hx => ?_⟩
    obtain ⟨t', hfind, -⟩ := hx
    have hne : w ≠ v := by
      rintro rfl
      simp [hocc] at hw
    simp [findOpt_bind, hne, ht w hw] at hfind
  have hnew : Acc (fun w v' => Leads (s.bind v t) v' w) v := by
    refine ⟨v, fun x hx => ?_⟩
    obtain ⟨t', hfind, hx⟩ := hx
    obtain rfl : t = t' := by simpa [findOpt_bind] using hfind
    exact hleaf x hx
  refine acyclic_iff.mpr fun x => ?_
  have hacc := hs.acc x
  induction hacc with
  | intro x _ ih =>
    by_cases hx : x = v
    · exact hx ▸ hnew
    · refine ⟨x, fun y hy => ?_⟩
      obtain ⟨t', hfind, hy⟩ := hy
      exact ih y ⟨t', by simpa [findOpt_bind, hx] using hfind, hy⟩

theorem solves_bind (hv : s.findOpt v = none) :
    Solves τ (s.bind v t) ↔ Solves τ s ∧ τ v = t.subst τ := by
  constructor
  · intro h
    refine ⟨fun w t' hfind => h w t' ?_, h v t (by simp [findOpt_bind])⟩
    have hne : w ≠ v := by
      rintro rfl
      simp [hv] at hfind
    simpa [findOpt_bind, hne] using hfind
  · rintro ⟨hs, hvt⟩ w t' hfind
    rw [findOpt_bind] at hfind
    split_ifs at hfind with hw
    · cases hfind
      exact hw ▸ hvt
    · exact hs w t' hfind

theorem grows_bind (hv : s.findOpt v = none) (hU : v ∈ U) : Grows U s (s.bind v t) := by
  constructor
  · intro w t' hfind
    have hne : w ≠ v := by
      rintro rfl
      simp [hv] at hfind
    simpa [findOpt_bind, hne] using hfind
  · refine Or.inr (Finset.card_lt_card (Finset.ssubset_iff_subset_ne.mpr ⟨?_, ?_⟩))
    · intro w hw
      obtain ⟨hmem, hfind⟩ := Finset.mem_filter.mp hw
      rw [findOpt_bind] at hfind
      split_ifs at hfind
      exact Finset.mem_filter.mpr ⟨hmem, hfind⟩
    · intro heq
      have hmem : v ∈ U.filter fun w => (s.bind v t).findOpt w = none :=
        heq ▸ Finset.mem_filter.mpr ⟨hU, hv⟩
      simp [findOpt_bind] at hmem

theorem settles_bindVar (hs : Good U s) (hv : s.findOpt v = none) (hU : v ∈ U) (ht : Over U t)
    (hres : ∀ w, occurs w t = true → s.findOpt w = none) (hne : t ≠ .var v) :
    Settles U s (fun τ => τ v = t.subst τ) (bindVar s v t a b) := by
  unfold bindVar
  split_ifs with hocc
  · exact .error fun τ _ => subst_ne_of_occurs hocc hne
  · have hocc' : occurs v t = false := by simpa using hocc
    refine .ok ⟨hs.acyclic.bind hres hocc', fun w t' hfind => ?_⟩ (grows_bind hv hU) fun τ hτ => ?_
    · rw [findOpt_bind] at hfind
      split_ifs at hfind
      · cases hfind
        exact ht
      · exact hs.ranges w t' hfind
    · simp [solves_bind hv, hτ]

end Bind

section Recursion

variable {rec : Nat → Subst → Ty → Ty → Option (Except TypeError Subst)}

theorem settles_foldLeft2 (hs : Good U s) (hlength : xs.length = ys.length)
    (hrec : ∀ s', Good U s' → Grows U s s' → ∀ p ∈ xs.zip ys, ∃ out,
      Returns (fun n => rec n s' p.1 p.2) out ∧
        Settles U s' (fun τ => p.1.subst τ = p.2.subst τ) out) :
    ∃ out, Returns (fun n => foldLeft2 (rec n) s xs ys) out ∧
      Settles U s (fun τ => xs.map (Ty.subst τ) = ys.map (Ty.subst τ)) out := by
  induction xs generalizing ys s with
  | nil =>
    cases List.length_eq_zero_iff.mp hlength.symm
    exact ⟨.ok s, ⟨0, fun _ _ => rfl⟩, settles_refl hs fun _ => rfl⟩
  | cons x xs ih =>
    cases ys with
    | nil => cases hlength
    | cons y ys =>
      obtain ⟨out, ⟨n, hn⟩, hout⟩ := hrec s hs .refl (x, y) List.mem_cons_self
      cases hout with
      | @error e hno =>
        refine ⟨.error e, ⟨n, fun m hm => ?_⟩, .error fun τ hτ hE => ?_⟩
        · simp only [foldLeft2, hn m hm]
        · exact hno τ hτ (List.cons.inj hE).1
      | @ok r hgood hgrows hsolves =>
        obtain ⟨out, ⟨n', hn'⟩, hout⟩ := ih hgood (Nat.succ.inj hlength)
          fun s' hs' hgrows' p hp =>
            hrec s' hs' (hgrows.trans hgrows') p (List.mem_cons_of_mem _ hp)
        refine ⟨out, ⟨max n n', fun m hm => ?_⟩, ?_⟩
        · simp only [foldLeft2, hn m (by omega), hn' m (by omega)]
        · cases hout with
          | error hno =>
            refine .error fun τ hτ hE => ?_
            obtain ⟨hhead, htail⟩ := List.cons.inj hE
            exact hno τ ((hsolves τ hτ).mp hhead) htail
          | ok hgood' hgrows' hsolves' =>
            refine .ok hgood' (hgrows.trans hgrows') fun τ hτ => ?_
            rw [List.map_cons, List.map_cons, List.cons_eq_cons, hsolves τ hτ]
            constructor
            · rintro ⟨hr, htail⟩
              exact (hsolves' τ hr).mp htail
            · intro hr'
              have hr := hgrows'.solves hr'
              exact ⟨hr, (hsolves' τ hr).mpr hr'⟩

def Ty.parts : Ty → List Ty
  | .var _ | .any | .constant _ => []
  | .arrow arg ret => [arg, ret]
  | .tuple elems => elems
  | .array elem => [elem]
  | .defined _ args => args

theorem occurs_part (hx : x ∈ a.parts) (h : occurs v x = true) : occurs v a = true := by
  cases a with
  | var | any | constant => cases hx
  | arrow arg ret =>
    simp only [Ty.parts, List.mem_cons, List.not_mem_nil, or_false] at hx
    rcases hx with rfl | rfl <;> simp [occurs, h]
  | tuple elems => simpa [occurs] using ⟨x, hx, h⟩
  | array elem =>
    cases List.mem_singleton.mp hx
    simpa [occurs] using h
  | defined name args => simpa [occurs] using ⟨x, hx, h⟩

theorem size_part (hx : x ∈ a.parts) : x.size < a.size := by
  cases a with
  | var | any | constant => cases hx
  | arrow arg ret =>
    simp only [Ty.parts, List.mem_cons, List.not_mem_nil, or_false] at hx
    rcases hx with rfl | rfl <;> simp only [Ty.size] <;> omega
  | array elem =>
    cases List.mem_singleton.mp hx
    simp [Ty.size]
  | tuple | defined =>
    have := size_le_sizes hx
    simp only [Ty.parts] at this
    simp only [Ty.size]
    omega

theorem Over.part (h : Over U a) (hx : x ∈ a.parts) : Over U x := by
  refine ⟨?_, fun v hv => h.vars v (occurs_part hx hv)⟩
  have hfree := h.anyFree
  cases a with
  | var | any | constant => cases hx
  | arrow arg ret =>
    simp only [Ty.anyFree, Bool.and_eq_true] at hfree
    simp only [Ty.parts, List.mem_cons, List.not_mem_nil, or_false] at hx
    rcases hx with rfl | rfl
    · exact hfree.1
    · exact hfree.2
  | array elem =>
    cases List.mem_singleton.mp hx
    exact hfree
  | tuple | defined => exact anyFrees_iff.mp hfree x hx

section Cases

variable {f : Subst → Ty → Ty → Option (Except TypeError Subst)}

theorem unifyApplied_var (hb : b.anyFree = true) (hne : ¬ equalTy (.var v) b = true) :
    unifyApplied f s (.var v) b = some (bindVar s v b (.var v) b) := by
  cases b <;> simp_all [unifyApplied, Ty.anyFree]

theorem unifyApplied_var_right (ha : a.anyFree = true) (hvar : ∀ w, a ≠ .var w)
    (hne : ¬ equalTy a (.var v) = true) :
    unifyApplied f s a (.var v) = some (bindVar s v a a (.var v)) := by
  cases a <;> simp_all [unifyApplied, Ty.anyFree]

/-- Neither of the types is a variable or the wildcard, and they do not have one form. -/
def Clash : Ty → Ty → Prop
  | .any, _ | _, .any | .var _, _ | _, .var _ => False
  | .constant c, .constant c' => c ≠ c'
  | .arrow _ _, .arrow _ _ | .array _, .array _ => False
  | .tuple xs, .tuple ys => xs.length ≠ ys.length
  | .defined name xs, .defined name' ys => name = name' → xs.length ≠ ys.length
  | _, _ => True

theorem Clash.subst_ne (h : Clash a b) : a.subst τ ≠ b.subst τ := by
  intro heq
  cases a <;> cases b <;> simp only [Clash, Ty.subst, reduceCtorEq] at h heq
  · exact h (Ty.constant.inj heq)
  · have hlength := congrArg List.length (Ty.tuple.inj heq)
    exact h (by simpa using hlength)
  · obtain ⟨hname, hargs⟩ := Ty.defined.inj heq
    have hlength := congrArg List.length hargs
    exact h hname (by simpa using hlength)

theorem equalTys_length (h : equalTys xs ys = true) : xs.length = ys.length := by
  induction xs generalizing ys with
  | nil =>
    cases ys with
    | nil => rfl
    | cons => simp [equalTys] at h
  | cons x xs ih =>
    cases ys with
    | nil => simp [equalTys] at h
    | cons y ys =>
      simp only [equalTys, Bool.and_eq_true] at h
      simp [ih h.2]

theorem Clash.not_equal (h : Clash a b) : ¬ equalTy a b = true := by
  intro heq
  cases a <;> cases b <;> simp only [Clash, equalTy, Bool.false_eq_true] at h heq
  · exact h (by simpa using heq)
  · exact h (equalTys_length heq)
  · simp only [Bool.and_eq_true, decide_eq_true_eq] at heq
    exact h heq.1 (equalTys_length heq.2)

theorem Clash.exists_error (h : Clash a b) :
    ∃ e, ∀ f s, Typing.unifyApplied f s a b = some (.error e) := by
  have heq := h.not_equal
  cases a with
  | defined name args =>
    cases b with
    | defined name' args' =>
      by_cases hname : name = name'
      · subst hname
        refine ⟨.argumentArity name args.length args'.length, fun f s => ?_⟩
        simp [Typing.unifyApplied, heq, h rfl]
      · refine ⟨.mismatch (.defined name args) (.defined name' args'), fun f s => ?_⟩
        simp [Typing.unifyApplied, heq, hname]
    | _ => simp only [Clash] at h <;> simp [Typing.unifyApplied, heq]
  | _ => cases b <;> simp only [Clash] at h <;> simp [Typing.unifyApplied, heq, h]

/-- The types have one form, and as many parts. -/
inductive Alike : Ty → Ty → Prop where
  | constant (c : ConstantTy) : Alike (.constant c) (.constant c)
  | arrow (arg ret arg' ret' : Ty) : Alike (.arrow arg ret) (.arrow arg' ret')
  | tuple {xs ys : List Ty} : xs.length = ys.length → Alike (.tuple xs) (.tuple ys)
  | array (elem elem' : Ty) : Alike (.array elem) (.array elem')
  | defined {name : String} {xs ys : List Ty} : xs.length = ys.length →
      Alike (.defined name xs) (.defined name ys)

theorem alike_of_not_clash (ha : a.anyFree = true) (hb : b.anyFree = true)
    (hvar : ∀ v, a ≠ .var v) (hvar' : ∀ v, b ≠ .var v) (h : ¬ Clash a b) : Alike a b := by
  cases a with
  | any => simp [Ty.anyFree] at ha
  | var v => exact (hvar v rfl).elim
  | constant c => cases b <;> simp_all [Clash, Ty.anyFree, Alike.constant]
  | arrow arg ret => cases b <;> simp_all [Clash, Ty.anyFree, Alike.arrow]
  | tuple elems => cases b <;> simp_all [Clash, Ty.anyFree, Alike.tuple]
  | array elem => cases b <;> simp_all [Clash, Ty.anyFree, Alike.array]
  | defined name args => cases b <;> simp_all [Clash, Ty.anyFree, Alike.defined]

end Cases

theorem unifyApplied_returns (hs : Good U s) (ha : Over U a) (hb : Over U b)
    (hares : ∀ v, occurs v a = true → s.findOpt v = none)
    (hbres : ∀ v, occurs v b = true → s.findOpt v = none)
    (hrec : ∀ s', Good U s' → Grows U s s' → ∀ x y, Over U x → Over U y →
      (∀ v, occurs v x = true → s.findOpt v = none) → x.size < a.size → ∃ out,
        Returns (fun n => rec n s' x y) out ∧ Settles U s' (fun τ => x.subst τ = y.subst τ) out) :
    ∃ out, Returns (fun n => unifyApplied (rec n) s a b) out ∧
      Settles U s (fun τ => a.subst τ = b.subst τ) out := by
  by_cases heq : equalTy a b = true
  · obtain rfl := eq_of_equalTy heq ha.anyFree hb.anyFree
    refine ⟨.ok s, ⟨0, fun m _ => ?_⟩, settles_refl hs fun _ => rfl⟩
    cases a <;> simp [unifyApplied, heq]
  have hne : a ≠ b := by
    rintro rfl
    exact heq equalTy_self
  by_cases hvar : ∃ v, a = .var v
  · obtain ⟨v, rfl⟩ := hvar
    have hv : occurs v (.var v) = true := by simp [occurs]
    exact ⟨_, ⟨0, fun m _ => unifyApplied_var hb.anyFree heq⟩,
      settles_bindVar hs (hares v hv) (ha.vars v hv) hb hbres hne.symm⟩
  by_cases hvar' : ∃ v, b = .var v
  · obtain ⟨v, rfl⟩ := hvar'
    have hv : occurs v (.var v) = true := by simp [occurs]
    refine ⟨_, ⟨0, fun m _ => unifyApplied_var_right ha.anyFree (fun w hw => hvar ⟨w, hw⟩) heq⟩, ?_⟩
    exact (settles_bindVar hs (hbres v hv) (hb.vars v hv) ha hares hne).congr fun τ _ => eq_comm
  by_cases hclash : Clash a b
  · obtain ⟨e, he⟩ := hclash.exists_error
    exact ⟨.error e, ⟨0, fun m _ => he (rec m) s⟩, .error fun τ _ => hclash.subst_ne⟩
  have hparts : ∀ s', Good U s' → Grows U s s' → ∀ p ∈ a.parts.zip b.parts, ∃ out,
      Returns (fun n => rec n s' p.1 p.2) out ∧
        Settles U s' (fun τ => p.1.subst τ = p.2.subst τ) out := by
    intro s' hs' hgrows p hp
    obtain ⟨hx, hy⟩ := List.of_mem_zip hp
    exact hrec s' hs' hgrows p.1 p.2 (ha.part hx) (hb.part hy)
      (fun v hv => hares v (occurs_part hx hv)) (size_part hx)
  have halike := alike_of_not_clash ha.anyFree hb.anyFree (fun v hv => hvar ⟨v, hv⟩)
    (fun v hv => hvar' ⟨v, hv⟩) hclash
  cases halike with
  | constant c => exact (hne rfl).elim
  | arrow arg ret arg' ret' =>
    have hlength : [arg, ret].length = [arg', ret'].length := rfl
    obtain ⟨out, ⟨n, hn⟩, hout⟩ := settles_foldLeft2 hs hlength hparts
    refine ⟨out, ⟨n, fun m hm => ?_⟩, hout.congr fun τ _ => ?_⟩
    · simpa [unifyApplied, heq] using hn m hm
    · simp [Ty.subst]
  | tuple hlength =>
    obtain ⟨out, ⟨n, hn⟩, hout⟩ := settles_foldLeft2 hs hlength hparts
    refine ⟨out, ⟨n, fun m hm => ?_⟩, hout.congr fun τ _ => ?_⟩
    · simpa [unifyApplied, heq, hlength] using hn m hm
    · simp [Ty.subst]
  | array elem elem' =>
    obtain ⟨out, ⟨n, hn⟩, hout⟩ := hparts s hs .refl (elem, elem') List.mem_cons_self
    refine ⟨out, ⟨n, fun m hm => ?_⟩, hout.congr fun τ _ => ?_⟩
    · simpa [unifyApplied, heq] using hn m hm
    · simp [Ty.subst]
  | defined hlength =>
    obtain ⟨out, ⟨n, hn⟩, hout⟩ := settles_foldLeft2 hs hlength hparts
    refine ⟨out, ⟨n, fun m hm => ?_⟩, hout.congr fun τ _ => ?_⟩
    · simpa [unifyApplied, heq, hlength] using hn m hm
    · simp [Ty.subst]

end Recursion

theorem Good.over_denotes (hs : Good U s) (hσ : Denotes s σ) (hv : v ∈ U) : Over U (σ v) := by
  have hacc := hs.acyclic.acc v
  induction hacc with
  | intro v _ ih =>
    cases hfind : s.findOpt v with
    | none =>
      rw [hσ.unbound hfind]
      exact ⟨rfl, fun w hw => by simpa [occurs] using (by simpa [occurs] using hw : w = v) ▸ hv⟩
    | some t =>
      have ht := hs.ranges v t hfind
      have hparts : ∀ w, occurs w t = true → Over U (σ w) := fun w hw =>
        ih w ⟨t, hfind, hw⟩ (ht.vars w hw)
      rw [hσ.bound hfind]
      refine ⟨anyFree_subst ht.anyFree fun w hw => (hparts w hw).anyFree, fun x hx => ?_⟩
      obtain ⟨w, hw, hx⟩ := occurs_subst.mp hx
      exact (hparts w hw).vars x hx

theorem Good.over_subst (hs : Good U s) (hσ : Denotes s σ) (ht : Over U t) :
    Over U (t.subst σ) := by
  have hparts : ∀ v, occurs v t = true → Over U (σ v) := fun v hv =>
    hs.over_denotes hσ (ht.vars v hv)
  refine ⟨anyFree_subst ht.anyFree fun v hv => (hparts v hv).anyFree, fun x hx => ?_⟩
  obtain ⟨v, hv, hx⟩ := occurs_subst.mp hx
  exact (hparts v hv).vars x hx

/-- The induction is on the variables that are not bound, then on the size of the left type with
the substitution applied. -/
theorem unify_returns (hs : Good U s) (hσ : Denotes s σ) (ha : Over U a) (hb : Over U b) :
    ∃ out, Returns (fun n => unify n s a b) out ∧
      Settles U s (fun τ => a.subst τ = b.subst τ) out := by
  induction hcount : unbound U s using Nat.strong_induction_on generalizing s σ a b with
  | _ count ihUnbound =>
  induction hsize : (a.subst σ).size using Nat.strong_induction_on generalizing a b with
  | _ size ihSize =>
    have hrec : ∀ s', Good U s' → Grows U s s' → ∀ x y, Over U x → Over U y →
        (∀ v, occurs v x = true → s.findOpt v = none) → x.size < (a.subst σ).size → ∃ out,
          Returns (fun n => unify n s' x y) out ∧
            Settles U s' (fun τ => x.subst τ = y.subst τ) out := by
      intro s' hs' hgrows x y hx hy hres hlt
      rcases hgrows.unbound with rfl | hfewer
      · refine ihSize (x.subst σ).size ?_ hx hy rfl
        rw [hσ.subst_resolved hres]
        omega
      · obtain ⟨σ', hσ'⟩ := hs'.acyclic.exists_denotes
        exact ihUnbound _ (hcount ▸ hfewer) hs' hσ' hx hy rfl
    obtain ⟨out, ⟨n, hn⟩, hout⟩ := unifyApplied_returns hs (hs.over_subst hσ ha)
      (hs.over_subst hσ hb) (fun v => hσ.resolved_subst) (fun v => hσ.resolved_subst) hrec
    obtain ⟨n₁, h₁⟩ := @Denotes.applies_subst _ a _ hσ
    obtain ⟨n₂, h₂⟩ := @Denotes.applies_subst _ b _ hσ
    refine ⟨out, ⟨max n (max n₁ n₂) + 1, fun m hm => ?_⟩, hout.congr fun τ hτ => ?_⟩
    · obtain ⟨m, rfl⟩ := Nat.exists_eq_add_one_of_ne_zero (by omega : m ≠ 0)
      simp [unify, h₁ m (by omega), h₂ m (by omega), hn m (by omega)]
    · rw [hτ.subst_factors hs.acyclic hσ, hτ.subst_factors hs.acyclic hσ]

end Syli.Compiler.Typing
