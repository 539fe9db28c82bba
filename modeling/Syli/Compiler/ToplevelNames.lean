import Syli.Compiler.Hygiene

/-! Top-level names: what `desugarize_ast` gives to the bindings of a module and of its nested
modules. -/
namespace Syli.Compiler.Desugar

open Foundation

variable {root : String} {n m : Nat} {scope : List Binder} {ids : List Nat} {path : List Name}
variable {key : Name} {named : Bool} {id : Nat}

theorem toplevelBinder_number (path path' : List Name) :
    (toplevelBinder ids path n key named id).2 = (toplevelBinder ids path' n key named id).2 := by
  unfold toplevelBinder
  split <;> rfl

theorem toplevelBinder_drawn {k : Nat}
    (h : (toplevelBinder ids path n key named id).1.number? = some k) :
    n < k ∧ k ≤ (toplevelBinder ids path n key named id).2 := by
  unfold toplevelBinder at h ⊢
  split at h
  · cases h
  · cases h
    simp_all

theorem le_toplevelBinder : n ≤ (toplevelBinder ids path n key named id).2 := by
  unfold toplevelBinder
  split
  · exact Nat.le_refl n
  · exact Nat.le_succ n

theorem toplevelBinder_kind : (toplevelBinder ids path n key named id).1.kind ≠ .param := by
  unfold toplevelBinder
  split <;> simp

theorem Settled.toplevel (h : Settled n scope) (ids : List Nat) (path : List Name) (key : Name)
    (named : Bool) (id : Nat) : Settled (toplevelBinder ids path n key named id).2
      ((toplevelBinder ids path n key named id).1 :: scope) :=
  h.cons le_toplevelBinder fun _ => toplevelBinder_drawn

theorem le_itemsDraws (items : Items) : n ≤ itemsDraws ids n items := by
  induction items generalizing n with
  | nil => exact Nat.le_refl n
  | letDef isRec p value items ih =>
    apply Nat.le_trans _ ih
    exact Nat.le_trans le_toplevelBinder (Nat.le_add_right _ value.draws)
  | external fname items ih => exact Nat.le_trans le_toplevelBinder ih
  | typeDecl items ih => exact ih
  | moduleStructure name inner items ihInner ih => exact Nat.le_trans ihInner ih
  | moduleSignature items ih => exact ih

/-- The numbers of top-level binders were drawn between `n` and `m`. -/
structure DrawnWithin (n m : Nat) (bs : List Binder) : Prop where
  kind : ∀ b ∈ bs, b.kind ≠ .param
  drawn : ∀ b ∈ bs, ∀ k, b.number? = some k → n < k ∧ k ≤ m
  differ : bs.Pairwise NumbersDiffer

namespace DrawnWithin

variable {bs bs' : List Binder} {n₁ n₂ n₃ : Nat}

theorem nil : DrawnWithin n m [] := ⟨by simp, by simp, .nil⟩

theorem append (h : DrawnWithin n₁ n₂ bs) (h' : DrawnWithin n₂ n₃ bs') (h₁ : n₁ ≤ n₂)
    (h₂ : n₂ ≤ n₃) :
    DrawnWithin n₁ n₃ (bs ++ bs') := by
  refine ⟨?_, ?_, List.pairwise_append.mpr ⟨h.differ, h'.differ, ?_⟩⟩
  · intro b hb
    obtain hb | hb := List.mem_append.mp hb
    · exact h.kind b hb
    · exact h'.kind b hb
  · intro b hb k hk
    obtain hb | hb := List.mem_append.mp hb
    · have := h.drawn b hb k hk
      omega
    · have := h'.drawn b hb k hk
      omega
  · intro b hb b' hb' k hk hk'
    have hlow := h.drawn b hb k hk
    have hhigh := h'.drawn b' hb' k hk'
    omega

theorem toplevelBinder : DrawnWithin n (toplevelBinder ids path n key named id).2
    [(toplevelBinder ids path n key named id).1] := by
  refine ⟨?_, ?_, List.pairwise_singleton _ _⟩
  · intro b hb
    rw [List.mem_singleton.mp hb]
    exact toplevelBinder_kind
  · intro b hb k hk
    rw [List.mem_singleton.mp hb] at hk
    exact toplevelBinder_drawn hk

theorem mono (h : DrawnWithin n₁ n₃ bs) (hle : n ≤ n₁) : DrawnWithin n n₃ bs :=
  ⟨h.kind, fun b hb k hk => ⟨Nat.lt_of_le_of_lt hle (h.drawn b hb k hk).1, (h.drawn b hb k hk).2⟩,
    h.differ⟩

end DrawnWithin

theorem toplevelBinders_drawn (items : Items) :
    DrawnWithin n (itemsDraws ids n items) (toplevelBinders ids path n items) := by
  induction items generalizing path n with
  | nil => exact .nil
  | letDef isRec p value items ih =>
    rw [itemsDraws, toplevelBinders, toplevelBinder_number [] path]
    exact DrawnWithin.toplevelBinder.append (ih.mono (Nat.le_add_right _ _)) le_toplevelBinder
      (Nat.le_trans (Nat.le_add_right _ _) (le_itemsDraws items))
  | external fname items ih =>
    rw [itemsDraws, toplevelBinders, toplevelBinder_number [] path]
    exact DrawnWithin.toplevelBinder.append ih le_toplevelBinder (le_itemsDraws items)
  | typeDecl items ih => exact ih
  | moduleStructure name inner items ihInner ih =>
    exact ihInner.append ih (le_itemsDraws inner) (le_itemsDraws items)
  | moduleSignature items ih => exact ih

/-- No two top-level names are equal exactly when no two top-level spellings clash. -/
theorem DrawnWithin.nodup_iff {bs : List Binder} (h : DrawnWithin n m bs) :
    (bs.map (Binder.qualified root)).Nodup ↔ bs.Pairwise Binder.Apart := by
  rw [List.Nodup, List.pairwise_map]
  have hkind : bs.Pairwise fun b _ => b.kind ≠ .param :=
    List.pairwise_of_forall_mem_list fun b hb _ _ => h.kind b hb
  have hall := hkind.and h.differ
  constructor
  · exact fun hp => (hp.and hall).imp fun hpair =>
      (core_ne_iff root hpair.2.2 fun hb => (hpair.2.1 hb).elim).mp hpair.1
  · exact fun hp => (hp.and hall).imp fun hpair =>
      (core_ne_iff root hpair.2.2 fun hb => (hpair.2.1 hb).elim).mpr hpair.1

/-- The environment of the items under a scope. -/
def scopeEnv (root : String) (path : List Name) (scope : List Binder) (ids : List Nat) : Env where
  root := root
  path := path
  bindSubst := scope.map (Binder.entry root)
  toplevelLastIds := ids

theorem toplevelRename_eq (named : Bool) (i : Ident) :
    (scopeEnv root path scope ids).toplevelRename n i =
      ((toplevelBinder ids path n i.name named i.id).1.qualified root,
        (toplevelBinder ids path n i.name named i.id).2) := by
  unfold Env.toplevelRename toplevelBinder
  by_cases h : i.id ∈ ids
  · simp [scopeEnv, h, Env.toplevelName, Binder.qualified]
  · simp [scopeEnv, h, Env.toplevelName, Binder.qualified]

theorem toplevelBinder_key : (toplevelBinder ids path n key named id).1.key = key := by
  unfold toplevelBinder
  split <;> rfl

theorem scopeEnv_add (named : Bool) (i : Ident) :
    (scopeEnv root path scope ids).add i.name
        ((toplevelBinder ids path n i.name named i.id).1.qualified root) =
      scopeEnv root path ((toplevelBinder ids path n i.name named i.id).1 :: scope) ids := by
  simp [scopeEnv, Env.add, Binder.entry, toplevelBinder_key]

theorem toplevelBinder_binding : (toplevelBinder ids path n key named id).1.binding root =
    ⟨if named then some key else none, (toplevelBinder ids path n key named id).1.qualified root,
      false⟩ := by
  unfold toplevelBinder
  split <;> simp [Binder.binding]

/-- What desugaring a list of items draws, names and returns. -/
structure ItemsAgree (root : String) (ids : List Nat) (path : List Name) (n : Nat)
    (scope : List Binder) (items : Items) (r : List CoreItem × Nat) : Prop where
  number : r.2 = itemsDraws ids n items
  size : r.1.length = itemsSize items
  names : r.1.filterMap CoreItem.name? =
    (toplevelBinders ids path n items).map (Binder.qualified root)
  hygienic : itemsHygienic (scope.map (Binder.binding root)) items r.1 ↔
    itemsClashFree ids path n scope items

theorem letDef_agrees {isRec : Bool} {value : Expr} {b : Binder}
    {v : CoreExpr × Subst × Nat} (hs : Settled n scope) (hs' : Settled m (b :: scope)) (hle : n ≤ m)
    (hv : desugarExpr (if isRec then scopeEnv root path (b :: scope) ids
      else scopeEnv root path scope ids).bindSubst m value = .ok v) :
    Agrees root m (if isRec then b :: scope else scope) value v := by
  cases isRec with
  | true => exact desugarExpr_agrees value hs' hv
  | false => exact desugarExpr_agrees value (hs.mono hle) hv

theorem desugarizeStructureItems_agrees (items : Items) {r : List CoreItem × Nat}
    (hs : Settled n scope)
    (h : desugarizeStructureItems (scopeEnv root path scope ids) n items = .ok r) :
    ItemsAgree root ids path n scope items r := by
  induction items generalizing path n scope r with
  | nil =>
    cases h
    exact ⟨rfl, rfl, rfl, hs.pairwise_iff⟩
  | letDef isRec p value items ih =>
    rw [desugarizeStructureItems] at h
    obtain ⟨i, hi, h⟩ := bind_eq_ok.mp h
    obtain ⟨v, hv, h⟩ := bind_eq_ok.mp h
    obtain ⟨rest, hrest, h⟩ := bind_eq_ok.mp h
    cases h
    obtain ⟨hkey, hid, hsource⟩ := letIdent_ok hi
    rw [toplevelRename_eq p.named, scopeEnv_add] at hv hrest
    rw [toplevelRename_eq p.named]
    rw [hkey, hid] at hv hrest ⊢
    have hb := hs.toplevel ids path p.key p.named p.id
    have hvalue := letDef_agrees hs hb le_toplevelBinder hv
    rw [hvalue.number] at hrest
    have hitems := ih (hb.mono (Nat.le_add_right _ _)) hrest
    have hbinding : ⟨p.source, (toplevelBinder ids path n p.key p.named p.id).1.qualified root,
        false⟩ = (toplevelBinder ids path n p.key p.named p.id).1.binding root := by
      rw [toplevelBinder_binding, hsource]
    refine ⟨?_, congrArg (· + 1) hitems.size, congrArg (_ :: ·) hitems.names, ?_⟩
    · rw [itemsDraws, toplevelBinder_number [] path]
      exact hitems.number
    · rw [itemsHygienic, itemsClashFree, ← hvalue.hygienic, ← hitems.hygienic, hbinding,
        List.map_cons]
      cases isRec <;> simp
  | external fname items ih =>
    rw [desugarizeStructureItems] at h
    obtain ⟨rest, hrest, h⟩ := bind_eq_ok.mp h
    cases h
    rw [toplevelRename_eq true, scopeEnv_add] at hrest
    rw [toplevelRename_eq true]
    have hitems := ih (hs.toplevel ids path fname.name true fname.id) hrest
    refine ⟨?_, congrArg (· + 1) hitems.size, congrArg (_ :: ·) hitems.names, ?_⟩
    · rw [itemsDraws, toplevelBinder_number [] path]
      exact hitems.number
    · rw [itemsHygienic, itemsClashFree, ← hitems.hygienic, List.map_cons, toplevelBinder_binding]
      simp
  | typeDecl items ih =>
    rw [desugarizeStructureItems] at h
    obtain ⟨rest, hrest, h⟩ := bind_eq_ok.mp h
    cases h
    have hitems := ih hs hrest
    exact ⟨hitems.number, congrArg (· + 1) hitems.size, hitems.names, hitems.hygienic⟩
  | moduleStructure name inner items ihInner ih =>
    rw [desugarizeStructureItems] at h
    obtain ⟨r', hinner, h⟩ := bind_eq_ok.mp h
    obtain ⟨rest, hrest, h⟩ := bind_eq_ok.mp h
    cases h
    have hin : ItemsAgree root ids (path ++ [name]) n scope inner r' := ihInner hs hinner
    rw [hin.number] at hrest
    have hitems := ih (hs.mono (le_itemsDraws inner)) hrest
    refine ⟨hitems.number, ?_, ?_, ?_⟩
    · rw [List.length_append, hin.size, hitems.size, itemsSize]
    · rw [List.filterMap_append, hin.names, hitems.names, toplevelBinders, List.map_append]
    · rw [itemsHygienic, itemsClashFree, ← hin.hygienic, ← hitems.hygienic, ← hin.size,
        List.take_left' rfl, List.drop_left' rfl]
  | moduleSignature items ih =>
    have hitems := ih hs h
    exact ⟨hitems.number, hitems.size, hitems.names, hitems.hygienic⟩

/-- Desugaring a program is hygienic exactly when its spellings do not clash. -/
theorem hygienic_iff {program : Program} {r : List CoreItem × Nat}
    (h : desugarizeAst n program = .ok r) :
    Hygienic program.items r.1 ↔ ClashFree n program.items := by
  have hitems : ItemsAgree ("syli" ++ program.name) (computeToplevelLastIds program.items) [] n []
      program.items r := desugarizeStructureItems_agrees program.items .nil h
  rw [Hygienic, ClashFree, hitems.names, (toplevelBinders_drawn program.items).nodup_iff]
  exact and_congr_right fun _ => hitems.hygienic

section Example

def nameX : Name := ⟨"x", by decide⟩

def nameY : Name := ⟨"y", by decide⟩

/-- `let x = 1`, `let y = fun x -> (let x = x; x)` -/
def shadowing : Program where
  name := "M"
  items := .letDef false (.ident ⟨nameX, 1⟩) .constant
    (.letDef false (.ident ⟨nameY, 2⟩)
      (.lambda [.ident ⟨nameX, 3⟩]
        (.seq
          [.letIn false (.ident ⟨nameX, 4⟩) (.ident ⟨nameX, 5⟩ false), .ident ⟨nameX, 6⟩ false]))
      .nil)

/-- `let x = 1`, `let x = 1` -/
def twice : Program where
  name := "M"
  items := .letDef false (.ident ⟨nameX, 1⟩) .constant
    (.letDef false (.ident ⟨nameX, 2⟩) .constant .nil)

theorem hygienic_shadowing :
    ∃ r, desugarizeAst 0 shadowing = .ok r ∧ Hygienic shadowing.items r.1 := by
  refine ⟨_, rfl, (hygienic_iff rfl).mpr ?_⟩
  simp [ClashFree, shadowing, computeToplevelLastIds, toplevelBinders, toplevelBinder,
    itemsClashFree, Expr.ClashFree, seqClashFree, Expr.binders, letBinder, paramBinder, Pattern.key,
    Pattern.named, Pattern.id, Binder.Apart, NotCaptured]
  exact ⟨by decide, rename_ne_text _ _, by decide⟩

/-- Both definitions of a name keep it. -/
theorem toplevel_shadowing_clashes :
    ∃ r, desugarizeAst 0 twice = .ok r ∧ ¬ Hygienic twice.items r.1 := by
  refine ⟨_, rfl, ?_⟩
  rintro ⟨hnodup, -⟩
  simp only [CoreItem.name?, List.filterMap_cons, List.nodup_cons, List.mem_cons] at hnodup
  exact hnodup.1 (Or.inl rfl)

end Example

end Syli.Compiler.Desugar
