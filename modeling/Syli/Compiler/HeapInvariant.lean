import Syli.Compiler.TypedHeap
import Syli.Foundation.OptionLists

/-! What every reachable heap keeps: typed slots, headers from the types, and references to older
objects except through stores. -/
namespace Syli.Compiler.TypedHeap

open Foundation Relation

variable {typeDefs : StringMap TyDeclDesc} {h h' : Heap} {kinds kinds' : Nat → Option Kind}
variable {kind : Kind} {o : HeapObject} {t : CTy} {v : Val} {a b c i fuel : Nat} {act : Act}
variable {prop : CyclicProp} {slots : List Val} {name : String} {args : List CTy}

section Lowering

variable {visited : List String} {ir : Cir.IrType}

/-- What `lower_program` records about a declaration. -/
def entryOf (typeDefs : StringMap TyDeclDesc) (key : String) (decl : TyDeclDesc) : TypeEntry :=
  { decl := decl
    prop := lookup (analyze typeDefs) (.type key)
    recordProp := lookup (analyze typeDefs) (.record key)
    ctorProps := ctorPropsOf (analyze typeDefs) key decl }

theorem findOpt_lowerTypeDefs {key : String} : (lowerTypeDefs typeDefs).findOpt key =
    (typeDefs.findOpt key).map (entryOf typeDefs key) :=
  AssocMap.findOpt_map (f := entryOf typeDefs)

/-- A type that is lowered unfolds. -/
theorem unfolds_of_mkIrTy (h : mkIrTy (lowerTypeDefs typeDefs) fuel visited t = some ir) :
    Unfolds typeDefs t := by
  induction fuel generalizing visited t ir with
  | zero => simp [mkIrTy] at h
  | succ fuel ih =>
    refine ⟨t, fun t' ht' => ?_⟩
    cases ht' with
    | tuple hmem =>
      simp only [mkIrTy, Option.bind_eq_bind, Option.bind_eq_some_iff] at h
      obtain ⟨fields, hfields, -⟩ := h
      obtain ⟨ir', -, hir'⟩ := exists_of_mapM hfields t' hmem
      exact ih hir'
    | array =>
      simp only [mkIrTy, Option.bind_eq_bind, Option.bind_eq_some_iff] at h
      obtain ⟨ir', hir', -⟩ := h
      exact ih hir'
    | unalias hfind =>
      simp only [mkIrTy, findOpt_lowerTypeDefs, hfind, Option.map_some, entryOf] at h
      exact ih h

theorem unfolds_of_headerProp (h : headerProp (lowerTypeDefs typeDefs) fuel kind = some prop) :
    (∀ elem, kind = .array elem → Unfolds typeDefs (.array elem)) ∧
      (kind.IsBody → ∀ i t flag, kind.slotTy typeDefs i = some (t, flag) →
        Unfolds typeDefs t) := by
  cases kind with
  | record name args =>
    refine ⟨by simp, fun _ i t flag hslot => ?_⟩
    simp only [headerProp, Option.bind_eq_some_iff] at h
    obtain ⟨ir, hir, -⟩ := h
    cases fuel with
    | zero => simp [mkIrTy] at hir
    | succ fuel =>
      simp only [Kind.slotTy] at hslot
      cases hfind : typeDefs.findOpt (materializedName name args) with
      | none => simp [hfind, recordFields] at hslot
      | some decl =>
        cases decl with
        | record fields =>
          simp only [mkIrTy, findOpt_lowerTypeDefs, hfind, Option.map_some, entryOf,
            Option.bind_eq_bind,
            Option.bind_eq_some_iff] at hir
          obtain ⟨irs, hirs, -⟩ := hir
          simp only [hfind, recordFields, List.getElem?_map, Option.map_eq_some_iff] at hslot
          obtain ⟨f, hf, heq⟩ := hslot
          cases heq
          obtain ⟨ir', -, hir'⟩ := exists_of_mapM hirs f (List.mem_of_getElem? hf)
          exact unfolds_of_mkIrTy hir'
        | _ => simp [hfind, recordFields] at hslot
  | ctor name args c =>
    refine ⟨by simp, fun _ i t flag hslot => ?_⟩
    simp only [headerProp, Option.bind_eq_bind, Option.bind_eq_some_iff] at h
    obtain ⟨irs, hirs, -⟩ := h
    obtain ⟨ir', -, hir'⟩ := exists_of_mapM hirs (t, flag) (List.mem_of_getElem? hslot)
    exact unfolds_of_mkIrTy hir'
  | array elem =>
    refine ⟨fun elem' heq => ?_, fun hbody => hbody.elim⟩
    cases heq
    simp only [headerProp, Option.bind_eq_some_iff] at h
    obtain ⟨ir, hir, -⟩ := h
    exact unfolds_of_mkIrTy hir
  | tuple | closure => exact ⟨by simp, fun hbody => hbody.elim⟩

end Lowering

/-- The node whose class is in the header, or through which the graph passes an array. -/
def Kind.node : Kind → Option TypeNode
  | .record name args => some (.record (materializedName name args))
  | .ctor name args c => some (.ctor (materializedName name args) c.tag)
  | .array elem => some (arrayNode elem)
  | .tuple _ | .closure _ => none

theorem body_prop (hdecl : kind.Declared typeDefs) (hbody : kind.IsBody)
    (h : headerProp (lowerTypeDefs typeDefs) fuel kind = some prop) :
    ∃ n, kind.node = some n ∧ prop = lookup (analyze typeDefs) n := by
  cases hdecl with
  | record hfind =>
    refine ⟨_, rfl, ?_⟩
    cases fuel with
    | zero => simp [headerProp, mkIrTy] at h
    | succ fuel =>
      simp only [headerProp, mkIrTy, findOpt_lowerTypeDefs, hfind, Option.map_some, entryOf,
        Option.bind_eq_bind, Option.bind_eq_some_iff, Option.pure_def, Option.some.injEq] at h
      obtain ⟨ir, ⟨fields, -, rfl⟩, hprop⟩ := h
      simpa [Cir.IrType.objProp] using hprop.symm
  | ctor hfind hc harg =>
    rename_i name args ctors c
    refine ⟨_, rfl, ?_⟩
    simp only [headerProp, Option.bind_eq_bind, Option.bind_eq_some_iff, Option.pure_def,
      Option.some.injEq] at h
    obtain ⟨_, -, rfl⟩ := h
    have hlookup : ∀ cs : List ConstructorDecl, c ∈ cs → (cs.map fun c' =>
        (c'.tag, lookup (analyze typeDefs) (.ctor (materializedName name args) c'.tag))).lookup
          c.tag = some (lookup (analyze typeDefs) (.ctor (materializedName name args) c.tag)) := by
      intro cs hcs
      induction cs with
      | nil => simp at hcs
      | cons c' cs ih =>
        rw [List.map_cons, List.lookup_cons]
        by_cases htag : c.tag = c'.tag
        · simp [htag]
        · have hne : (c.tag == c'.tag) = false := by simpa using htag
          rw [hne]
          refine ih ((List.mem_cons.mp hcs).resolve_left ?_)
          rintro rfl
          exact htag rfl
    simp [variantConstructorProp, findOpt_lowerTypeDefs, hfind, entryOf, ctorPropsOf, hlookup ctors hc]
  | tuple | array | closure => exact hbody.elim

/-- The headers of tuples, arrays and closures do not have the cyclic-mutable bit. -/
theorem anonymous_prop (hbody : ¬ kind.IsBody)
    (h : headerProp (lowerTypeDefs typeDefs) fuel kind = some prop) :
    prop ≠ .mutableCyclicTrackable := by
  have hprop : ∀ irs, propOfElements irs ≠ .mutableCyclicTrackable := by
    intro irs
    unfold propOfElements
    split <;> simp
  cases fuel with
  | zero =>
    cases kind with
    | closure =>
      obtain rfl := Option.some.inj h
      simp
    | tuple | array => simp [headerProp, mkIrTy] at h
    | record | ctor => exact (hbody trivial).elim
  | succ fuel =>
    cases kind with
    | closure =>
      obtain rfl := Option.some.inj h
      simp
    | tuple | array =>
      simp only [headerProp, mkIrTy, Option.bind_eq_bind, Option.bind_eq_some_iff, Option.pure_def,
        Option.some.injEq] at h
      obtain ⟨ir, ⟨irs, -, rfl⟩, heq⟩ := h
      obtain rfl := Option.some.inj heq
      exact hprop _
    | record | ctor => exact (hbody trivial).elim

theorem HasTy.mono (hv : HasTy typeDefs kinds t v)
    (hk : ∀ a k, kinds a = some k → kinds' a = some k) : HasTy typeDefs kinds' t v := by
  induction hv with
  | constant => exact .constant
  | arrow ha => exact .arrow (hk _ _ ha)
  | tuple ha => exact .tuple (hk _ _ ha)
  | array ha => exact .array (hk _ _ ha)
  | unalias hfind _ ih => exact .unalias hfind ih
  | record hfind ha => exact .record hfind (hk _ _ ha)
  | immediate hfind hc harg => exact .immediate hfind hc harg
  | ctor hfind hc harg ha => exact .ctor hfind hc harg (hk _ _ ha)

theorem HasTy.exists_kind (hv : HasTy typeDefs kinds t (.ref a)) : ∃ k, kinds a = some k := by
  generalize hr : Val.ref a = v at hv
  induction hv with
  | constant | immediate => cases hr
  | unalias _ _ ih => exact ih hr
  | arrow ha | tuple ha | array ha | record _ ha | ctor _ _ _ ha =>
    cases hr
    exact ⟨_, ha⟩

theorem lt_of_kindsOf {k : Kind} (ha : kindsOf h a = some k) : a < h.length := by
  unfold kindsOf at ha
  by_contra hlt
  rw [List.getElem?_eq_none (by omega)] at ha
  simp at ha

structure Inv (typeDefs : StringMap TyDeclDesc) (h : Heap) : Prop where
  declared : ∀ (a : Nat) (o : HeapObject), h[a]? = some o → o.kind.Declared typeDefs
  header : ∀ (a : Nat) (o : HeapObject), h[a]? = some o →
    ∃ fuel, headerProp (lowerTypeDefs typeDefs) fuel o.kind = some o.prop
  typed : ∀ (a : Nat) (o : HeapObject), h[a]? = some o → Fits typeDefs h o.kind o.slots
  bare : ∀ (a : Nat) (o : HeapObject), h[a]? = some o → o.kind.IsBody → ∀ v ∈ o.slots, Bare h v
  /-- A reference to an object that is not older comes from a store. -/
  older : ∀ (a : Nat) (o : HeapObject) i b, h[a]? = some o → o.slots[i]? = some (.ref b) → a ≤ b →
    (∃ t, o.kind.slotTy typeDefs i = some (t, .mutable)) ∧
      ∀ elem, o.kind = .array elem → Bare h (.ref b) ∧ ¬ SelfRecursive typeDefs elem

theorem Inv.lt_of_points (hinv : Inv typeDefs h) (hp : Points h a b) : b < h.length := by
  obtain ⟨o, ha, hb⟩ := hp
  obtain ⟨i, hi⟩ := List.mem_iff_getElem?.mp hb
  obtain ⟨t, flag, -, hty⟩ := hinv.typed a o ha i _ hi
  obtain ⟨k, hk⟩ := hty.exists_kind
  exact lt_of_kindsOf hk

/-- A value that leads to no capturing closure does so in every heap where what it leads to is
unchanged, or changed to hold another such value. -/
theorem Bare.transfer {P : Nat → Prop} (hP : ∀ x y, P x → Points h' x y → P y)
    (hclosure : ∀ (x : Nat) (o : HeapObject), P x → h'[x]? = some o → o.kind.IsClosure →
      ∀ b, .ref b ∉ o.slots)
    (hv : ∀ a, v = .ref a → P a) : Bare h' v := by
  intro a c o hva hpath
  have hall : P c := by
    induction hpath with
    | refl => exact hv a hva
    | tail _ hstep ih => exact hP _ _ ih hstep
  exact hclosure c o hall

theorem Bare.points (hb : Bare h (.ref a)) (hp : Points h a b) : Bare h (.ref b) := by
  intro b' c o heq hpath
  cases heq
  exact hb a c o rfl (hpath.head hp)

theorem Bare.not_points (hb : Bare h (.ref a)) (ho : h[a]? = some o) (hclos : o.kind.IsClosure) :
    ¬ Points h a b := by
  rintro ⟨o', ho', hmem⟩
  cases ho.symm.trans ho'
  exact hb a a o rfl .refl ho hclos b hmem

theorem kindsOf_append {n : HeapObject} (k : Kind) (ha : kindsOf h a = some k) :
    kindsOf (h ++ [n]) a = some k := by
  unfold kindsOf
  rw [List.getElem?_append_left (lt_of_kindsOf ha)]
  exact ha

theorem Inv.bare_append {n : HeapObject} (hinv : Inv typeDefs h) (hb : Bare h v)
    (hv : ∀ a, v = .ref a → a < h.length) : Bare (h ++ [n]) v := by
  apply Bare.transfer (P := fun x => x < h.length ∧ Bare h (.ref x))
  · rintro x y ⟨hx, hbx⟩ ⟨o, ho, hmem⟩
    rw [List.getElem?_append_left hx] at ho
    exact ⟨hinv.lt_of_points ⟨o, ho, hmem⟩, hbx.points ⟨o, ho, hmem⟩⟩
  · rintro x o ⟨hx, hbx⟩ ho hclos b hmem
    rw [List.getElem?_append_left hx] at ho
    exact hbx.not_points ho hclos ⟨o, ho, hmem⟩
  · rintro a rfl
    exact ⟨hv a rfl, hb⟩

theorem HasTy.lt (hty : HasTy typeDefs (kindsOf h) t (.ref a)) : a < h.length := by
  obtain ⟨k, hk⟩ := hty.exists_kind
  exact lt_of_kindsOf hk

theorem Fits.lt (hfits : Fits typeDefs h kind slots) (hmem : .ref a ∈ slots) : a < h.length := by
  obtain ⟨i, hi⟩ := List.mem_iff_getElem?.mp hmem
  obtain ⟨t, flag, -, hty⟩ := hfits i _ hi
  exact hty.lt

theorem Fits.mono (hfits : Fits typeDefs h kind slots)
    (hk : ∀ a k, kindsOf h a = some k → kindsOf h' a = some k) : Fits typeDefs h' kind slots := by
  intro i v hi
  obtain ⟨t, flag, hslot, hty⟩ := hfits i v hi
  exact ⟨t, flag, hslot, hty.mono hk⟩

theorem Inv.alloc (hinv : Inv typeDefs h) (hdecl : kind.Declared typeDefs)
    (hfits : Fits typeDefs h kind slots)
    (hprop : headerProp (lowerTypeDefs typeDefs) fuel kind = some prop)
    (hplain : kind.IsBody → ∀ v ∈ slots, Bare h v) :
    Inv typeDefs (h ++ [⟨kind, prop, slots⟩]) := by
  have hcases : ∀ (a : Nat) (o : HeapObject), (h ++ [⟨kind, prop, slots⟩])[a]? = some o →
      h[a]? = some o ∨ a = h.length ∧ o = ⟨kind, prop, slots⟩ := by
    intro a o ho
    rw [List.getElem?_append] at ho
    split at ho
    · exact Or.inl ho
    · have hz : a - h.length = 0 := by
        by_contra hne
        rw [List.getElem?_eq_none (by simp; omega)] at ho
        cases ho
      rw [hz] at ho
      exact Or.inr ⟨by omega, by simpa using ho.symm⟩
  constructor
  case declared =>
    intro a o ho
    rcases hcases a o ho with hold | ⟨-, rfl⟩
    · exact hinv.declared a o hold
    · exact hdecl
  case header =>
    intro a o ho
    rcases hcases a o ho with hold | ⟨-, rfl⟩
    · exact hinv.header a o hold
    · exact ⟨fuel, hprop⟩
  case typed =>
    intro a o ho
    rcases hcases a o ho with hold | ⟨-, rfl⟩
    · exact (hinv.typed a o hold).mono fun _ => kindsOf_append
    · exact hfits.mono fun _ => kindsOf_append
  case bare =>
    intro a o ho hbody v hv
    rcases hcases a o ho with hold | ⟨-, rfl⟩
    · refine hinv.bare_append (hinv.bare a o hold hbody v hv) ?_
      rintro b rfl
      exact (hinv.typed a o hold).lt hv
    · refine hinv.bare_append (hplain hbody v hv) ?_
      rintro b rfl
      exact hfits.lt hv
  case older =>
    intro a o i b ho hb hab
    rcases hcases a o ho with hold | ⟨rfl, rfl⟩
    · obtain ⟨hmut, harray⟩ := hinv.older a o i b hold hb hab
      refine ⟨hmut, fun elem helem => ?_⟩
      obtain ⟨hbare, hrec⟩ := harray elem helem
      refine ⟨hinv.bare_append hbare ?_, hrec⟩
      rintro b' heq
      cases heq
      exact (hinv.typed a o hold).lt (List.mem_of_getElem? hb)
    · have := hfits.lt (List.mem_of_getElem? hb)
      omega

/-- A slot that is written again belongs to no closure. -/
theorem not_isClosure_of_mutable (hslot : kind.slotTy typeDefs i = some (t, .mutable)) :
    ¬ kind.IsClosure := by
  cases kind with
  | closure captured => simp [Kind.slotTy, immutableTys] at hslot
  | _ => exact id

theorem Inv.store (hinv : Inv typeDefs h) (ho : h[a]? = some o)
    (hslot : o.kind.slotTy typeDefs i = some (t, .mutable)) (hty : HasTy typeDefs (kindsOf h) t v)
    (hplain : Act.Plain typeDefs h (.store a i v)) :
    Inv typeDefs (h.set a { o with slots := o.slots.set i v }) := by
  obtain ⟨hv, harrays⟩ := hplain
  have hcases : ∀ (x : Nat) (o' : HeapObject), (h.set a { o with slots := o.slots.set i v })[x]? =
      some o' → h[x]? = some o' ∨ x = a ∧ o' = { o with slots := o.slots.set i v } := by
    intro x o' ho'
    by_cases hx : x = a
    · subst hx
      rw [List.getElem?_set_self (List.getElem?_eq_some_iff.mp ho).1] at ho'
      exact Or.inr ⟨rfl, (Option.some.inj ho').symm⟩
    · rw [List.getElem?_set_ne (Ne.symm hx)] at ho'
      exact Or.inl ho'
  have hkinds : ∀ x k, kindsOf h x = some k →
      kindsOf (h.set a { o with slots := o.slots.set i v }) x = some k := by
    intro x k hk
    by_cases hx : x = a
    · subst hx
      simp only [kindsOf, ho, Option.map_some] at hk
      simp only [kindsOf, List.getElem?_set_self (List.getElem?_eq_some_iff.mp ho).1,
        Option.map_some]
      exact hk
    · simpa only [kindsOf, List.getElem?_set_ne (Ne.symm hx)] using hk
  have hslots : ∀ (j : Nat) (w : Val), (o.slots.set i v)[j]? = some w →
      o.slots[j]? = some w ∨ j = i ∧ w = v := by
    intro j w hw
    rw [List.getElem?_set] at hw
    split at hw
    · rename_i hji
      split at hw
      · exact Or.inr ⟨hji.symm, (Option.some.inj hw).symm⟩
      · cases hw
    · exact Or.inl hw
  have hbare : ∀ w, Bare h w → Bare (h.set a { o with slots := o.slots.set i v }) w := by
    intro w hw
    apply Bare.transfer (P := fun x => Bare h (.ref x))
    · rintro x y hx ⟨o', ho', hmem⟩
      rcases hcases x o' ho' with hold | ⟨rfl, rfl⟩
      · exact hx.points ⟨o', hold, hmem⟩
      · obtain ⟨j, hj⟩ := List.mem_iff_getElem?.mp hmem
        rcases hslots j _ hj with hold | ⟨-, rfl⟩
        · exact hx.points ⟨o, ho, List.mem_of_getElem? hold⟩
        · exact hv
    · rintro x o' hx ho' hclos b hmem
      rcases hcases x o' ho' with hold | ⟨rfl, rfl⟩
      · exact hx.not_points hold hclos ⟨o', hold, hmem⟩
      · exact not_isClosure_of_mutable hslot hclos
    · rintro x rfl
      exact hw
  constructor
  case declared =>
    intro x o' ho'
    rcases hcases x o' ho' with hold | ⟨rfl, rfl⟩
    · exact hinv.declared x o' hold
    · exact hinv.declared x o ho
  case header =>
    intro x o' ho'
    rcases hcases x o' ho' with hold | ⟨rfl, rfl⟩
    · exact hinv.header x o' hold
    · exact hinv.header x o ho
  case typed =>
    intro x o' ho'
    rcases hcases x o' ho' with hold | ⟨rfl, rfl⟩
    · exact (hinv.typed x o' hold).mono hkinds
    · intro j w hw
      rcases hslots j w hw with hold | ⟨rfl, rfl⟩
      · exact (hinv.typed x o ho).mono hkinds j w hold
      · exact ⟨t, .mutable, hslot, hty.mono hkinds⟩
  case bare =>
    intro x o' ho' hbody w hw
    rcases hcases x o' ho' with hold | ⟨rfl, rfl⟩
    · exact hbare w (hinv.bare x o' hold hbody w hw)
    · obtain ⟨j, hj⟩ := List.mem_iff_getElem?.mp hw
      rcases hslots j w hj with hold | ⟨-, rfl⟩
      · exact hbare w (hinv.bare x o ho hbody w (List.mem_of_getElem? hold))
      · exact hbare w hv
  case older =>
    intro x o' j b ho' hb hxb
    rcases hcases x o' ho' with hold | ⟨rfl, rfl⟩
    · obtain ⟨hmut, harray⟩ := hinv.older x o' j b hold hb hxb
      exact ⟨hmut, fun elem helem => ⟨hbare _ (harray elem helem).1, (harray elem helem).2⟩⟩
    · rcases hslots j _ hb with hold | ⟨rfl, rfl⟩
      · obtain ⟨hmut, harray⟩ := hinv.older x o j b ho hold hxb
        exact ⟨hmut, fun elem helem => ⟨hbare _ (harray elem helem).1, (harray elem helem).2⟩⟩
      · exact ⟨⟨t, hslot⟩, fun elem helem => ⟨hbare _ hv, harrays o elem b ho helem rfl⟩⟩

/-- Along every run of plain steps the invariant holds. -/
theorem inv_of_reaches (hr : Reaches typeDefs (Act.Plain typeDefs) h) : Inv typeDefs h := by
  induction hr with
  | empty => constructor <;> simp
  | step _ hplain hstep ih =>
    cases hstep with
    | alloc hdecl hfits hprop => exact ih.alloc hdecl hfits hprop hplain
    | store ho hslot hty => exact ih.store ho hslot hty hplain

end Syli.Compiler.TypedHeap
