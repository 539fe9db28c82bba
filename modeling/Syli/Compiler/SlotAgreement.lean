import Syli.Compiler.SlotRanges
import Syli.Compiler.HeapInvariant

/-! The objects whose loads read what was stored, for every kind of object. -/
namespace Syli.Compiler.GenLlvm

open Foundation TypedHeap Syli.Runtime

variable {typeDefs : StringMap TyDeclDesc} {kind : ObjKind} {obj i length fuel fuel' n : Nat}
variable {ty : IrType} {w r : ByteRange} {t : CTy} {o : ObjTy} {name : String} {args : List CTy}
variable {c : ConstructorDecl} {storedTys : List IrType} {h : ObjectHeader} {prop : CyclicProp}

section Same

/-- Own accesses to one index are to the same bytes. -/
theorem OwnAccess.unique (hw : OwnAccess kind obj i w) (hr : OwnAccess kind obj i r) : r = w := by
  obtain ⟨ty, shift, hty, hshift, rfl⟩ := hw.exists_slot
  obtain ⟨ty', shift', hty', hshift', rfl⟩ := hr.exists_slot
  cases hty.symm.trans hty'
  cases hshift.symm.trans hshift'
  rfl

theorem createdKind_value_unique {defs : StringMap TypeEntry} {kind' : ObjKind}
    (h : (ObjTy.value t).createdKind defs fuel = some kind)
    (h' : (ObjTy.value t).createdKind defs fuel' = some kind') : kind = kind' := by
  simp only [ObjTy.createdKind, Option.bind_eq_bind, Option.bind_eq_some_iff] at h h'
  obtain ⟨ir, hir, hkind⟩ := h
  obtain ⟨ir', hir', hkind'⟩ := h'
  cases mkIrTy_unique hir hir'
  exact Option.some.inj (hkind.symm.trans hkind')

/-- The object of a constructor has the lowered payload as its fields. -/
theorem createdKind_ctor {defs : StringMap TypeEntry}
    (h : (ObjTy.ctor name args c).createdKind defs fuel = some kind) :
    ∃ irs fields, (ctorFields c.arg).mapM (fun f => mkIrTy defs fuel [] f.1) = some irs ∧
      irs.mapM oirOfCir = some fields ∧ kind = .variant [{ tag := c.tag, fields }] := by
  simp only [ObjTy.createdKind, variantConstructorTy, Option.bind_eq_bind, Option.pure_def,
    Option.bind_eq_some_iff, Option.some.injEq] at h
  obtain ⟨_, ⟨irs, hirs, rfl⟩, hkind⟩ := h
  simp only [lowerObjKind, List.mapM_cons, List.mapM_nil, Option.bind_eq_bind, Option.pure_def,
    Option.bind_eq_some_iff, Option.some.injEq] at hkind
  obtain ⟨_, ⟨_, ⟨fields, hfields, rfl⟩, _, rfl, rfl⟩, rfl⟩ := hkind
  exact ⟨irs, fields, hirs, hfields, rfl⟩

/-- The constructor in the lowered variant type has the cells of the object. -/
theorem cellShift_payload {constructors : List (Nat × List Cir.IrType)}
    {irs : List Cir.IrType} {fields : List IrType} {kind' : ObjKind}
    (htags : TagsDistinct typeDefs)
    (hdecl : (ObjTy.ctor name args c).Declared typeDefs)
    (hirs : (ctorFields c.arg).mapM (fun f => mkIrTy (lowerTypeDefs typeDefs) fuel [] f.1) =
      some irs)
    (hfields : irs.mapM oirOfCir = some fields)
    (ht : mkIrTy (lowerTypeDefs typeDefs) fuel' [] t =
      some (.variant (materializedName name args) constructors prop))
    (hkind : lowerObjKind (.variant (materializedName name args) constructors prop) = some kind') :
    cellShiftOfProjection (some kind') (.variant c.tag i) = some (maxCellShiftOfFields fields) := by
  obtain ⟨ctors, hctors, hc⟩ := hdecl
  obtain ⟨m, entry, ctors', hentry, hentrydecl, hmap⟩ := exists_variant ht
  rw [findOpt_lowerTypeDefs, hctors] at hentry
  obtain rfl : entryOf typeDefs (materializedName name args) (.variant ctors) = entry :=
    Option.some.inj hentry
  cases hentrydecl
  simp only [lowerObjKind, Option.bind_eq_bind, Option.pure_def, Option.bind_eq_some_iff,
    Option.some.injEq] at hkind
  obtain ⟨layouts, hlayouts, rfl⟩ := hkind
  obtain ⟨e, he, hfind⟩ := find_of_mapM (q := fun e => e.1 == c.tag) (fun a b hab => by
    simp only [Option.bind_eq_bind, Option.pure_def, Option.bind_eq_some_iff,
      Option.some.injEq] at hab
    obtain ⟨_, -, rfl⟩ := hab
    rfl) hmap (find_tag (htags _ _ hctors) hc)
  obtain ⟨layout, hlayout, hfind'⟩ := find_of_mapM (q := fun l => l.tag == c.tag)
    (fun a b hab => by
      simp only [Option.bind_eq_some_iff, Option.some.injEq] at hab
      obtain ⟨_, -, rfl⟩ := hab
      rfl) hlayouts hfind
  simp only [Option.bind_eq_bind, Option.pure_def, Option.bind_eq_some_iff,
    Option.some.injEq] at he
  obtain ⟨irs', hirs', rfl⟩ := he
  simp only [Option.bind_eq_some_iff, Option.some.injEq] at hlayout
  obtain ⟨fields', hfields', rfl⟩ := hlayout
  have hcells := cellShifts_visited hirs hirs' hfields hfields'
  simp only [cellShiftOfProjection, cellShiftOfVariant, hfind', maxCellShiftOfFields, hcells]

theorem same_ctor (htags : TagsDistinct typeDefs)
    (hdecl : (ObjTy.ctor name args c).Declared typeDefs)
    (hkind : (ObjTy.ctor name args c).createdKind (lowerTypeDefs typeDefs) fuel = some kind)
    (hw : OwnAccess kind obj i w)
    (hr : Load (lowerTypeDefs typeDefs) obj (.ctor name args c) i r) : r = w := by
  obtain ⟨irs, fields, hirs, hfields, rfl⟩ := createdKind_ctor hkind
  obtain ⟨ty, shift, hty, hshift, rfl⟩ := hw.exists_slot
  cases hshift
  cases hr with
  | payload ht hkind' hf hir hty' hshift' =>
    rw [cellShift_payload htags hdecl hirs hfields ht hkind'] at hshift'
    cases hshift'
    obtain ⟨ir, hget, hir'⟩ := getElem?_of_mapM hirs hf
    obtain ⟨ty', hget', hty''⟩ := getElem?_of_mapM hfields hget
    cases mkIrTy_unique hir hir'
    cases hty'.symm.trans hty''
    cases hget'.symm.trans hty
    rfl

theorem closure_load {defs : StringMap TypeEntry} (hr : Load defs obj (.closure storedTys) i r) :
    (i = 0 ∧ r = slotRange obj 0 defaultShift .fnPtr) ∨ ∃ j ty, i = 1 + j ∧
      storedTys[j]? = some ty ∧ r = { start := slotAddress obj i defaultShift, size := 8 } := by
  cases hr with
  | function hshift =>
    cases hshift
    exact Or.inl ⟨rfl, rfl⟩
  | @stored _ j _ ty hty hshift =>
    cases hshift
    refine Or.inr ⟨j, ty, rfl, hty, ?_⟩
    unfold storedSlotTy
    cases isRefTy ty <;> rfl

theorem closure_access (hw : OwnAccess (closureObjTy storedTys) obj i w) :
    ∃ ty, (IrType.fnPtr :: storedTys)[i]? = some ty ∧ w = slotRange obj i defaultShift ty := by
  obtain ⟨ty, shift, hty, hshift, rfl⟩ := hw.exists_slot
  cases hshift.symm.trans (closure_cellShift storedTys)
  exact ⟨ty, hty, rfl⟩

theorem same_closure (hfits : ∀ ty ∈ storedTys, byteSize ty = 8)
    {defs : StringMap TypeEntry} (hw : OwnAccess (closureObjTy storedTys) obj i w)
    (hr : Load defs obj (.closure storedTys) i r) : r = w := by
  obtain ⟨ty, hty, rfl⟩ := closure_access hw
  rcases closure_load hr with ⟨rfl, rfl⟩ | ⟨j, ty', rfl, hty', rfl⟩
  · cases hty
    rfl
  · rw [Nat.add_comm, List.getElem?_cons_succ, hty'] at hty
    cases hty
    simp only [slotRange, hfits _ (List.mem_of_getElem? hty')]

end Same

section Inside

variable {defs : StringMap TypeEntry} {shift : Nat}

/-- An own access stays inside the cells exactly when its index does. -/
theorem inside_iff (hshift : h.unitShift = shift) :
    (obj + 16 ≤ (slotRange obj i shift ty).start ∧
      (slotRange obj i shift ty).start + (slotRange obj i shift ty).size ≤
        obj + 16 + (length <<< h.unitShift)) ↔
      i * 2 ^ shift + byteSize ty ≤ length * 2 ^ shift := by
  simp only [slotRange, slotAddress, valuesOffset, hshift, Nat.shiftLeft_eq]
  omega

theorem cell_le (hcell : byteSize ty ≤ 2 ^ shift)
    (hi : i < length ∨ ty = .void ∧ i ≤ length) :
    i * 2 ^ shift + byteSize ty ≤ length * 2 ^ shift := by
  rcases hi with hi | ⟨rfl, hi⟩
  · have hnext : (i + 1) * 2 ^ shift ≤ length * 2 ^ shift := Nat.mul_le_mul_right _ hi
    rw [Nat.add_mul, Nat.one_mul] at hnext
    omega
  · have hsize : byteSize .void = 0 := by decide
    have hle : i * 2 ^ shift ≤ length * 2 ^ shift := Nat.mul_le_mul_right _ hi
    omega

theorem lt_of_cell_le (h : i * 2 ^ shift + byteSize ty ≤ length * 2 ^ shift) :
    i < length ∨ ty = .void ∧ i ≤ length := by
  have hpos : 0 < 2 ^ shift := Nat.two_pow_pos shift
  by_cases hvoid : ty = .void
  · have hle : i * 2 ^ shift ≤ length * 2 ^ shift := by omega
    exact Or.inr ⟨hvoid, Nat.le_of_mul_le_mul_right hle hpos⟩
  · have hsize := byteSize_pos hvoid
    have hlt : i * 2 ^ shift < length * 2 ^ shift := by omega
    exact Or.inl (Nat.lt_of_mul_lt_mul_right hlt)

/-- Every index of an object that fits has its cell. -/
theorem index_fits (hcreated : o.CreatedWith length) (hfits : o.SlotsFit defs length)
    (hkind : o.createdKind defs fuel = some kind) (hty : slotTy kind i = some ty)
    (hindex : ∀ element, kind = .array element → i < length) :
    i < length ∨ ty = .void ∧ i ≤ length := by
  cases o with
  | value t =>
    by_cases harray : ∃ element, kind = .array element
    · obtain ⟨element, rfl⟩ := harray
      exact Or.inl (hindex element rfl)
    · exact hfits fuel kind hkind (fun element heq => harray ⟨element, heq⟩) i ty hty
  | ctor name args c =>
    obtain ⟨irs, fields, hirs, hfields, rfl⟩ := createdKind_ctor hkind
    have hlength : length = (ctorFields c.arg).length := hcreated
    have hirsLength := (zip_of_mapM hirs).1
    have hfieldsLength := (zip_of_mapM hfields).1
    have hlt : i < fields.length := (List.getElem?_eq_some_iff.mp hty).1
    exact Or.inl (by omega)
  | closure storedTys =>
    cases hkind
    have hlength : length = 1 + storedTys.length := hcreated
    have hlt := (List.getElem?_eq_some_iff.mp hty).1
    rw [List.length_cons] at hlt
    exact Or.inl (by omega)

/-- An object that is no array has a header. -/
theorem exists_createdHeader (hty : slotTy kind i = some ty)
    (harray : ∀ element, kind ≠ .array element) :
    ∃ h, createdHeader kind .acyclic length = some h := by
  rcases exists_layout hty with ⟨element, rfl⟩ | ⟨fields, tag, hl, -⟩
  · exact (harray element rfl).elim
  · have hbase := @headerOperandOfObj_eq kind .acyclic fields tag hl
    cases kind with
    | array element => cases hl
    | record | variant => exact ⟨_, by simp only [createdHeader, hbase]; rfl⟩

end Inside

/-- The loads of an object read what was stored, at distinct bytes inside its cells, exactly when
the values that a closure stores are as wide as the carrier and a record is created with all its
slots; an array has to be shorter than 2 ^ 43. -/
theorem readWhereWritten_iff (typeDefs : StringMap TyDeclDesc) (o : ObjTy) (length : Nat)
    (htags : TagsDistinct typeDefs) (hdecl : o.Declared typeDefs)
    (hcreated : o.CreatedWith length) :
    (o.SlotsFit (lowerTypeDefs typeDefs) length → o.LengthFits (lowerTypeDefs typeDefs) length →
      ReadWhereWritten (lowerTypeDefs typeDefs) o length) ∧
    (ReadWhereWritten (lowerTypeDefs typeDefs) o length →
      o.SlotsFit (lowerTypeDefs typeDefs) length) := by
  constructor
  · intro hfits hlength
    refine ⟨?_, ?_, ?_⟩
    · intro fuel kind obj i w r hkind hw hr
      cases o with
      | value t =>
        cases hr with
        | own hkind' hr' =>
          cases createdKind_value_unique hkind hkind'
          exact hw.unique hr'
      | ctor name args c => exact same_ctor htags hdecl hkind hw hr
      | closure storedTys =>
        cases hkind
        exact same_closure hfits hw hr
    · intro fuel kind obj i j w w' _ hw hw' hij
      exact hw.disjoint hw' hij
    · intro fuel kind prop h obj i w hkind hh hw hindex
      obtain ⟨ty, shift, hty, hshift, rfl⟩ := hw.exists_slot
      have hunit := unitShift_createdHeader hty hshift hh fun element heq =>
        hlength fuel element (heq ▸ hkind)
      rw [inside_iff hunit]
      exact cell_le (byteSize_le_cell hty hshift) (index_fits hcreated hfits hkind hty hindex)
  · intro hread
    cases o with
    | ctor name args c => trivial
    | value t =>
      intro fuel kind hkind harray i ty hty
      obtain ⟨h, hh⟩ := @exists_createdHeader kind i length ty hty harray
      obtain ⟨shift, hshift⟩ : ∃ shift, cellShiftOfObjKind kind = some shift := by
        rcases exists_layout hty with ⟨element, rfl⟩ | ⟨fields, tag, -, hmax⟩
        · exact ⟨_, rfl⟩
        · exact ⟨_, hmax⟩
      have hunit := unitShift_createdHeader hty hshift hh fun element heq =>
        (harray element heq).elim
      have hw : OwnAccess kind 0 i (slotRange 0 i shift ty) := .field harray hty hshift
      have hinside := hread.inside fuel kind .acyclic h 0 i _ hkind hh hw fun element heq =>
        (harray element heq).elim
      exact lt_of_cell_le ((inside_iff hunit).mp hinside)
    | closure storedTys =>
      intro ty hty
      obtain ⟨j, hj⟩ := List.mem_iff_getElem?.mp hty
      have hslot : slotTy (closureObjTy storedTys) (1 + j) = some ty := by
        rw [Nat.add_comm]
        exact hj
      have hw : OwnAccess (closureObjTy storedTys) 0 (1 + j)
          (slotRange 0 (1 + j) defaultShift ty) :=
        .field (by simp [closureObjTy]) hslot (closure_cellShift storedTys)
      have hr : Load (lowerTypeDefs typeDefs) 0 (.closure storedTys) (1 + j)
          (slotRange 0 (1 + j) defaultShift (storedSlotTy ty)) := .stored hj rfl
      have hsame := congrArg ByteRange.size (hread.same 0 _ 0 (1 + j) _ _ rfl hw hr)
      have hsize : byteSize (storedSlotTy ty) = 8 := by
        unfold storedSlotTy
        cases isRefTy ty <;> rfl
      exact hsame.symm.trans hsize

/-- A leaf holds a number, a node two trees around a flag. -/
def flaggedTrees : StringMap TyDeclDesc := [("tree", .variant [leaf, node])]
where
  leaf : ConstructorDecl := ⟨0, some (.ty (.constant .int32))⟩
  node : ConstructorDecl := ⟨1, some (.record [⟨.defined "tree" [], .immutable⟩,
    ⟨.constant .bool, .mutable⟩, ⟨.defined "tree" [], .mutable⟩])⟩

theorem readWhereWritten_node :
    ReadWhereWritten (lowerTypeDefs flaggedTrees) (.ctor "tree" [] flaggedTrees.node) 3 := by
  have htags : TagsDistinct flaggedTrees := by
    intro key ctors hctors
    have hmem := AssocMap.mem_of_findOpt hctors
    rw [flaggedTrees, List.mem_singleton] at hmem
    cases hmem
    decide
  have hdecl : (ObjTy.ctor "tree" [] flaggedTrees.node).Declared flaggedTrees :=
    ⟨[flaggedTrees.leaf, flaggedTrees.node], by
      simp [flaggedTrees, materializedName, typeKeys, joinKeys, AssocMap.findOpt], by simp⟩
  refine (readWhereWritten_iff flaggedTrees (.ctor "tree" [] flaggedTrees.node) 3 htags hdecl
    rfl).1 trivial fun fuel element hkind => ?_
  obtain ⟨_, _, _, _, heq⟩ := createdKind_ctor hkind
  cases heq

/-- A captured number of 32 bits is stored in four bytes and read in eight. -/
theorem capture_i32_read_wider : ¬ ReadWhereWritten (lowerTypeDefs []) (.closure [.i32]) 2 := by
  intro h
  have hw : OwnAccess (closureObjTy [.i32]) 0 1 (slotRange 0 1 defaultShift .i32) :=
    .field (by simp [closureObjTy]) rfl rfl
  have hr : Load (lowerTypeDefs []) 0 (.closure [.i32]) 1
      (slotRange 0 1 defaultShift (storedSlotTy .i32)) := @Load.stored _ 0 [.i32] 0 _ _ rfl rfl
  have hsame := h.same 0 _ 0 1 _ _ rfl hw hr
  revert hsame
  decide

end Syli.Compiler.GenLlvm
