import Syli.Compiler.ObjectSlots
import Syli.Foundation.OptionLists

/-! When the loads of an object read what its stores wrote. -/
namespace Syli.Compiler.GenLlvm

open Foundation TypedHeap Syli.Runtime

variable {typeDefs : StringMap TyDeclDesc} {defs : StringMap TypeEntry} {kind : ObjKind}
variable {obj i j shift length fuel fuel' n m : Nat} {ty ty' : IrType} {w w' r : ByteRange}
variable {t : CTy} {visited visited' : List String} {ir ir' : Cir.IrType} {o : ObjTy}
variable {fields : List IrType} {h : ObjectHeader} {prop : CyclicProp}

section Cells

theorem byteSize_le (ty : IrType) : byteSize ty ≤ 2 ^ cellShiftOfIrType ty := by
  cases ty <;> decide

theorem byteSize_pos (h : ty ≠ .void) : 0 < byteSize ty := by
  cases ty <;> first | decide | exact absurd rfl h

theorem cellShift_le_max (h : ty ∈ fields) :
    cellShiftOfIrType ty ≤ maxCellShiftOfFields fields := by
  cases fields with
  | nil => cases h
  | cons ty' rest =>
    obtain ⟨hstart, hall⟩ := le_foldl_max (rest.map cellShiftOfIrType) (cellShiftOfIrType ty')
    rcases List.mem_cons.mp h with rfl | h
    · exact hstart
    · exact hall _ (List.mem_map_of_mem h)

/-- An own access is to a cell of the object's width. -/
theorem OwnAccess.exists_slot (hw : OwnAccess kind obj i w) : ∃ ty shift, slotTy kind i = some ty ∧
    cellShiftOfObjKind kind = some shift ∧ w = slotRange obj i shift ty := by
  cases hw with
  | field _ hty hshift => exact ⟨_, _, hty, hshift, rfl⟩
  | element hkind hshift =>
    subst hkind
    exact ⟨_, _, rfl, hshift, rfl⟩

/-- A value fits into a cell of its object. -/
theorem byteSize_le_cell (hty : slotTy kind i = some ty)
    (hshift : cellShiftOfObjKind kind = some shift) : byteSize ty ≤ 2 ^ shift := by
  have hmax : ∀ fields : List IrType, fields[i]? = some ty →
      byteSize ty ≤ 2 ^ maxCellShiftOfFields fields := by
    intro fields hi
    exact (byteSize_le ty).trans (Nat.pow_le_pow_right (by omega)
      (cellShift_le_max (List.mem_of_getElem? hi)))
  cases kind with
  | record fields =>
    cases hshift
    exact hmax fields hty
  | array element =>
    cases hshift
    cases hty
    exact byteSize_le ty
  | variant constructors =>
    match constructors with
    | [] => cases hty
    | [c] =>
      cases hshift
      exact hmax c.fields hty
    | _ :: _ :: _ => cases hty

theorem OwnAccess.disjoint (hw : OwnAccess kind obj i w) (hw' : OwnAccess kind obj j w')
    (hij : i < j) : w.start + w.size ≤ w'.start := by
  obtain ⟨ty, shift, hty, hshift, rfl⟩ := hw.exists_slot
  obtain ⟨ty', shift', -, hshift', rfl⟩ := hw'.exists_slot
  cases hshift.symm.trans hshift'
  have hcell := byteSize_le_cell hty hshift
  have hnext : (i + 1) * 2 ^ shift ≤ j * 2 ^ shift := Nat.mul_le_mul_right _ hij
  simp only [slotRange, slotAddress]
  rw [Nat.add_mul, Nat.one_mul] at hnext
  omega

end Cells

section Headers

theorem cellShiftOfObjKind_le (hshift : cellShiftOfObjKind kind = some shift) : shift ≤ 3 := by
  cases kind with
  | record fields =>
    cases hshift
    exact maxCellShiftOfFields_le fields
  | array element =>
    cases hshift
    exact cellShiftOfIrType_le element
  | variant constructors =>
    match constructors with
    | [] =>
      cases hshift
      decide
    | [c] =>
      cases hshift
      exact maxCellShiftOfFields_le c.fields
    | _ :: _ :: _ => cases hshift

theorem exists_layout (hty : slotTy kind i = some ty) :
    (∃ element, kind = .array element) ∨ ∃ fields tag, layoutOf kind = some (fields, tag) ∧
      cellShiftOfObjKind kind = some (maxCellShiftOfFields fields) := by
  cases kind with
  | record fields => exact Or.inr ⟨fields, 0, rfl, rfl⟩
  | array element => exact Or.inl ⟨element, rfl⟩
  | variant constructors =>
    match constructors with
    | [] => cases hty
    | [c] => exact Or.inr ⟨c.fields, c.tag, rfl, rfl⟩
    | _ :: _ :: _ => cases hty

/-- The base header of an array has no payload. -/
theorem headerOperandOfObj_array (element : IrType) (prop : CyclicProp) :
    ∃ cyclic mutable objType ptrs traceable, headerOperandOfObj (.array element) prop =
      some (headerOf cyclic mutable objType ptrs traceable 0 (cellShiftOfIrType element) 0) := by
  have hbits : bit (cyclicBitOfProp prop == 1) = cyclicBitOfProp prop ∧
      bit (cyclicMutableBitOfProp prop == 1) = cyclicMutableBitOfProp prop ∧
      bit (traceableBitOfProp prop == 1) = traceableBitOfProp prop := by
    cases prop <;> decide
  refine ⟨cyclicBitOfProp prop == 1, cyclicMutableBitOfProp prop == 1,
    (classifyFields [lowerIrType element]).1, hasPointerFields [lowerIrType element],
    traceableBitOfProp prop == 1, ?_⟩
  simp only [headerOf, hbits.1, hbits.2.1, hbits.2.2]
  rfl

/-- A length below bit 43 is added below the cell shift. -/
theorem unitShift_add {base : ObjectHeader} (hlow : ∀ i < 43, base.getLsbD i = false)
    (hlength : length < 2 ^ 43) :
    ObjectHeader.unitShift (base + BitVec.ofNat 64 length) = base.unitShift := by
  have hbit : ∀ i, i < 64 → 43 ≤ i → (BitVec.ofNat 64 length).getLsbD i = false := by
    intro i hi h43
    rw [BitVec.getLsbD_ofNat, testBit_eq_false hlength h43, Bool.and_false]
  have hand : base &&& BitVec.ofNat 64 length = 0#64 := by
    refine BitVec.eq_of_getLsbD_eq fun i hi => ?_
    rw [BitVec.getLsbD_and, BitVec.getLsbD_zero]
    by_cases h43 : i < 43
    · rw [hlow i h43, Bool.false_and]
    · rw [hbit i hi (by omega), Bool.and_false]
  rw [BitVec.add_eq_or_of_and_eq_zero _ _ hand]
  unfold ObjectHeader.unitShift
  congr 1
  refine BitVec.eq_of_getLsbD_eq fun i hi => ?_
  rw [BitVec.getLsbD_and, BitVec.getLsbD_and, BitVec.getLsbD_ushiftRight,
    BitVec.getLsbD_ushiftRight, BitVec.getLsbD_or]
  by_cases h64 : 43 + i < 64
  · rw [hbit (43 + i) h64 (by omega), Bool.or_false]
  · rw [BitVec.getLsbD_of_ge _ _ (by omega), BitVec.getLsbD_of_ge _ _ (by omega), Bool.or_false]

theorem unitShift_createdHeader (hty : slotTy kind i = some ty)
    (hshift : cellShiftOfObjKind kind = some shift)
    (hh : createdHeader kind prop length = some h)
    (hlength : ∀ element, kind = .array element → length < 2 ^ 43) : h.unitShift = shift := by
  have hle := cellShiftOfObjKind_le hshift
  rcases exists_layout hty with ⟨element, rfl⟩ | ⟨fields, tag, hl, hmax⟩
  · cases hshift
    obtain ⟨cyclic, mutable, objType, ptrs, traceable, hbase⟩ :=
      headerOperandOfObj_array element prop
    simp only [createdHeader, hbase, Option.bind_eq_bind, Option.bind_some, Option.pure_def,
      Option.some.injEq] at hh
    subst hh
    rw [unitShift_add (fun i hi => ?_) (hlength element rfl), unitShift_headerOf (by omega)]
    rw [getLsbD_headerOf (by omega)]
    have htest : Nat.testBit 0 (i - 48) = false := Nat.zero_testBit _
    have hne : ¬ 59 ≤ i := by omega
    simp
    omega
  · cases hmax.symm.trans hshift
    have hbase := @headerOperandOfObj_eq kind prop fields tag hl
    have heq : h = headerFor fields tag prop := by
      cases kind with
      | array element => cases hl
      | record fields =>
        simp only [createdHeader, hbase, Option.bind_eq_bind, Option.bind_some, Option.pure_def,
          Option.some.injEq] at hh
        exact hh.symm
      | variant constructors =>
        simp only [createdHeader, hbase, Option.bind_eq_bind, Option.bind_some, Option.pure_def,
          Option.some.injEq] at hh
        exact hh.symm
    rw [heq]
    exact unitShift_headerOf (by omega)

end Headers

section Lowering

/-- More fuel does not change the lowered type. -/
theorem mkIrTy_succ (h : mkIrTy defs n visited t = some ir) :
    mkIrTy defs (n + 1) visited t = some ir := by
  induction n generalizing visited t ir with
  | zero => simp [mkIrTy] at h
  | succ n ih =>
    have hmono : ∀ {l : List CTy} {visited : List String} {irs : List Cir.IrType},
        l.mapM (fun t => mkIrTy defs n visited t) = some irs →
          l.mapM (fun t => mkIrTy defs (n + 1) visited t) = some irs :=
      fun h => mapM_mono (fun _ _ => ih) h
    cases t with
    | var | constant => exact h
    | arrow arg ret =>
      rw [mkIrTy] at h ⊢
      simp only [Option.pure_def, Option.bind_eq_bind, Option.bind_eq_some_iff,
        Option.some.injEq] at h ⊢
      obtain ⟨args, hargs, ret', hret, rfl⟩ := h
      refine ⟨args, mapM_mono (fun a b hab => ?_) hargs, ret', ih hret, rfl⟩
      split_ifs at hab ⊢ with hunit
      · exact hab
      · exact ih hab
    | tuple tys =>
      rw [mkIrTy] at h ⊢
      simp only [Option.pure_def, Option.bind_eq_bind, Option.bind_eq_some_iff,
        Option.some.injEq] at h ⊢
      obtain ⟨fields, hfields, rfl⟩ := h
      exact ⟨fields, hmono hfields, rfl⟩
    | array elem =>
      rw [mkIrTy] at h ⊢
      simp only [Option.pure_def, Option.bind_eq_bind, Option.bind_eq_some_iff,
        Option.some.injEq] at h ⊢
      obtain ⟨element, helement, rfl⟩ := h
      exact ⟨element, ih helement, rfl⟩
    | defined name args =>
      rw [mkIrTy] at h ⊢
      cases hfind : defs.findOpt (materializedName name args) with
      | none => simp [hfind] at h
      | some entry =>
        simp only [hfind] at h ⊢
        cases hdecl : entry.decl with
        | record declFields =>
          simp only [hdecl, Option.pure_def, Option.bind_eq_bind, Option.bind_eq_some_iff,
            Option.some.injEq] at h ⊢
          obtain ⟨fields, hfields, rfl⟩ := h
          exact ⟨fields, mapM_mono (fun _ _ => ih) hfields, rfl⟩
        | «alias» inner =>
          simp only [hdecl] at h ⊢
          exact ih h
        | variant ctors =>
          simp only [hdecl] at h ⊢
          split_ifs at h ⊢
          · exact h
          · exact h
          · simp only [Option.pure_def, Option.bind_eq_bind, Option.bind_eq_some_iff,
              Option.some.injEq] at h ⊢
            obtain ⟨constructors, hctors, rfl⟩ := h
            refine ⟨constructors, mapM_mono (fun c b hc => ?_) hctors, rfl⟩
            simp only [Option.bind_eq_some_iff, Option.some.injEq] at hc ⊢
            obtain ⟨fields, hfields, rfl⟩ := hc
            exact ⟨fields, mapM_mono (fun _ _ => ih) hfields, rfl⟩
        | abstract => simp [hdecl] at h

theorem mkIrTy_mono (h : mkIrTy defs n visited t = some ir) (hle : n ≤ m) :
    mkIrTy defs m visited t = some ir := by
  induction m, hle using Nat.le_induction with
  | base => exact h
  | succ m _ ih => exact mkIrTy_succ ih

theorem mkIrTy_unique (h : mkIrTy defs n visited t = some ir)
    (h' : mkIrTy defs m visited t = some ir') : ir = ir' := by
  have hmax := mkIrTy_mono h (Nat.le_max_left n m)
  exact Option.some.inj (hmax.symm.trans (mkIrTy_mono h' (Nat.le_max_right n m)))

/-- The cell of a type is the same wherever the expansion is cut. -/
theorem cellShift_visited (h : mkIrTy defs n visited t = some ir)
    (h' : mkIrTy defs m visited' t = some ir') (hty : oirOfCir ir = some ty)
    (hty' : oirOfCir ir' = some ty') : cellShiftOfIrType ty = cellShiftOfIrType ty' := by
  induction n generalizing t m with
  | zero => simp [mkIrTy] at h
  | succ n ih =>
    cases m with
    | zero => simp [mkIrTy] at h'
    | succ m =>
      cases t with
      | var =>
        cases h
        cases hty
      | constant =>
        cases h
        cases h'
        rw [Option.some.inj (hty.symm.trans hty')]
      | arrow arg ret =>
        simp only [mkIrTy, Option.pure_def, Option.bind_eq_bind, Option.bind_eq_some_iff,
          Option.some.injEq] at h h'
        obtain ⟨_, -, _, -, rfl⟩ := h
        obtain ⟨_, -, _, -, rfl⟩ := h'
        cases hty
        cases hty'
        rfl
      | tuple tys =>
        simp only [mkIrTy, Option.pure_def, Option.bind_eq_bind, Option.bind_eq_some_iff,
          Option.some.injEq] at h h'
        obtain ⟨_, -, rfl⟩ := h
        obtain ⟨_, -, rfl⟩ := h'
        cases hty
        cases hty'
        rfl
      | array elem =>
        simp only [mkIrTy, Option.pure_def, Option.bind_eq_bind, Option.bind_eq_some_iff,
          Option.some.injEq] at h h'
        obtain ⟨_, -, rfl⟩ := h
        obtain ⟨_, -, rfl⟩ := h'
        cases hty
        cases hty'
        rfl
      | defined name args =>
        rw [mkIrTy] at h h'
        cases hfind : defs.findOpt (materializedName name args) with
        | none => simp [hfind] at h
        | some entry =>
          simp only [hfind] at h h'
          cases hdecl : entry.decl with
          | record declFields =>
            simp only [hdecl, Option.pure_def, Option.bind_eq_bind, Option.bind_eq_some_iff,
              Option.some.injEq] at h h'
            obtain ⟨_, -, rfl⟩ := h
            obtain ⟨_, -, rfl⟩ := h'
            cases hty
            cases hty'
            rfl
          | «alias» inner =>
            simp only [hdecl] at h h'
            exact ih h h'
          | variant ctors =>
            simp only [hdecl] at h h'
            have hword : ∀ {n visited} {ir : Cir.IrType} {ty : IrType},
                (if ctors.all (·.arg.isNone) = true then some (.constant .int64)
                  else if materializedName name args ∈ visited then some .objPtr
                  else do
                    let constructors ← ctors.mapM fun c => do
                      let fields ← (ctorFields c.arg).mapM fun f =>
                        mkIrTy defs n (materializedName name args :: visited) f.1
                      return (c.tag, fields)
                    return .variant (materializedName name args) constructors entry.prop) =
                  some ir → oirOfCir ir = some ty → cellShiftOfIrType ty = defaultShift := by
              intro n visited ir ty hir hty
              split_ifs at hir
              · cases hir
                cases hty
                rfl
              · cases hir
                cases hty
                rfl
              · simp only [Option.pure_def, Option.bind_eq_bind, Option.bind_eq_some_iff,
                  Option.some.injEq] at hir
                obtain ⟨_, -, rfl⟩ := hir
                cases hty
                rfl
            rw [hword h hty, hword h' hty']
          | abstract => simp [hdecl] at h

/-- A variant type is the expansion of a declaration. -/
theorem exists_variant {key : String} {constructors : List (Nat × List Cir.IrType)}
    (h : mkIrTy defs n visited t = some (.variant key constructors prop)) :
    ∃ m entry ctors, defs.findOpt key = some entry ∧ entry.decl = .variant ctors ∧
      ctors.mapM (fun c => do
        let fields ← (ctorFields c.arg).mapM fun f => mkIrTy defs m (key :: visited) f.1
        return (c.tag, fields)) = some constructors := by
  induction n generalizing t with
  | zero => simp [mkIrTy] at h
  | succ n ih =>
    cases t with
    | var | constant => simp [mkIrTy] at h
    | arrow | tuple | array => simp [mkIrTy, Option.bind_eq_some_iff] at h
    | defined name args =>
      rw [mkIrTy] at h
      cases hfind : defs.findOpt (materializedName name args) with
      | none => simp [hfind] at h
      | some entry =>
        simp only [hfind] at h
        cases hdecl : entry.decl with
        | record declFields => simp [hdecl, Option.bind_eq_some_iff] at h
        | «alias» inner =>
          simp only [hdecl] at h
          exact ih h
        | variant ctors =>
          simp only [hdecl] at h
          split_ifs at h
          · cases h
          · cases h
          · simp only [Option.pure_def, Option.bind_eq_bind, Option.bind_eq_some_iff,
              Option.some.injEq] at h
            obtain ⟨constructors', hctors, heq⟩ := h
            cases heq
            exact ⟨n, entry, ctors, hfind, hdecl, by simpa using hctors⟩
        | abstract => simp [hdecl] at h

theorem find_tag {ctors : List ConstructorDecl} {c : ConstructorDecl}
    (hnodup : (ctors.map (·.tag)).Nodup) (hc : c ∈ ctors) :
    ctors.find? (·.tag == c.tag) = some c := by
  induction ctors with
  | nil => cases hc
  | cons c' ctors ih =>
    rw [List.map_cons, List.nodup_cons] at hnodup
    rw [List.find?_cons]
    rcases List.mem_cons.mp hc with rfl | hc
    · simp
    · have hne : (c'.tag == c.tag) = false := by
        rw [beq_eq_false_iff_ne]
        intro heq
        exact hnodup.1 (heq ▸ List.mem_map_of_mem hc)
      simp only [hne]
      exact ih hnodup.2 hc

/-- The cells of a list of types are the same wherever their expansions are cut. -/
theorem cellShifts_visited {ts : List (CTy × MutFlag)} {irs irs' : List Cir.IrType}
    {tys tys' : List IrType} (h : ts.mapM (fun f => mkIrTy defs n visited f.1) = some irs)
    (h' : ts.mapM (fun f => mkIrTy defs m visited' f.1) = some irs')
    (hty : irs.mapM oirOfCir = some tys) (hty' : irs'.mapM oirOfCir = some tys') :
    tys.map cellShiftOfIrType = tys'.map cellShiftOfIrType := by
  induction ts generalizing irs irs' tys tys' with
  | nil =>
    cases h
    cases h'
    cases hty
    cases hty'
    rfl
  | cons t ts ih =>
    simp only [List.mapM_cons, Option.pure_def, Option.bind_eq_bind, Option.bind_eq_some_iff,
      Option.some.injEq] at h h'
    obtain ⟨ir, hir, rest, hrest, rfl⟩ := h
    obtain ⟨ir', hir', rest', hrest', rfl⟩ := h'
    simp only [List.mapM_cons, Option.pure_def, Option.bind_eq_bind, Option.bind_eq_some_iff,
      Option.some.injEq] at hty hty'
    obtain ⟨ty, hty, tail, htail, rfl⟩ := hty
    obtain ⟨ty', hty', tail', htail', rfl⟩ := hty'
    rw [List.map_cons, List.map_cons, cellShift_visited hir hir' hty hty',
      ih hrest hrest' htail htail']

end Lowering

end Syli.Compiler.GenLlvm
