import Syli.Compiler.GenCompare

/-! Which comparisons decide the relation of their type. -/
namespace Syli.Compiler.GenLlvm

open Foundation

/-- A primitive at the type of its operands, or a literal pattern. -/
inductive Comparison where
  | primitive (symbol : String) (operandTy : ConstantTy)
  | literal (pattern : LiteralPattern)

/-- The bits of a value of a type. -/
abbrev BitsOf (c : ConstantTy) : Type := BitVec (lltypeOf (irTypeOfConstant c)).width

def isSignedTy : ConstantTy → Bool
  | .int64 | .int32 | .int16 | .int8 => true
  | _ => false

def isFloatTy : ConstantTy → Bool
  | .f32 | .f64 => true
  | _ => false

/-- The integer that a value stands for. -/
def intOf (c : ConstantTy) (bits : BitsOf c) : Int :=
  if isSignedTy c then bits.toInt else bits.toNat

def orderOf (op : Binop) (x y : Int) : Prop :=
  match op with
  | .lt => x < y
  | .le => x ≤ y
  | .gt => y < x
  | .ge => y ≤ x
  | _ => x = y

/-- The relations of floating-point numbers, which may be any. -/
abbrev FloatRel : Type := (c : ConstantTy) → Binop → BitsOf c → BitsOf c → Prop

def relationOf (floatRel : FloatRel) (op : Binop) (c : ConstantTy) (a b : BitsOf c) : Prop :=
  if isFloatTy c then floatRel c op a b else orderOf op (intOf c a) (intOf c b)

/-- The object at the address has the bytes of the string. -/
def HoldsString (mem : ByteMemory) (address : Nat) (s : List (BitVec 8)) : Prop :=
  ∀ i (h : i < (stringBytes s).length), mem (address + 8 * valuesOffset + i) = (stringBytes s)[i]

/-- The instruction is well typed, and its result says whether the relation holds. -/
def Says (result : Option Bool) (relation : Prop) : Prop :=
  ∃ r, result = some r ∧ (r = true ↔ relation)

/-- A reference is the address of its object with a tag in the low bits. -/
def Decides (floatRel : FloatRel) : Comparison → Prop
  | .primitive symbol c => ∀ op, comparisonOfSymbol symbol = some op → ∀ a b : BitsOf c,
    Says (lowerCompare op (irTypeOfConstant c) ⟨_, a⟩ ⟨_, b⟩) (relationOf floatRel op c a b)
  | .literal (.intLit s) => ∀ n, s.toNat? = some n → ∀ address (x : BitVec 64),
    Says (emitEquality address (.intLit s) ⟨.i64, x⟩) (x.toInt = n)
  | .literal (.boolLit b) => ∀ address (x : BitVec 1),
    Says (emitEquality address (.boolLit b) ⟨.i1, x⟩) (x = BitVec.ofBool b)
  | .literal (.charLit c) => ∀ address (x : BitVec 8),
    Says (emitEquality address (.charLit c) ⟨.i8, x⟩) (x = c)
  | .literal (.floatLit bits) => ∀ address (x : BitVec 64),
    Says (emitEquality address (.floatLit bits) ⟨.double, x⟩) (floatRel .f64 .eq x bits)
  | .literal (.stringLit s) => ∀ (mem : ByteMemory) address obj tag s', address % 8 = 0 →
    obj % 8 = 0 → tag < 8 → HoldsString mem address s → HoldsString mem obj s' →
    Says (emitEquality address (.stringLit s) ⟨.ptrAs 1, BitVec.ofNat 64 (obj + tag)⟩) (s' = s)

/-- The comparison is one of integers, booleans or characters, and an integer literal is one that
its type has. -/
def ComparesIntegers : Comparison → Prop
  | .primitive _ c => isFloatTy c = false
  | .literal (.intLit s) => ∀ n, s.toNat? = some n → n < 2 ^ 63
  | .literal (.boolLit _) | .literal (.charLit _) => True
  | .literal (.floatLit _) | .literal (.stringLit _) => False

/-- The primitive's declaration admits the type for its operands. -/
def Admitted : Comparison → Prop
  | .primitive symbol c => (comparisonOfSymbol symbol).isSome ∧ ∃ p ∈ Ast.primitives,
    p.name = symbol ∧ Ast.tyMatchPrimitiveInstance
      (Ast.tripleComparisonArrowTy (.constant c)) p = true
  | .literal _ => True

theorem comparison_ne_arithmetic : ∀ p ∈ Ast.primitives, (comparisonOfSymbol p.name).isSome →
    p.tys = Ast.comparisonConstTys.map Ast.tripleComparisonArrowTy := by
  simp [Ast.primitives, comparisonOfSymbol]

theorem numeric_of_admitted {symbol : String} {c : ConstantTy}
    (h : Admitted (.primitive symbol c)) :
    isFloatTy c = true ∨ (signednessKind (lowerIrType (irTypeOfConstant c))).isSome := by
  obtain ⟨hsome, p, hp, rfl, hmatch⟩ := h
  rw [Ast.tyMatchPrimitiveInstance, comparison_ne_arithmetic p hp hsome] at hmatch
  cases c <;> first | exact absurd hmatch (by decide) | decide

theorem evalICmp_same {ty : Lltype} (h : ty.isInt = true ∨ ty.isPtr = true) (cond : ICmpCond)
    (a b : BitVec ty.width) : evalICmp cond ⟨ty, a⟩ ⟨ty, b⟩ = some (cond.eval a b) := by
  rw [evalICmp, if_pos ⟨rfl, h⟩, BitVec.setWidth_eq]

theorem eval_signed {w : Nat} (a b : BitVec w) :
    (ICmpCond.slt.eval a b = true ↔ a.toInt < b.toInt) ∧
    (ICmpCond.sle.eval a b = true ↔ a.toInt ≤ b.toInt) ∧
    (ICmpCond.sgt.eval a b = true ↔ b.toInt < a.toInt) ∧
    (ICmpCond.sge.eval a b = true ↔ b.toInt ≤ a.toInt) := by
  simp [ICmpCond.eval, BitVec.slt_iff_toInt_lt, BitVec.sle_iff_toInt_le]

theorem eval_unsigned {w : Nat} (a b : BitVec w) :
    (ICmpCond.ult.eval a b = true ↔ (a.toNat : Int) < b.toNat) ∧
    (ICmpCond.ule.eval a b = true ↔ (a.toNat : Int) ≤ b.toNat) ∧
    (ICmpCond.ugt.eval a b = true ↔ (b.toNat : Int) < a.toNat) ∧
    (ICmpCond.uge.eval a b = true ↔ (b.toNat : Int) ≤ a.toNat) := by
  simp [ICmpCond.eval, BitVec.ult_iff_lt, BitVec.ule_iff_le, BitVec.lt_def, BitVec.le_def]

theorem eval_eq {w : Nat} (a b : BitVec w) : ICmpCond.eq.eval a b = true ↔ a = b := by
  simp [ICmpCond.eval]

theorem intOf_inj (c : ConstantTy) (a b : BitsOf c) : intOf c a = intOf c b ↔ a = b := by
  unfold intOf
  split
  · exact BitVec.toInt_inj
  · rw [Int.ofNat_inj, BitVec.toNat_inj]

theorem says_eq {ty : Lltype} (h : ty.isInt = true ∨ ty.isPtr = true) (a b : BitVec ty.width) :
    Says (evalICmp .eq ⟨ty, a⟩ ⟨ty, b⟩) (a = b) :=
  ⟨_, evalICmp_same h .eq a b, eval_eq a b⟩

theorem op_of_symbol {symbol : String} {op : Binop} (h : comparisonOfSymbol symbol = some op) :
    op = .eq ∨ op = .lt ∨ op = .le ∨ op = .gt ∨ op = .ge := by
  unfold comparisonOfSymbol at h
  split at h <;> simp_all

theorem int_facts {c : ConstantTy}
    (h : (signednessKind (lowerIrType (irTypeOfConstant c))).isSome) :
    (lltypeOf (irTypeOfConstant c)).isInt = true ∧ isFloatTy c = false ∧
      signednessKind (lowerIrType (irTypeOfConstant c)) =
        some (if isSignedTy c then .signed else .unsigned) := by
  cases c <;> first | exact absurd h (by decide) | decide

/-- The condition that is chosen for an integer type decides the order of its integers. -/
theorem says_order {c : ConstantTy} {op : Binop}
    (hint : (signednessKind (lowerIrType (irTypeOfConstant c))).isSome)
    (hop : op = .eq ∨ op = .lt ∨ op = .le ∨ op = .gt ∨ op = .ge) (a b : BitsOf c) :
    Says (lowerCompare op (irTypeOfConstant c) ⟨_, a⟩ ⟨_, b⟩)
      (orderOf op (intOf c a) (intOf c b)) := by
  obtain ⟨hllint, -, hkind⟩ := int_facts hint
  obtain ⟨cond, hcond, heval⟩ : ∃ cond,
      lowerCompareInteger op (lowerIrType (irTypeOfConstant c)) = some cond ∧
        (cond.eval a b = true ↔ orderOf op (intOf c a) (intOf c b)) := by
    cases hsigned : isSignedTy c with
    | true =>
      rw [hsigned] at hkind
      have heval := eval_signed a b
      rcases hop with rfl | rfl | rfl | rfl | rfl
      · exact ⟨.eq, rfl, (eval_eq a b).trans (intOf_inj c a b).symm⟩
      · exact ⟨.slt, by simp [lowerCompareInteger, hkind],
          by simpa [orderOf, intOf, hsigned] using heval.1⟩
      · exact ⟨.sle, by simp [lowerCompareInteger, hkind],
          by simpa [orderOf, intOf, hsigned] using heval.2.1⟩
      · exact ⟨.sgt, by simp [lowerCompareInteger, hkind],
          by simpa [orderOf, intOf, hsigned] using heval.2.2.1⟩
      · exact ⟨.sge, by simp [lowerCompareInteger, hkind],
          by simpa [orderOf, intOf, hsigned] using heval.2.2.2⟩
    | false =>
      rw [hsigned] at hkind
      have heval := eval_unsigned a b
      rcases hop with rfl | rfl | rfl | rfl | rfl
      · exact ⟨.eq, rfl, (eval_eq a b).trans (intOf_inj c a b).symm⟩
      · exact ⟨.ult, by simp [lowerCompareInteger, hkind],
          by simpa [orderOf, intOf, hsigned] using heval.1⟩
      · exact ⟨.ule, by simp [lowerCompareInteger, hkind],
          by simpa [orderOf, intOf, hsigned] using heval.2.1⟩
      · exact ⟨.ugt, by simp [lowerCompareInteger, hkind],
          by simpa [orderOf, intOf, hsigned] using heval.2.2.1⟩
      · exact ⟨.uge, by simp [lowerCompareInteger, hkind],
          by simpa [orderOf, intOf, hsigned] using heval.2.2.2⟩
  refine ⟨cond.eval a b, ?_, heval⟩
  rw [lowerCompare, hcond]
  exact evalICmp_same (Or.inl hllint) cond a b

/-- No comparison of floats is lowered to an instruction that is well typed. -/
theorem lowerCompare_float {c : ConstantTy} (h : isFloatTy c = true) (op : Binop) (a b : BitsOf c) :
    lowerCompare op (irTypeOfConstant c) ⟨_, a⟩ ⟨_, b⟩ = none := by
  have htyped : ∀ cond, evalICmp cond ⟨lltypeOf (irTypeOfConstant c), a⟩
      ⟨lltypeOf (irTypeOfConstant c), b⟩ = none := by
    intro cond
    apply if_neg
    cases c with
    | f32 =>
      simp [lltypeOf, irTypeOfConstant, lowerIrType, lltypeOfIrType, Lltype.isInt, Lltype.isPtr]
    | f64 =>
      simp [lltypeOf, irTypeOfConstant, lowerIrType, lltypeOfIrType, Lltype.isInt, Lltype.isPtr]
    | _ => simp [isFloatTy] at h
  rw [lowerCompare]
  cases lowerCompareInteger op (lowerIrType (irTypeOfConstant c)) with
  | none => rfl
  | some cond => exact htyped cond

theorem toInt_eq_iff (s : String) (n : Nat) (hs : s.toNat? = some n) (hn : n < 2 ^ 63)
    (x : BitVec 64) : x = parseInt64 s ↔ x.toInt = n := by
  have hparse : parseInt64 s = BitVec.ofNat 64 n := by
    rw [parseInt64, hs]
    exact if_pos hn
  have hto : (BitVec.ofNat 64 n).toInt = n := by
    rw [BitVec.toInt_ofNat', Int.bmod_eq_of_le]
    · omega
    · omega
  rw [hparse, ← hto, BitVec.toInt_inj]

theorem length_stringBytes (s : List (BitVec 8)) :
    (stringBytes s).length = stringPaddedBytes s.length := by
  simp only [stringBytes, List.length_append, List.length_replicate, List.length_singleton,
    stringPaddedBytes]
  omega

/-- Two objects with the bytes of the string, one behind the other. -/
theorem exists_two_strings (s : List (BitVec 8)) : ∃ (mem : ByteMemory) (obj : Nat),
    obj % 8 = 0 ∧ 8 ≤ obj ∧ HoldsString mem 0 s ∧ HoldsString mem obj s := by
  refine ⟨fun x => if x < 16 + stringPaddedBytes s.length then (stringBytes s).getD (x - 16) 0
      else (stringBytes s).getD (x - (32 + stringPaddedBytes s.length)) 0,
    16 + stringPaddedBytes s.length, ?_, by omega, ?_, ?_⟩
  · unfold stringPaddedBytes
    omega
  · intro i hi
    have hlt : 0 + 8 * valuesOffset + i < 16 + stringPaddedBytes s.length := by
      rw [length_stringBytes] at hi
      unfold valuesOffset
      omega
    have hidx : 0 + 8 * valuesOffset + i - 16 = i := by
      unfold valuesOffset
      omega
    simp only [hlt, if_true, hidx, List.getD_eq_getElem _ _ hi]
  · intro i hi
    have hge : ¬ 16 + stringPaddedBytes s.length + 8 * valuesOffset + i <
        16 + stringPaddedBytes s.length := by omega
    have hidx : 16 + stringPaddedBytes s.length + 8 * valuesOffset + i -
        (32 + stringPaddedBytes s.length) = i := by
      unfold valuesOffset
      omega
    simp only [hge, if_false, hidx, List.getD_eq_getElem _ _ hi]

/-- Strings are compared by their references. -/
theorem not_decides_stringLit (floatRel : FloatRel) (s : List (BitVec 8)) :
    ¬ Decides floatRel (.literal (.stringLit s)) := by
  intro h
  obtain ⟨mem, obj, hobj, -, hlit, hother⟩ := exists_two_strings s
  obtain ⟨r, hr, hiff⟩ := h mem 0 obj 0 s rfl hobj (by omega) hlit hother
  have hsame := evalICmp_same (.inr rfl : (Lltype.ptrAs 1).isInt = true ∨ _) .eq
    (BitVec.ofNat 64 (obj + 0)) (BitVec.ofNat 64 (0 + alwaysBorrowTag))
  obtain rfl := Option.some.inj (hsame.symm.trans hr)
  have heq := (eval_eq _ _).mp (hiff.mpr rfl)
  have htoNat := congrArg BitVec.toNat heq
  simp only [BitVec.toNat_ofNat, alwaysBorrowTag] at htoNat
  omega

theorem not_decides_primitive_float (floatRel : FloatRel) {symbol : String} {c : ConstantTy}
    (hadm : Admitted (.primitive symbol c)) (hfloat : isFloatTy c = true) :
    ¬ Decides floatRel (.primitive symbol c) := by
  intro h
  obtain ⟨op, hop⟩ := Option.isSome_iff_exists.mp hadm.1
  obtain ⟨r, hr, -⟩ := h op hop 0 0
  rw [lowerCompare_float hfloat] at hr
  simp at hr

/-- The comparisons that decide the relation of their type are those of integers, booleans and
characters. -/
theorem decides_iff_comparesIntegers (floatRel : FloatRel) (comparison : Comparison)
    (hadm : Admitted comparison) :
    Decides floatRel comparison ↔ ComparesIntegers comparison := by
  cases comparison with
  | primitive symbol c =>
    rcases numeric_of_admitted hadm with hfloat | hint
    · refine iff_of_false (not_decides_primitive_float floatRel hadm hfloat) ?_
      simp [ComparesIntegers, hfloat]
    · have hnot := (int_facts hint).2.1
      refine iff_of_true ?_ hnot
      intro op hop a b
      rw [relationOf, hnot]
      exact says_order hint (op_of_symbol hop) a b
  | literal pattern =>
    cases pattern with
    | intLit s =>
      constructor
      · intro h n hn
        by_contra hlarge
        obtain ⟨r, hr, hiff⟩ := h n hn 0 0
        have hparse : parseInt64 s = 0 := by
          rw [parseInt64, hn]
          exact if_neg hlarge
        have hsame := evalICmp_same (.inl rfl : Lltype.i64.isInt = true ∨ _) .eq 0 (parseInt64 s)
        obtain rfl := Option.some.inj (hsame.symm.trans hr)
        have hzero := hiff.mp ((eval_eq _ _).mpr hparse.symm)
        have hn0 : (0 : Int) = n := hzero
        omega
      · intro h n hn address x
        obtain ⟨r, hr, hiff⟩ := says_eq (.inl rfl : Lltype.i64.isInt = true ∨ _) x (parseInt64 s)
        exact ⟨r, hr, hiff.trans (toInt_eq_iff s n hn (h n hn) x)⟩
    | boolLit b =>
      refine iff_of_true (fun address x => ?_) trivial
      exact says_eq (.inl rfl : Lltype.i1.isInt = true ∨ _) x (BitVec.ofBool b)
    | charLit c =>
      refine iff_of_true (fun address x => ?_) trivial
      exact says_eq (.inl rfl : Lltype.i8.isInt = true ∨ _) x c
    | floatLit bits =>
      refine iff_of_false ?_ id
      intro h
      obtain ⟨r, hr, -⟩ := h 0 0
      have hnone : emitEquality 0 (.floatLit bits) ⟨.double, 0#64⟩ = none :=
        @lowerCompare_float .f64 rfl .eq 0#64 bits
      exact absurd (hnone.symm.trans hr) (by simp)
    | stringLit s => exact iff_of_false (not_decides_stringLit floatRel s) id

theorem decides_lt_u32 : Decides (fun _ _ a b => a = b) (.primitive "lt" .uint32) ↔
    ComparesIntegers (.primitive "lt" .uint32) :=
  decides_iff_comparesIntegers (fun _ _ a b => a = b) (.primitive "lt" .uint32)
    ⟨rfl, { name := "lt", tys := Ast.comparisonConstTys.map Ast.tripleComparisonArrowTy },
      by simp [Ast.primitives], rfl, by decide⟩

/-- Floats that are compared for equality by the primitive declared for them, and strings that are
matched against a literal. -/
theorem floats_and_strings_undecided :
    Admitted (.primitive "eq" .f64) ∧
      ¬ Decides (fun _ _ a b => a = b) (.primitive "eq" .f64) ∧
      lowerCompare .eq .f64 ⟨.double, 1#64⟩ ⟨.double, 1#64⟩ = none ∧
      ¬ Decides (fun _ _ a b => a = b) (.literal (.stringLit [0x61#8])) := by
  have hadm : Admitted (.primitive "eq" .f64) :=
    ⟨rfl, { name := "eq", tys := Ast.comparisonConstTys.map Ast.tripleComparisonArrowTy },
      by simp [Ast.primitives], rfl, by decide⟩
  exact ⟨hadm, not_decides_primitive_float _ hadm rfl, @lowerCompare_float .f64 rfl .eq 1#64 1#64,
    not_decides_stringLit _ _⟩

end Syli.Compiler.GenLlvm
