import Syli.Compiler.ConstantLowering
import Syli.Compiler.MatchSoundness

/-! Integer literals: the numbers that they denote, and the constants that stand for them. -/
namespace Syli.Compiler.Constants

open Foundation GenLlvm PatternMatching

variable {Ident Expr : Type}

/-- A literal as the lexer accepts it. -/
structure IntLiteral where
  text : String
  nonempty : text ≠ ""
  digits : ∀ c ∈ text.toList, c.isDigit = true

/-- The number that the digits denote. -/
def IntLiteral.value (s : IntLiteral) : Nat :=
  s.text.toList.foldl (fun n c => 10 * n + (c.toNat - '0'.toNat)) 0

def Denotes (c : LlConstant × Lltype) (n : Nat) : Prop :=
  ∃ v : BitVec 64, c = (.integer v, .i64) ∧ v.toInt = n

mutual

/-- The pattern with its integer literals spelled as `f` says. -/
def respell (f : String → String) : Pattern Ident → Pattern Ident
  | .constant (.intLit s) => .constant (.intLit (f s))
  | .constant c => .constant c
  | .any => .any
  | .ident id => .ident id
  | .tuple elements => .tuple (respellList f elements)
  | .record fields => .record (respellFields f fields)
  | .constructor tag pattern => .constructor tag (respellOption f pattern)

def respellList (f : String → String) : List (Pattern Ident) → List (Pattern Ident)
  | [] => []
  | p :: ps => respell f p :: respellList f ps

def respellFields (f : String → String) :
    List (Nat × Option (Pattern Ident)) → List (Nat × Option (Pattern Ident))
  | [] => []
  | x :: xs => respellField f x :: respellFields f xs

def respellField (f : String → String) :
    Nat × Option (Pattern Ident) → Nat × Option (Pattern Ident)
  | (idx, p) => (idx, respellOption f p)

def respellOption (f : String → String) : Option (Pattern Ident) → Option (Pattern Ident)
  | none => none
  | some p => some (respell f p)

end

/-- `s` in the place of `s'` -/
def replaceBy (s s' text : String) : String := if text = s' then s else text

def respellCase (f : String → String) (c : PatternCase Ident Expr) : PatternCase Ident Expr :=
  { c with pattern := respell f c.pattern }

/-- The value that a test compares with: for an integer literal, the emitted constant. -/
def testValue : CConstant → Option (LlConstant × Lltype) ⊕ CConstant
  | .intLit s => .inl (emitted (.int s) .pattern)
  | c => .inr c

/-- No match makes a difference between the two spellings. -/
def Interchangeable (s s' : String) : Prop :=
  ∀ (T Ident Expr : Type) (shape : T → Shape T) (t : T) (cases : List (PatternCase Ident Expr)),
    (∀ c ∈ cases, HasTy shape c.pattern t) → ∀ tree tree', compileMatch cases = .ok tree →
    compileMatch (cases.map (respellCase (replaceBy s s'))) = .ok tree' →
    ∀ holds v, ValueTy shape v t → ∀ o,
      Eval testValue holds v tree o ↔ Eval testValue holds v tree' o

/-- A literal that is compiled keeps its number; two literals with one number may stand for each
other, and two with different numbers have different constants. -/
structure KeepValues (s s' : IntLiteral) : Prop where
  first : ∀ use c, emitted (.int s.text) use = some c → Denotes c s.value
  second : ∀ use c, emitted (.int s'.text) use = some c → Denotes c s'.value
  interchangeable : s.value = s'.value →
    (∀ use, emitted (.int s.text) use = emitted (.int s'.text) use) ∧
      Interchangeable s.text s'.text
  distinct : s.value ≠ s'.value → ∀ use use' c,
    emitted (.int s.text) use = some c → emitted (.int s'.text) use' ≠ some c

theorem emitted_int (s : String) (use : Use) :
    emitted (.int s) use = some (.integer (parseInt64 s), .i64) := by
  cases use <;> rfl

theorem toNat?_text (s : IntLiteral) : s.text.toNat? = some s.value := by
  have hfilter : s.text.toList.filter (· != '_') = s.text.toList := by
    rw [List.filter_eq_self]
    intro c hc
    have hdigit := s.digits c hc
    rw [bne_iff_ne]
    rintro rfl
    simp at hdigit
  rw [String.toNat?_eq_some_ofDigitChars (String.isNat_of_isDigit s.nonempty s.digits), hfilter]
  rfl

theorem parseInt64_text (s : IntLiteral) :
    parseInt64 s.text = if s.value < 2 ^ 63 then BitVec.ofNat 64 s.value else 0 := by
  rw [parseInt64, toNat?_text]

theorem toInt_parseInt64 (s : IntLiteral) (h : s.value < 2 ^ 63) :
    (parseInt64 s.text).toInt = s.value := by
  rw [parseInt64_text, if_pos h, BitVec.toInt_eq_toNat_of_lt]
  · rw [BitVec.toNat_ofNat, Nat.mod_eq_of_lt (by omega)]
  · rw [BitVec.toNat_ofNat, Nat.mod_eq_of_lt (by omega)]
    omega

/-- The constant denotes the number of the literal exactly when a signed word has it. -/
theorem denotes_iff (s : IntLiteral) (use : Use) :
    (∀ c, emitted (.int s.text) use = some c → Denotes c s.value) ↔ s.value < 2 ^ 63 := by
  rw [emitted_int]
  constructor
  · intro h
    obtain ⟨v, -, hv⟩ := h _ rfl
    have := v.toInt_lt
    omega
  · intro h c hc
    cases hc
    exact ⟨_, rfl, toInt_parseInt64 s h⟩

mutual

theorem respell_eq {f : String → String} (hf : ∀ s, f s = s) (p : Pattern Ident) :
    respell f p = p := by
  match p with
  | .any | .ident _ => rfl
  | .constant c => cases c <;> simp [respell, hf]
  | .tuple elements => rw [respell, respellList_eq hf elements]
  | .record fields => rw [respell, respellFields_eq hf fields]
  | .constructor tag pattern => rw [respell, respellOption_eq hf pattern]

theorem respellList_eq {f : String → String} (hf : ∀ s, f s = s) (ps : List (Pattern Ident)) :
    respellList f ps = ps := by
  match ps with
  | [] => rfl
  | p :: ps => rw [respellList, respell_eq hf p, respellList_eq hf ps]

theorem respellFields_eq {f : String → String} (hf : ∀ s, f s = s)
    (fields : List (Nat × Option (Pattern Ident))) : respellFields f fields = fields := by
  match fields with
  | [] => rfl
  | x :: xs => rw [respellFields, respellField_eq hf x, respellFields_eq hf xs]

theorem respellField_eq {f : String → String} (hf : ∀ s, f s = s)
    (x : Nat × Option (Pattern Ident)) : respellField f x = x := by
  match x with
  | (idx, p) => rw [respellField, respellOption_eq hf p]

theorem respellOption_eq {f : String → String} (hf : ∀ s, f s = s)
    (p : Option (Pattern Ident)) : respellOption f p = p := by
  match p with
  | none => rfl
  | some p => rw [respellOption, respell_eq hf p]

end

theorem interchangeable_self (s : String) : Interchangeable s s := by
  intro T Ident Expr shape t cases hcases tree tree' h h' holds v hv o
  have hsame : ∀ text, replaceBy s s text = text := by
    intro text
    rw [replaceBy]
    split
    · rename_i heq
      exact heq.symm
    · rfl
  have hcase : respellCase (replaceBy s s) = (id : PatternCase Ident Expr → _) := by
    funext c
    rw [respellCase, respell_eq hsame]
    rfl
  rw [hcase, List.map_id, h] at h'
  cases h'
  exact Iff.rfl

section Spellings

variable {s s' : String}

/-- Two cases, for two spellings. -/
def spellings (s s' : String) : List (PatternCase String Nat) :=
  [⟨.constant (.intLit s), none, 0⟩, ⟨.constant (.intLit s'), none, 1⟩]

theorem split_column (s s' : String) :
    let m := matrixOf (spellings s s')
    split m = if 0 < (refutableGroup m.rows).cardinal then splitRefutable m m.rows .scrutinee []
      else splitIrrefutable m m.rows .scrutinee [] := rfl

theorem heads_spellings (h : s ≠ s') : refutableGroup (matrixOf (spellings s s')).rows =
    .node .empty (.constant (.intLit s)) (.node .empty (.constant (.intLit s')) .empty 1) 2 := by
  simp [refutableGroup, spellings, matrixOf, refutableHead, headOf, HeadSet.add,
    ComparatorSet.add, ComparatorSet.compareEq, h.symm, ComparatorSet.bal, ComparatorSet.create,
    ComparatorSet.height]

theorem heads_same (s : String) : refutableGroup (matrixOf (spellings s s)).rows =
    .node .empty (.constant (.intLit s)) .empty 1 := by
  simp [refutableGroup, spellings, matrixOf, refutableHead, headOf, HeadSet.add,
    ComparatorSet.add, ComparatorSet.compareEq]

/-- The row of the one spelling is dropped from the case of the other. -/
theorem split_spellings (h : s ≠ s') : split (matrixOf (spellings s s')) =
    .ok (.switch .scrutinee [(.constant (.intLit s'), ⟨[], [⟨[], [], none, 1⟩]⟩),
      (.constant (.intLit s), ⟨[], [⟨[], [], none, 0⟩]⟩)] ⟨[], []⟩) := by
  rw [split_column, heads_spellings h, if_pos (by simp [ComparatorSet.cardinal]), splitRefutable,
    heads_spellings h]
  simp [ComparatorSet.fold, specialize, specializeConstant, filterRows, matrixOf, spellings,
    constantOfLiteral, h, h.symm]
  rfl

theorem split_same (s : String) : split (matrixOf (spellings s s)) =
    .ok (.switch .scrutinee [(.constant (.intLit s), ⟨[], [⟨[], [], none, 0⟩,
      ⟨[], [], none, 1⟩]⟩)] ⟨[], []⟩) := by
  rw [split_column, heads_same, if_pos (by simp [ComparatorSet.cardinal]), splitRefutable,
    heads_same]
  simp [ComparatorSet.fold, specialize, specializeConstant, filterRows, matrixOf, spellings,
    constantOfLiteral]
  rfl

/-- The later spelling is tested first. -/
theorem compile_spellings (h : s ≠ s') : compileMatch (spellings s s') =
    .ok (.switch .scrutinee
      [(.constant (.intLit s'), .leaf [] 1), (.constant (.intLit s), .leaf [] 0)] .fail) := by
  rw [compileMatch, compile, split_spellings h]
  rfl

theorem compile_same (s : String) : compileMatch (spellings s s) =
    .ok (.switch .scrutinee [(.constant (.intLit s), .leaf [] 0)] .fail) := by
  rw [compileMatch, compile, split_same]
  rfl

theorem eval_first_test {holds : Nat → Set (String × Value _) → Bool} {body : Nat}
    {rest : List (PatternTest × DecisionTree String Nat)} {default : DecisionTree String Nat}
    {o : Option (Set (String × Value _) × Nat)}
    (v : PatternMatching.Value (Option (LlConstant × Lltype) ⊕ CConstant))
    (hv : v = .literal (testValue (.intLit s))) :
    Eval testValue holds v (.switch .scrutinee ((.constant (.intLit s), .leaf [] body) :: rest)
      default) o ↔ o = some (boundAt v [], body) := by
  have htest : testMatches testValue (.constant (.intLit s)) v = true := by
    rw [hv]
    simp [testMatches, matchesConstant]
  rw [eval_case rfl (List.find?_cons_of_pos htest), eval_leaf (by simp [Defined])]

/-- Two spellings of one constant are told apart by a match on both of them. -/
theorem not_interchangeable (h : s ≠ s')
    (hsame : emitted (.int s) .pattern = emitted (.int s') .pattern) : ¬ Interchangeable s s' := by
  intro hi
  have htyped : ∀ c ∈ spellings s s',
      HasTy (fun _ : Unit => Shape.literal) c.pattern () := by
    intro c hc
    simp only [spellings, List.mem_cons, List.not_mem_nil, or_false] at hc
    rcases hc with rfl | rfl
    · exact .literal rfl nofun
    · exact .literal rfl nofun
  have hrespelled : (spellings s s').map (respellCase (replaceBy s s')) = spellings s s := by
    simp [spellings, respellCase, respell, replaceBy]
  have hv : Value.literal (testValue (.intLit s)) = .literal (testValue (.intLit s')) := by
    rw [testValue, testValue, hsame]
  have hiff := hi Unit String Nat (fun _ => .literal) () (spellings s s') htyped _ _
    (compile_spellings h) (by rw [hrespelled, compile_same]) (fun _ _ => true)
    (.literal (testValue (.intLit s))) (.literal rfl)
    (some (boundAt (.literal (testValue (.intLit s))) [], 1))
  rw [eval_first_test _ hv, eval_first_test _ rfl] at hiff
  simp at hiff

end Spellings

/-- The literals keep their values exactly when both fit a signed word and, if they denote one
number, they are spelled alike. -/
theorem keepValues_iff (s s' : IntLiteral) : KeepValues s s' ↔
    s.value < 2 ^ 63 ∧ s'.value < 2 ^ 63 ∧ (s.value = s'.value → s.text = s'.text) := by
  constructor
  · intro h
    refine ⟨(denotes_iff s .pattern).mp (h.first .pattern),
      (denotes_iff s' .pattern).mp (h.second .pattern), ?_⟩
    intro hvalue
    by_contra hne
    obtain ⟨hemitted, hinterchangeable⟩ := h.interchangeable hvalue
    exact not_interchangeable hne (hemitted .pattern) hinterchangeable
  · rintro ⟨hs, hs', hspelled⟩
    refine ⟨fun use => (denotes_iff s use).mpr hs, fun use => (denotes_iff s' use).mpr hs', ?_, ?_⟩
    · intro hvalue
      rw [hspelled hvalue]
      exact ⟨fun use => rfl, interchangeable_self s'.text⟩
    · intro hvalue use use' c hc hc'
      rw [emitted_int] at hc hc'
      cases hc
      obtain ⟨hparse, -⟩ := Prod.mk.inj (Option.some.inj hc')
      apply hvalue
      have hnumber := congrArg BitVec.toInt (LlConstant.integer.inj hparse)
      rw [toInt_parseInt64 s hs, toInt_parseInt64 s' hs'] at hnumber
      omega

/-- `2 ^ 63` -/
def wordSize : IntLiteral := ⟨"9223372036854775808", by decide, by simp⟩

/-- The first number that no signed word has becomes zero. -/
theorem wordSize_emitted_as_zero :
    (∀ use, emitted (.int wordSize.text) use = some (.integer 0, .i64)) ∧
      wordSize.value = 9223372036854775808 ∧ ¬ KeepValues wordSize wordSize := by
  have hvalue : wordSize.value = 9223372036854775808 := by simp [IntLiteral.value, wordSize]
  refine ⟨?_, hvalue, ?_⟩
  · intro use
    rw [emitted_int, parseInt64_text, if_neg (by omega)]
  · intro h
    have := (denotes_iff wordSize .expression).mp (h.first .expression)
    omega

end Syli.Compiler.Constants
