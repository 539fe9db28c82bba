import Syli.Compiler.PatternSplit
import Syli.Foundation.Traversal

/-! When the tests of every switch are distinct. -/
namespace Syli.Compiler.PatternMatching

open Foundation

variable {Ident Expr T V : Type} {shape : T → Shape T} {m m' : Matrix Ident Expr} {tys : List T}
  {t : T} {fuel : Nat} {tree tree' : DecisionTree Ident Expr}

/-- The matrices that the recursion reaches. -/
inductive Arises : Matrix Ident Expr → Matrix Ident Expr → Prop where
  | refl {m : Matrix Ident Expr} : Arises m m
  | child {m m' m'' : Matrix Ident Expr} {s : Split Ident Expr} : split m = .ok s →
      m' ∈ s.children → Arises m' m'' → Arises m m''

/-- The nodes of a tree. -/
inductive Node : DecisionTree Ident Expr → DecisionTree Ident Expr → Prop where
  | root {tree : DecisionTree Ident Expr} : Node tree tree
  | onPass {binds : ActionBinds Ident} {condition : Expr}
      {onPass onFail node : DecisionTree Ident Expr} :
      Node onPass node → Node (.guard binds condition onPass onFail) node
  | onFail {binds : ActionBinds Ident} {condition : Expr}
      {onPass onFail node : DecisionTree Ident Expr} :
      Node onFail node → Node (.guard binds condition onPass onFail) node
  | case {occ : Occurrence} {cases : List (PatternTest × DecisionTree Ident Expr)}
      {default sub node : DecisionTree Ident Expr} {test : PatternTest} :
      (test, sub) ∈ cases → Node sub node → Node (.switch occ cases default) node
  | default {occ : Occurrence} {cases : List (PatternTest × DecisionTree Ident Expr)}
      {default node : DecisionTree Ident Expr} :
      Node default node → Node (.switch occ cases default) node

theorem mapM_ok {α β : Type} {f : α → CompileResult β} {l : List α}
    (hf : ∀ a ∈ l, ∃ b, f a = .ok b) : ∃ l', l.mapM f = .ok l' := by
  induction l with
  | nil => exact ⟨[], rfl⟩
  | cons a l ih =>
    obtain ⟨b, hb⟩ := hf a (by simp)
    obtain ⟨l', hl'⟩ := ih fun c hc => hf c (by simp [hc])
    refine ⟨b :: l', ?_⟩
    rw [List.mapM_cons, hb, hl']
    rfl

/-- A well-typed matrix is compiled without an error, if the fuel exceeds its size. -/
theorem compile_ok (hm : MatrixTy shape m tys) (hfuel : m.size < fuel) :
    ∃ tree, compile fuel m = .ok tree := by
  induction fuel generalizing m tys with
  | zero => omega
  | succ fuel ih =>
    obtain ⟨s, hs, hof⟩ := split_ok hm
    have hchild : ∀ m' ∈ s.children, ∃ tree, compile fuel m' = .ok tree := by
      intro m' hmem
      obtain ⟨hlt, tys', hm'⟩ := children_typed hm hof hmem
      exact ih hm' (by omega)
    unfold compile
    simp only [hs, bind, Except.bind]
    cases s with
    | fail | leaf => exact ⟨_, rfl⟩
    | guard binds condition body rest =>
      obtain ⟨onFail, hok⟩ := hchild rest (by simp [Split.children])
      simp only [hok]
      exact ⟨_, rfl⟩
    | switch occ cases default =>
      obtain ⟨default', hdefault⟩ := hchild default (by simp [Split.children])
      obtain ⟨cases', hcases⟩ := mapM_ok (l := cases) (f := fun c => do
          let tree ← compile fuel c.2
          return (c.1, tree)) fun c hc => by
        obtain ⟨tree, hok⟩ := hchild c.2
          (by simp only [Split.children, List.mem_append, List.mem_map]; exact Or.inl ⟨c, hc, rfl⟩)
        rw [hok]
        exact ⟨_, rfl⟩
      simp only [bind, Except.bind] at hcases
      simp only [hcases, hdefault]
      exact ⟨_, rfl⟩
    | expand m' => exact hchild m' (by simp [Split.children])

/-- What `compile` makes of the outcome of a split. -/
inductive TreeOf (fuel : Nat) : Split Ident Expr → DecisionTree Ident Expr → Prop where
  | fail : TreeOf fuel .fail .fail
  | leaf {binds : ActionBinds Ident} {body : Expr} :
      TreeOf fuel (.leaf binds body) (.leaf binds body)
  | guard {binds : ActionBinds Ident} {condition body : Expr} {rest : Matrix Ident Expr}
      {onFail : DecisionTree Ident Expr} : compile fuel rest = .ok onFail →
      TreeOf fuel (.guard binds condition body rest)
        (.guard binds condition (.leaf binds body) onFail)
  | switch {occ : Occurrence} {cs : List (PatternTest × Matrix Ident Expr)}
      {cases : List (PatternTest × DecisionTree Ident Expr)} {d : Matrix Ident Expr}
      {default : DecisionTree Ident Expr} :
      List.Forall₂ (fun c c' => c'.1 = c.1 ∧ compile fuel c.2 = .ok c'.2) cs cases →
      compile fuel d = .ok default → TreeOf fuel (.switch occ cs d) (.switch occ cases default)
  | expand {m' : Matrix Ident Expr} {tree : DecisionTree Ident Expr} :
      compile fuel m' = .ok tree → TreeOf fuel (.expand m') tree

theorem forall₂_of_mapM {α β : Type} {f : α → CompileResult β} {l : List α} {l' : List β}
    (h : l.mapM f = .ok l') : List.Forall₂ (fun a b => f a = .ok b) l l' := by
  induction l generalizing l' with
  | nil =>
    obtain rfl := Except.ok.inj h
    exact .nil
  | cons a l ih =>
    rw [List.mapM_cons] at h
    obtain ⟨b, hb, h⟩ := bind_eq_ok.mp h
    obtain ⟨bs, hbs, h⟩ := bind_eq_ok.mp h
    obtain rfl := pure_eq_ok.mp h
    exact .cons hb (ih hbs)

/-- A compiled matrix was split, and the tree is built from the outcome. -/
theorem compile_cases (h : compile fuel m = .ok tree) :
    ∃ fuel' s, fuel = fuel' + 1 ∧ split m = .ok s ∧ TreeOf fuel' s tree := by
  cases fuel with
  | zero => cases h
  | succ fuel =>
    unfold compile at h
    obtain ⟨s, hs, h⟩ := bind_eq_ok.mp h
    refine ⟨fuel, s, rfl, hs, ?_⟩
    cases s with
    | fail =>
      obtain rfl := pure_eq_ok.mp h
      exact .fail
    | leaf binds body =>
      obtain rfl := pure_eq_ok.mp h
      exact .leaf
    | guard binds condition body rest =>
      obtain ⟨onFail, hfail, h⟩ := bind_eq_ok.mp h
      obtain rfl := pure_eq_ok.mp h
      exact .guard hfail
    | switch occ cs d =>
      obtain ⟨cases', hcases, h⟩ := bind_eq_ok.mp h
      obtain ⟨default', hdefault, h⟩ := bind_eq_ok.mp h
      obtain rfl := pure_eq_ok.mp h
      refine .switch ((forall₂_of_mapM hcases).imp fun c c' hc => ?_) hdefault
      obtain ⟨sub, hsub, hc⟩ := bind_eq_ok.mp hc
      obtain rfl := pure_eq_ok.mp hc
      exact ⟨rfl, hsub⟩
    | expand m' => exact .expand h

theorem tests_eq {fuel : Nat} {cs : List (PatternTest × Matrix Ident Expr)}
    {cases : List (PatternTest × DecisionTree Ident Expr)}
    (h : List.Forall₂ (fun c c' => c'.1 = c.1 ∧ compile fuel c.2 = .ok c'.2) cs cases) :
    cases.map (·.1) = cs.map (·.1) := by
  induction h with
  | nil => rfl
  | cons hc _ ih => rw [List.map_cons, List.map_cons, hc.1, ih]

/-- Each switch of the tree is the switch of a matrix that arises. -/
theorem arises_of_node {occ : Occurrence} {cases : List (PatternTest × DecisionTree Ident Expr)}
    {default : DecisionTree Ident Expr} (h : compile fuel m = .ok tree)
    (hn : Node tree (.switch occ cases default)) :
    ∃ m' cs d, Arises m m' ∧ split m' = .ok (.switch occ cs d) ∧
      cases.map (·.1) = cs.map (·.1) := by
  induction fuel generalizing m tree with
  | zero => cases h
  | succ fuel ih =>
    obtain ⟨fuel', s, hfuel, hs, htree⟩ := compile_cases h
    obtain rfl : fuel = fuel' := by omega
    have hchild : ∀ m₁ ∈ s.children, ∀ tree₁, compile fuel m₁ = .ok tree₁ →
        Node tree₁ (.switch occ cases default) →
        ∃ m' cs d, Arises m m' ∧ split m' = .ok (.switch occ cs d) ∧
          cases.map (·.1) = cs.map (·.1) := by
      intro m₁ hmem tree₁ hok hnode
      obtain ⟨m', cs, d, ha, hsplit, htests⟩ := ih hok hnode
      exact ⟨m', cs, d, .child hs hmem ha, hsplit, htests⟩
    cases htree with
    | fail | leaf => cases hn
    | guard hfail =>
      cases hn with
      | onPass hn => cases hn
      | onFail hn => exact hchild _ (by simp [Split.children]) _ hfail hn
    | switch hcases hdefault =>
      cases hn with
      | root => exact ⟨m, _, _, .refl, hs, tests_eq hcases⟩
      | case hmem hn =>
        obtain ⟨c, hc, -, hok⟩ := exists_left_of_forall₂ hcases hmem
        refine hchild c.2 ?_ _ hok hn
        simp only [Split.children, List.mem_append, List.mem_map]
        exact Or.inl ⟨c, hc, rfl⟩
      | default hn => exact hchild _ (by simp [Split.children]) _ hdefault hn
    | expand hok => exact hchild _ (by simp [Split.children]) _ hok hn

/-- Each matrix that arises is compiled to a node of the tree. -/
theorem node_of_arises (ha : Arises m m') (h : compile fuel m = .ok tree) :
    ∃ fuel' node, Node tree node ∧ compile fuel' m' = .ok node := by
  induction ha generalizing fuel tree with
  | refl => exact ⟨fuel, tree, .root, h⟩
  | @child m m₁ m'' s hs hmem _ ih =>
    obtain ⟨fuel', s', -, hs', htree⟩ := compile_cases h
    obtain rfl := Except.ok.inj (hs.symm.trans hs')
    cases htree with
    | fail | leaf => cases hmem
    | guard hfail =>
      obtain rfl := List.mem_singleton.mp hmem
      obtain ⟨f, node, hn, hok⟩ := ih hfail
      exact ⟨f, node, .onFail hn, hok⟩
    | switch hcases hdefault =>
      simp only [Split.children, List.mem_append, List.mem_map, List.mem_singleton] at hmem
      rcases hmem with ⟨c, hc, rfl⟩ | rfl
      · obtain ⟨c', hc', -, hsub⟩ := exists_right_of_forall₂ hcases hc
        obtain ⟨f, node, hn, hok⟩ := ih hsub
        exact ⟨f, node, .case hc' hn, hok⟩
      · obtain ⟨f, node, hn, hok⟩ := ih hdefault
        exact ⟨f, node, .default hn, hok⟩
    | expand hsub =>
      obtain rfl := List.mem_singleton.mp hmem
      exact ih hsub

/-- The value that a test stands for; `den` reads literals, integers as numbers. -/
def testValue (den : Constant → V) : PatternTest → V ⊕ Nat
  | .constant c => .inl (den c)
  | .constructor tag _ _ => .inr tag

def headValue (den : Constant → V) : Refutable → V ⊕ Nat
  | .constant c => .inl (den c)
  | .variant tag _ => .inr tag

/-- The tests of a switch are distinct values, and they are the heads of the split column. -/
structure SwitchesExact (den : Constant → V) (m : Matrix Ident Expr)
    (tree : DecisionTree Ident Expr) : Prop where
  distinct : ∀ occ cases default, Node tree (.switch occ cases default) →
    (cases.map fun c => testValue den c.1).Nodup
  heads : ∀ occ cases default, Node tree (.switch occ cases default) →
    ∃ m' col, Arises m m' ∧ chooseColumn m'.rows = .ok col ∧ m'.occs[col]? = some occ ∧
      ∀ test, test ∈ cases.map (·.1) ↔ ∃ head ∈ m'.heads col, testOf occ head = test

/-- No literal of the column has two spellings, and a head that comes again is found in the set of
the heads before it. -/
structure Recognised (den : Constant → V) (heads : List Refutable) : Prop where
  spelling : ∀ h ∈ heads, ∀ h' ∈ heads, headValue den h = headValue den h' → h = h'
  found : ∀ pre h post, heads = pre ++ h :: post → h ∈ pre →
    (ComparatorSet.ofList pre).mem ComparatorSet.compareEq h = true

/-- Every column that the compilation splits is recognised. -/
def AllRecognised (den : Constant → V) (m : Matrix Ident Expr) : Prop :=
  ∀ m' col, Arises m m' → chooseColumn m'.rows = .ok col → Recognised den (m'.heads col)

theorem testValue_testOf (den : Constant → V) (occ : Occurrence) (h : Refutable) :
    testValue den (testOf occ h) = headValue den h := by
  cases h <;> rfl

theorem values_eq (den : Constant → V) {occ : Occurrence} {hs : List Refutable}
    {cases : List (PatternTest × DecisionTree Ident Expr)}
    (h : cases.map (·.1) = hs.map (testOf occ)) :
    (cases.map fun c => testValue den c.1) = hs.map (headValue den) := by
  calc (cases.map fun c => testValue den c.1)
      = (cases.map (·.1)).map (testValue den) := by rw [List.map_map]; rfl
    _ = hs.map (headValue den) := by
      rw [h, List.map_map]
      exact List.map_congr_left fun head _ => testValue_testOf den occ head

theorem chooseColumn_of_default {r : Row Ident Expr} {rest : List (Row Ident Expr)} {col : Nat}
    (hd : r.pats.all isDefaultPattern = true) : chooseColumn (r :: rest) ≠ .ok col := by
  have hnone : r.pats.findIdx? (fun x => !isDefaultPattern x) = none := by
    rw [List.findIdx?_eq_none_iff]
    intro p hp
    simpa using List.all_eq_true.mp hd p hp
  simp [chooseColumn, hnone]

/-- The cases of one column have distinct values exactly when the column is recognised. -/
theorem recognised_iff (den : Constant → V) (heads : List Refutable) :
    ((ComparatorSet.ofList heads).elements.reverse.map (headValue den)).Nodup ↔
      Recognised den heads := by
  rw [List.map_reverse, List.nodup_reverse]
  constructor
  · intro hn
    refine ⟨fun h hh h' hh' heq => ?_, ComparatorSet.nodup_ofList.mp (hn.of_map _)⟩
    exact List.inj_on_of_nodup_map hn (ComparatorSet.mem_elements_ofList.mpr hh)
      (ComparatorSet.mem_elements_ofList.mpr hh') heq
  · intro hr
    refine List.Nodup.map_on (fun h hh h' hh' heq => ?_) (ComparatorSet.nodup_ofList.mpr hr.found)
    exact hr.spelling h (ComparatorSet.mem_elements_ofList.mp hh) h'
      (ComparatorSet.mem_elements_ofList.mp hh') heq

theorem arises_typed (ha : Arises m m') (hm : MatrixTy shape m tys) :
    ∃ tys', MatrixTy shape m' tys' := by
  induction ha generalizing tys with
  | refl => exact ⟨tys, hm⟩
  | child hs hmem _ ih =>
    obtain ⟨s', hs', hof⟩ := split_ok hm
    obtain rfl := Except.ok.inj (hs.symm.trans hs')
    obtain ⟨-, tys', hm'⟩ := children_typed hm hof hmem
    exact ih hm'

theorem matrixOf_typed {cases : List (PatternCase Ident Expr)}
    (hcases : ∀ c ∈ cases, HasTy shape c.pattern t) : MatrixTy shape (matrixOf cases) [t] := by
  refine ⟨rfl, fun r hr => ?_⟩
  obtain ⟨c, hc, rfl⟩ := List.mem_map.mp hr
  exact .cons (hcases c hc) .nil

/-- The cases of a switch are the heads of the column, each at its occurrence. -/
theorem switch_tests {occ : Occurrence} {cs : List (PatternTest × Matrix Ident Expr)}
    {d : Matrix Ident Expr} (hm : MatrixTy shape m tys) (hs : split m = .ok (.switch occ cs d)) :
    ∃ col, chooseColumn m.rows = .ok col ∧ m.occs[col]? = some occ ∧
      cs.map (·.1) = (ComparatorSet.ofList (m.heads col)).elements.reverse.map (testOf occ) := by
  obtain ⟨s, hs', hof⟩ := split_ok hm
  obtain rfl := Except.ok.inj (hs.symm.trans hs')
  cases hof with
  | @switch col _ _ _ hc hheads htyped =>
    refine ⟨col, hc.choose, hc.occ, ?_⟩
    rw [List.map_map]
    rfl

/-- A recognised column is the same as distinct tests, for every switch of the tree. -/
theorem switches_exact_iff (den : Constant → V) (hm : MatrixTy shape m tys)
    (h : compile fuel m = .ok tree) : SwitchesExact den m tree ↔ AllRecognised den m := by
  constructor
  · intro hexact m' col ha hcol
    obtain ⟨tys', hm'⟩ := arises_typed ha hm
    obtain ⟨fuel', node, hn, hok⟩ := node_of_arises ha h
    obtain ⟨f, s, -, hs, htree⟩ := compile_cases hok
    by_cases hheads : m'.heads col = []
    · rw [hheads]
      exact ⟨by simp, by simp⟩
    obtain ⟨s', hs', hof⟩ := split_ok hm'
    obtain rfl := Except.ok.inj (hs.symm.trans hs')
    cases hof with
    | fail hrows => simp [hrows, chooseColumn] at hcol
    | leaf hrows hd | guard hrows hd =>
      rw [hrows] at hcol
      exact (chooseColumn_of_default hd hcol).elim
    | switch hc _ htyped =>
      obtain rfl := Except.ok.inj (hcol.symm.trans hc.choose)
      cases htree with
      | switch hcases hdefault =>
        have hdistinct := hexact.distinct _ _ _ hn
        have htests := tests_eq hcases
        rw [List.map_map] at htests
        rwa [← recognised_iff, ← values_eq den htests]
    | expand hc hnil =>
      obtain rfl := Except.ok.inj (hcol.symm.trans hc.choose)
      exact (hheads hnil).elim
  · intro hall
    refine ⟨fun occ cases default hn => ?_, fun occ cases default hn => ?_⟩
    · obtain ⟨m', cs, d, ha, hs, htests⟩ := arises_of_node h hn
      obtain ⟨tys', hm'⟩ := arises_typed ha hm
      obtain ⟨col, hcol, -, hcs⟩ := switch_tests hm' hs
      rw [values_eq den (htests.trans hcs)]
      exact (recognised_iff den (m'.heads col)).mpr (hall m' col ha hcol)
    · obtain ⟨m', cs, d, ha, hs, htests⟩ := arises_of_node h hn
      obtain ⟨tys', hm'⟩ := arises_typed ha hm
      obtain ⟨col, hcol, hocc, hcs⟩ := switch_tests hm' hs
      refine ⟨m', col, ha, hcol, hocc, fun test => ?_⟩
      rw [htests, hcs]
      simp [ComparatorSet.mem_elements_ofList]

/-- A list of well-typed cases is compiled, and the tests of its switches are distinct exactly when
every column that is split is recognised. -/
theorem switch_tests_distinct_iff (den : Constant → V) {cases : List (PatternCase Ident Expr)}
    (hcases : ∀ c ∈ cases, HasTy shape c.pattern t) :
    ∃ tree, compileMatch cases = .ok tree ∧
      (SwitchesExact den (matrixOf cases) tree ↔ AllRecognised den (matrixOf cases)) := by
  have hm := matrixOf_typed hcases
  obtain ⟨tree, hok⟩ := compile_ok hm (Nat.lt_succ_self _)
  exact ⟨tree, hok, switches_exact_iff den hm hok⟩

section Example

/-- Integer literals are numbers; the other literals stand for themselves. -/
def constantValue : Constant → Constant ⊕ Nat
  | .intLit s => .inr (s.toList.foldl (fun n c => 10 * n + (c.toNat - '0'.toNat)) 0)
  | c => .inl c

/-- Pairs of a letter, of which there are four, and a number. -/
inductive PairTy where
  | pair
  | letter
  | number

def pairShape : PairTy → Shape PairTy
  | .pair => .tuple [.letter, .number]
  | .letter => .variant [(0, none), (1, none), (2, none), (3, none)]
  | .number => .literal

def pairCase (letter : Nat) (number : String) (body : Nat) : PatternCase String Nat where
  pattern := .tuple [.constructor letter none, .constant (.intLit number)]
  whenCondition := none
  body := body

theorem pairCase_typed {letter : Nat} (number : String) (body : Nat) (h : letter < 4) :
    HasTy pairShape (pairCase letter number body).pattern .pair := by
  have hletter : List.lookup letter [(0, none), (1, none), (2, none), (3, (none : Option PairTy))] =
      some none := by
    match letter with
    | 0 | 1 | 2 | 3 => rfl
    | _ + 4 => omega
  refine .tuple rfl rfl fun i p ty hp hty => ?_
  match i with
  | 0 =>
    obtain rfl := Option.some.inj hp
    obtain rfl := Option.some.inj hty
    exact .constant rfl hletter
  | 1 =>
    obtain rfl := Option.some.inj hp
    obtain rfl := Option.some.inj hty
    exact .literal rfl nofun
  | i + 2 => simp at hp

/-- The first letter comes again after all four. -/
def fourLetters : List (PatternCase String Nat) :=
  [pairCase 0 "0" 0, pairCase 1 "0" 1, pairCase 2 "0" 2, pairCase 3 "0" 3, pairCase 0 "1" 4]

theorem fourLetters_typed : ∀ c ∈ fourLetters, HasTy pairShape c.pattern .pair := by
  intro c hc
  simp only [fourLetters, List.mem_cons, List.not_mem_nil, or_false] at hc
  rcases hc with rfl | rfl | rfl | rfl | rfl <;> exact pairCase_typed _ _ (by decide)

theorem switch_tests_fourLetters :
    ∃ tree, compileMatch fourLetters = .ok tree ∧
      (SwitchesExact constantValue (matrixOf fourLetters) tree ↔
        AllRecognised constantValue (matrixOf fourLetters)) :=
  switch_tests_distinct_iff constantValue fourLetters_typed

def rootValues (den : Constant → V) : CompileResult (DecisionTree Ident Expr) →
    Option (List (V ⊕ Nat))
  | .ok (.switch _ cases _) => some (cases.map fun c => testValue den c.1)
  | _ => none

/-- The fourth letter turns the set's tree, so that the first one is not found again. -/
theorem letter_tested_twice :
    (∀ c ∈ fourLetters, HasTy pairShape c.pattern .pair) ∧
      ∃ tree, compileMatch fourLetters = .ok tree ∧
        ¬ SwitchesExact constantValue (matrixOf fourLetters) tree := by
  refine ⟨fourLetters_typed, ?_⟩
  obtain ⟨tree, hok⟩ := compile_ok (matrixOf_typed fourLetters_typed) (Nat.lt_succ_self _)
  refine ⟨tree, hok, fun hexact => ?_⟩
  have hroot : rootValues constantValue (compileMatch fourLetters) =
      some [.inr 0, .inr 3, .inr 2, .inr 1, .inr 0] := by
    decide +kernel
  have htree : compileMatch fourLetters = .ok tree := hok
  rw [htree] at hroot
  cases tree with
  | switch occ cases default =>
    have hdistinct := hexact.distinct occ cases default .root
    rw [Option.some.inj hroot] at hdistinct
    revert hdistinct
    decide
  | fail | leaf | guard => cases hroot

end Example

end Syli.Compiler.PatternMatching
