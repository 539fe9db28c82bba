import Syli.Compiler.LayoutBalance
import Syli.Foundation.Columns

/-! The layout pass line by line, and when it returns. -/
namespace Syli.Compiler.Lexer

open Foundation

variable {stack : List Context} {s : LayoutState} {t : Token} {l toks xs ys zs : List Token}
variable {ls post : List (List Token)} {is : List Int} {n : Int} {pending : Bool}

section Lines

/-- The first line and the later ones: a line break between brackets ends no line. -/
def splitLines (stack : List Context) : List Token → List Token × List (List Token)
  | [] => ([], [])
  | t :: ts =>
    if t = .newline ∧ contextOf stack = .topLevel then
      ([], (splitLines stack ts).1 :: (splitLines stack ts).2)
    else
      (t :: (splitLines (updateStackOnToken stack t) ts).1,
        (splitLines (updateStackOnToken stack t) ts).2)

/-- Lines with the line break before each of them. -/
def broken (ls : List (List Token)) : List Token := ls.flatMap fun l => .newline :: l

theorem broken_append : broken (ls ++ post) = broken ls ++ broken post := List.flatMap_append ..

/-- What follows the first lines. -/
theorem broken_rest (ls post : List (List Token)) :
    broken ls ++ (broken post ++ [Token.eof]) = broken (ls ++ post) ++ [Token.eof] := by
  rw [broken_append, List.append_assoc]

def isSpace : Token → Bool
  | .space _ => true
  | _ => false

/-- The blanks right after the line break. -/
def indentation : List Token → Int
  | .space n :: _ => n
  | _ => 0

def blankLine (l : List Token) : Bool := l.all isSpace

/-- The line starts with an opening bracket. -/
def bracketLine (l : List Token) : Bool :=
  match l.dropWhile isSpace with
  | t :: _ => isOpenConstruct t
  | [] => false

/-- No line break outside brackets stands in the tokens. -/
def OneLine (stack : List Context) : List Token → Prop
  | [] => True
  | t :: ts => ¬ (t = .newline ∧ contextOf stack = .topLevel) ∧
      OneLine (updateStackOnToken stack t) ts

def linesOf (toks : List Token) : List (List Token) :=
  (splitLines [.topLevel] toks).1 :: (splitLines [.topLevel] toks).2

def Lines (stack : List Context) : List (List Token) → Prop
  | [] => True
  | l :: ls => contextOf stack = .topLevel ∧ OneLine stack l ∧ Lines (contexts stack l) ls

theorem splitLines_spec (stack : List Context) (toks : List Token) :
    OneLine stack (splitLines stack toks).1 ∧
      Lines (contexts stack (splitLines stack toks).1) (splitLines stack toks).2 ∧
      toks = (splitLines stack toks).1 ++ broken (splitLines stack toks).2 := by
  induction toks generalizing stack with
  | nil => exact ⟨trivial, trivial, rfl⟩
  | cons t ts ih =>
    unfold splitLines
    split
    · rename_i h
      obtain ⟨rfl, hctx⟩ := h
      obtain ⟨hone, hlines, htoks⟩ := ih stack
      refine ⟨trivial, ⟨hctx, hone, hlines⟩, ?_⟩
      rw [List.nil_append, broken, List.flatMap_cons, List.cons_append]
      exact congrArg _ htoks
    · rename_i h
      obtain ⟨hone, hlines, htoks⟩ := ih (updateStackOnToken stack t)
      exact ⟨⟨h, hone⟩, hlines, congrArg _ htoks⟩

theorem Lines.append (h : Lines stack (ls ++ post)) :
    Lines stack ls ∧ Lines (contexts stack (broken ls)) post := by
  induction ls generalizing stack with
  | nil => exact ⟨trivial, h⟩
  | cons l ls ih =>
    obtain ⟨hctx, hone, hrest⟩ := h
    obtain ⟨hls, hpost⟩ := ih hrest
    refine ⟨⟨hctx, hone, hls⟩, ?_⟩
    have hcontexts : contexts stack (broken (l :: ls)) =
        contexts (contexts stack l) (broken ls) := by
      rw [← contexts_append]
      rfl
    rwa [hcontexts]

end Lines

section LineSteps

/-- A newline or the end of the file opens no bracket. -/
theorem opens_broken (stack : List Context) (post : List (List Token)) :
    opens stack (broken post ++ [Token.eof]) = false := by
  cases post <;> cases h : contextOf stack <;>
    simp [opens, broken, collectWithContext, opensConstruct, skipTopSpaces, isOpenConstruct, h]

theorem opens_line (hctx : contextOf stack = .topLevel)
    (hend : opens (contexts stack l) ys = false) : opens stack (l ++ ys) = bracketLine l := by
  induction l with
  | nil => exact hend
  | cons t l ih =>
    cases t with
    | space n =>
      have hskip : opens stack (.space n :: l ++ ys) = opens stack (l ++ ys) := by
        unfold opens opensConstruct
        rw [List.cons_append, collectWithContext, hctx]
        rfl
      exact hskip.trans (ih hend)
    | _ =>
      unfold opens opensConstruct
      rw [List.cons_append, collectWithContext, hctx]
      rfl

/-- Where no newline is pending, the tokens of a line change nothing. -/
theorem runOver_body (hone : OneLine stack l) (hraw : ∀ t ∈ l, Raw t)
    (hp : s.pendingNewline = false) : runOver stack s l ys = .ok (s, kept l) := by
  obtain ⟨is, p⟩ := s
  obtain rfl : p = false := hp
  induction l generalizing stack with
  | nil => rfl
  | cons t l ih =>
    obtain ⟨ht, hl⟩ := List.forall_mem_cons.mp hraw
    obtain ⟨hbreak, hone⟩ := hone
    have hstep : ∀ tl,
        layoutStep ⟨is, false⟩ t (contextOf stack) tl = .ok (⟨is, false⟩, kept [t]) := by
      intro tl
      obtain ⟨hindent, hdedent, heof⟩ := ht
      cases t with
      | indent => exact (hindent rfl).elim
      | dedent => exact (hdedent rfl).elim
      | eof => exact (heof rfl).elim
      | newline =>
        cases hctx : contextOf stack with
        | inside => rfl
        | topLevel => exact (hbreak ⟨rfl, hctx⟩).elim
      | space n => cases contextOf stack <;> rfl
      | _ => simp [layoutStep, kept, isBlankToken]
    have hkept : kept (t :: l) = kept [t] ++ kept l := by
      rw [← kept_append]
      rfl
    rw [runOver_cons, hstep, hkept]
    exact andThen_ok (ih hone hl)

/-- Where a newline is pending, the first token of the line moves to its column. -/
theorem runOver_pending (hctx : contextOf stack = .topLevel) (hone : OneLine stack l)
    (hraw : ∀ t ∈ l, Raw t) (hne : l ≠ []) : runOver stack ⟨is, true⟩ l ys =
      (emitIndentChange is (indentation l)).map fun r => (⟨r.1, false⟩, r.2 ++ kept l) := by
  cases l with
  | nil => exact (hne rfl).elim
  | cons t l =>
    obtain ⟨ht, hl⟩ := List.forall_mem_cons.mp hraw
    obtain ⟨hbreak, hone⟩ := hone
    obtain ⟨hindent, hdedent, heof⟩ := ht
    have hbody : ∀ is, runOver (updateStackOnToken stack t) ⟨is, false⟩ l ys =
        .ok (⟨is, false⟩, kept l) := fun is => runOver_body hone hl rfl
    rw [runOver_cons, hctx]
    cases t with
    | indent => exact (hindent rfl).elim
    | dedent => exact (hdedent rfl).elim
    | eof => exact (heof rfl).elim
    | newline => exact (hbreak ⟨rfl, hctx⟩).elim
    | space n =>
      simp only [layoutStep, if_true, andThen_assoc, andThen_silent, hbody, indentation]
      cases emitIndentChange is n <;> simp [andThen, Except.map, kept, isBlankToken]
    | _ =>
      simp only [layoutStep, and_self, if_true, andThen_assoc, indentation]
      cases emitIndentChange is 0 with
      | error => rfl
      | ok r => simp [andThen, Except.map, hbody, kept, isBlankToken]

/-- A line changes the columns by its indentation, unless it is empty or starts with a bracket. -/
theorem runOver_line (hctx : contextOf stack = .topLevel) (hone : OneLine stack l)
    (hraw : ∀ t ∈ l, Raw t) (hend : opens (contexts stack l) ys = false) :
    runOver stack s (.newline :: l) ys =
      if bracketLine l = true then .ok (⟨s.indents, false⟩, kept l)
      else if l = [] then .ok (⟨s.indents, true⟩, [.newline])
      else (emitIndentChange s.indents (indentation l)).map fun r =>
        (⟨r.1, false⟩, .newline :: (r.2 ++ kept l)) := by
  have hopens : opensConstruct (collectWithContext stack (l ++ ys)) = bracketLine l :=
    opens_line hctx hend
  rw [runOver_cons, hctx]
  simp only [layoutStep, updateStackOnToken, hopens]
  by_cases hbracket : bracketLine l = true
  · rw [if_pos hbracket, if_pos hbracket, andThen_silent, runOver_body hone hraw rfl]
  · rw [if_neg hbracket, if_neg hbracket]
    by_cases hnil : l = []
    · subst hnil
      rfl
    · rw [if_neg hnil]
      have hrest : runOver stack ⟨s.indents, true⟩ l ys = _ :=
        runOver_pending hctx hone hraw hnil
      cases hemit : emitIndentChange s.indents (indentation l) with
      | error e =>
        rw [hemit] at hrest
        exact andThen_failed hrest
      | ok r =>
        rw [hemit] at hrest
        exact andThen_ok hrest

/-- A run over lines is a run over the first one and then over the rest. -/
theorem runOver_broken_cons (l : List Token) (ls post : List (List Token)) :
    runOver stack s (broken (l :: ls)) (broken post ++ [Token.eof]) =
      andThen (runOver stack s (.newline :: l) (broken (ls ++ post) ++ [Token.eof]))
        fun s' => runOver (contexts stack l) s' (broken ls) (broken post ++ [Token.eof]) := by
  have hbroken : broken (l :: ls) = (.newline :: l) ++ broken ls := rfl
  rw [hbroken, runOver_append, broken_rest]
  rfl

end LineSteps

section Columns

/-- The columns above 0 after a line. -/
def reindent (is : List Int) (l : List Token) : List Int :=
  if bracketLine l = true ∨ l = [] then is else enter 0 is (indentation l)

/-- The indentations of the lines, the latest first, where empty lines and those that start with a
bracket have none. -/
def depths (ls : List (List Token)) : List Int :=
  ((ls.filter fun l => !bracketLine l && !l.isEmpty).map indentation).reverse

/-- Where the layout pass measures the line, its column is not negative. -/
def NonnegLine (l : List Token) : Prop := bracketLine l = false → 0 ≤ indentation l

instance : DecidablePred NonnegLine := fun l =>
  inferInstanceAs (Decidable (bracketLine l = false → 0 ≤ indentation l))

def NonnegColumns (toks : List Token) : Prop := ∀ l ∈ (linesOf toks).tail, NonnegLine l

/-- The tokens of a change to column `n`. -/
def changes (is : List Int) (n : Int) : List Token :=
  if is.headD 0 < n then [.indent]
  else List.replicate (is.takeWhile fun i => n < i).length .dedent

/-- The tokens of a line with the change of column before it. -/
def lineOutput (is : List Int) (l : List Token) : List Token :=
  if bracketLine l = true then kept l
  else .newline :: (if l = [] then [] else changes is (indentation l) ++ kept l)

def linesOutput (is : List Int) : List (List Token) → List Token
  | [] => []
  | l :: ls => lineOutput is l ++ linesOutput (reindent is l) ls

theorem dedents_columns (is : List Int) (hn : 0 ≤ n) : dedents n (is ++ [0]) =
    .ok ((is.dropWhile fun i => n < i) ++ [0],
      List.replicate (is.takeWhile fun i => n < i).length .dedent) := by
  induction is with
  | nil =>
    rw [List.nil_append, dedents, if_neg (not_lt.mpr hn)]
    rfl
  | cons i is ih =>
    rw [List.cons_append, dedents, List.dropWhile_cons, List.takeWhile_cons]
    by_cases h : n < i
    · simp only [h, if_true, decide_true, ih]
      rfl
    · simp only [h, if_false, decide_false]
      rfl

theorem emitIndentChange_columns (is : List Int) (hn : 0 ≤ n) :
    emitIndentChange (is ++ [0]) n = .ok (enter 0 is n ++ [0], changes is n) := by
  obtain ⟨i, rest, hcons, hi⟩ : ∃ i rest, is ++ [0] = i :: rest ∧ is.headD 0 = i := by
    cases is with
    | nil => exact ⟨0, [], rfl, rfl⟩
    | cons i is => exact ⟨i, is ++ [0], rfl, rfl⟩
  have hdedents := dedents_columns is hn
  rw [hcons] at hdedents
  rw [hcons, emitIndentChange, enter, changes, hi]
  by_cases h : i < n
  · rw [if_pos h, if_pos h, if_pos h, ← hcons]
    rfl
  · rw [if_neg h, if_neg h, if_neg h, hdedents]

/-- A column below all of the stack empties it. -/
theorem dedents_fails (h : ∀ i ∈ is, n < i) : dedents n is = .error "hd" := by
  induction is with
  | nil => rfl
  | cons i is ih =>
    obtain ⟨hi, his⟩ := List.forall_mem_cons.mp h
    rw [dedents, if_pos hi, ih his]
    rfl

theorem emitIndentChange_fails (h : NestedColumns 0 is) (hn : n < 0) :
    emitIndentChange (is ++ [0]) n = .error "hd" := by
  have hall : ∀ i ∈ is ++ [0], n < i := fun i hi => hn.trans_le (h.base_le hi)
  have hfails := dedents_fails hall
  cases is with
  | nil =>
    rw [List.nil_append, emitIndentChange, if_neg (not_lt.mpr hn.le)]
    exact hfails
  | cons i is =>
    rw [List.cons_append, emitIndentChange, if_neg (not_lt.mpr (hall i List.mem_cons_self).le)]
    exact hfails

theorem reindent_nested (h : NestedColumns 0 is) : NestedColumns 0 (reindent is l) := by
  unfold reindent
  split
  · exact h
  · exact h.enter

theorem depths_concat : depths (ls ++ [l]) =
    if bracketLine l = true ∨ l = [] then depths ls else indentation l :: depths ls := by
  unfold depths
  rw [List.filter_append, List.map_append, List.reverse_append]
  cases l with
  | nil => simp
  | cons t l => cases h : bracketLine (t :: l) <;> simp [h]

theorem depths_nonneg (h : ∀ l ∈ ls, NonnegLine l) : ∀ n ∈ depths ls, 0 ≤ n := by
  intro n hn
  obtain ⟨l, hl, rfl⟩ := List.mem_map.mp (List.mem_reverse.mp hn)
  obtain ⟨hmem, hmeasured⟩ := List.mem_filter.mp hl
  simp only [Bool.and_eq_true, Bool.not_eq_true'] at hmeasured
  exact h l hmem hmeasured.1

theorem foldl_reindent (ls : List (List Token)) :
    ls.foldl reindent [] = columns 0 (depths ls) := by
  induction ls using List.reverseRecOn with
  | nil => rfl
  | append_singleton ls l ih =>
    rw [List.foldl_append, ih, depths_concat, List.foldl_cons, List.foldl_nil, reindent]
    split <;> rfl

variable (hctx : contextOf stack = .topLevel) (hone : OneLine stack l) (hraw : ∀ t ∈ l, Raw t)
  (hend : opens (contexts stack l) ys = false)

include hctx hone hraw hend

theorem runOver_line_ok (is : List Int) (pending : Bool) (hl : NonnegLine l) :
    ∃ p, runOver stack ⟨is ++ [0], pending⟩ (.newline :: l) ys =
      .ok (⟨reindent is l ++ [0], p⟩, lineOutput is l) := by
  rw [runOver_line hctx hone hraw hend, reindent, lineOutput]
  by_cases hbracket : bracketLine l = true
  · simp [hbracket]
  · by_cases hnil : l = []
    · simp [hnil, bracketLine]
    · have hn := hl (Bool.eq_false_of_not_eq_true hbracket)
      simp [hbracket, hnil, emitIndentChange_columns is hn, Except.map]

theorem runOver_line_fails (h : NestedColumns 0 is) (hl : ¬ NonnegLine l) :
    runOver stack ⟨is ++ [0], pending⟩ (.newline :: l) ys = .error "hd" := by
  obtain ⟨hbracket, hn⟩ := Classical.not_imp.mp hl
  have hnil : l ≠ [] := by
    rintro rfl
    exact hn le_rfl
  rw [runOver_line hctx hone hraw hend, if_neg (by simp [hbracket]), if_neg hnil,
    emitIndentChange_fails h (not_le.mp hn)]
  rfl

end Columns

section Returns

/-- The columns and the output after a run of lines. -/
theorem runOver_broken (is : List Int) (pending : Bool) (hlines : Lines stack ls)
    (hraw : ∀ l ∈ ls, ∀ t ∈ l, Raw t) (hnonneg : ∀ l ∈ ls, NonnegLine l)
    (post : List (List Token)) :
    ∃ p, runOver stack ⟨is ++ [0], pending⟩ (broken ls) (broken post ++ [.eof]) =
      .ok (⟨ls.foldl reindent is ++ [0], p⟩, linesOutput is ls) := by
  induction ls generalizing stack is pending with
  | nil => exact ⟨pending, rfl⟩
  | cons l ls ih =>
    obtain ⟨hctx, hone, hlines⟩ := hlines
    obtain ⟨hl, hls⟩ := List.forall_mem_cons.mp hraw
    obtain ⟨hln, hlsn⟩ := List.forall_mem_cons.mp hnonneg
    obtain ⟨p, hline⟩ := runOver_line_ok hctx hone hl
      (opens_broken (contexts stack l) (ls ++ post)) is pending hln
    obtain ⟨p', hrest⟩ := ih (reindent is l) p hlines hls hlsn
    rw [runOver_broken_cons, hline]
    exact ⟨p', andThen_ok hrest⟩

/-- The first negative column ends the run. -/
theorem runOver_broken_fails (hlines : Lines stack ls) (hraw : ∀ l ∈ ls, ∀ t ∈ l, Raw t)
    (hnested : NestedColumns 0 is) (hneg : ∃ l ∈ ls, ¬ NonnegLine l) (post : List (List Token)) :
    runOver stack ⟨is ++ [0], pending⟩ (broken ls) (broken post ++ [.eof]) = .error "hd" := by
  induction ls generalizing stack is pending with
  | nil =>
    obtain ⟨l, hl, -⟩ := hneg
    cases hl
  | cons l ls ih =>
    obtain ⟨hctx, hone, hlines⟩ := hlines
    obtain ⟨hl, hls⟩ := List.forall_mem_cons.mp hraw
    have hend := opens_broken (contexts stack l) (ls ++ post)
    rw [runOver_broken_cons]
    by_cases hln : NonnegLine l
    · obtain ⟨p, hline⟩ := runOver_line_ok hctx hone hl hend is pending hln
      rw [hline]
      refine andThen_failed (ih hlines hls (reindent_nested hnested) ?_)
      obtain ⟨l', hl', hneg⟩ := hneg
      rcases List.mem_cons.mp hl' with rfl | hl'
      · exact (hneg hln).elim
      · exact ⟨l', hl', hneg⟩
    · rw [runOver_line_fails hctx hone hl hend hnested hln]
      rfl

theorem layoutStep_eof_ok (is : List Int) (pending : Bool) (ctx : Context) :
    ∃ r, layoutStep ⟨is ++ [0], pending⟩ .eof ctx [] = .ok r := by
  simp only [layoutStep]
  split
  · rw [emitIndentChange_columns is le_rfl]
    exact ⟨_, andThen_ok rfl⟩
  · exact ⟨_, rfl⟩

theorem linesOf_spec (hraw : ∀ t ∈ toks, Raw t) (h : linesOf toks = l :: ls) :
    OneLine [.topLevel] l ∧ Lines (contexts [.topLevel] l) ls ∧ (∀ t ∈ l, Raw t) ∧
      (∀ l' ∈ ls, ∀ t ∈ l', Raw t) ∧ toks = l ++ broken ls := by
  obtain ⟨hone, hlines, htoks⟩ := splitLines_spec [.topLevel] toks
  obtain ⟨rfl, rfl⟩ := List.cons.inj h
  refine ⟨hone, hlines, fun t ht => hraw t ?_, fun l' hl' t ht => hraw t ?_, htoks⟩
  · exact htoks ▸ List.mem_append_left _ ht
  · refine htoks ▸ List.mem_append_right _ (List.mem_flatMap.mpr ⟨l', hl', ?_⟩)
    exact List.mem_cons_of_mem _ ht

/-- The layout pass returns exactly where no column that it measures is negative. -/
theorem returns_iff (hraw : ∀ t ∈ toks, Raw t) :
    (∃ r, runFrom [.topLevel] start (toks ++ [.eof]) = .ok r) ↔ NonnegColumns toks := by
  obtain ⟨l, ls, h⟩ : ∃ l ls, linesOf toks = l :: ls := ⟨_, _, rfl⟩
  obtain ⟨hone, hlines, hl, hls, htoks⟩ := linesOf_spec hraw h
  have hsplit : toks ++ [.eof] = l ++ (broken ls ++ (broken [] ++ [.eof])) := by
    rw [htoks, List.append_assoc]
    rfl
  have hfirst : ∀ ys, runOver [.topLevel] start l ys = .ok (start, kept l) :=
    fun ys => runOver_body hone hl rfl
  have hrun : runFrom [.topLevel] start (toks ++ [.eof]) =
      andThen (.ok (start, kept l)) fun s' => andThen (runOver (contexts [.topLevel] l) s'
        (broken ls) (broken [] ++ [.eof])) fun s' =>
          runFrom (contexts (contexts [.topLevel] l) (broken ls)) s' [.eof] := by
    rw [hsplit, runFrom_append, hfirst]
    exact andThen_congr fun s' out _ => runFrom_append
  have hstart : start = ⟨[] ++ [0], false⟩ := rfl
  rw [NonnegColumns, h, List.tail_cons, hrun, andThen_returns, hstart]
  constructor
  · rintro ⟨r, hr⟩
    by_contra hneg
    have hneg : ∃ l ∈ ls, ¬ NonnegLine l := by simpa using hneg
    rw [runOver_broken_fails hlines hls nestedColumns_nil hneg []] at hr
    cases hr
  · intro hnonneg
    obtain ⟨p, hover⟩ := runOver_broken [] false hlines hls hnonneg []
    obtain ⟨r, heof⟩ := layoutStep_eof_ok (ls.foldl reindent []) p
      (contextOf (contexts (contexts [.topLevel] l) (broken ls)))
    rw [hover, andThen_returns, runFrom_cons, collectWithContext, heof]
    exact ⟨_, andThen_ok rfl⟩

end Returns

/-- The layout pass opens as many blocks as it closes, keeps all tokens but the blanks, and emits no
layout between brackets, exactly where no measured column is negative. -/
theorem layout_balanced (toks : List Token) (hraw : ∀ t ∈ toks, Raw t) :
    (∀ n is, Pops n is (dedents n is)) ∧ (Balanced toks ↔ NonnegColumns toks) :=
  ⟨pops_dedents, (balanced_iff hraw).trans (returns_iff hraw)⟩

/-- An indented line opens one block, which is closed at the end of the file. -/
theorem layout_balanced_line : Balanced [.word ['f'], .newline, .space 4, .word ['x']] :=
  (layout_balanced [.word ['f'], .newline, .space 4, .word ['x']] (by simp [Raw])).2.mpr
    (by unfold NonnegColumns; decide)

/-- Where a tab counts -1, a tab at the start of a line empties the stack. -/
theorem negative_column_fails :
    lex (-1) ['a', '\n', '\t', 'b'] =
        .ok ([.word ['a'], .newline, .space (-1), .word ['b']] ++ [.eof]) ∧
      layout (collectWithContext [.topLevel]
        ([.word ['a'], .newline, .space (-1), .word ['b']] ++ [.eof])) = .error "hd" ∧
      ¬ Balanced [.word ['a'], .newline, .space (-1), .word ['b']] := by
  refine ⟨by decide +kernel, rfl, ?_⟩
  rintro ⟨out, hout, -⟩
  cases hout

end Syli.Compiler.Lexer
