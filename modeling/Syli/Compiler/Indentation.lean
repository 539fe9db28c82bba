import Syli.Compiler.LayoutLines

/-! Whether the layout pass reads the indentation of the lines consistently. -/
namespace Syli.Compiler.Lexer

open Foundation

variable {stack : List Context} {l toks xs ys zs : List Token}
variable {ls pre post : List (List Token)} {is : List Int} {n : Int}

def joined : List (List Token) → List Token
  | [] => []
  | l :: ls => l ++ broken ls

/-- The `indent_stack` after `xs`, where `ys` follow. -/
def stackAfter (xs ys : List Token) : Except String (List Int) :=
  (runOver [.topLevel] start xs ys).map fun r => r.1.indents

/-- What is emitted for `ys`, where `xs` stand before and `zs` follow. -/
def emitted (xs ys zs : List Token) : Except String (List Token) := do
  let r ← runOver [.topLevel] start xs (ys ++ zs)
  (runOver (contexts [.topLevel] xs) r.1 ys zs).map Prod.snd

/-- A line outside brackets that is not blank and does not start with an opening bracket. -/
def TextLine (l : List Token) : Prop := blankLine l = false ∧ bracketLine l = false

/-- The layout pass returns, after each line the top of the stack is its indentation, and between
consecutive lines of the same indentation no block opens or closes. -/
structure ReadsIndentation (toks : List Token) : Prop where
  returns : ∃ out, layout (collectWithContext [.topLevel] (toks ++ [.eof])) = .ok out
  top : ∀ pre l post, linesOf toks = pre ++ l :: post → TextLine l →
    ∃ is, stackAfter (joined (pre ++ [l])) (broken post ++ [.eof]) = .ok (indentation l :: is)
  quiet : ∀ pre l blanks l' post, linesOf toks = pre ++ l :: (blanks ++ l' :: post) →
    TextLine l → TextLine l' → (∀ b ∈ blanks, blankLine b = true) →
    indentation l = indentation l' →
    ∃ out, emitted (joined (pre ++ [l])) (broken (blanks ++ [l'])) (broken post ++ [.eof]) =
      .ok out ∧ ∀ t ∈ out, t ≠ .indent ∧ t ≠ .dedent

/-- The first line stands at column 0, and a later one opens a column or returns to one that the lines
before it left open. -/
def Placed : List (List Token) → List Token → Prop
  | [], l => indentation l = 0
  | _ :: pre, l => FitsColumns 0 (depths pre) (indentation l)

/-- No column is negative, the lines are well placed, and blanks on an empty line do not leave the
column of the lines around it. -/
structure WellIndented (toks : List Token) : Prop where
  nonneg : NonnegColumns toks
  placed : ∀ pre l post, linesOf toks = pre ++ l :: post → TextLine l → Placed pre l
  blanks : ∀ pre l blanks l' post, linesOf toks = pre ++ l :: (blanks ++ l' :: post) →
    TextLine l → TextLine l' → (∀ b ∈ blanks, blankLine b = true) →
    indentation l = indentation l' → ∀ b ∈ blanks, b = [] ∨ indentation b = indentation l

section Cuts

/-- The output is what is emitted for its parts. -/
theorem layout_emitted : layout (collectWithContext [.topLevel] (xs ++ (ys ++ zs))) = do
    let before ← emitted [] xs (ys ++ zs)
    let here ← emitted xs ys zs
    let after ← emitted (xs ++ ys) zs []
    return before ++ (here ++ after) := by
  have hlast : ∀ stack s, runFrom stack s zs = runOver stack s zs [] :=
    fun _ _ => layoutOver_nil.symm
  have hfirst : emitted [] xs (ys ++ zs) =
      (runOver [.topLevel] start xs (ys ++ zs)).map Prod.snd := rfl
  rw [layout_eq, runFrom_append, hfirst]
  unfold emitted
  rw [runOver_append, List.append_nil, contexts_append]
  cases hxs : runOver [.topLevel] start xs (ys ++ zs) with
  | error => rfl
  | ok r =>
    simp only [runFrom_append, andThen, hlast]
    cases hys : runOver (contexts [.topLevel] xs) r.1 ys zs with
    | error => simp [hys, Except.map, bind, Except.bind]
    | ok r' =>
      cases hzs : runOver (contexts (contexts [.topLevel] xs) ys) r'.1 zs [] with
      | error => simp [hys, hzs, Except.map, bind, Except.bind]
      | ok r'' => simp [hys, hzs, Except.map, bind, Except.bind, pure, Except.pure]

/-- The state after a first part of the lines. -/
theorem runOver_joined (l : List Token) (ls post : List (List Token)) (hraw : ∀ t ∈ toks, Raw t)
    (hnonneg : NonnegColumns toks) (h : linesOf toks = (l :: ls) ++ post) :
    ∃ p out, runOver [.topLevel] start (joined (l :: ls)) (broken post ++ [.eof]) =
      .ok (⟨columns 0 (depths ls) ++ [0], p⟩, out) := by
  obtain ⟨hone, hlines, hl, hls, -⟩ := linesOf_spec hraw h
  obtain ⟨hlines, -⟩ := hlines.append
  have hrawls : ∀ l' ∈ ls, ∀ t ∈ l', Raw t := fun l' hl' => hls l' (List.mem_append_left _ hl')
  have hnonnegls : ∀ l' ∈ ls, NonnegLine l' := by
    intro l' hl'
    rw [NonnegColumns, h] at hnonneg
    exact hnonneg l' (List.mem_append_left _ hl')
  obtain ⟨p, hrun⟩ := runOver_broken [] false hlines hrawls hnonnegls post
  rw [joined, runOver_append, broken_rest, runOver_body hone hl rfl, ← foldl_reindent]
  exact ⟨p, _, andThen_ok hrun⟩

theorem stackAfter_joined (l : List Token) (ls post : List (List Token))
    (hraw : ∀ t ∈ toks, Raw t) (hnonneg : NonnegColumns toks)
    (h : linesOf toks = (l :: ls) ++ post) :
    stackAfter (joined (l :: ls)) (broken post ++ [.eof]) =
      .ok (columns 0 (depths ls) ++ [0]) := by
  obtain ⟨p, out, hrun⟩ := runOver_joined l ls post hraw hnonneg h
  rw [stackAfter, hrun]
  rfl

/-- The top of the stack over the base 0. -/
theorem head_iff : (∃ is', (Except.ok (is ++ [0]) : Except String _) = .ok (n :: is')) ↔
    is.headD 0 = n := by
  cases is with
  | nil => simp
  | cons i is => simp

end Cuts

section Quiet

def Quiet (ts : List Token) : Prop := ∀ t ∈ ts, t ≠ .indent ∧ t ≠ .dedent

theorem quiet_append : Quiet (xs ++ ys) ↔ Quiet xs ∧ Quiet ys := List.forall_mem_append

theorem quiet_kept (hraw : ∀ t ∈ l, Raw t) : Quiet (kept l) := by
  intro t ht
  obtain ⟨hindent, hdedent, -⟩ := hraw t (List.mem_filter.mp ht).1
  exact ⟨hindent, hdedent⟩

/-- Nothing changes where the line stands at the top of the stack, and only there. -/
theorem quiet_changes (hn : 0 ≤ n) : Quiet (changes is n) ↔ n = is.headD 0 := by
  unfold changes
  split
  · rename_i hlt
    refine ⟨fun h => ((h _ List.mem_cons_self).1 rfl).elim, ?_⟩
    rintro rfl
    exact (hlt.false).elim
  · rename_i hle
    cases is with
    | nil =>
      have hzero : n = 0 := le_antisymm (not_lt.mp hle) hn
      exact ⟨fun _ => hzero, fun _ t ht => by cases ht⟩
    | cons i is =>
      rw [List.headD_cons] at hle ⊢
      rw [List.takeWhile_cons]
      split
      · rename_i hlt
        have hlt : n < i := by simpa using hlt
        refine ⟨fun h => ((h .dedent (by simp)).2 rfl).elim, ?_⟩
        rintro rfl
        exact (hlt.false).elim
      · rename_i hnot
        have hnot : ¬ n < i := by simpa using hnot
        exact ⟨fun _ => by omega, fun _ t ht => by cases ht⟩

theorem enter_headD : enter 0 is (is.headD 0) = is := by
  unfold enter
  rw [if_neg (lt_irrefl _)]
  cases is with
  | nil => rfl
  | cons i is => rw [List.headD_cons, List.dropWhile_cons, if_neg (by simp)]

/-- The lines are quiet exactly when all of them stand at the top of the stack. -/
theorem quiet_linesOutput_iff (is : List Int) (hraw : ∀ l ∈ ls, ∀ t ∈ l, Raw t)
    (hnonneg : ∀ l ∈ ls, NonnegLine l) (hbracket : ∀ l ∈ ls, bracketLine l = false) :
    Quiet (linesOutput is ls) ↔ ∀ l ∈ ls, l = [] ∨ indentation l = is.headD 0 := by
  induction ls generalizing is with
  | nil =>
    constructor
    · exact fun _ => List.forall_mem_nil _
    · exact fun _ => List.forall_mem_nil _
  | cons l ls ih =>
    obtain ⟨hl, hls⟩ := List.forall_mem_cons.mp hraw
    obtain ⟨hln, hlsn⟩ := List.forall_mem_cons.mp hnonneg
    obtain ⟨hlb, hlsb⟩ := List.forall_mem_cons.mp hbracket
    have hnewline : Quiet [.newline] := by simp [Quiet]
    rw [linesOutput, quiet_append, ih _ hls hlsn hlsb, lineOutput, if_neg (by simp [hlb]),
      List.forall_mem_cons, reindent]
    by_cases hnil : l = []
    · rw [if_pos hnil, if_pos (Or.inr hnil)]
      exact and_congr_left fun _ => ⟨fun _ => Or.inl hnil, fun _ => hnewline⟩
    · have hquiet : Quiet (.newline :: (changes is (indentation l) ++ kept l)) ↔
          indentation l = is.headD 0 := by
        rw [← List.singleton_append, quiet_append, quiet_append, quiet_changes (hln hlb)]
        exact ⟨fun h => h.2.1, fun h => ⟨hnewline, h, quiet_kept hl⟩⟩
      rw [if_neg hnil, if_neg (by simp [hlb, hnil]), hquiet]
      constructor
      · rintro ⟨htop, hall⟩
        rw [htop, enter_headD] at hall
        exact ⟨Or.inr htop, hall⟩
      · rintro ⟨htop, hall⟩
        have htop := htop.resolve_left hnil
        rw [htop, enter_headD]
        exact ⟨rfl, hall⟩

end Quiet

section Exact

theorem depths_text (hl : TextLine l) : depths (ls ++ [l]) = indentation l :: depths ls := by
  obtain ⟨hblank, hbracket⟩ := hl
  have hnil : l ≠ [] := by
    rintro rfl
    exact absurd hblank (by decide)
  rw [depths_concat, if_neg (by simp [hbracket, hnil])]

theorem placed_iff (hraw : ∀ t ∈ toks, Raw t) (hnonneg : NonnegColumns toks)
    (h : linesOf toks = pre ++ l :: post) (hl : TextLine l) :
    (∃ is, stackAfter (joined (pre ++ [l])) (broken post ++ [.eof]) =
      .ok (indentation l :: is)) ↔ Placed pre l := by
  cases pre with
  | nil =>
    rw [List.nil_append, stackAfter_joined l [] post hraw hnonneg h, head_iff]
    exact eq_comm
  | cons first pre =>
    have hsplit : linesOf toks = (first :: (pre ++ [l])) ++ post := by simpa using h
    have hall : ∀ l' ∈ pre ++ [l], NonnegLine l' := by
      intro l' hl'
      rw [NonnegColumns, hsplit] at hnonneg
      exact hnonneg l' (List.mem_append_left _ hl')
    have hdepths := depths_nonneg hall
    rw [depths_text hl] at hdepths
    obtain ⟨hn, hms⟩ := List.forall_mem_cons.mp hdepths
    rw [List.cons_append, stackAfter_joined first (pre ++ [l]) post hraw hnonneg hsplit, head_iff,
      depths_text hl]
    exact fitsColumns_iff hn hms

theorem bracketLine_blank (h : blankLine l = true) : bracketLine l = false := by
  have hall : l.dropWhile isSpace = [] :=
    List.dropWhile_eq_nil_iff.mpr (by simpa [blankLine] using h)
  rw [bracketLine, hall]

/-- The lines between two of the same indentation are quiet where their blanks stand at its column. -/
theorem blanks_iff {blanks : List (List Token)} {l' : List Token} (hraw : ∀ t ∈ toks, Raw t)
    (hnonneg : NonnegColumns toks) (h : linesOf toks = pre ++ l :: (blanks ++ l' :: post))
    (hl' : TextLine l') (hblanks : ∀ b ∈ blanks, blankLine b = true)
    (heq : indentation l = indentation l')
    (htop : ∃ is, stackAfter (joined (pre ++ [l])) (broken (blanks ++ l' :: post) ++ [.eof]) =
      .ok (indentation l :: is)) :
    (∃ out, emitted (joined (pre ++ [l])) (broken (blanks ++ [l'])) (broken post ++ [.eof]) =
      .ok out ∧ Quiet out) ↔ ∀ b ∈ blanks, b = [] ∨ indentation b = indentation l := by
  obtain ⟨first, before, hpre⟩ : ∃ first before, pre ++ [l] = first :: before := by
    cases pre with
    | nil => exact ⟨l, [], rfl⟩
    | cons first pre => exact ⟨first, pre ++ [l], rfl⟩
  have hsplit : linesOf toks = first :: (before ++ ((blanks ++ [l']) ++ post)) := by
    have hall := congrArg (· ++ (blanks ++ l' :: post)) hpre
    rw [h]
    simpa using hall
  obtain ⟨hone, hlines, -, hrawls, -⟩ := linesOf_spec hraw hsplit
  obtain ⟨-, hlines⟩ := hlines.append
  obtain ⟨hlines, -⟩ := hlines.append
  have hcontexts : contexts [.topLevel] (joined (first :: before)) =
      contexts (contexts [.topLevel] first) (broken before) := contexts_append
  have hrest : broken (blanks ++ [l']) ++ (broken post ++ [.eof]) =
      broken (blanks ++ l' :: post) ++ [.eof] := by
    simp [broken_rest]
  have hbracket : ∀ b ∈ blanks ++ [l'], bracketLine b = false := by
    intro b hb
    rcases List.mem_append.mp hb with hb | hb
    · exact bracketLine_blank (hblanks b hb)
    · exact List.mem_singleton.mp hb ▸ hl'.2
  have hrawb : ∀ b ∈ blanks ++ [l'], ∀ t ∈ b, Raw t := fun b hb =>
    hrawls b (List.mem_append_right _ (List.mem_append_left _ hb))
  have hnonnegb : ∀ b ∈ blanks ++ [l'], NonnegLine b := by
    intro b hb
    rw [NonnegColumns, hsplit] at hnonneg
    exact hnonneg b (List.mem_append_right _ (List.mem_append_left _ hb))
  have hpost : linesOf toks = (first :: before) ++ (blanks ++ l' :: post) := by simpa using hsplit
  obtain ⟨p, out, hrun⟩ := runOver_joined first before (blanks ++ l' :: post) hraw hnonneg hpost
  obtain ⟨p', hover⟩ := runOver_broken (columns 0 (depths before)) p hlines hrawb hnonnegb post
  rw [hpre, stackAfter_joined first before _ hraw hnonneg hpost, head_iff] at htop
  have hemitted : emitted (joined (pre ++ [l])) (broken (blanks ++ [l'])) (broken post ++ [.eof]) =
      .ok (linesOutput (columns 0 (depths before)) (blanks ++ [l'])) := by
    rw [emitted, hpre, hrest, hrun, hcontexts]
    exact congrArg (Except.map Prod.snd) hover
  rw [hemitted]
  have hquiet := quiet_linesOutput_iff (columns 0 (depths before)) hrawb hnonnegb hbracket
  rw [htop] at hquiet
  constructor
  · rintro ⟨_, ⟨⟩, hall⟩ b hb
    exact hquiet.mp hall b (List.mem_append_left _ hb)
  · intro hall
    refine ⟨_, rfl, hquiet.mpr fun b hb => ?_⟩
    rcases List.mem_append.mp hb with hb | hb
    · exact hall b hb
    · exact Or.inr (List.mem_singleton.mp hb ▸ heq.symm)

theorem layout_returns_iff (hraw : ∀ t ∈ toks, Raw t) :
    (∃ out, layout (collectWithContext [.topLevel] (toks ++ [.eof])) = .ok out) ↔
      NonnegColumns toks := by
  rw [← returns_iff hraw, layout_eq]
  cases runFrom [.topLevel] start (toks ++ [.eof]) <;> simp [Except.map]

/-- The indentation is read consistently exactly where no column is negative, every line opens a column
or returns to an open one, and the blanks of empty lines keep the column. -/
theorem readsIndentation_iff (toks : List Token) (hraw : ∀ t ∈ toks, Raw t) :
    ReadsIndentation toks ↔ WellIndented toks := by
  constructor
  · intro h
    have hnonneg := (layout_returns_iff hraw).mp h.returns
    refine ⟨hnonneg, fun pre l post heq hl =>
      (placed_iff hraw hnonneg heq hl).mp (h.top pre l post heq hl), ?_⟩
    intro pre l blanks l' post heq hl hl' hblanks hsame
    exact (blanks_iff hraw hnonneg heq hl' hblanks hsame (h.top pre l _ heq hl)).mp
      (h.quiet pre l blanks l' post heq hl hl' hblanks hsame)
  · intro h
    have htop : ∀ pre l post, linesOf toks = pre ++ l :: post → TextLine l →
        ∃ is, stackAfter (joined (pre ++ [l])) (broken post ++ [.eof]) =
          .ok (indentation l :: is) :=
      fun pre l post heq hl => (placed_iff hraw h.nonneg heq hl).mpr (h.placed pre l post heq hl)
    refine ⟨(layout_returns_iff hraw).mpr h.nonneg, htop, ?_⟩
    intro pre l blanks l' post heq hl hl' hblanks hsame
    exact (blanks_iff hraw h.nonneg heq hl' hblanks hsame (htop pre l _ heq hl)).mpr
      (h.blanks pre l blanks l' post heq hl hl' hblanks hsame)

/-- A block that is left for its own column. -/
theorem readsIndentation_iff_block :
    ReadsIndentation [.word ['f'], .newline, .space 4, .word ['x'], .newline, .word ['g']] ↔
      WellIndented [.word ['f'], .newline, .space 4, .word ['x'], .newline, .word ['g']] :=
  readsIndentation_iff _ (by simp [Raw])

/-- Two lines at column 2, to which no line went deeper: the second one opens a block. -/
theorem dedent_reopens : ¬ ReadsIndentation [.word ['f'], .newline, .space 4, .word ['x'],
    .newline, .space 2, .word ['y'], .newline, .space 2, .word ['z']] := by
  intro h
  obtain ⟨out, hout, hquiet⟩ := h.quiet [[.word ['f']], [.space 4, .word ['x']]]
    [.space 2, .word ['y']] [] [.space 2, .word ['z']] [] (by decide) ⟨rfl, rfl⟩ ⟨rfl, rfl⟩
    (List.forall_mem_nil _) rfl
  obtain rfl : [.newline, .indent, .word ['z']] = out := Except.ok.inj hout
  exact (hquiet .indent (by decide)).1 rfl

end Exact

end Syli.Compiler.Lexer
