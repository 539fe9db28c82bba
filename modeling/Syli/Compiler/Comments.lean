import Syli.Compiler.CommentEdits

/-! Which blank lines and comments the layout pass does not see. -/
namespace Syli.Compiler.Lexer

open Foundation

variable {identation : Int} {before after : List Char} {l : Line} {ts : List Token} {e : Edit}
  {c y x : List Char} {t : Token}

/-- The tokens for a text that begins with the raw tokens `ts`. -/
theorem wrapLexer_of_reads (h : Reads identation x ts y) :
    (wrapLexer identation x).map collapse =
      lex identation y >>= fun toks => collapsed (runFrom [.topLevel] start (ts ++ toks)) := by
  rw [wrapLexer, lex_of_reads h]
  cases lex identation y with
  | error => rfl
  | ok toks =>
    have hlayout : layout (collectWithContext [.topLevel] (ts ++ toks)) =
        (runFrom [.topLevel] start (ts ++ toks)).map Prod.snd := layout_eq
    cases hr : runFrom [.topLevel] start (ts ++ toks) <;>
      simp [bind, Except.bind, Except.map, Functor.map, hlayout, hr, collapsed]

theorem bind_congr {α β : Type} {r : Except String α} {f g : α → Except String β}
    (h : ∀ a, r = .ok a → f a = g a) : r >>= f = r >>= g := by
  cases r with
  | error => rfl
  | ok a => exact h a rfl

theorem lex_newlines (h : after.head? = some '\n') :
    lex identation after = (Token.newline :: ·) <$> lex identation (afterNewlines after) := by
  cases after with
  | nil => cases h
  | cons c cs =>
    obtain rfl := Option.some.inj h
    rw [lex_emit (r := afterNewlines cs) (t := .newline) rfl]
    rfl

theorem afterNewlines_of_head (h : after.head? ≠ some '\n') : afterNewlines after = after := by
  cases after with
  | nil => rfl
  | cons c cs =>
    have hc : c ≠ '\n' := fun heq => h (by rw [heq]; rfl)
    simp [afterNewlines, hc]

theorem spaces_of_nil (h : l.indent = []) : l.spaces identation = [] := if_pos h

theorem spaces_of_same (h : l.indent = [] ∨ ∀ is, indentsAfter ts = .ok is →
    is.head? = some (width identation l.indent)) : AtIndentation ts (l.spaces identation) := by
  unfold Line.spaces
  by_cases hi : l.indent = []
  · exact Or.inl (if_pos hi)
  · exact Or.inr ⟨_, if_neg hi, h.resolve_left hi⟩

theorem aligned_not_newline {stack : List Context} {is : List Int} {n : Int}
    {toks : List Token} :
    ¬ Aligned stack is n (.newline :: toks) := by
  rintro (h | ⟨m, rest, h, -⟩ | ⟨t, rest, h, hsolid, -⟩)
  · rw [opens_newline] at h
    cases h
  · cases h
  · obtain ⟨rfl, -⟩ := List.cons.inj h
    exact hsolid.1 rfl

/-- Before an empty line no indentation is aligned, so that the layout failed before. -/
theorem runFrom_aligned_newline {n : Int} {toks toks₁ toks₂ : List Token}
    (ha : ∀ is, indentsAfter ts = .ok is →
      Aligned (contexts [.topLevel] ts) is n (.newline :: toks)) :
    runFrom [.topLevel] start (ts ++ .newline :: toks₁) =
      runFrom [.topLevel] start (ts ++ .newline :: toks₂) := by
  rw [runFrom_break, runFrom_break]
  refine andThen_congr fun s out hs => ?_
  exact (aligned_not_newline (ha s.indents (by rw [indentsAfter, hs]; rfl))).elim

theorem text_head : l.text.head? ≠ some '\n' := by
  unfold Line.text Line.commentText
  cases hi : l.indent with
  | cons d ds =>
    have hd : isBlank d = true := l.blank d (by simp [hi])
    rintro ⟨⟩
    cases hd
  | nil => cases l.comment <;> simp

/-- A comment line after a newline, where the next line is not empty. -/
theorem commentLine_same (htop : AtTopLevel ts) (hl : LineOk identation ts l after)
    (hc : l.comment ≠ none) (hafter : after.head? ≠ some '\n') {toks : List Token}
    (htoks : lex identation after = .ok toks) :
    runFrom [.topLevel] start (ts ++ .newline :: (l.spaces identation ++ toks)) =
      runFrom [.topLevel] start (ts ++ .newline :: toks) := by
  cases hl with
  | columnZero _ hi _ => rw [spaces_of_nil hi, List.nil_append]
  | aligned _ ha =>
    unfold Line.spaces
    split
    · rw [List.nil_append]
    · exact runFrom_aligned htop fun is his => ha is toks his htoks
  | blank hempty _ _ => exact (hempty.elim hc hafter).elim

/-- A line of the right kind below a line break that is a token. -/
theorem insert_break {p : List Char} (hb : Breaks identation p ts) (htop : AtTopLevel ts)
    (hl : LineOk identation ts l after) :
    (wrapLexer identation (p ++ '\n' :: (l.text ++ '\n' :: after))).map collapse =
      (wrapLexer identation (p ++ '\n' :: after)).map collapse := by
  rw [wrapLexer_of_reads (hb after)]
  by_cases htext : l.text = []
  · rw [htext, List.nil_append, wrapLexer_of_reads (hb _)]
    rfl
  have hline : afterNewlines (l.text ++ '\n' :: after) = l.text ++ '\n' :: after := by
    refine afterNewlines_of_head ?_
    rw [List.head?_append_of_ne_nil _ htext]
    exact text_head
  have hreads := hb (l.text ++ '\n' :: after)
  rw [hline] at hreads
  by_cases hc : l.comment = none
  · rw [wrapLexer_of_reads (hreads.trans (reads_blankLine hc reads_newline))]
    refine bind_congr fun toks htoks => ?_
    cases hl with
    | columnZero hne | aligned hne => exact (hne hc).elim
    | blank _ hsame hopens =>
      have hblank := runFrom_blank htop (spaces_of_same hsame) (hopens toks htoks)
      simpa using hblank
  · rw [wrapLexer_of_reads (hreads.trans (reads_commentLine hc .refl))]
    by_cases hafter : after.head? = some '\n'
    · rw [lex_newlines hafter]
      cases htoks : lex identation (afterNewlines after) with
      | error => rfl
      | ok toks =>
        change collapsed _ = collapsed _
        cases hl with
        | columnZero _ _ hne => exact (hne hafter).elim
        | aligned _ ha =>
          have hlex : lex identation after =
              (Token.newline :: ·) <$> lex identation (afterNewlines after) := lex_newlines hafter
          rw [htoks] at hlex
          simp only [List.append_assoc, List.singleton_append]
          exact congrArg collapsed (runFrom_aligned_newline fun is his => ha is _ his hlex)
        | blank _ hsame hopens =>
          have hblank := runFrom_blank htop (spaces_of_same hsame) (hopens toks htoks)
          simpa using hblank
    · rw [afterNewlines_of_head hafter]
      refine bind_congr fun toks htoks => ?_
      have hsame := commentLine_same htop hl hc hafter htoks
      simpa using congrArg collapsed hsame

/-- A comment at the end of the text is closed by the line break. -/
theorem EndsInComment.reads {ts₂ : List Token} (h : EndsInComment identation before ts)
    (hr : Reads identation y ts₂ x) : Reads identation (before ++ '\n' :: y) (ts ++ ts₂) x := by
  obtain ⟨c, hc, hreads⟩ := h
  exact (hreads.append (by simp)).trans (reads_comment hc hr)

/-- A line of the right kind below a comment line at column zero. -/
theorem insert_comment (h : EndsInComment identation before (ts ++ [.newline]))
    (htop : AtTopLevel ts) (hl : LineOk identation ts l after) :
    (wrapLexer identation (before ++ '\n' :: (l.text ++ '\n' :: after))).map collapse =
      (wrapLexer identation (before ++ '\n' :: after)).map collapse := by
  rw [wrapLexer_of_reads (h.reads (y := after) .refl)]
  have hrepeat : ∀ toks, opens (contexts [.topLevel] ts) toks = false →
      (l.indent = [] ∨ ∀ is, indentsAfter ts = .ok is →
        is.head? = some (width identation l.indent)) →
      collapsed (runFrom [.topLevel] start
          (ts ++ .newline :: (l.spaces identation ++ .newline :: toks))) =
        collapsed (runFrom [.topLevel] start (ts ++ .newline :: .newline :: toks)) :=
    fun toks hopens hsame => (runFrom_blank htop (spaces_of_same hsame) hopens).trans
      (runFrom_blank htop (Or.inl rfl) hopens).symm
  by_cases hc : l.comment = none
  · rw [wrapLexer_of_reads (h.reads (reads_blankLine hc reads_newline))]
    cases hl with
    | columnZero hne | aligned hne => exact (hne hc).elim
    | blank _ hsame hopens =>
      by_cases hafter : after.head? = some '\n'
      · rw [lex_newlines hafter]
        cases htoks : lex identation (afterNewlines after) with
        | error => rfl
        | ok toks =>
          change collapsed _ = collapsed _
          simpa using hrepeat toks (hopens toks htoks) hsame
      · rw [afterNewlines_of_head hafter] at hopens ⊢
        refine bind_congr fun toks htoks => ?_
        have hblank := runFrom_blank htop (spaces_of_same hsame) (hopens toks htoks)
        simpa using hblank
  · rw [wrapLexer_of_reads (h.reads (reads_commentLine hc .refl))]
    refine bind_congr fun toks htoks => ?_
    by_cases hafter : after.head? = some '\n'
    · cases hlex : lex identation (afterNewlines after) with
      | error =>
        rw [lex_newlines hafter, hlex] at htoks
        cases htoks
      | ok toks' =>
        rw [lex_newlines hafter, hlex] at htoks
        obtain rfl := Except.ok.inj htoks
        cases hl with
        | columnZero _ _ hne => exact (hne hafter).elim
        | aligned _ ha =>
          have hnewlines : lex identation after = .ok (.newline :: toks') := by
            rw [lex_newlines hafter, hlex]
            rfl
          simp only [List.append_assoc, List.singleton_append]
          exact congrArg collapsed (runFrom_aligned_newline fun is his => ha is _ his hnewlines)
        | blank _ hsame hopens => simpa using hrepeat toks' (hopens toks' hlex) hsame
    · have hsame := commentLine_same htop hl hc hafter htoks
      simpa using congrArg collapsed hsame

/-- After blanks or a token of the line, further blanks are dropped. -/
theorem runFrom_settled {toks : List Token} {n : Int} (htop : AtTopLevel ts)
    (hs : Settled ts) :
    runFrom [.topLevel] start (ts ++ .space n :: toks) =
      runFrom [.topLevel] start (ts ++ toks) := by
  obtain ⟨ts₀, t, ht, rfl⟩ := hs
  rcases ht with ht | ⟨m, rfl⟩
  · simp only [List.append_assoc, List.singleton_append]
    rw [runFrom_solid ht, runFrom_solid ht]
    exact andThen_congr fun s' out hs =>
      runFrom_space htop (not_pending_after_solid ht hs)
  · have hctx : contexts [.topLevel] (ts₀ ++ [.space m]) = contexts [.topLevel] ts₀ := by
      simp [contexts, updateStackOnToken]
    rw [AtTopLevel, hctx] at htop
    simp only [List.append_assoc, List.singleton_append]
    have hover : runOver [.topLevel] start ts₀ (.space m :: .space n :: toks) =
        runOver [.topLevel] start ts₀ (.space m :: toks) :=
      runOver_congr (by rw [opens_space htop, opens_space htop, opens_space htop])
    rw [runFrom_append, runFrom_append, hover]
    refine andThen_congr fun s' out _ => ?_
    by_cases hp : s'.pendingNewline = true
    · rw [runFrom_space_pending htop hp, runFrom_space_pending htop hp]
      exact andThen_congr fun is out _ => runFrom_space htop rfl
    · have hp := Bool.eq_false_of_not_eq_true hp
      rw [runFrom_space htop hp, runFrom_space htop hp, runFrom_space htop hp]

theorem insert_belowComment (h : EndsInComment identation before ts) (htop : AtTopLevel ts)
    (hc : l.comment ≠ none) (hs : l.indent = [] ∨ Settled ts) :
    (wrapLexer identation (before ++ '\n' :: (l.text ++ '\n' :: after))).map collapse =
      (wrapLexer identation (before ++ '\n' :: after)).map collapse := by
  rw [wrapLexer_of_reads (h.reads (y := after) .refl),
    wrapLexer_of_reads (h.reads (reads_commentLine hc .refl))]
  refine bind_congr fun toks _ => congrArg collapsed ?_
  simp only [List.append_nil, List.append_assoc]
  unfold Line.spaces
  split
  · rfl
  · rename_i hi
    exact runFrom_settled htop (hs.resolve_left hi)

theorem text_oneLine : '\n' ∉ l.text := by
  unfold Line.text Line.commentText
  intro hmem
  rcases List.mem_append.mp hmem with hmem | hmem
  · have hblank := l.blank _ hmem
    cases hblank
  · cases hc : l.comment with
    | none => simp [hc] at hmem
    | some c =>
      have hline := l.oneLine c hc
      simp [hc, hline] at hmem

/-- What is appended to a comment belongs to the comment. -/
theorem append_inComment (after : List Char) (h : EndsInComment identation before ts) :
    wrapLexer identation (before ++ (l.text ++ '\n' :: after)) =
        wrapLexer identation (before ++ '\n' :: after) ∧
      wrapLexer identation (before ++ l.text) = wrapLexer identation before := by
  have horiginal := h.reads (y := after) .refl
  obtain ⟨c, hc, hreads⟩ := h
  have hline : '\n' ∉ c ++ l.text := fun hmem =>
    (List.mem_append.mp hmem).elim hc text_oneLine
  have hedited : Reads identation (before ++ (l.text ++ '\n' :: after)) (ts ++ []) after := by
    refine (hreads.append (by simp)).trans ?_
    simpa using reads_comment hline (.refl : Reads identation after [] after)
  have hedited' : Reads identation (before ++ l.text) (ts ++ []) [] :=
    (hreads.append (by simp)).trans (reads_comment_end hline)
  have horiginal' : Reads identation before (ts ++ []) [] := hreads.trans (reads_comment_end hc)
  constructor
  · rw [wrapLexer, wrapLexer, lex_of_reads horiginal, lex_of_reads hedited]
  · rw [wrapLexer, wrapLexer, lex_of_reads horiginal', lex_of_reads hedited']

theorem contexts_spaces {stack : List Context} {sp : List Token}
    (hsp : ∀ u ∈ sp, ∃ n, u = Token.space n) : contexts stack (ts ++ sp) = contexts stack ts := by
  induction sp generalizing ts with
  | nil => rw [List.append_nil]
  | cons u sp ih =>
    obtain ⟨n, rfl⟩ := hsp u (by simp)
    have ih : contexts stack (ts ++ [.space n] ++ sp) = contexts stack (ts ++ [.space n]) :=
      ih fun u' hu' => hsp u' (by simp [hu'])
    rw [List.append_assoc, List.singleton_append] at ih
    rw [ih]
    simp [contexts, updateStackOnToken]

/-- The line still holds its token, with other blanks behind it. -/
theorem holdsToken_appended {ts' : List Token} (hh : HoldsToken ts)
    (h : ts' = ts ++ l.spaces identation ∨
      ∃ ts₀ n n', ts = ts₀ ++ [.space n] ∧ ts' = ts₀ ++ [.space n']) :
    ∃ ts₀ t sp sp', Solid t ∧ (∀ u ∈ sp, ∃ n, u = Token.space n) ∧
      (∀ u ∈ sp', ∃ n, u = Token.space n) ∧ ts = ts₀ ++ t :: sp ∧ ts' = ts₀ ++ t :: sp' := by
  obtain ⟨ts₀, t, sp, ht, hsp, rfl⟩ := hh
  rcases h with rfl | ⟨ts₁, n, n', hts, rfl⟩
  · refine ⟨ts₀, t, sp, sp ++ l.spaces identation, ht, hsp, fun u hu => ?_, rfl, by simp⟩
    rcases List.mem_append.mp hu with hu | hu
    · exact hsp u hu
    · unfold Line.spaces at hu
      split at hu
      · cases hu
      · exact ⟨_, List.mem_singleton.mp hu⟩
  · rcases List.eq_nil_or_concat' sp with rfl | ⟨sp₀, u, rfl⟩
    · have hlast := congrArg List.getLast? hts
      simp only [List.getLast?_append, List.getLast?_singleton, Option.some_or,
        Option.some.injEq] at hlast
      exact (ht.2.2 n hlast).elim
    · have hsplit : (ts₀ ++ t :: sp₀) ++ [u] = ts₁ ++ [.space n] := by simpa using hts
      obtain ⟨hts₁, -⟩ := List.append_inj' hsplit rfl
      refine ⟨ts₀, t, sp₀ ++ [u], sp₀ ++ [.space n'], ht, hsp, fun u' hu' => ?_, rfl, ?_⟩
      · rcases List.mem_append.mp hu' with hu' | hu'
        · exact hsp u' (by simp [hu'])
        · exact ⟨n', List.mem_singleton.mp hu'⟩
      · rw [← hts₁]
        simp

theorem not_holdsToken_newline : ¬ HoldsToken (ts ++ [.newline]) := by
  rintro ⟨ts₀, t, sp, ht, hsp, h⟩
  rcases List.eq_nil_or_concat' sp with rfl | ⟨sp₀, u, rfl⟩
  · obtain ⟨-, hlast⟩ := List.append_inj' h rfl
    exact ht.1 (List.singleton_inj.mp hlast).symm
  · obtain ⟨n, rfl⟩ := hsp u (by simp)
    have hsplit : ts ++ [.newline] = (ts₀ ++ t :: sp₀) ++ [.space n] := by simpa using h
    obtain ⟨-, hlast⟩ := List.append_inj' hsplit rfl
    cases hlast

theorem append_afterToken (h : EndsPlain identation before ts) (hh : HoldsToken ts)
    (hc : l.comment ≠ none) (hslash : l.indent = [] → ts.getLast? ≠ some (.symbol ['/']))
    (hafter : ¬ AtTopLevel ts ∨ after.head? = some '\n' ∨
      (∀ toks, lex identation after = .ok toks → opens (contexts [.topLevel] ts) toks = true)) :
    (wrapLexer identation (before ++ (l.text ++ '\n' :: after))).map collapse =
      (wrapLexer identation (before ++ '\n' :: after)).map collapse := by
  obtain ⟨ts', hts', happended⟩ := reads_appended h hslash
  obtain ⟨ts₁, hts₁, hbreak⟩ := h.breaks
  obtain rfl : ts = ts₁ := by
    rcases hts₁ with rfl | rfl
    · rfl
    · exact (not_holdsToken_newline hh).elim
  obtain ⟨c, hcomment⟩ := Option.ne_none_iff_exists'.mp hc
  have htext : l.text ++ '\n' :: after = l.indent ++ '/' :: '/' :: (c ++ '\n' :: after) := by
    simp [Line.text, Line.commentText, hcomment]
  have hedited := happended _ _ _ (reads_comment (l.oneLine c hcomment)
    (.refl : Reads identation after [] after))
  rw [← htext] at hedited
  rw [wrapLexer_of_reads hedited, wrapLexer_of_reads (hbreak after)]
  obtain ⟨ts₀, t, sp, sp', ht, hsp, hsp', rfl, rfl⟩ := holdsToken_appended hh hts'
  have hctx : contexts [.topLevel] (ts₀ ++ t :: sp) = contexts [.topLevel] (ts₀ ++ [t]) := by
    have hspaces : contexts [.topLevel] (ts₀ ++ [t] ++ sp) = contexts [.topLevel] (ts₀ ++ [t]) :=
      contexts_spaces hsp
    simpa using hspaces
  rw [AtTopLevel, hctx] at hafter
  have hsame : ∀ toks, contextOf (contexts [.topLevel] (ts₀ ++ [t])) = .inside ∨
      opens (contexts [.topLevel] (ts₀ ++ [t])) toks = true →
      runFrom [.topLevel] start (ts₀ ++ t :: (sp' ++ toks)) =
        runFrom [.topLevel] start (ts₀ ++ t :: (sp ++ .newline :: toks)) := by
    intro toks htoks
    rw [runFrom_solid ht, runFrom_solid ht]
    refine andThen_congr fun s' out hs => ?_
    have hp := not_pending_after_solid ht hs
    rw [runFrom_spaces hp hsp, runFrom_spaces hp hsp']
    cases htop : contextOf (contexts [.topLevel] (ts₀ ++ [t])) with
    | inside => rw [runFrom_inside htop (Or.inl rfl)]
    | topLevel =>
      have hopens := htoks.resolve_left (by simp [htop])
      rw [runFrom_newline htop, if_pos hopens]
      cases s'
      simp_all
  simp only [List.append_assoc, List.cons_append, List.append_nil, List.nil_append]
  by_cases hhead : after.head? = some '\n'
  · rw [lex_newlines hhead]
    cases lex identation (afterNewlines after) with
    | error => rfl
    | ok toks =>
      change collapsed _ = collapsed _
      rw [runFrom_solid ht, runFrom_solid ht]
      refine congrArg collapsed (andThen_congr fun s' out hs => ?_)
      have hp := not_pending_after_solid ht hs
      rw [runFrom_spaces hp hsp, runFrom_spaces hp hsp']
  · rw [afterNewlines_of_head hhead]
    refine bind_congr fun toks htoks => congrArg collapsed (hsame toks ?_)
    rcases hafter with hno | hhead' | hopens
    · exact Or.inl (by cases h : contextOf (contexts [.topLevel] (ts₀ ++ [t])) <;> simp_all)
    · exact (hhead hhead').elim
    · exact Or.inr (hopens toks htoks)

theorem append_atEnd (h : EndsPlain identation before ts) (hh : HoldsToken ts)
    (hc : l.comment ≠ none) (hslash : l.indent = [] → ts.getLast? ≠ some (.symbol ['/'])) :
    (wrapLexer identation (before ++ l.text)).map collapse =
      (wrapLexer identation before).map collapse := by
  obtain ⟨ts', hts', happended⟩ := reads_appended h hslash
  obtain ⟨c, hcomment⟩ := Option.ne_none_iff_exists'.mp hc
  have htext : l.text = l.indent ++ '/' :: '/' :: c := by
    simp [Line.text, Line.commentText, hcomment]
  have hedited := happended _ _ _ (reads_comment_end (l.oneLine c hcomment))
  rw [← htext] at hedited
  rw [wrapLexer_of_reads hedited, wrapLexer_of_reads h.1]
  obtain ⟨ts₀, t, sp, sp', ht, hsp, hsp', rfl, rfl⟩ := holdsToken_appended hh hts'
  simp only [List.append_assoc, List.cons_append, List.append_nil]
  refine bind_congr fun toks _ => ?_
  rw [runFrom_solid ht, runFrom_solid ht]
  refine congrArg collapsed (andThen_congr fun s' out hs => ?_)
  have hp := not_pending_after_solid ht hs
  rw [runFrom_spaces hp hsp, runFrom_spaces hp hsp']

/-- An error in the text before is raised whatever follows. -/
theorem wrapLexer_invalid {r : List Char} {msg : String} (hr : Reads identation before ts r)
    (herror : ∀ x, scan identation (r ++ x) = .error msg) (x : List Char) :
    wrapLexer identation (before ++ x) = .error msg := by
  have hne : r ≠ [] := by
    rintro rfl
    cases herror []
  have hlex : lex identation (r ++ x) = .error msg := by
    rw [lex, lexFuel, herror]
  rw [wrapLexer, lex_of_reads (hr.append hne), hlex]
  rfl

section Example

/-- The comment `// n`, at column zero. -/
def note : Line where
  indent := []
  comment := some [' ', 'n']
  blank := by simp
  oneLine := by
    rintro c ⟨⟩
    decide

/-- The same comment after a blank. -/
def spacedNote : Line where
  indent := [' ']
  comment := some [' ', 'n']
  blank := by simp [isBlank]
  oneLine := by
    rintro c ⟨⟩
    decide

end Example

end Syli.Compiler.Lexer
