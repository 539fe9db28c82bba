import Syli.Compiler.LexerTexts
import Syli.Compiler.LayoutRuns

/-! Blank lines and comments in a text: what is put in, and how the lexer and the layout pass read
it. -/
namespace Syli.Compiler.Lexer

open Foundation

/-- A line that holds blanks, and perhaps a comment. -/
structure Line where
  indent : List Char
  comment : Option (List Char)
  blank : ∀ c ∈ indent, isBlank c = true
  oneLine : ∀ c, comment = some c → '\n' ∉ c

namespace Line

def commentText (l : Line) : List Char := (l.comment.map fun c => '/' :: '/' :: c).getD []

def text (l : Line) : List Char := l.indent ++ l.commentText

/-- The raw tokens of the line. -/
def spaces (identation : Int) (l : Line) : List Token :=
  if l.indent = [] then [] else [.space (width identation l.indent)]

end Line

/-- The line is put below the text `before`, or at the end of its last line, where the text goes on
in a line of its own or ends. -/
inductive Edit where
  | insert
  | append
  | appendAtEnd
deriving DecidableEq

namespace Edit

def original (before after : List Char) : Edit → List Char
  | insert | append => before ++ '\n' :: after
  | appendAtEnd => before

def edited (before : List Char) (l : Line) (after : List Char) : Edit → List Char
  | insert => before ++ '\n' :: (l.text ++ '\n' :: after)
  | append => before ++ (l.text ++ '\n' :: after)
  | appendAtEnd => before ++ l.text

end Edit

variable {identation : Int} {before after : List Char} {l : Line} {ts : List Token} {e : Edit}
  {c y x : List Char} {t : Token}

/-- The text before the edit reads as `ts` and ends in a comment. -/
def EndsInComment (identation : Int) (before : List Char) (ts : List Token) : Prop :=
  ∃ c, '\n' ∉ c ∧ Reads identation before ts ('/' :: '/' :: c)

/-- The text reads as `ts` and does not end in a comment. -/
def EndsPlain (identation : Int) (before : List Char) (ts : List Token) : Prop :=
  Reads identation before ts [] ∧ ¬ EndsInComment identation before ts

def afterNewlines (cs : List Char) : List Char := cs.dropWhile fun c => c = '\n'

/-- A line break after the text is read as a newline after the tokens `ts`, whatever follows. -/
def Breaks (identation : Int) (before : List Char) (ts : List Token) : Prop :=
  ∀ y, Reads identation (before ++ '\n' :: y) (ts ++ [.newline]) (afterNewlines y)

/-- The stack of indentations after `ts`. -/
def indentsAfter (ts : List Token) : Except String (List Int) :=
  (runFrom [.topLevel] start ts).map fun r => r.1.indents

def AtTopLevel (ts : List Token) : Prop := contextOf (contexts [.topLevel] ts) = .topLevel

/-- A line of indentation `n` changes the stack as the line that starts with `toks` does. -/
def Aligned (stack : List Context) (indents : List Int) (n : Int) (toks : List Token) : Prop :=
  opens stack toks = true ∨
    (∃ m rest, toks = .space m :: rest ∧ emitIndentChange indents n = emitIndentChange indents m) ∨
    ∃ t rest, toks = t :: rest ∧ Solid t ∧ emitIndentChange indents n = emitIndentChange indents 0

/-- What a line after a newline must be for the line `after` to be laid out as before. -/
inductive LineOk (identation : Int) (ts : List Token) (l : Line) (after : List Char) : Prop where
  | columnZero : l.comment ≠ none → l.indent = [] → after.head? ≠ some '\n' →
      LineOk identation ts l after
  | aligned : l.comment ≠ none → (∀ is toks, indentsAfter ts = .ok is →
      lex identation after = .ok toks →
      Aligned (contexts [.topLevel] ts) is (width identation l.indent) toks) →
      LineOk identation ts l after
  | blank : l.comment = none ∨ after.head? = some '\n' →
      (l.indent = [] ∨ ∀ is, indentsAfter ts = .ok is →
        is.head? = some (width identation l.indent)) →
      (∀ toks, lex identation (afterNewlines after) = .ok toks →
        opens (contexts [.topLevel] ts) toks = false) → LineOk identation ts l after

/-- The edit stands after the raw tokens `ts` and a newline. -/
inductive AfterNewline (identation : Int) (before : List Char) : Edit → List Token → Prop where
  | lineBreak {ts : List Token} : Breaks identation before ts →
      AfterNewline identation before .insert ts
  | comment {ts : List Token} : EndsInComment identation before (ts ++ [.newline]) →
      AfterNewline identation before .insert ts
  | emptyLine {ts : List Token} {p : List Char} : before = p ++ ['\n'] → Breaks identation p ts →
      AfterNewline identation before .append ts

/-- The raw tokens `ts` end in a token of the line, with blanks after it at most. -/
def HoldsToken (ts : List Token) : Prop :=
  ∃ ts₀ t sp, Solid t ∧ (∀ u ∈ sp, ∃ n, u = Token.space n) ∧ ts = ts₀ ++ t :: sp

/-- The raw tokens end in something else than a newline. -/
def Settled (ts : List Token) : Prop :=
  ∃ ts₀ t, (Solid t ∨ ∃ n, t = Token.space n) ∧ ts = ts₀ ++ [t]

/-- The edits that do not reach the newline that a comment takes, or an indentation that is read
from a line without code. -/
inductive Harmless (identation : Int) (before : List Char) (l : Line) (after : List Char) :
    Edit → Prop where
  | invalid {e : Edit} {ts : List Token} {r : List Char} {msg : String} :
      Reads identation before ts r → (∀ x, scan identation (r ++ x) = .error msg) →
      Harmless identation before l after e
  | emptyLine {ts : List Token} : Breaks identation before ts → l.text = [] →
      Harmless identation before l after .insert
  | line {e : Edit} {ts : List Token} : AfterNewline identation before e ts → AtTopLevel ts →
      LineOk identation ts l after → (e = .append → l.comment ≠ none) →
      Harmless identation before l after e
  | belowComment {ts : List Token} : EndsInComment identation before ts → AtTopLevel ts →
      l.comment ≠ none → l.indent = [] ∨ Settled ts → Harmless identation before l after .insert
  | inComment {e : Edit} {ts : List Token} : EndsInComment identation before ts → e ≠ .insert →
      Harmless identation before l after e
  | afterToken {ts : List Token} : EndsPlain identation before ts → HoldsToken ts →
      l.comment ≠ none → (l.indent = [] → ts.getLast? ≠ some (.symbol ['/'])) →
      ¬ AtTopLevel ts ∨ after.head? = some '\n' ∨
        (∀ toks, lex identation after = .ok toks → opens (contexts [.topLevel] ts) toks = true) →
      Harmless identation before l after .append
  | atEnd {ts : List Token} : EndsPlain identation before ts → HoldsToken ts → l.comment ≠ none →
      (l.indent = [] → ts.getLast? ≠ some (.symbol ['/'])) →
      Harmless identation before l after .appendAtEnd

section Texts

theorem reads_newline : Reads identation ('\n' :: y) [.newline] (afterNewlines y) :=
  .emit rfl .refl

theorem afterComment_line (hc : '\n' ∉ c) : afterComment (c ++ '\n' :: y) = y := by
  unfold afterComment
  induction c with
  | nil => simp
  | cons d c ih =>
    simp only [List.mem_cons, not_or] at hc
    have hd : decide (d ≠ '\n') = true := decide_eq_true fun h => hc.1 h.symm
    rw [List.cons_append, List.dropWhile_cons, if_pos hd]
    exact ih hc.2

theorem afterComment_end (hc : '\n' ∉ c) : afterComment c = [] := by
  have hnil : c.dropWhile (fun c => decide (c ≠ '\n')) = [] := by
    rw [List.dropWhile_eq_nil_iff]
    intro d hd
    exact decide_eq_true fun h => hc (h ▸ hd)
  rw [afterComment, hnil]
  rfl

theorem reads_comment (hc : '\n' ∉ c) (hr : Reads identation y ts x) :
    Reads identation ('/' :: '/' :: (c ++ '\n' :: y)) ts x := by
  refine .skip ?_ hr
  simp only [scan, List.head?_cons, and_self, if_true, List.tail_cons, afterComment_line hc]

theorem reads_comment_end (hc : '\n' ∉ c) : Reads identation ('/' :: '/' :: c) [] [] := by
  refine .skip ?_ .refl
  simp only [scan, List.head?_cons, and_self, if_true, List.tail_cons, afterComment_end hc]

theorem scan_blanks {w : List Char} (hw : ∀ c ∈ w, isBlank c = true) (hne : w ≠ [])
    (hy : ∀ d, y.head? = some d → isBlank d = false) :
    scan identation (w ++ y) = .emit (.space (width identation w)) y := by
  cases w with
  | nil => exact (hne rfl).elim
  | cons c w =>
    have hc : isBlank c = true := hw c (by simp)
    have hslash : ¬(c = '/' ∧ (w ++ y).head? = some '/') := by
      rintro ⟨rfl, -⟩
      cases hc
    have hall : w.dropWhile isBlank = [] :=
      List.dropWhile_eq_nil_iff.mpr fun d hd => hw d (by simp [hd])
    have hrun : w.takeWhile isBlank = w := by
      rw [List.takeWhile_eq_self_iff]
      exact fun d hd => hw d (by simp [hd])
    obtain ⟨ht, hd⟩ := run_append isBlank w fun _ => hy
    rw [hrun] at ht
    rw [hall] at hd
    simp only [List.cons_append, scan, if_neg hslash, if_pos hc, ht, hd, List.nil_append]

theorem reads_spaces (l : Line) (hy : ∀ d, y.head? = some d → isBlank d = false)
    (hr : Reads identation y ts x) :
    Reads identation (l.indent ++ y) (l.spaces identation ++ ts) x := by
  unfold Line.spaces
  by_cases hnil : l.indent = []
  · simpa [hnil] using hr
  · rw [if_neg hnil]
    exact .emit (scan_blanks l.blank hnil hy) hr

theorem reads_commentLine (hc : l.comment ≠ none) (hr : Reads identation y ts x) :
    Reads identation (l.text ++ '\n' :: y) (l.spaces identation ++ ts) x := by
  obtain ⟨c, hc⟩ := Option.ne_none_iff_exists'.mp hc
  have htext : l.text ++ '\n' :: y = l.indent ++ '/' :: '/' :: (c ++ '\n' :: y) := by
    simp [Line.text, Line.commentText, hc]
  rw [htext]
  exact reads_spaces l (by rintro d ⟨⟩; rfl) (reads_comment (l.oneLine c hc) hr)

theorem reads_blankLine (hc : l.comment = none) (hr : Reads identation ('\n' :: y) ts x) :
    Reads identation (l.text ++ '\n' :: y) (l.spaces identation ++ ts) x := by
  have htext : l.text ++ '\n' :: y = l.indent ++ '\n' :: y := by
    simp [Line.text, Line.commentText, hc]
  rw [htext]
  exact reads_spaces l (by rintro d ⟨⟩; rfl) hr

theorem symbolToken_solid (w : List Char) : Solid (symbolToken w) := by
  unfold symbolToken
  split <;> simp [Solid]

theorem scanString_solid {buf cs r : List Char} (hs : scanString buf cs = .emit t r) : Solid t := by
  fun_induction scanString buf cs with
  | case1 | case3 | case6 | case7 | case8 => cases hs
  | case2 buf cs =>
    cases hs
    simp [Solid]
  | case4 _ _ _ _ _ _ ih | case5 _ _ _ _ _ _ _ _ _ _ ih | case9 _ _ _ _ _ ih => exact ih hs

/-- The tokens of the lexer: blanks, newlines and the tokens that stand on a line. -/
theorem scan_emit_cases {p r : List Char} (hs : scan identation p = .emit t r) :
    (∃ c cs, p = c :: cs ∧ isBlank c = true ∧ (∃ n, t = .space n) ∧ r = cs.dropWhile isBlank) ∨
      (∃ cs, p = '\n' :: cs ∧ t = .newline ∧ r = afterNewlines cs) ∨ Solid t := by
  cases p with
  | nil => cases hs
  | cons c cs =>
    simp only [scan] at hs
    split_ifs at hs with _ hblank hnewline
    · obtain ⟨rfl, rfl⟩ := Scan.emit.inj hs
      exact Or.inl ⟨c, cs, rfl, hblank, ⟨_, rfl⟩, rfl⟩
    · obtain ⟨rfl, rfl⟩ := Scan.emit.inj hs
      exact Or.inr (Or.inl ⟨cs, by rw [hnewline], rfl, rfl⟩)
    · obtain ⟨rfl, rfl⟩ := Scan.emit.inj hs
      exact Or.inr (Or.inr (by simp [Solid]))
    · right; right
      simp only [scanNumber] at hs
      split_ifs at hs <;> obtain ⟨rfl, rfl⟩ := Scan.emit.inj hs <;> simp [Solid]
    · right; right
      cases cs with
      | nil => cases hs
      | cons a cs =>
        simp only [scanQuote] at hs
        split_ifs at hs
        · obtain ⟨rfl, rfl⟩ := Scan.emit.inj hs
          simp [Solid]
        · obtain ⟨rfl, rfl⟩ := Scan.emit.inj hs
          simp [Solid]
        · cases hs
    · exact Or.inr (Or.inr (scanString_solid hs))
    · right; right
      unfold scanSymbol at hs
      split_ifs at hs
      · obtain ⟨rfl, rfl⟩ := Scan.emit.inj hs
        exact symbolToken_solid _
      · obtain ⟨rfl, rfl⟩ := Scan.emit.inj hs
        exact symbolToken_solid _
      · cases hs

theorem Solid.fits (ht : Solid t) {d : Char} (hd : d = ' ' ∨ d = '\t' ∨ d = '\n' ∨ d = '/')
    (hslash : d = '/' → t ≠ .symbol ['/']) : Fits t (d :: y) := by
  rintro d' ⟨⟩
  obtain ⟨hnewline, -, hspace⟩ := ht
  cases t with
  | newline => exact (hnewline rfl).elim
  | space n => exact (hspace n rfl).elim
  | eof | indent | dedent | lbrace | lbracket | lbracketBar | rbrace | rbracket | rbracketBar | word
  | int | float | char | typeVar | string | symbol =>
    rcases hd with hd | hd | hd | hd
    · exact Or.inl hd
    · exact Or.inr (Or.inl hd)
    · exact Or.inr (Or.inr (Or.inl hd))
    · exact Or.inr (Or.inr (Or.inr ⟨hd, hslash hd⟩))

theorem afterNewlines_append {cs : List Char} (h : [] = afterNewlines cs) :
    afterNewlines (cs ++ x) = afterNewlines x := by
  unfold afterNewlines at h ⊢
  rw [List.dropWhile_append, ← h]
  rfl

/-- A line break that is a token comes after the tokens of its line, or prolongs the newline before
it. -/
theorem EndsPlain.breaks (h : EndsPlain identation before ts) :
    ∃ ts₀, (ts = ts₀ ∨ ts = ts₀ ++ [.newline]) ∧ Breaks identation before ts₀ := by
  obtain ⟨hreads, hno⟩ := h
  by_cases hnil : before = []
  · subst hnil
    cases hreads with
    | refl => exact ⟨[], Or.inl rfl, fun y => reads_newline⟩
    | emit hs | skip hs => cases hs
  obtain ⟨ts₀, p, tl, -, hlast, rfl, hbefore⟩ := exists_lastLexeme hreads hnil
  cases hlast with
  | comment hc =>
    have hcomment := hbefore []
    simp only [List.append_nil] at hcomment
    exact (hno ⟨_, hc, by simpa using hcomment⟩).elim
  | @line c hc =>
    refine ⟨ts₀, Or.inl (List.append_nil _), fun y => (hbefore _).trans ?_⟩
    simpa using reads_comment hc (reads_newline (y := y))
  | carriageReturn =>
    exact ⟨ts₀, Or.inl (List.append_nil _), fun y => (hbefore _).trans (.skip rfl reads_newline)⟩
  | @token _ t hs =>
    rcases scan_emit_cases hs with ⟨c, cs, rfl, -, ⟨n, rfl⟩, -⟩ | ⟨cs, rfl, rfl, hr⟩ | hsolid
    · refine ⟨ts₀ ++ [.space n], Or.inl rfl, fun y => ?_⟩
      have hfits : Fits (.space n) ('\n' :: y) := by
        rintro d ⟨⟩
        rfl
      rw [List.append_assoc]
      exact (hbefore _).trans (.emit (scan_append hs fun _ => hfits) reads_newline)
    · refine ⟨ts₀, Or.inr rfl, fun y => (hbefore _).trans ?_⟩
      have hrest : afterNewlines (cs ++ '\n' :: y) = afterNewlines y := by
        rw [afterNewlines_append hr]
        rfl
      rw [← hrest]
      exact reads_newline
    · refine ⟨ts₀ ++ [t], Or.inl rfl, fun y => ?_⟩
      have hfits : Fits t ('\n' :: y) := hsolid.fits (Or.inr (Or.inr (Or.inl rfl))) (by simp)
      rw [List.append_assoc]
      exact (hbefore _).trans (.emit (scan_append hs fun _ => hfits) reads_newline)

/-- A comment at the end of a line adds blanks to the tokens of the line, or prolongs the blanks
there. -/
theorem reads_appended (h : EndsPlain identation before ts)
    (hslash : l.indent = [] → ts.getLast? ≠ some (.symbol ['/'])) :
    ∃ ts', (ts' = ts ++ l.spaces identation ∨
        ∃ ts₀ n n', ts = ts₀ ++ [.space n] ∧ ts' = ts₀ ++ [.space n']) ∧
      ∀ w ts₂ x, Reads identation ('/' :: '/' :: w) ts₂ x →
        Reads identation (before ++ (l.indent ++ '/' :: '/' :: w)) (ts' ++ ts₂) x := by
  obtain ⟨hreads, hno⟩ := h
  have hspaces : ∀ w ts₂ x, Reads identation ('/' :: '/' :: w) ts₂ x →
      Reads identation (l.indent ++ '/' :: '/' :: w) (l.spaces identation ++ ts₂) x :=
    fun w ts₂ x hr => reads_spaces l (by rintro d ⟨⟩; rfl) hr
  have hhead : ∀ w d, (l.indent ++ '/' :: '/' :: w).head? = some d →
      isBlank d = true ∨ l.indent = [] ∧ d = '/' := by
    intro w d hd
    cases hi : l.indent with
    | nil =>
      rw [hi] at hd
      exact Or.inr ⟨rfl, (Option.some.inj hd).symm⟩
    | cons c cs =>
      rw [hi] at hd
      obtain rfl := Option.some.inj hd
      exact Or.inl (l.blank _ (by simp [hi]))
  by_cases hnil : before = []
  · subst hnil
    cases hreads with
    | refl => exact ⟨_, Or.inl rfl, hspaces⟩
    | emit hs | skip hs => cases hs
  obtain ⟨ts₀, p, tl, hp, hlast, rfl, hbefore⟩ := exists_lastLexeme hreads hnil
  cases hlast with
  | comment hc =>
    have hcomment := hbefore []
    simp only [List.append_nil] at hcomment
    exact (hno ⟨_, hc, by simpa using hcomment⟩).elim
  | @line c hc =>
    refine ⟨_, Or.inl rfl, fun w ts₂ x hr => ?_⟩
    rw [List.append_nil, List.append_assoc]
    refine (hbefore _).trans ?_
    simpa using reads_comment hc (hspaces w ts₂ x hr)
  | carriageReturn =>
    refine ⟨_, Or.inl rfl, fun w ts₂ x hr => ?_⟩
    rw [List.append_nil, List.append_assoc]
    exact (hbefore _).trans (.skip rfl (hspaces w ts₂ x hr))
  | @token _ t hs =>
    rcases scan_emit_cases hs with ⟨c, cs, rfl, hblank, ⟨n, rfl⟩, hr⟩ | ⟨cs, rfl, rfl, hr⟩ | hsolid
    · refine ⟨ts₀ ++ [.space (width identation (c :: cs ++ l.indent))],
        Or.inr ⟨ts₀, n, _, rfl, rfl⟩, fun w ts₂ x hr' => ?_⟩
      have hall : ∀ d ∈ c :: cs ++ l.indent, isBlank d = true := by
        intro d hd
        rcases List.mem_append.mp hd with hd | hd
        · rcases List.mem_cons.mp hd with rfl | hd
          · exact hblank
          · exact List.dropWhile_eq_nil_iff.mp hr.symm d hd
        · exact l.blank d hd
      rw [List.append_assoc]
      refine (hbefore _).trans (.emit ?_ hr')
      rw [← List.append_assoc]
      exact scan_blanks hall (by simp) (by rintro d ⟨⟩; rfl)
    · refine ⟨_, Or.inl rfl, fun w ts₂ x hr' => ?_⟩
      rw [List.append_assoc, List.append_assoc]
      refine (hbefore _).trans (.emit (scan_append hs fun _ => ?_) (hspaces w ts₂ x hr'))
      intro d hd
      rcases hhead w d hd with hd | ⟨-, rfl⟩
      · rintro rfl
        cases hd
      · decide
    · refine ⟨_, Or.inl rfl, fun w ts₂ x hr' => ?_⟩
      rw [List.append_assoc, List.append_assoc]
      refine (hbefore _).trans (.emit (scan_append hs fun _ => ?_) (hspaces w ts₂ x hr'))
      cases hx : l.indent ++ '/' :: '/' :: w with
      | nil => exact fun d hd => by cases hd
      | cons d z =>
        have hd := hhead w d (by rw [hx]; rfl)
        refine hsolid.fits ?_ fun heq => ?_
        · rcases hd with hd | ⟨-, rfl⟩
          · unfold isBlank at hd
            rcases Bool.or_eq_true_iff.mp hd with hd | hd
            · exact Or.inl (of_decide_eq_true hd)
            · exact Or.inr (Or.inl (of_decide_eq_true hd))
          · exact Or.inr (Or.inr (Or.inr rfl))
        · rcases hd with hd | ⟨hi, -⟩
          · rw [heq] at hd
            cases hd
          · simpa using hslash hi

end Texts

section Collapse

variable {a b : List Token}

theorem collapse_head : (collapse a).head? = a.head? := by
  induction a with
  | nil => rfl
  | cons t a ih =>
    unfold collapse
    split
    · rename_i h
      rw [ih, h.2, h.1, List.head?_cons]
    · rfl

theorem collapse_cons_congr (h : collapse a = collapse b) : collapse (t :: a) = collapse (t :: b) := by
  have hhead : a.head? = b.head? := by rw [← collapse_head, h, collapse_head]
  simp only [collapse, hhead, h]

theorem collapse_append_congr (out : List Token) (h : collapse a = collapse b) :
    collapse (out ++ a) = collapse (out ++ b) := by
  induction out with
  | nil => exact h
  | cons t out ih => exact collapse_cons_congr ih

theorem collapse_newlines : collapse (.newline :: .newline :: a) = collapse (.newline :: a) := by
  rw [collapse, if_pos ⟨rfl, rfl⟩]

/-- The output of a run, where repeated newlines are one. -/
def collapsed (r : Except String (LayoutState × List Token)) : Except String (List Token) :=
  r.map fun x => collapse x.2

variable {r : Except String (LayoutState × List Token)} {s s' : LayoutState}
variable {f g : LayoutState → Except String (LayoutState × List Token)}

theorem collapsed_andThen_congr
    (h : ∀ s out, r = .ok (s, out) → collapsed (f s) = collapsed (g s)) :
    collapsed (andThen r f) = collapsed (andThen r g) := by
  cases r with
  | error e => rfl
  | ok x =>
    obtain ⟨s, out⟩ := x
    have h := h s out rfl
    cases hf : f s with
    | error e =>
      rw [andThen_failed hf, ← hf, h]
      cases hg : g s with
      | error e' => rw [andThen_failed hg]
      | ok y =>
        rw [hf, hg] at h
        cases h
    | ok x =>
      cases hg : g s with
      | error e =>
        rw [hf, hg] at h
        cases h
      | ok y =>
        rw [hf, hg] at h
        rw [andThen_ok hf, andThen_ok hg]
        exact congrArg Except.ok (collapse_append_congr out (Except.ok.inj h))

theorem collapsed_newlines :
    collapsed (andThen (.ok (s, [.newline])) fun _ => andThen (.ok (s', [.newline])) f) =
      collapsed (andThen (.ok (s', [.newline])) f) := by
  cases hf : f s' with
  | error e =>
    rw [andThen_failed hf]
    exact congrArg collapsed (andThen_failed rfl)
  | ok x =>
    rw [andThen_ok hf]
    refine (congrArg collapsed (andThen_ok rfl)).trans ?_
    exact congrArg Except.ok collapse_newlines

end Collapse

section Layout

variable {stack : List Context} {s : LayoutState} {toks sp sp' : List Token} {n : Int}

theorem opens_newline : opens stack (.newline :: toks) = false := by
  unfold opens
  simp only [collectWithContext]
  cases contextOf stack <;> rfl

theorem opens_space (htop : contextOf stack = .topLevel) :
    opens stack (.space n :: toks) = opens stack toks := by
  unfold opens
  simp only [collectWithContext, htop]
  rfl

/-- The tokens up to a line break are laid out first. -/
theorem runFrom_break : runFrom [.topLevel] start (ts ++ .newline :: toks) =
    andThen (runFrom [.topLevel] start ts)
      fun s => runFrom (contexts [.topLevel] ts) s (.newline :: toks) := by
  rw [runFrom_append, runOver_closed opens_newline]

/-- Blanks that change the indentation as the line that follows does are not seen. -/
theorem runFrom_aligned_pending {is : List Int} (htop : contextOf stack = .topLevel)
    (ha : Aligned stack is n toks) (hopens : opens stack toks ≠ true) :
    runFrom stack ⟨is, true⟩ (.space n :: toks) = runFrom stack ⟨is, true⟩ toks := by
  rw [runFrom_space_pending htop rfl]
  rcases ha with ha | ⟨m, rest, rfl, heq⟩ | ⟨t, rest, rfl, hsolid, heq⟩
  · exact (hopens ha).elim
  · rw [runFrom_space_pending htop rfl]
    dsimp only
    rw [heq]
    exact andThen_congr fun is' out _ => runFrom_space htop rfl
  · rw [runFrom_cons, layoutStep_solid hsolid, if_pos ⟨htop, rfl⟩, andThen_assoc]
    dsimp only
    rw [heq]
    refine andThen_congr fun is' out _ => ?_
    rw [runFrom_cons, layoutStep_solid hsolid, if_neg (by simp)]

/-- A comment line after a newline is not seen if the next line changes the indentation as it
does. -/
theorem runFrom_aligned (htop : AtTopLevel ts)
    (ha : ∀ is, indentsAfter ts = .ok is → Aligned (contexts [.topLevel] ts) is n toks) :
    runFrom [.topLevel] start (ts ++ .newline :: .space n :: toks) =
      runFrom [.topLevel] start (ts ++ .newline :: toks) := by
  rw [runFrom_break, runFrom_break]
  refine andThen_congr fun s out hs => ?_
  rw [runFrom_newline htop, runFrom_newline htop, opens_space htop]
  by_cases hopens : opens (contexts [.topLevel] ts) toks = true
  · rw [if_pos hopens, if_pos hopens, runFrom_space htop rfl]
  · have ha : Aligned (contexts [.topLevel] ts) s.indents n toks :=
      ha s.indents (by rw [indentsAfter, hs]; rfl)
    have hkey := runFrom_aligned_pending htop ha hopens
    rw [if_neg hopens, if_neg hopens]
    simp only [andThen, hkey]

theorem emitIndentChange_same {is : List Int} (h : is.head? = some n) :
    emitIndentChange is n = .ok (is, []) := by
  cases is with
  | nil => cases h
  | cons i is =>
    obtain rfl := Option.some.inj h
    rw [emitIndentChange, dedents, if_neg (lt_irrefl _), if_neg (lt_irrefl _)]

/-- The blanks stand at the current indentation after `ts`, or are none. -/
def AtIndentation (ts sp : List Token) : Prop :=
  sp = [] ∨ ∃ n, sp = [.space n] ∧ ∀ is, indentsAfter ts = .ok is → is.head? = some n

/-- A blank line of the current indentation repeats a newline. -/
theorem runFrom_blank (htop : AtTopLevel ts) (hsp : AtIndentation ts sp)
    (hopens : opens (contexts [.topLevel] ts) toks = false) :
    collapsed (runFrom [.topLevel] start (ts ++ .newline :: (sp ++ .newline :: toks))) =
      collapsed (runFrom [.topLevel] start (ts ++ .newline :: toks)) := by
  rw [runFrom_break, runFrom_break]
  refine collapsed_andThen_congr fun s out hs => ?_
  have hline : opens (contexts [.topLevel] ts) (sp ++ .newline :: toks) = false := by
    rcases hsp with rfl | ⟨n, rfl, -⟩
    · exact opens_newline
    · rw [List.singleton_append, opens_space htop]
      exact opens_newline
  have hrepeat : ∀ p, runFrom (contexts [.topLevel] ts) ⟨s.indents, p⟩ (.newline :: toks) =
      andThen (.ok (⟨s.indents, true⟩, [.newline]))
        fun s' => runFrom (contexts [.topLevel] ts) s' toks := by
    intro p
    rw [runFrom_newline htop, if_neg (by simp [hopens])]
  have hblank : runFrom (contexts [.topLevel] ts) ⟨s.indents, true⟩ (sp ++ .newline :: toks) =
      andThen (.ok (⟨s.indents, true⟩, [.newline]))
        fun s' => runFrom (contexts [.topLevel] ts) s' toks := by
    rcases hsp with rfl | ⟨n, rfl, hsame⟩
    · exact hrepeat true
    · have hsame := emitIndentChange_same (hsame s.indents (by rw [indentsAfter, hs]; rfl))
      rw [List.singleton_append, runFrom_space_pending htop rfl]
      dsimp only
      rw [hsame, andThen_silent]
      exact hrepeat false
  rw [runFrom_newline htop, if_neg (by simp [hline]), hrepeat s.pendingNewline]
  refine Eq.trans ?_ (collapsed_newlines (s := ⟨s.indents, true⟩))
  exact congrArg collapsed (andThen_congr fun s' out' hs' => by
    obtain ⟨rfl, -⟩ := Prod.mk.inj (Except.ok.inj hs')
    exact hblank)

/-- Blanks are dropped where no newline is pending. -/
theorem runFrom_spaces (hp : s.pendingNewline = false) (hsp : ∀ u ∈ sp, ∃ n, u = Token.space n) :
    runFrom stack s (sp ++ toks) = runFrom stack s toks := by
  induction sp with
  | nil => rfl
  | cons u sp ih =>
    obtain ⟨n, rfl⟩ := hsp u (by simp)
    have ih := ih fun u' hu' => hsp u' (by simp [hu'])
    cases hctx : contextOf stack with
    | topLevel => rw [List.cons_append, runFrom_space hctx hp, ih]
    | inside => rw [List.cons_append, runFrom_inside hctx (Or.inr ⟨n, rfl⟩), ih]

end Layout

end Syli.Compiler.Lexer
