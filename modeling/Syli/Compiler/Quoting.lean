import Mathlib
import Syli.Foundation.LineRegex
import Syli.Compiler.LlvmStrings

/-! `helpers.ml`: which LLVM names are quoted, and how the texts are read. -/
namespace Syli.Compiler.Llvm

open Foundation

variable {c : Byte} {s t : List Byte}

def newline : Byte := 0x0A

def isLetter (c : Byte) : Bool := (0x61 ≤ c && c ≤ 0x7A) || (0x41 ≤ c && c ≤ 0x5A)

def isDigit (c : Byte) : Bool := 0x30 ≤ c && c ≤ 0x39

/-- `[-a-zA-Z$._]` -/
def isNameStart (c : Byte) : Bool :=
  c = 0x2D || isLetter c || c = 0x24 || c = 0x2E || c = 0x5F

/-- `[-a-zA-Z$._0-9]` -/
def isNameChar (c : Byte) : Bool := isNameStart c || isDigit c

def namedIdentifierRe : LineRegex Byte :=
  [.lineStart, .one isNameStart, .many isNameChar, .lineEnd]

/-- `[0-9]+` is one digit and a run of digits. -/
def numericIdentifierRe : LineRegex Byte :=
  [.lineStart, .one isDigit, .many isDigit, .lineEnd]

/-- `Str.string_match re s 0` -/
def stringMatch (re : LineRegex Byte) (s : List Byte) : Bool :=
  re.matchesPrefix newline none s

def isUnquotedIdentifier (s : List Byte) : Bool :=
  stringMatch namedIdentifierRe s || stringMatch numericIdentifierRe s

def quoteIfNeeded (s : List Byte) : List Byte :=
  if isUnquotedIdentifier s then s else quote :: (escapeCString s ++ [quote])

/-- The longest name or number, or what stands between two quotes, and the text behind it. -/
def readVarName : List Byte → Option (List Byte × List Byte)
  | [] => none
  | c :: text =>
    if c = quote then
      match text.dropWhile (· ≠ quote) with
      | [] => none
      | _ :: rest => some (unescape (text.takeWhile (· ≠ quote)), rest)
    else if isNameStart c then
      some (c :: text.takeWhile isNameChar, text.dropWhile isNameChar)
    else if isDigit c then some (c :: text.takeWhile isDigit, text.dropWhile isDigit)
    else none

/-- The identifiers that LLVM reads without quotes. -/
def Identifier (s : List Byte) : Prop :=
  ∃ c run, s = c :: run ∧ (isNameStart c = true ∧ (∀ d ∈ run, isNameChar d = true) ∨
    isDigit c = true ∧ ∀ d ∈ run, isDigit d = true)

/-- The text is read as one identifier with the name `s`, and no other name has it. -/
structure QuotedSoundly (s : List Byte) : Prop where
  reads : readVarName (quoteIfNeeded s) = some (s, [])
  distinct : ∀ t, quoteIfNeeded t = quoteIfNeeded s → t = s

/-- The part of the name that decides whether it is quoted. -/
def firstLine (s : List Byte) : List Byte := s.takeWhile (· ≠ newline)

theorem isUnquotedIdentifier_iff : isUnquotedIdentifier s = true ↔ Identifier (firstLine s) := by
  have hnamed : stringMatch namedIdentifierRe s = true ↔ ∃ c run, firstLine s = c :: run ∧
      isNameStart c = true ∧ ∀ d ∈ run, isNameChar d = true :=
    matchesPrefix_line (by decide) (by decide)
  have hnumeric : stringMatch numericIdentifierRe s = true ↔ ∃ c run, firstLine s = c :: run ∧
      isDigit c = true ∧ ∀ d ∈ run, isDigit d = true :=
    matchesPrefix_line (by decide) (by decide)
  rw [isUnquotedIdentifier, Bool.or_eq_true, hnamed, hnumeric]
  constructor
  · rintro (⟨c, run, hline, h⟩ | ⟨c, run, hline, h⟩)
    · exact ⟨c, run, hline, Or.inl h⟩
    · exact ⟨c, run, hline, Or.inr h⟩
  · rintro ⟨c, run, hline, h | h⟩
    · exact Or.inl ⟨c, run, hline, h⟩
    · exact Or.inr ⟨c, run, hline, h⟩

theorem takeWhile_run {p : Byte → Bool} {run : List Byte} (rest : List Byte)
    (hrun : ∀ d ∈ run, p d = true) (hrest : ∀ d ∈ rest.head?, p d = false) :
    (run ++ rest).takeWhile p = run ∧ (run ++ rest).dropWhile p = rest := by
  rw [List.takeWhile_append_of_pos hrun, List.dropWhile_append_of_pos hrun]
  cases rest with
  | nil => simp
  | cons d rest =>
    have hd := hrest d rfl
    simp [hd]

theorem ne_quote_of_isNameStart : ∀ c : Byte, isNameStart c = true → c ≠ quote := by
  decide

theorem ne_quote_of_isDigit :
    ∀ c : Byte, isDigit c = true → c ≠ quote ∧ isNameStart c = false := by
  decide

/-- An identifier is read up to the end of its line. -/
theorem readVarName_identifier (rest : List Byte) (h : Identifier s)
    (hrest : ∀ d ∈ rest.head?, d = newline) : readVarName (s ++ rest) = some (s, rest) := by
  obtain ⟨c, run, rfl, ⟨hc, hrun⟩ | ⟨hc, hrun⟩⟩ := h
  · obtain ⟨htake, hdrop⟩ := takeWhile_run rest hrun fun d hd => by
      rw [hrest d hd]
      decide
    rw [List.cons_append, readVarName, if_neg (ne_quote_of_isNameStart c hc), if_pos hc, htake,
      hdrop]
  · obtain ⟨htake, hdrop⟩ := takeWhile_run rest hrun fun d hd => by
      rw [hrest d hd]
      decide
    obtain ⟨hquote, hstart⟩ := ne_quote_of_isDigit c hc
    rw [List.cons_append, readVarName, if_neg hquote, if_neg (by simp [hstart]), if_pos hc, htake,
      hdrop]

/-- Any bytes between quotes are read back. -/
theorem readVarName_quoted (s : List Byte) :
    readVarName (quote :: (escapeCString s ++ [quote])) = some (s, []) := by
  have hbytes : ∀ d ∈ escapeCString s, decide (d ≠ quote) = true := by
    intro d hd
    rw [decide_eq_true_iff]
    rintro rfl
    exact quote_not_mem_escapeCString s hd
  obtain ⟨htake, hdrop⟩ := takeWhile_run [quote] hbytes (by simp)
  rw [readVarName, if_pos rfl, htake, hdrop]
  simp only [unescape_escapeCString]

theorem quoteIfNeeded_of_identifier (h : Identifier (firstLine s)) : quoteIfNeeded s = s := by
  rw [quoteIfNeeded, if_pos (isUnquotedIdentifier_iff.mpr h)]

theorem quoteIfNeeded_of_not (h : ¬ Identifier (firstLine s)) :
    quoteIfNeeded s = quote :: (escapeCString s ++ [quote]) := by
  rw [quoteIfNeeded, if_neg (fun hs => h (isUnquotedIdentifier_iff.mp hs))]

/-- A text without quotes does not start like one with quotes. -/
theorem ne_quote_cons (h : Identifier (firstLine s)) (text : List Byte) : s ≠ quote :: text := by
  rintro rfl
  obtain ⟨c, run, hline, hc⟩ := h
  have hfirst : c = quote := by
    rw [firstLine, List.takeWhile_cons_of_pos (by decide)] at hline
    exact (List.cons.inj hline).1.symm
  rcases hc with ⟨hc, -⟩ | ⟨hc, -⟩
  · exact ne_quote_of_isNameStart c hc hfirst
  · exact (ne_quote_of_isDigit c hc).1 hfirst

theorem quoteIfNeeded_inj (h : quoteIfNeeded s = quoteIfNeeded t) : s = t := by
  by_cases hs : Identifier (firstLine s)
  · rw [quoteIfNeeded_of_identifier hs] at h
    by_cases ht : Identifier (firstLine t)
    · rwa [quoteIfNeeded_of_identifier ht] at h
    · rw [quoteIfNeeded_of_not ht] at h
      exact (ne_quote_cons hs _ h).elim
  · rw [quoteIfNeeded_of_not hs] at h
    by_cases ht : Identifier (firstLine t)
    · rw [quoteIfNeeded_of_identifier ht] at h
      exact (ne_quote_cons ht _ h.symm).elim
    · rw [quoteIfNeeded_of_not ht] at h
      have hread := congrArg readVarName h
      rw [readVarName_quoted, readVarName_quoted] at hread
      exact (Prod.mk.inj (Option.some.inj hread)).1

theorem firstLine_append (s : List Byte) : ∃ rest, s = firstLine s ++ rest ∧
    (∀ d ∈ rest.head?, d = newline) ∧ (newline ∈ s → rest ≠ []) := by
  refine ⟨s.dropWhile (· ≠ newline), List.takeWhile_append_dropWhile.symm, ?_, ?_⟩
  · intro d hd
    have hnot := List.head?_dropWhile_not (· ≠ newline) s
    rw [hd] at hnot
    simpa using hnot
  · intro hmem hnil
    have hall := List.dropWhile_eq_nil_iff.mp hnil newline hmem
    simp at hall

/-- A name is quoted soundly exactly when it has one line, or its first line needs quotes. -/
theorem quotedSoundly_iff (s : List Byte) :
    QuotedSoundly s ↔ (newline ∈ s → ¬ Identifier (firstLine s)) := by
  obtain ⟨rest, hs, hrest, hnonempty⟩ := firstLine_append s
  constructor
  · intro h hmem hline
    have hread := h.reads
    rw [quoteIfNeeded_of_identifier hline] at hread
    nth_rewrite 1 [hs] at hread
    rw [readVarName_identifier rest hline hrest] at hread
    exact hnonempty hmem (Prod.mk.inj (Option.some.inj hread)).2
  · intro h
    refine ⟨?_, fun t => quoteIfNeeded_inj⟩
    by_cases hline : Identifier (firstLine s)
    · have hone : newline ∉ s := fun hmem => h hmem hline
      have hwhole : firstLine s = s := by
        rw [firstLine, List.takeWhile_eq_self_iff]
        intro d hd
        rw [decide_eq_true_iff]
        rintro rfl
        exact hone hd
      rw [quoteIfNeeded_of_identifier hline]
      have hread := readVarName_identifier [] hline (by simp)
      rwa [List.append_nil, hwhole] at hread
    · rw [quoteIfNeeded_of_not hline]
      exact readVarName_quoted s

/-- A name of two lines, the first of which is an identifier, is left as it is. -/
theorem two_lines_unquoted : ¬ QuotedSoundly [0x61, newline, 0x62] := by
  intro h
  have hread := h.reads
  revert hread
  decide

end Syli.Compiler.Llvm
