import Mathlib.Data.List.Basic

/-! Regular expressions whose anchors stand at the ends of lines, not only at those of the text. -/
namespace Syli.Foundation

variable {α : Type}

inductive RegexPart (α : Type) where
  | lineStart
  | lineEnd
  | one (p : α → Bool)
  | many (p : α → Bool)

/-- The parts of the expression follow each other. -/
abbrev LineRegex (α : Type) := List (RegexPart α)

/-- A run of characters in `p`, of any length, before what `next` matches. -/
def matchesMany (p : α → Bool) (next : Option α → List α → Bool) : Option α → List α → Bool
  | prev, [] => next prev []
  | prev, c :: s => next prev (c :: s) || (p c && matchesMany p next (some c) s)

namespace LineRegex

variable [DecidableEq α] (newline : α)

def atLineStart (prev : Option α) : Bool := prev = none || prev = some newline

def atLineEnd (s : List α) : Bool := s.head? = none || s.head? = some newline

/-- Some prefix of the text is matched; `prev` is the character before it. -/
def matchesPrefix : LineRegex α → Option α → List α → Bool
  | [], _, _ => true
  | .lineStart :: parts, prev, s => atLineStart newline prev && matchesPrefix parts prev s
  | .lineEnd :: parts, prev, s => atLineEnd newline s && matchesPrefix parts prev s
  | .one _ :: _, _, [] => false
  | .one p :: parts, _, c :: s => p c && matchesPrefix parts (some c) s
  | .many p :: parts, prev, s => matchesMany p (matchesPrefix parts) prev s

end LineRegex

variable {p q : α → Bool} {prev : Option α} {newline : α} {s : List α}

theorem getLast?_cons_or (c : α) (run : List α) (prev : Option α) :
    (c :: run).getLast?.or prev = run.getLast?.or (some c) := by
  rw [List.getLast?_cons]
  cases run.getLast? <;> rfl

theorem matchesMany_iff {next : Option α → List α → Bool} :
    matchesMany p next prev s = true ↔ ∃ run rest, s = run ++ rest ∧ (∀ d ∈ run, p d = true) ∧
      next (run.getLast?.or prev) rest = true := by
  induction s generalizing prev with
  | nil =>
    constructor
    · intro h
      exact ⟨[], [], rfl, by simp, h⟩
    · rintro ⟨run, rest, heq, -, h⟩
      obtain ⟨rfl, rfl⟩ := List.append_eq_nil_iff.mp heq.symm
      exact h
  | cons c s ih =>
    simp only [matchesMany, Bool.or_eq_true, Bool.and_eq_true, ih]
    constructor
    · rintro (h | ⟨hc, run, rest, rfl, hrun, h⟩)
      · exact ⟨[], c :: s, rfl, by simp, h⟩
      · refine ⟨c :: run, rest, rfl, by simpa using ⟨hc, hrun⟩, ?_⟩
        rwa [getLast?_cons_or]
    · rintro ⟨run, rest, heq, hrun, h⟩
      cases run with
      | nil =>
        obtain rfl := heq
        exact Or.inl h
      | cons d run =>
        obtain ⟨rfl, rfl⟩ := List.cons.inj heq
        rw [getLast?_cons_or] at h
        exact Or.inr ⟨hrun c List.mem_cons_self, run, rest, rfl,
          fun d hd => hrun d (List.mem_cons_of_mem c hd), h⟩

/-- A line that starts with a character in `p`, followed by characters in `q`. -/
theorem matchesPrefix_run [DecidableEq α] :
    LineRegex.matchesPrefix newline [.lineStart, .one p, .many q, .lineEnd] none s = true ↔
      ∃ c run rest, s = c :: (run ++ rest) ∧ p c = true ∧ (∀ d ∈ run, q d = true) ∧
        (rest = [] ∨ rest.head? = some newline) := by
  cases s with
  | nil => simp [LineRegex.matchesPrefix]
  | cons c s =>
    simp only [LineRegex.matchesPrefix, matchesMany_iff, LineRegex.atLineStart,
      LineRegex.atLineEnd, Bool.and_eq_true, Bool.and_true, decide_true, Bool.true_or, true_and,
      Bool.or_eq_true, decide_eq_true_eq, List.head?_eq_none_iff]
    constructor
    · rintro ⟨hc, run, rest, rfl, hrun, hend⟩
      exact ⟨c, run, rest, rfl, hc, hrun, hend⟩
    · rintro ⟨d, run, rest, heq, hd, hrun, hend⟩
      obtain ⟨rfl, rfl⟩ := List.cons.inj heq
      exact ⟨hd, run, rest, rfl, hrun, hend⟩

/-- Where the newline is in neither set, it is the first line of the text that is matched. -/
theorem matchesPrefix_line [DecidableEq α] (hp : p newline = false) (hq : q newline = false) :
    LineRegex.matchesPrefix newline [.lineStart, .one p, .many q, .lineEnd] none s = true ↔
      ∃ c run, s.takeWhile (· ≠ newline) = c :: run ∧ p c = true ∧ ∀ d ∈ run, q d = true := by
  rw [matchesPrefix_run]
  constructor
  · rintro ⟨c, run, rest, rfl, hc, hrun, hend⟩
    refine ⟨c, run, ?_, hc, hrun⟩
    have hfirst : c ≠ newline := by
      rintro rfl
      simp [hp] at hc
    have hline : ∀ d ∈ run, decide (d ≠ newline) = true := by
      intro d hd
      rw [decide_eq_true_iff]
      rintro rfl
      exact absurd (hrun d hd) (by simp [hq])
    rw [List.takeWhile_cons_of_pos (by simpa using hfirst), List.takeWhile_append_of_pos hline]
    cases rest with
    | nil => simp
    | cons d rest =>
      obtain rfl : d = newline := by simpa using hend
      simp
  · rintro ⟨c, run, hline, hc, hrun⟩
    refine ⟨c, run, s.dropWhile (· ≠ newline), ?_, hc, hrun, ?_⟩
    · rw [← List.cons_append, ← hline, List.takeWhile_append_dropWhile]
    · cases hrest : s.dropWhile (· ≠ newline) with
      | nil => exact Or.inl rfl
      | cons d rest =>
        right
        have hd := List.head_dropWhile_not (· ≠ newline) (l := s) (by rw [hrest]; simp)
        simp only [hrest, List.head_cons, decide_eq_false_iff_not, not_not] at hd
        rw [hd]
        rfl

end Syli.Foundation
