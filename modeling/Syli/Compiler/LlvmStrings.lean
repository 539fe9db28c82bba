import Mathlib.Data.BitVec

/-! `helpers.ml`: bytes in the quoted strings of LLVM texts. -/
namespace Syli.Compiler.Llvm

abbrev Byte := BitVec 8

def quote : Byte := 0x22

def backslash : Byte := 0x5C

/-- The digits of `%02x`. -/
def hexDigit (n : Byte) : Byte := if n < 10 then 48 + n else 87 + n

def isPlain (c : Byte) : Bool := 0x20 ≤ c && c ≤ 0x7E && c ≠ quote && c ≠ backslash

def escapeByte (c : Byte) : List Byte :=
  if isPlain c then [c] else [backslash, hexDigit (c >>> 4), hexDigit (c &&& 0xF)]

def escapeCString (s : List Byte) : List Byte := s.flatMap escapeByte

def hexValue (c : Byte) : Option Byte :=
  if 48 ≤ c ∧ c ≤ 57 then some (c - 48)
  else if 65 ≤ c ∧ c ≤ 70 then some (c - 55)
  else if 97 ≤ c ∧ c ≤ 102 then some (c - 87)
  else none

/-- How LLVM reads a quoted string: a backslash with two hexadecimal digits is one byte. -/
def unescape : List Byte → List Byte
  | [] => []
  | [a] => [a]
  | [a, b] => [a, b]
  | c :: h :: l :: rest =>
    if c = backslash then
      match hexValue h, hexValue l with
      | some a, some b => (a <<< 4 ||| b) :: unescape rest
      | _, _ => c :: unescape (h :: l :: rest)
    else c :: unescape (h :: l :: rest)

variable {c : Byte} {s rest : List Byte}

theorem unescape_cons_of_ne (h : c ≠ backslash) : unescape (c :: rest) = c :: unescape rest := by
  rcases rest with _ | ⟨a, _ | ⟨b, rest⟩⟩
  · rfl
  · rfl
  · simp [unescape, h]

theorem hexValue_hexDigit : ∀ c : Byte, hexValue (hexDigit (c >>> 4)) = some (c >>> 4) ∧
    hexValue (hexDigit (c &&& 0xF)) = some (c &&& 0xF) ∧ (c >>> 4) <<< 4 ||| (c &&& 0xF) = c := by
  decide

theorem quote_not_mem_escapeByte : ∀ c : Byte, quote ∉ escapeByte c := by
  decide

theorem unescape_escapeByte (c : Byte) (rest : List Byte) :
    unescape (escapeByte c ++ rest) = c :: unescape rest := by
  unfold escapeByte
  split
  · rename_i hplain
    have hne : c ≠ backslash := by
      rintro rfl
      exact absurd hplain (by decide)
    exact unescape_cons_of_ne hne
  · obtain ⟨hhigh, hlow, hbyte⟩ := hexValue_hexDigit c
    simp only [List.cons_append, List.nil_append, unescape, if_true, hhigh, hlow, hbyte]

/-- What is escaped is read back. -/
theorem unescape_escapeCString (s : List Byte) : unescape (escapeCString s) = s := by
  induction s with
  | nil => rfl
  | cons c s ih =>
    rw [escapeCString, List.flatMap_cons, unescape_escapeByte]
    exact congrArg (c :: ·) ih

/-- The text ends at the quote behind it. -/
theorem quote_not_mem_escapeCString (s : List Byte) : quote ∉ escapeCString s := by
  intro h
  obtain ⟨c, -, hc⟩ := List.mem_flatMap.mp h
  exact quote_not_mem_escapeByte c hc

end Syli.Compiler.Llvm
