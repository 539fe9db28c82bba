import Mathlib
import Syli.Foundation.NativeInt

/-! `syli_lexer.mll`: the raw tokens of a source text. -/
namespace Syli.Compiler.Lexer

open Foundation

/-- Keywords, names of types, Booleans and identifiers are words, told apart by their spelling. -/
inductive Token where
  | space (n : Int)
  | newline
  | indent
  | dedent
  | eof
  | lbrace
  | lbracket
  | lbracketBar
  | rbrace
  | rbracket
  | rbracketBar
  | word (s : List Char)
  | int (s : List Char)
  | float (s : List Char)
  | char (c : Char)
  | typeVar (s : List Char)
  | string (s : List Char)
  | symbol (s : List Char)
deriving DecidableEq, Repr

/-- One call of the lexer: the rules without a token call it again. -/
inductive Scan where
  | eof
  | error (msg : String)
  | skip (rest : List Char)
  | emit (tok : Token) (rest : List Char)
deriving DecidableEq

def isBlank (c : Char) : Bool := c = ' ' || c = '\t'

def isIdentChar (c : Char) : Bool := c.isAlphanum || c = '_'

def isIdentStart (c : Char) : Bool := c.isAlpha || c = '_'

/-- `identation` is the width of a tab, any integer that `SYLI_INDENTATION` gives. -/
def width (identation : Int) (s : List Char) : Int :=
  s.foldl (fun acc c => addInt acc (if c = ' ' then 1 else identation)) 0

def unexpected (c : Char) : Scan := .error ("Unexpected character: " ++ c.toString)

def hexDigit (c : Char) : Option Nat :=
  if '0' ≤ c ∧ c ≤ '9' then some (c.toNat - 48)
  else if 'a' ≤ c ∧ c ≤ 'f' then some (c.toNat - 97)
  else if 'A' ≤ c ∧ c ≤ 'F' then some (c.toNat - 65)
  else none

def escape : Char → Option Char
  | 'n' => some '\n'
  | 't' => some '\t'
  | 'r' => some '\r'
  | '0' => some (Char.ofNat 0)
  | '\\' => some '\\'
  | '"' => some '"'
  | _ => none

/-- The rule `string`, with what has been read of the literal. -/
def scanString (buf : List Char) : List Char → Scan
  | [] => .error "Unterminated string literal"
  | c :: cs =>
    if c = '"' then .emit (.string buf) cs
    else if c = '\\' then
      match cs with
      | [] => .error "Invalid character in string literal"
      | e :: r =>
        match escape e with
        | some d => scanString (buf ++ [d]) r
        | none =>
          if e = 'x' then
            match r with
            | h1 :: h2 :: r' =>
              match hexDigit h1, hexDigit h2 with
              | some a, some b => scanString (buf ++ [Char.ofNat (a * 16 + b)]) r'
              | _, _ => .error "Invalid character in string literal"
            | _ => .error "Invalid character in string literal"
          else .error "Invalid character in string literal"
    else scanString (buf ++ [c]) cs

def scanNumber (c : Char) (cs : List Char) : Scan :=
  let digits := c :: cs.takeWhile Char.isDigit
  let rest := cs.dropWhile Char.isDigit
  if rest.head? = some '.' then
    .emit (.float (digits ++ '.' :: rest.tail.takeWhile Char.isDigit))
      (rest.tail.dropWhile Char.isDigit)
  else .emit (.int digits) rest

/-- After a quote: a character literal, or else a type variable. -/
def scanQuote : List Char → Scan
  | [] => unexpected '\''
  | a :: cs =>
    if a ≠ '\'' ∧ cs.head? = some '\'' then .emit (.char a) cs.tail
    else if a.isAlpha then
      .emit (.typeVar (a :: cs.takeWhile isIdentChar)) (cs.dropWhile isIdentChar)
    else unexpected '\''

def pairs : List (Char × Char) :=
  [(':', '='), ('&', '&'), ('|', '|'), ('>', '='), ('<', '='), ('=', '='), ('!', '='), ('[', '|'),
    ('|', ']'), ('-', '>')]

def singles : List Char :=
  ['(', ')', ',', ';', ':', '|', '=', '!', '#', '>', '<', '+', '-', '*', '%', '/', '[', ']', '{',
    '}', '.']

def symbolToken : List Char → Token
  | ['{'] => .lbrace
  | ['['] => .lbracket
  | ['[', '|'] => .lbracketBar
  | ['}'] => .rbrace
  | [']'] => .rbracket
  | ['|', ']'] => .rbracketBar
  | s => .symbol s

def isPair (c : Char) : List Char → Bool
  | d :: _ => (c, d) ∈ pairs
  | [] => false

def scanSymbol (c : Char) (cs : List Char) : Scan :=
  if isPair c cs then .emit (symbolToken (c :: cs.take 1)) cs.tail
  else if c ∈ singles then .emit (symbolToken [c]) cs
  else unexpected c

/-- A comment is skipped with the newline that ends it. -/
def afterComment (cs : List Char) : List Char := (cs.dropWhile (· ≠ '\n')).tail

/-- The longest match; the rule for reserved identifiers comes after the one for identifiers and
is never chosen. -/
def scan (identation : Int) : List Char → Scan
  | [] => .eof
  | c :: cs =>
    if c = '/' ∧ cs.head? = some '/' then .skip (afterComment cs.tail)
    else if isBlank c then
      .emit (.space (width identation (c :: cs.takeWhile isBlank))) (cs.dropWhile isBlank)
    else if c = '\n' then .emit .newline (cs.dropWhile (· = '\n'))
    else if isIdentStart c then
      .emit (.word (c :: cs.takeWhile isIdentChar)) (cs.dropWhile isIdentChar)
    else if c.isDigit then scanNumber c cs
    else if c = '\'' then scanQuote cs
    else if c = '"' then scanString [] cs
    else if c = '\r' then .skip cs
    else scanSymbol c cs

/-- The raw tokens up to the end of the file; `fuel` bounds the calls of the lexer. -/
def lexFuel (identation : Int) : Nat → List Char → Except String (List Token)
  | 0, _ => .error ""
  | fuel + 1, cs =>
    match scan identation cs with
    | .eof => .ok [.eof]
    | .error msg => .error msg
    | .skip rest => lexFuel identation fuel rest
    | .emit tok rest => (tok :: ·) <$> lexFuel identation fuel rest

def lex (identation : Int) (cs : List Char) : Except String (List Token) :=
  lexFuel identation (cs.length + 1) cs

end Syli.Compiler.Lexer
