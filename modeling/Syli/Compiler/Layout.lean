import Syli.Compiler.Lexer
import Syli.Foundation.Emissions

/-! `syli_post_lex.ml`: the layout of the lines becomes tokens. -/
namespace Syli.Compiler.Lexer

open Foundation

inductive Context where
  | topLevel
  | inside
deriving DecidableEq

def isOpenConstruct : Token → Bool
  | .lbrace | .lbracket | .lbracketBar => true
  | _ => false

def updateStackOnToken (stack : List Context) : Token → List Context
  | .lbrace | .lbracket | .lbracketBar => .inside :: stack
  | .rbrace | .rbracket | .rbracketBar =>
    match stack with
    | _ :: tl => tl
    | [] => [.topLevel]
  | _ => stack

def contextOf : List Context → Context
  | .topLevel :: _ => .topLevel
  | _ => .inside

def collectWithContext (stack : List Context) : List Token → List (Token × Context)
  | [] => []
  | tok :: toks => (tok, contextOf stack) :: collectWithContext (updateStackOnToken stack tok) toks

/-- `indents` is the `indent_stack`. -/
structure LayoutState where
  indents : List Int
  pendingNewline : Bool
deriving DecidableEq

/-- The loop that pops what is deeper than `n`; `List.hd` fails on the empty stack. -/
def dedents (n : Int) : List Int → Except String (List Int × List Token)
  | [] => .error "hd"
  | i :: is =>
    if n < i then (dedents n is).map fun r => (r.1, .dedent :: r.2) else .ok (i :: is, [])

def emitIndentChange (indents : List Int) (n : Int) : Except String (List Int × List Token) :=
  match indents with
  | [] => .error "hd"
  | i :: is => if i < n then .ok (n :: i :: is, [.indent]) else dedents n (i :: is)

def skipTopSpaces : List (Token × Context) → List (Token × Context)
  | (.space _, .topLevel) :: tl => skipTopSpaces tl
  | xs => xs

/-- The look-ahead after a newline. -/
def opensConstruct (toks : List (Token × Context)) : Bool :=
  match skipTopSpaces toks with
  | (tok, .topLevel) :: _ => isOpenConstruct tok
  | _ => false

/-- One round of the loop of `layout`: the tokens emitted for `tok`, where `tl` follows. -/
def layoutStep (s : LayoutState) (tok : Token) (ctx : Context) (tl : List (Token × Context)) :
    Except String (LayoutState × List Token) :=
  match tok, ctx with
  | .space _, .inside | .newline, .inside => .ok (s, [])
  | .newline, .topLevel =>
    if opensConstruct tl then .ok ({ s with pendingNewline := false }, [])
    else .ok ({ s with pendingNewline := true }, [.newline])
  | .space n, .topLevel =>
    if s.pendingNewline then
      andThen (emitIndentChange s.indents n) fun indents => .ok (⟨indents, false⟩, [])
    else .ok (s, [])
  | tok, ctx =>
    if ctx = .topLevel ∧ s.pendingNewline then
      andThen (emitIndentChange s.indents 0) fun indents => .ok (⟨indents, false⟩, [tok])
    else if tok = .eof then
      .ok ({ s with indents := s.indents.drop (s.indents.length - 1) },
        List.replicate (s.indents.length - 1) .dedent ++ [tok])
    else .ok ({ s with pendingNewline := false }, [tok])

def layoutFrom (s : LayoutState) :
    List (Token × Context) → Except String (LayoutState × List Token)
  | [] => .ok (s, [])
  | (tok, ctx) :: tl => andThen (layoutStep s tok ctx tl) fun s' => layoutFrom s' tl

def start : LayoutState := ⟨[0], false⟩

def layout (tokens : List (Token × Context)) : Except String (List Token) :=
  (layoutFrom start tokens).map Prod.snd

/-- `wrap_lexer`: the tokens that the parser receives. -/
def wrapLexer (identation : Int) (text : List Char) : Except String (List Token) :=
  lex identation text >>= fun toks => layout (collectWithContext [.topLevel] toks)

/-- Repeated newlines are one. -/
def collapse : List Token → List Token
  | [] => []
  | t :: ts => if t = .newline ∧ ts.head? = some .newline then collapse ts else t :: collapse ts

end Syli.Compiler.Lexer
