import Syli.Compiler.Layout

/-! The layout pass on a stream of raw tokens that is cut in two. -/
namespace Syli.Compiler.Lexer

open Foundation

variable {stack : List Context} {s s' : LayoutState} {ts toks toks' out : List Token} {t : Token}
  {xs ys ys' : List (Token × Context)} {n : Int} {e : String}

def contexts (stack : List Context) (ts : List Token) : List Context :=
  ts.foldl updateStackOnToken stack

def runFrom (stack : List Context) (s : LayoutState) (ts : List Token) :
    Except String (LayoutState × List Token) :=
  layoutFrom s (collectWithContext stack ts)

/-- The loop of `layout` over a first part of its tokens, where `ys` follow. -/
def layoutOver (s : LayoutState) :
    List (Token × Context) → List (Token × Context) → Except String (LayoutState × List Token)
  | [], _ => .ok (s, [])
  | (tok, ctx) :: xs, ys =>
    andThen (layoutStep s tok ctx (xs ++ ys)) fun s' => layoutOver s' xs ys

def runOver (stack : List Context) (s : LayoutState) (ts toks : List Token) :
    Except String (LayoutState × List Token) :=
  layoutOver s (collectWithContext stack ts) (collectWithContext (contexts stack ts) toks)

def opens (stack : List Context) (ts : List Token) : Bool :=
  opensConstruct (collectWithContext stack ts)

theorem layout_eq : layout (collectWithContext [.topLevel] toks) =
    (runFrom [.topLevel] start toks).map Prod.snd := rfl

section Lookahead

theorem collect_append : collectWithContext stack (ts ++ toks) =
    collectWithContext stack ts ++ collectWithContext (contexts stack ts) toks := by
  induction ts generalizing stack with
  | nil => rfl
  | cons t ts ih =>
    simp only [List.cons_append, collectWithContext, ih]
    rfl

theorem contexts_append : contexts stack (ts ++ toks) = contexts (contexts stack ts) toks :=
  List.foldl_append ..

theorem opensConstruct_append (h : opensConstruct ys = opensConstruct ys') :
    opensConstruct (xs ++ ys) = opensConstruct (xs ++ ys') := by
  induction xs with
  | nil => exact h
  | cons x xs ih =>
    obtain ⟨tok, ctx⟩ := x
    cases tok <;> cases ctx <;> first | exact ih | rfl

/-- A step looks at what follows only to see whether a bracket opens. -/
theorem layoutStep_congr {ctx : Context} (h : opensConstruct ys = opensConstruct ys') :
    layoutStep s t ctx ys = layoutStep s t ctx ys' := by
  cases t <;> cases ctx <;> simp only [layoutStep, h]

/-- The tokens before a cut are laid out the same, whatever follows that does or does not open a
bracket. -/
theorem layoutOver_congr (h : opensConstruct ys = opensConstruct ys') :
    layoutOver s xs ys = layoutOver s xs ys' := by
  induction xs generalizing s with
  | nil => rfl
  | cons x xs ih =>
    simp only [layoutOver, layoutStep_congr (opensConstruct_append h), ih]

theorem layoutOver_nil : layoutOver s xs [] = layoutFrom s xs := by
  induction xs generalizing s with
  | nil => rfl
  | cons x xs ih => simp only [layoutOver, layoutFrom, List.append_nil, ih]

/-- The whole pass is a run over a first part and then over the rest. -/
theorem layoutFrom_append : layoutFrom s (xs ++ ys) =
    andThen (layoutOver s xs ys) fun s' => layoutFrom s' ys := by
  induction xs generalizing s with
  | nil => exact andThen_silent.symm
  | cons x xs ih =>
    simp only [List.cons_append, layoutFrom, layoutOver, ih, andThen_assoc]

theorem runFrom_append : runFrom stack s (ts ++ toks) =
    andThen (runOver stack s ts toks) fun s' => runFrom (contexts stack ts) s' toks := by
  unfold runFrom runOver
  rw [collect_append]
  exact layoutFrom_append

theorem runFrom_split (h : runFrom stack s (ts ++ toks) = .ok (s', out)) :
    ∃ s₁ out₁ out₂, runOver stack s ts toks = .ok (s₁, out₁) ∧
      runFrom (contexts stack ts) s₁ toks = .ok (s', out₂) ∧ out = out₁ ++ out₂ := by
  rw [runFrom_append] at h
  exact of_andThen_ok h

theorem runOver_congr
    (h : opens (contexts stack ts) toks = opens (contexts stack ts) toks') :
    runOver stack s ts toks = runOver stack s ts toks' :=
  layoutOver_congr h

/-- A line break is a token that opens nothing, so that the line before it is laid out alone. -/
theorem runOver_closed (h : opens (contexts stack ts) toks = false) :
    runOver stack s ts toks = runFrom stack s ts := by
  have hnil : opensConstruct (collectWithContext (contexts stack ts) toks) = opensConstruct [] := h
  exact (layoutOver_congr hnil).trans layoutOver_nil

theorem runFrom_cons : runFrom stack s (t :: toks) =
    andThen (layoutStep s t (contextOf stack)
        (collectWithContext (updateStackOnToken stack t) toks))
      fun s' => runFrom (updateStackOnToken stack t) s' toks := rfl

theorem runOver_cons : runOver stack s (t :: ts) toks =
    andThen (layoutStep s t (contextOf stack)
        (collectWithContext (updateStackOnToken stack t) (ts ++ toks)))
      fun s' => runOver (updateStackOnToken stack t) s' ts toks := by
  rw [collect_append]
  rfl

theorem runOver_append {ts' : List Token} : runOver stack s (ts ++ ts') toks =
    andThen (runOver stack s ts (ts' ++ toks))
      fun s' => runOver (contexts stack ts) s' ts' toks := by
  induction ts generalizing stack s with
  | nil => exact andThen_silent.symm
  | cons t ts ih =>
    simp only [List.cons_append, runOver_cons, ih, andThen_assoc, List.append_assoc]
    rfl

end Lookahead

section Steps

variable (htop : contextOf stack = .topLevel)

include htop in
theorem runFrom_newline : runFrom stack s (.newline :: toks) =
    if opens stack toks then runFrom stack { s with pendingNewline := false } toks
    else andThen (.ok ({ s with pendingNewline := true }, [.newline]))
      fun s' => runFrom stack s' toks := by
  rw [runFrom_cons, htop]
  unfold opens
  by_cases h : opensConstruct (collectWithContext stack toks) = true
  · simp [layoutStep, updateStackOnToken, h]
  · simp [layoutStep, updateStackOnToken, h]

include htop in
theorem runFrom_space (hp : s.pendingNewline = false) :
    runFrom stack s (.space n :: toks) = runFrom stack s toks := by
  rw [runFrom_cons, htop]
  simp [layoutStep, updateStackOnToken, hp]

include htop in
theorem runFrom_space_pending (hp : s.pendingNewline = true) :
    runFrom stack s (.space n :: toks) =
      andThen (emitIndentChange s.indents n) fun indents => runFrom stack ⟨indents, false⟩ toks := by
  rw [runFrom_cons, htop]
  simp [layoutStep, updateStackOnToken, hp, andThen_assoc]

theorem runFrom_inside (hin : contextOf stack = .inside) (ht : t = .newline ∨ ∃ n, t = .space n) :
    runFrom stack s (t :: toks) = runFrom stack s toks := by
  rw [runFrom_cons, hin]
  rcases ht with rfl | ⟨n, rfl⟩ <;> exact andThen_silent

/-- Tokens that stand on a line, other than its blanks and its end. -/
def Solid (t : Token) : Prop := t ≠ .newline ∧ t ≠ .eof ∧ ∀ n, t ≠ .space n

theorem layoutStep_solid {ctx : Context} (ht : Solid t) : layoutStep s t ctx xs =
    if ctx = .topLevel ∧ s.pendingNewline then
      andThen (emitIndentChange s.indents 0) fun indents => .ok (⟨indents, false⟩, [t])
    else .ok ({ s with pendingNewline := false }, [t]) := by
  obtain ⟨hnewline, heof, hspace⟩ := ht
  cases t with
  | newline => exact (hnewline rfl).elim
  | eof => exact (heof rfl).elim
  | space n => exact (hspace n rfl).elim
  | indent | dedent | lbrace | lbracket | lbracketBar | rbrace | rbracket | rbracketBar | word
  | int | float | char | typeVar | string | symbol => rfl

theorem opens_solid (ht : Solid t) : opens stack (t :: toks) = opens stack [t] := by
  obtain ⟨-, -, hspace⟩ := ht
  unfold opens
  cases t with
  | space n => exact (hspace n rfl).elim
  | newline | eof | indent | dedent | lbrace | lbracket | lbracketBar | rbrace | rbracket
  | rbracketBar | word | int | float | char | typeVar | string | symbol =>
    simp only [collectWithContext]
    cases contextOf stack <;> rfl

/-- What follows a token of the line does not change how the line is laid out up to it. -/
theorem runOver_solid (ht : Solid t) (toks : List Token) :
    runOver stack s (ts ++ [t]) toks = runOver stack s (ts ++ [t]) [] := by
  have hts : runOver stack s ts ([t] ++ toks) = runOver stack s ts ([t] ++ []) :=
    runOver_congr (opens_solid ht)
  have hlast : ∀ s', runOver (contexts stack ts) s' [t] toks = runOver (contexts stack ts) s' [t] [] :=
    fun s' => by simp only [layoutStep_solid ht, runOver, layoutOver, collectWithContext]
  rw [runOver_append, runOver_append, hts]
  simp only [hlast]

/-- After a token of the line no newline is pending. -/
theorem not_pending_after_solid (ht : Solid t)
    (h : runOver stack s (ts ++ [t]) toks = .ok (s', out)) : s'.pendingNewline = false := by
  rw [runOver_append] at h
  obtain ⟨s₁, _, _, -, h, -⟩ := of_andThen_ok h
  rw [runOver_cons] at h
  obtain ⟨s₂, _, _, hstep, h, -⟩ := of_andThen_ok h
  obtain ⟨rfl, -⟩ := Prod.mk.inj (Except.ok.inj h)
  rw [layoutStep_solid ht] at hstep
  split at hstep
  · obtain ⟨is, _, _, -, h, -⟩ := of_andThen_ok hstep
    obtain ⟨rfl, -⟩ := Prod.mk.inj (Except.ok.inj h)
    rfl
  · obtain ⟨rfl, -⟩ := Prod.mk.inj (Except.ok.inj hstep)
    rfl

theorem runFrom_solid (ht : Solid t) (toks : List Token) :
    runFrom stack s (ts ++ t :: toks) = andThen (runOver stack s (ts ++ [t]) [])
      fun s' => runFrom (contexts stack (ts ++ [t])) s' toks := by
  rw [List.append_cons, runFrom_append, runOver_solid ht]

end Steps

end Syli.Compiler.Lexer
