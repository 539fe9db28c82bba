import Syli.Compiler.LayoutRuns
import Syli.Foundation.Levels

/-! Where the layout pass returns, it opens and closes blocks in pairs and keeps all other tokens. -/
namespace Syli.Compiler.Lexer

open Foundation

variable {stack : List Context} {s s' : LayoutState} {toks xs ys zs out : List Token}
variable {t o c : Token} {ctx : Context} {tl : List (Token × Context)} {n : Int}
variable {is js : List Int}

/-- The tokens that the lexer can produce before the end of the file. -/
def Raw (t : Token) : Prop := t ≠ .indent ∧ t ≠ .dedent ∧ t ≠ .eof

def isLayout : Token → Bool
  | .indent | .dedent | .newline => true
  | _ => false

def isBlankToken : Token → Bool
  | .space _ | .newline => true
  | _ => false

/-- What stays of a list of raw tokens. -/
def kept (ts : List Token) : List Token := ts.filter fun t => !isBlankToken t

/-- What stays of the output without its layout. -/
def withoutLayout (ts : List Token) : List Token := ts.filter fun t => !isLayout t

def isCloseConstruct : Token → Bool
  | .rbrace | .rbracket | .rbracketBar => true
  | _ => false

/-- Every bracket that opens in the list is closed in it, and no other bracket is. -/
inductive Matched : List Token → Prop where
  | nil : Matched []
  | token {t : Token} {ts : List Token} : isOpenConstruct t = false →
      isCloseConstruct t = false → Matched ts → Matched (t :: ts)
  | nest {o c : Token} {xs ys : List Token} : isOpenConstruct o = true →
      isCloseConstruct c = true → Matched xs → Matched ys → Matched (o :: (xs ++ c :: ys))

/-- A run of the loop that pops from `indent_stack` what is deeper than `n`: it stops at a column that
is not deeper, or fails on the empty stack. -/
inductive Pops (n : Int) : List Int → Except String (List Int × List Token) → Prop where
  | fail : Pops n [] (.error "hd")
  | stop {i : Int} {is : List Int} : ¬ n < i → Pops n (i :: is) (.ok (i :: is, []))
  | pop {i : Int} {is : List Int} {r : Except String (List Int × List Token)} : n < i →
      Pops n is r → Pops n (i :: is) (r.map fun x => (x.1, .dedent :: x.2))

/-- The loop ends on every stack. -/
theorem pops_dedents (n : Int) (is : List Int) : Pops n is (dedents n is) := by
  induction is with
  | nil => exact .fail
  | cons i is ih =>
    unfold dedents
    split
    · rename_i hlt
      exact .pop hlt ih
    · rename_i hlt
      exact .stop hlt

/-- The output for the raw tokens `toks`: as many blocks are closed as opened, and never more; only
the blanks are lost; and nothing is added between matching brackets. -/
structure BalancedOutput (toks out : List Token) : Prop where
  below : ∀ p, p <+: out → p.count .dedent ≤ p.count .indent
  closed : out.count .dedent = out.count .indent
  keeps : withoutLayout out = kept (toks ++ [.eof])
  between : ∀ xs o ys c zs, toks = xs ++ o :: (ys ++ c :: zs) → isOpenConstruct o = true →
    isCloseConstruct c = true → Matched ys → ∃ before after,
      out = before ++ o :: (kept ys ++ c :: after) ∧ withoutLayout before = kept xs ∧
        withoutLayout after = kept (zs ++ [.eof])

/-- The layout pass returns, and its output is balanced. -/
def Balanced (toks : List Token) : Prop :=
  ∃ out, layout (collectWithContext [.topLevel] (toks ++ [.eof])) = .ok out ∧
    BalancedOutput toks out

section Steps

/-- What a step that returns can do: it skips a blank, breaks the line, moves to the column of the
blanks, emits its token, where a newline is pending after a move to column 0, or closes all blocks at
the end of the file. -/
inductive StepEmits (s : LayoutState) : Token → LayoutState → List Token → Prop where
  | skip {t : Token} {pending : Bool} : isBlankToken t = true →
      StepEmits s t ⟨s.indents, pending⟩ []
  | lineBreak : StepEmits s .newline ⟨s.indents, true⟩ [.newline]
  | column {n : Int} {is : List Int} {out : List Token} :
      emitIndentChange s.indents n = .ok (is, out) → StepEmits s (.space n) ⟨is, false⟩ out
  | token {t : Token} : isBlankToken t = false → t ≠ .eof →
      StepEmits s t ⟨s.indents, false⟩ [t]
  | lineStart {t : Token} {is : List Int} {out : List Token} : isBlankToken t = false →
      emitIndentChange s.indents 0 = .ok (is, out) → StepEmits s t ⟨is, false⟩ (out ++ [t])
  | eof : StepEmits s .eof ⟨s.indents.drop (s.indents.length - 1), s.pendingNewline⟩
      (List.replicate (s.indents.length - 1) .dedent ++ [.eof])

theorem stepEmits_change {ts : List Token}
    (h : andThen (emitIndentChange s.indents n) (fun is => .ok (⟨is, false⟩, ts)) = .ok (s', out)) :
    ∃ is out', emitIndentChange s.indents n = .ok (is, out') ∧ s' = ⟨is, false⟩ ∧
      out = out' ++ ts := by
  obtain ⟨is, out', _, hemit, hrest, rfl⟩ := of_andThen_ok h
  obtain ⟨rfl, rfl⟩ := Prod.mk.inj (Except.ok.inj hrest)
  exact ⟨is, out', hemit, rfl, rfl⟩

theorem stepEmits_blank (hb : isBlankToken t = true)
    (h : layoutStep s t ctx tl = .ok (s', out)) : StepEmits s t s' out := by
  have hskip : ∀ {p}, (Except.ok (⟨s.indents, p⟩, []) : Except String _) = .ok (s', out) →
      StepEmits s t s' out := by
    intro p hp
    obtain ⟨rfl, rfl⟩ := Prod.mk.inj (Except.ok.inj hp)
    exact .skip hb
  cases t with
  | space n =>
    cases ctx with
    | inside => exact hskip h
    | topLevel =>
      simp only [layoutStep] at h
      split at h
      · obtain ⟨is, out', hemit, rfl, rfl⟩ := stepEmits_change h
        rw [List.append_nil]
        exact .column hemit
      · exact hskip h
  | newline =>
    cases ctx with
    | inside => exact hskip h
    | topLevel =>
      simp only [layoutStep] at h
      split at h
      · exact hskip h
      · obtain ⟨rfl, rfl⟩ := Prod.mk.inj (Except.ok.inj h)
        exact .lineBreak
  | _ => cases hb

theorem layoutStep_emits (h : layoutStep s t ctx tl = .ok (s', out)) : StepEmits s t s' out := by
  by_cases hb : isBlankToken t = true
  · exact stepEmits_blank hb h
  have hb : isBlankToken t = false := Bool.eq_false_of_not_eq_true hb
  by_cases ht : t = .eof
  · subst ht
    simp only [layoutStep] at h
    split at h
    · obtain ⟨is, out', hemit, rfl, rfl⟩ := stepEmits_change h
      exact .lineStart hb hemit
    · obtain ⟨rfl, rfl⟩ := Prod.mk.inj (Except.ok.inj h)
      exact .eof
  · have hsolid : Solid t := by
      refine ⟨?_, ht, ?_⟩
      · rintro rfl
        cases hb
      · rintro n rfl
        cases hb
    rw [layoutStep_solid hsolid] at h
    split at h
    · obtain ⟨is, out', hemit, rfl, rfl⟩ := stepEmits_change h
      exact .lineStart hb hemit
    · obtain ⟨rfl, rfl⟩ := Prod.mk.inj (Except.ok.inj h)
      exact .token hb ht

end Steps

section Levels

def isIndent (t : Token) : Bool := t = .indent

def isDedent (t : Token) : Bool := t = .dedent

/-- The number of open blocks after the tokens. -/
abbrev blocks (k : Nat) (ts : List Token) : Option Nat := level isIndent isDedent k ts

/-- The stack holds the columns of the open blocks above a 0. -/
structure Grounded (is js : List Int) : Prop where
  ground : is = js ++ [0]
  pos : ∀ j ∈ js, 0 < j

theorem dedents_blocks {is' : List Int} (h : dedents n (js ++ [0]) = .ok (is', out))
    (hpos : ∀ j ∈ js, 0 < j) :
    ∃ js', Grounded is' js' ∧ blocks js.length out = some js'.length := by
  induction js generalizing out with
  | nil =>
    rw [List.nil_append, dedents] at h
    split at h
    · cases h
    · obtain ⟨rfl, rfl⟩ := Prod.mk.inj (Except.ok.inj h)
      exact ⟨[], ⟨rfl, hpos⟩, rfl⟩
  | cons j js ih =>
    rw [List.cons_append, dedents] at h
    split at h
    · cases hd : dedents n (js ++ [0]) with
      | error => simp [hd, Except.map] at h
      | ok r =>
        obtain ⟨is₁, out₁⟩ := r
        rw [hd] at h
        obtain ⟨rfl, rfl⟩ := Prod.mk.inj (Except.ok.inj h)
        obtain ⟨js', hground, hblocks⟩ := ih hd fun i hi => hpos i (List.mem_cons_of_mem j hi)
        exact ⟨js', hground, (level_down rfl rfl).trans hblocks⟩
    · obtain ⟨rfl, rfl⟩ := Prod.mk.inj (Except.ok.inj h)
      exact ⟨j :: js, ⟨rfl, hpos⟩, rfl⟩

theorem emitIndentChange_blocks {is' : List Int} (hground : Grounded is js)
    (h : emitIndentChange is n = .ok (is', out)) :
    ∃ js', Grounded is' js' ∧ blocks js.length out = some js'.length := by
  obtain ⟨rfl, hpos⟩ := hground
  have hcons : ∃ i rest, js ++ [0] = i :: rest ∧ 0 ≤ i := by
    cases js with
    | nil => exact ⟨0, [], rfl, le_rfl⟩
    | cons j js => exact ⟨j, js ++ [0], rfl, (hpos j List.mem_cons_self).le⟩
  obtain ⟨i, rest, hcons, hi⟩ := hcons
  rw [hcons, emitIndentChange] at h
  split at h
  · rename_i hlt
    obtain ⟨rfl, rfl⟩ := Prod.mk.inj (Except.ok.inj h)
    refine ⟨n :: js, ⟨by rw [← hcons]; rfl, ?_⟩, rfl⟩
    exact List.forall_mem_cons.mpr ⟨hi.trans_lt hlt, hpos⟩
  · rw [← hcons] at h
    exact dedents_blocks h hpos

/-- Column 0 closes all blocks. -/
theorem dedents_zero (hpos : ∀ j ∈ js, 0 < j) :
    dedents 0 (js ++ [0]) = .ok ([0], List.replicate js.length .dedent) := by
  induction js with
  | nil => rfl
  | cons j js ih =>
    obtain ⟨hj, hpos⟩ := List.forall_mem_cons.mp hpos
    rw [List.cons_append, dedents, if_pos hj, ih hpos]
    rfl

theorem emitIndentChange_zero (hground : Grounded is js) :
    emitIndentChange is 0 = .ok ([0], List.replicate js.length .dedent) := by
  obtain ⟨rfl, hpos⟩ := hground
  rw [← dedents_zero hpos]
  cases js with
  | nil => rfl
  | cons j js =>
    have hj : ¬ j < 0 := (hpos j List.mem_cons_self).not_gt
    rw [List.cons_append, emitIndentChange, if_neg hj]

theorem blocks_replicate (k : Nat) : blocks k (List.replicate k .dedent) = some 0 :=
  level_replicate rfl rfl

/-- A step keeps as many columns on the stack as there are open blocks. -/
theorem StepEmits.blocks (h : StepEmits s t s' out) (ht : t ≠ .indent ∧ t ≠ .dedent)
    (hground : Grounded s.indents js) :
    ∃ js', Grounded s'.indents js' ∧ Lexer.blocks js.length out = some js'.length := by
  have hother : ∀ k, Lexer.blocks k [t] = some k := by
    intro k
    apply level_of_flat
    simpa [isIndent, isDedent] using ht
  cases h with
  | skip => exact ⟨js, hground, rfl⟩
  | lineBreak | token => exact ⟨js, hground, hother _⟩
  | column hemit => exact emitIndentChange_blocks hground hemit
  | lineStart _ hemit =>
    obtain ⟨js', hground', hblocks⟩ := emitIndentChange_blocks hground hemit
    exact ⟨js', hground', level_trans hblocks (hother _)⟩
  | eof =>
    have hlength : s.indents.length - 1 = js.length := by simp [hground.ground]
    refine ⟨[], ⟨by simp [hground.ground], List.forall_mem_nil _⟩, ?_⟩
    rw [hlength]
    exact level_trans (blocks_replicate _) (hother 0)

/-- At the end of the file all blocks are closed. -/
theorem StepEmits.blocks_eof (h : StepEmits s .eof s' out) (hground : Grounded s.indents js) :
    Lexer.blocks js.length out = some 0 := by
  obtain ⟨js', hground', hblocks⟩ := h.blocks (by simp) hground
  have hclosed : s'.indents = [0] := by
    cases h with
    | skip hb => cases hb
    | token _ hne => exact (hne rfl).elim
    | lineStart _ hemit =>
      rw [emitIndentChange_zero hground] at hemit
      exact (Prod.mk.inj (Except.ok.inj hemit)).1.symm
    | eof => simp [hground.ground]
  have hnil : js' ++ [0] = [0] := hground'.ground.symm.trans hclosed
  obtain rfl : js' = [] := by simpa using hnil
  exact hblocks

theorem runFrom_blocks (hraw : ∀ t ∈ toks, Raw t) (hground : Grounded s.indents js)
    (h : runFrom stack s (toks ++ [.eof]) = .ok (s', out)) :
    blocks js.length out = some 0 := by
  induction toks generalizing stack s js out with
  | nil =>
    obtain ⟨s₁, out₁, _, hstep, hrest, rfl⟩ := of_andThen_ok h
    obtain ⟨-, rfl⟩ := Prod.mk.inj (Except.ok.inj hrest)
    rw [List.append_nil]
    exact (layoutStep_emits hstep).blocks_eof hground
  | cons t toks ih =>
    obtain ⟨ht, hraw⟩ := List.forall_mem_cons.mp hraw
    obtain ⟨s₁, out₁, out₂, hstep, hrest, rfl⟩ := of_andThen_ok h
    obtain ⟨js', hground', hblocks⟩ :=
      (layoutStep_emits hstep).blocks ⟨ht.1, ht.2.1⟩ hground
    exact level_trans hblocks (ih hraw hground' hrest)

end Levels

section Kept

theorem withoutLayout_append : withoutLayout (xs ++ ys) = withoutLayout xs ++ withoutLayout ys :=
  List.filter_append ..

theorem kept_append : kept (xs ++ ys) = kept xs ++ kept ys := List.filter_append ..

theorem withoutLayout_dedents {is' : List Int} (h : dedents n is = .ok (is', out)) :
    withoutLayout out = [] := by
  induction is generalizing is' out with
  | nil => cases h
  | cons i is ih =>
    rw [dedents] at h
    split at h
    · cases hd : dedents n is with
      | error => simp [hd, Except.map] at h
      | ok r =>
        obtain ⟨is₁, out₁⟩ := r
        rw [hd] at h
        obtain ⟨-, rfl⟩ := Prod.mk.inj (Except.ok.inj h)
        have hout : withoutLayout out₁ = [] := ih hd
        exact hout
    · obtain ⟨-, rfl⟩ := Prod.mk.inj (Except.ok.inj h)
      rfl

theorem withoutLayout_emitIndentChange {is' : List Int}
    (h : emitIndentChange is n = .ok (is', out)) : withoutLayout out = [] := by
  cases is with
  | nil => cases h
  | cons i is =>
    rw [emitIndentChange] at h
    split at h
    · obtain ⟨-, rfl⟩ := Prod.mk.inj (Except.ok.inj h)
      rfl
    · exact withoutLayout_dedents h

theorem withoutLayout_token (ht : t ≠ .indent ∧ t ≠ .dedent) (hb : isBlankToken t = false) :
    withoutLayout [t] = kept [t] := by
  cases t <;> simp_all [withoutLayout, kept, isLayout, isBlankToken]

/-- A step keeps its token, unless it is a blank. -/
theorem StepEmits.kept (h : StepEmits s t s' out) (ht : t ≠ .indent ∧ t ≠ .dedent) :
    withoutLayout out = Lexer.kept [t] := by
  cases h with
  | skip hb =>
    have hnil : Lexer.kept [t] = [] := by simp [Lexer.kept, hb]
    exact hnil.symm
  | lineBreak => rfl
  | column hemit => exact withoutLayout_emitIndentChange hemit
  | token hb => exact withoutLayout_token ht hb
  | lineStart hb hemit =>
    rw [withoutLayout_append, withoutLayout_emitIndentChange hemit]
    exact withoutLayout_token ht hb
  | eof =>
    have hreplicate : withoutLayout (List.replicate (s.indents.length - 1) Token.dedent) = [] := by
      simp [withoutLayout, isLayout]
    rw [withoutLayout_append, hreplicate]
    rfl

theorem runOver_kept (hxs : ∀ t ∈ xs, t ≠ .indent ∧ t ≠ .dedent)
    (h : runOver stack s xs ys = .ok (s', out)) : withoutLayout out = kept xs := by
  induction xs generalizing stack s out with
  | nil =>
    obtain ⟨-, rfl⟩ := Prod.mk.inj (Except.ok.inj h)
    rfl
  | cons t xs ih =>
    obtain ⟨ht, hxs⟩ := List.forall_mem_cons.mp hxs
    rw [runOver_cons] at h
    obtain ⟨s₁, out₁, out₂, hstep, hrest, rfl⟩ := of_andThen_ok h
    rw [withoutLayout_append, (layoutStep_emits hstep).kept ht, ih hxs hrest]
    exact kept_append.symm

theorem not_layout_of_raw (hraw : ∀ t ∈ toks, Raw t) :
    ∀ t ∈ toks ++ [Token.eof], t ≠ .indent ∧ t ≠ .dedent := by
  intro t ht
  rcases List.mem_append.mp ht with ht | ht
  · exact ⟨(hraw t ht).1, (hraw t ht).2.1⟩
  · obtain rfl := List.mem_singleton.mp ht
    simp

theorem runFrom_kept (hraw : ∀ t ∈ toks, Raw t)
    (h : runFrom stack s (toks ++ [.eof]) = .ok (s', out)) :
    withoutLayout out = kept (toks ++ [.eof]) := by
  have hover : runOver stack s (toks ++ [.eof]) [] = .ok (s', out) := layoutOver_nil.trans h
  exact runOver_kept (not_layout_of_raw hraw) hover

end Kept

section Brackets

/-- Between brackets a step emits no layout. -/
theorem layoutStep_inside (ht : Raw t) :
    ∃ s', ∀ tl, layoutStep s t .inside tl = .ok (s', kept [t]) := by
  obtain ⟨hindent, hdedent, heof⟩ := ht
  cases t with
  | indent => exact (hindent rfl).elim
  | dedent => exact (hdedent rfl).elim
  | eof => exact (heof rfl).elim
  | space n => exact ⟨s, fun _ => rfl⟩
  | newline => exact ⟨s, fun _ => rfl⟩
  | _ => exact ⟨{ s with pendingNewline := false }, fun _ => rfl⟩

theorem runOver_inside (ht : Raw t) (stack : List Context) (s : LayoutState) :
    ∃ s', ∀ toks, runOver (.inside :: stack) s [t] toks = .ok (s', kept [t]) := by
  obtain ⟨s', hstep⟩ := layoutStep_inside (s := s) ht
  refine ⟨s', fun toks => ?_⟩
  rw [runOver_cons]
  simp only [contextOf, hstep]
  exact (andThen_ok rfl).trans (by rw [List.append_nil])

theorem updateStackOnToken_open (ho : isOpenConstruct o = true) :
    updateStackOnToken stack o = .inside :: stack := by
  cases o <;> first | rfl | cases ho

theorem updateStackOnToken_close {x : Context} (hc : isCloseConstruct c = true) :
    updateStackOnToken (x :: stack) c = stack := by
  cases c <;> first | rfl | cases hc

theorem updateStackOnToken_other (ho : isOpenConstruct t = false)
    (hc : isCloseConstruct t = false) : updateStackOnToken stack t = stack := by
  cases t <;> first | rfl | exact absurd ho (by decide) | exact absurd hc (by decide)

/-- Matched brackets leave the stack as it was. -/
theorem Matched.contexts (h : Matched ys) (stack : List Context) :
    Lexer.contexts stack ys = stack := by
  induction h generalizing stack with
  | nil => rfl
  | @token t ts ho hc _ ih =>
    have ih := ih (updateStackOnToken stack t)
    exact ih.trans (updateStackOnToken_other ho hc)
  | @nest o c xs ys ho hc _ _ ihx ihy =>
    have hshape : o :: (xs ++ c :: ys) = [o] ++ (xs ++ ([c] ++ ys)) := rfl
    have hopen : Lexer.contexts stack [o] = .inside :: stack := updateStackOnToken_open ho
    have hclose : Lexer.contexts (.inside :: stack) [c] = stack := updateStackOnToken_close hc
    rw [hshape, contexts_append, contexts_append, contexts_append, hopen, ihx, hclose, ihy]

/-- Two runs that do not depend on what follows. -/
theorem runOver_append_ok {s₁ s₂ : LayoutState} {out₁ out₂ : List Token}
    (h₁ : ∀ rest, runOver stack s xs rest = .ok (s₁, out₁))
    (h₂ : ∀ rest, runOver (contexts stack xs) s₁ ys rest = .ok (s₂, out₂)) (rest : List Token) :
    runOver stack s (xs ++ ys) rest = .ok (s₂, out₁ ++ out₂) := by
  rw [runOver_append, h₁]
  exact andThen_ok (h₂ rest)

/-- All that stands between matched brackets is inside. -/
theorem Matched.runOver (h : Matched ys) (hraw : ∀ t ∈ ys, Raw t) (stack : List Context)
    (s : LayoutState) :
    ∃ s', ∀ rest, Lexer.runOver (.inside :: stack) s ys rest = .ok (s', kept ys) := by
  induction h generalizing stack s with
  | nil => exact ⟨s, fun _ => rfl⟩
  | @token t ts ho hc _ ih =>
    obtain ⟨ht, hts⟩ := List.forall_mem_cons.mp hraw
    obtain ⟨s₁, h₁⟩ := runOver_inside ht stack s
    obtain ⟨s₂, h₂⟩ := ih hts stack s₁
    have hcontexts : Lexer.contexts (.inside :: stack) [t] = .inside :: stack :=
      updateStackOnToken_other ho hc
    rw [← hcontexts] at h₂
    have hkept : kept (t :: ts) = kept [t] ++ kept ts := by
      rw [← kept_append]
      rfl
    exact ⟨s₂, hkept ▸ runOver_append_ok h₁ h₂⟩
  | @nest o c xs ys ho hc hx _ ihx ihy =>
    obtain ⟨ho', hrest⟩ := List.forall_mem_cons.mp hraw
    obtain ⟨hxs, hcys⟩ := List.forall_mem_append.mp hrest
    obtain ⟨hc', hys⟩ := List.forall_mem_cons.mp hcys
    obtain ⟨s₁, h₁⟩ := runOver_inside ho' stack s
    obtain ⟨s₂, h₂⟩ := ihx hxs (.inside :: stack) s₁
    obtain ⟨s₃, h₃⟩ := runOver_inside hc' (.inside :: stack) s₂
    obtain ⟨s₄, h₄⟩ := ihy hys stack s₃
    have hopen : Lexer.contexts (.inside :: stack) [o] = .inside :: .inside :: stack :=
      updateStackOnToken_open ho
    have hclose : Lexer.contexts (.inside :: .inside :: stack) [c] = .inside :: stack :=
      updateStackOnToken_close hc
    rw [← hclose] at h₄
    have hlast := runOver_append_ok h₃ h₄
    rw [← hx.contexts (.inside :: .inside :: stack)] at hlast
    have hinner := runOver_append_ok h₂ hlast
    rw [← hopen] at hinner
    have hkept : kept (o :: (xs ++ c :: ys)) = kept [o] ++ (kept xs ++ (kept [c] ++ kept ys)) := by
      rw [← kept_append, ← kept_append, ← kept_append]
      rfl
    exact ⟨s₄, hkept ▸ runOver_append_ok h₁ hinner⟩

theorem isBlankToken_open (ho : isOpenConstruct o = true) : isBlankToken o = false := by
  cases o <;> first | rfl | cases ho

/-- An open bracket is emitted after the layout that its line asks for. -/
theorem runOver_open (ho : isOpenConstruct o = true)
    (h : runOver stack s [o] toks = .ok (s', out)) :
    ∃ before, out = before ++ [o] ∧ withoutLayout before = [] := by
  rw [runOver_cons] at h
  obtain ⟨s₁, out₁, _, hstep, hrest, rfl⟩ := of_andThen_ok h
  obtain ⟨-, rfl⟩ := Prod.mk.inj (Except.ok.inj hrest)
  rw [List.append_nil]
  cases layoutStep_emits hstep with
  | skip hb =>
    rw [isBlankToken_open ho] at hb
    cases hb
  | lineBreak | column | eof => cases ho
  | token => exact ⟨[], rfl, rfl⟩
  | lineStart _ hemit => exact ⟨_, rfl, withoutLayout_emitIndentChange hemit⟩

/-- What stands between two matching brackets is emitted without layout. -/
theorem runFrom_between (hraw : ∀ t ∈ xs ++ o :: (ys ++ c :: zs), Raw t)
    (ho : isOpenConstruct o = true) (hc : isCloseConstruct c = true) (hmatched : Matched ys)
    (h : runFrom stack s (xs ++ o :: (ys ++ c :: zs) ++ [.eof]) = .ok (s', out)) :
    ∃ before after, out = before ++ o :: (kept ys ++ c :: after) ∧
      withoutLayout before = kept xs ∧ withoutLayout after = kept (zs ++ [.eof]) := by
  obtain ⟨hxs, hrest⟩ := List.forall_mem_append.mp hraw
  obtain ⟨hys, hrest⟩ := List.forall_mem_append.mp (List.forall_mem_cons.mp hrest).2
  obtain ⟨hcraw, hzs⟩ := List.forall_mem_cons.mp hrest
  have hshape : xs ++ o :: (ys ++ c :: zs) ++ [.eof] =
      xs ++ ([o] ++ (ys ++ ([c] ++ (zs ++ [.eof])))) := by simp
  have hopen : contexts (contexts stack xs) [o] = .inside :: contexts stack xs :=
    updateStackOnToken_open ho
  have hkeptc : kept [c] = [c] := by
    cases c <;> first | rfl | cases hc
  rw [hshape] at h
  obtain ⟨s₁, out₁, _, hrun, h₁, rfl⟩ := runFrom_split h
  obtain ⟨s₂, out₂, _, hbracket, h₂, rfl⟩ := runFrom_split h₁
  obtain ⟨s₃, out₃, _, hinside, h₃, rfl⟩ := runFrom_split h₂
  obtain ⟨s₄, out₄, out₅, hclose, h₄, rfl⟩ := runFrom_split h₃
  obtain ⟨s₃', hys'⟩ := hmatched.runOver hys (contexts stack xs) s₂
  obtain ⟨s₄', hc'⟩ := runOver_inside hcraw (contexts stack xs) s₃
  rw [hopen, hys'] at hinside
  rw [hopen, hmatched.contexts, hc', hkeptc] at hclose
  obtain ⟨-, rfl⟩ := Prod.mk.inj (Except.ok.inj hinside)
  obtain ⟨-, rfl⟩ := Prod.mk.inj (Except.ok.inj hclose)
  obtain ⟨before, rfl, hbefore⟩ := runOver_open ho hbracket
  refine ⟨out₁ ++ before, out₅, by simp, ?_, runFrom_kept hzs h₄⟩
  rw [withoutLayout_append, hbefore, List.append_nil]
  exact runOver_kept (fun t ht => ⟨(hxs t ht).1, (hxs t ht).2.1⟩) hrun

end Brackets

section Whole

theorem isDedent_of_isIndent (h : isIndent t = true) : isDedent t = false := by
  obtain rfl : t = .indent := by simpa [isIndent] using h
  rfl

theorem countP_isIndent (ts : List Token) : ts.countP isIndent = ts.count .indent :=
  List.countP_congr (by simp [isIndent])

theorem countP_isDedent (ts : List Token) : ts.countP isDedent = ts.count .dedent :=
  List.countP_congr (by simp [isDedent])

/-- Where the layout pass returns, its output is balanced. -/
theorem runFrom_balanced (hraw : ∀ t ∈ toks, Raw t)
    (h : runFrom [.topLevel] start (toks ++ [.eof]) = .ok (s', out)) : BalancedOutput toks out := by
  have hground : Grounded start.indents [] := ⟨rfl, List.forall_mem_nil _⟩
  have hblocks : blocks 0 out = some 0 := runFrom_blocks hraw hground h
  refine ⟨fun p hp => ?_, ?_, runFrom_kept hraw h, ?_⟩
  · have hlevel := level_prefix (fun _ => isDedent_of_isIndent) hblocks hp
    rw [countP_isIndent, countP_isDedent] at hlevel
    omega
  · have hlevel := level_count (fun _ => isDedent_of_isIndent) hblocks
    rw [countP_isIndent, countP_isDedent] at hlevel
    omega
  · rintro xs o ys c zs rfl ho hc hmatched
    exact runFrom_between hraw ho hc hmatched h

theorem balanced_iff (hraw : ∀ t ∈ toks, Raw t) :
    Balanced toks ↔ ∃ r, runFrom [.topLevel] start (toks ++ [.eof]) = .ok r := by
  constructor
  · rintro ⟨out, h, -⟩
    rw [layout_eq] at h
    cases hr : runFrom [.topLevel] start (toks ++ [.eof]) with
    | error => simp [hr, Except.map] at h
    | ok r => exact ⟨r, rfl⟩
  · rintro ⟨r, hr⟩
    exact ⟨r.2, by rw [layout_eq, hr]; rfl, runFrom_balanced hraw hr⟩

end Whole

end Syli.Compiler.Lexer
