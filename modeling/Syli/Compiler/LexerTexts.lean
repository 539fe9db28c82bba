import Syli.Compiler.Lexer

/-! How the raw tokens of a text continue when more text follows. -/
namespace Syli.Compiler.Lexer

variable {identation : Int} {c : Char} {cs p r x y rest : List Char} {t : Token}
  {ts ts' : List Token}

/-- The text `x` does not prolong a last token `t`. -/
def Fits (t : Token) (x : List Char) : Prop :=
  ∀ d, x.head? = some d → match t with
    | .space _ => isBlank d = false
    | .newline => d ≠ '\n'
    | t => d = ' ' ∨ d = '\t' ∨ d = '\n' ∨ d = '/' ∧ t ≠ .symbol ['/']

section Locality

/-- A run of characters of one class ends where it did, if text of another class follows. -/
theorem run_append (q : Char → Bool) (cs : List Char)
    (hx : cs.dropWhile q = [] → ∀ d, x.head? = some d → q d = false) :
    (cs ++ x).takeWhile q = cs.takeWhile q ∧ (cs ++ x).dropWhile q = cs.dropWhile q ++ x := by
  induction cs with
  | nil =>
    cases x with
    | nil => exact ⟨rfl, rfl⟩
    | cons d x =>
      have hd : q d = false := hx rfl d rfl
      simp [hd]
  | cons a cs ih =>
    by_cases ha : q a = true
    · simp only [List.dropWhile_cons, ha, if_true] at hx
      obtain ⟨ht, hd⟩ := ih hx
      simp [ha, ht, hd]
    · simp [ha]

theorem scanString_append {buf : List Char} (hs : scanString buf cs = .emit t r) :
    scanString buf (cs ++ x) = .emit t (r ++ x) := by
  fun_induction scanString buf cs with
  | case1 | case3 | case6 | case7 | case8 => cases hs
  | case2 buf cs =>
    cases hs
    unfold scanString
    simp
  | case4 buf e r d hd _ ih =>
    unfold scanString
    simp [hd, ih hs]
  | case5 buf h1 h2 r' a b hb ha _ he ih =>
    unfold scanString
    simp [he, ha, hb, ih hs]
  | case9 buf c cs hq hb ih =>
    unfold scanString
    simp [hq, hb, ih hs]

/-- What the classes of characters say about a separator. -/
theorem separator_class {d : Char} (hd : d = ' ' ∨ d = '\t' ∨ d = '\n' ∨ d = '/') :
    isIdentChar d = false ∧ d.isDigit = false ∧ d ≠ '.' ∧ d ≠ '\'' ∧ ∀ c, (c, d) ∉ pairs := by
  rcases hd with rfl | rfl | rfl | rfl <;> simp [isIdentChar, pairs]

theorem Fits.separator {d : Char} (hf : Fits t x) (hnewline : t ≠ .newline)
    (hspace : ∀ n, t ≠ .space n) (hd : x.head? = some d) :
    d = ' ' ∨ d = '\t' ∨ d = '\n' ∨ d = '/' := by
  have h := hf d hd
  cases t with
  | newline => exact (hnewline rfl).elim
  | space n => exact (hspace n rfl).elim
  | eof | indent | dedent | lbrace | lbracket | lbracketBar | rbrace | rbracket | rbracketBar | word
  | int | float | char | typeVar | string | symbol =>
    rcases h with h | h | h | h
    · exact Or.inl h
    · exact Or.inr (Or.inl h)
    · exact Or.inr (Or.inr (Or.inl h))
    · exact Or.inr (Or.inr (Or.inr h.1))

theorem scanNumber_append (hs : scanNumber c cs = .emit t r) (hx : r = [] → Fits t x) :
    scanNumber c (cs ++ x) = .emit t (r ++ x) := by
  simp only [scanNumber] at hs ⊢
  by_cases hdot : (cs.dropWhile Char.isDigit).head? = some '.'
  · obtain ⟨r', hr'⟩ : ∃ r', cs.dropWhile Char.isDigit = '.' :: r' := by
      cases hd : cs.dropWhile Char.isDigit with
      | nil => simp [hd] at hdot
      | cons d r' =>
        obtain rfl : d = '.' := by simpa [hd] using hdot
        exact ⟨r', rfl⟩
    simp only [hr', List.head?_cons, if_true, List.tail_cons, Scan.emit.injEq] at hs
    obtain ⟨rfl, rfl⟩ := hs
    obtain ⟨ht, hd⟩ := run_append (x := x) Char.isDigit cs (by simp [hr'])
    obtain ⟨ht', hd'⟩ := run_append Char.isDigit r' fun hnil d hd =>
      (separator_class ((hx hnil).separator (by simp) (by simp) hd)).2.1
    simp [ht, hd, hr', ht', hd']
  · simp only [if_neg hdot, Scan.emit.injEq] at hs
    obtain ⟨rfl, rfl⟩ := hs
    have hsep := fun hnil d hd =>
      separator_class ((hx hnil).separator (by simp) (by simp) (d := d) hd)
    obtain ⟨ht, hd⟩ := run_append Char.isDigit cs fun hnil d hd =>
      (hsep hnil d hd).2.1
    have hdot' : (cs.dropWhile Char.isDigit ++ x).head? ≠ some '.' := by
      cases hr : cs.dropWhile Char.isDigit with
      | nil => exact fun h => (hsep hr '.' h).2.2.1 rfl
      | cons d r' => simpa [hr] using hdot
    rw [ht, hd, if_neg hdot']

theorem scanQuote_append (hs : scanQuote cs = .emit t r) (hx : r = [] → Fits t x) :
    scanQuote (cs ++ x) = .emit t (r ++ x) := by
  cases cs with
  | nil => cases hs
  | cons a cs =>
    simp only [scanQuote, List.cons_append] at hs ⊢
    by_cases hq : a ≠ '\'' ∧ cs.head? = some '\''
    · cases cs with
      | nil => simp at hq
      | cons b cs =>
        simp only [if_pos hq, Scan.emit.injEq] at hs
        obtain ⟨rfl, rfl⟩ := hs
        have hq' : a ≠ '\'' ∧ (b :: cs ++ x).head? = some '\'' := hq
        rw [if_pos hq']
        rfl
    · simp only [if_neg hq] at hs
      by_cases ha : a.isAlpha = true
      · simp only [if_pos ha, Scan.emit.injEq] at hs
        obtain ⟨rfl, rfl⟩ := hs
        have hsep := fun hnil d hd =>
          separator_class ((hx hnil).separator (by simp) (by simp) (d := d) hd)
        obtain ⟨ht, hd⟩ := run_append isIdentChar cs fun hnil d hd =>
          (hsep hnil d hd).1
        have hq' : ¬(a ≠ '\'' ∧ (cs ++ x).head? = some '\'') := by
          cases cs with
          | nil => exact fun h => (hsep rfl '\'' h.2).2.2.2.1 rfl
          | cons b cs => exact hq
        rw [if_neg hq', if_pos ha, ht, hd]
      · simp only [if_neg ha] at hs
        cases hs

theorem symbolToken_ne_newline (l : List Char) : symbolToken l ≠ .newline := by
  unfold symbolToken
  split <;> simp

theorem symbolToken_ne_space (l : List Char) (n : Int) : symbolToken l ≠ .space n := by
  unfold symbolToken
  split <;> simp

theorem scanSymbol_append (hs : scanSymbol c cs = .emit t r) (hx : r = [] → Fits t x) :
    scanSymbol c (cs ++ x) = .emit t (r ++ x) := by
  unfold scanSymbol at hs ⊢
  by_cases hpair : isPair c cs = true
  · cases cs with
    | nil => cases hpair
    | cons d cs =>
      have hpair' : isPair c (d :: cs ++ x) = true := hpair
      rw [if_pos hpair] at hs
      rw [if_pos hpair']
      obtain ⟨rfl, rfl⟩ := Scan.emit.inj hs
      rfl
  · rw [if_neg hpair] at hs
    by_cases hsingle : c ∈ singles
    · rw [if_pos hsingle] at hs
      obtain ⟨rfl, rfl⟩ := Scan.emit.inj hs
      have hpair' : ¬isPair c (cs ++ x) = true := by
        cases cs with
        | cons d cs => exact hpair
        | nil =>
          cases x with
          | nil => exact hpair
          | cons d x =>
            have hsep := (hx rfl).separator (symbolToken_ne_newline _) (symbolToken_ne_space _)
              (d := d) rfl
            simpa [isPair] using (separator_class hsep).2.2.2.2 c
      rw [if_neg hpair', if_pos hsingle]
    · rw [if_neg hsingle] at hs
      cases hs

/-- A token stays what it is when more text follows, unless that text prolongs it. -/
theorem scan_append (hs : scan identation p = .emit t r) (hx : r = [] → Fits t x) :
    scan identation (p ++ x) = .emit t (r ++ x) := by
  cases p with
  | nil => cases hs
  | cons c cs =>
    have hcomment : ¬(c = '/' ∧ cs.head? = some '/') := by
      intro h
      simp [scan, h] at hs
    have hcomment' : ¬(c = '/' ∧ (cs ++ x).head? = some '/') := by
      cases cs with
      | cons d cs => exact hcomment
      | nil =>
        rintro ⟨rfl, hd⟩
        obtain ⟨rfl, rfl⟩ : .symbol ['/'] = t ∧ [] = r := Scan.emit.inj hs
        rcases hx rfl '/' hd with h | h | h | h
        · cases h
        · cases h
        · cases h
        · exact h.2 rfl
    simp only [scan, if_neg hcomment, List.cons_append, if_neg hcomment'] at hs ⊢
    by_cases hblank : isBlank c = true
    · simp only [if_pos hblank, Scan.emit.injEq] at hs ⊢
      obtain ⟨rfl, rfl⟩ := hs
      obtain ⟨ht, hd⟩ := run_append isBlank cs hx
      exact ⟨by rw [ht], hd⟩
    simp only [if_neg hblank] at hs ⊢
    by_cases hnewline : c = '\n'
    · simp only [if_pos hnewline, Scan.emit.injEq] at hs ⊢
      obtain ⟨rfl, rfl⟩ := hs
      obtain ⟨-, hd⟩ := run_append (fun c => decide (c = '\n')) cs fun hnil d hd =>
        decide_eq_false (hx hnil d hd)
      exact ⟨rfl, hd⟩
    simp only [if_neg hnewline] at hs ⊢
    by_cases hident : isIdentStart c = true
    · simp only [if_pos hident, Scan.emit.injEq] at hs ⊢
      obtain ⟨rfl, rfl⟩ := hs
      obtain ⟨ht, hd⟩ := run_append isIdentChar cs fun hnil d hd =>
        (separator_class ((hx hnil).separator (by simp) (by simp) hd)).1
      exact ⟨by rw [ht], hd⟩
    simp only [if_neg hident] at hs ⊢
    by_cases hdigit : c.isDigit = true
    · simp only [if_pos hdigit] at hs ⊢
      exact scanNumber_append hs hx
    simp only [if_neg hdigit] at hs ⊢
    by_cases hquote : c = '\''
    · simp only [if_pos hquote] at hs ⊢
      exact scanQuote_append hs hx
    simp only [if_neg hquote] at hs ⊢
    by_cases hstring : c = '"'
    · simp only [if_pos hstring] at hs ⊢
      exact scanString_append hs
    simp only [if_neg hstring] at hs ⊢
    by_cases hreturn : c = '\r'
    · simp only [if_pos hreturn] at hs
      cases hs
    simp only [if_neg hreturn] at hs ⊢
    exact scanSymbol_append hs hx

end Locality

section Texts

/-- The lexer reads the tokens `ts` from the text and has come to `rest`. -/
inductive Reads (identation : Int) : List Char → List Token → List Char → Prop where
  | refl {cs : List Char} : Reads identation cs [] cs
  | emit {cs r rest : List Char} {t : Token} {ts : List Token} :
      scan identation cs = .emit t r → Reads identation r ts rest →
      Reads identation cs (t :: ts) rest
  | skip {cs r rest : List Char} {ts : List Token} : scan identation cs = .skip r →
      Reads identation r ts rest → Reads identation cs ts rest

theorem scanString_length {buf : List Char} (hs : scanString buf cs = .emit t r) :
    r.length < cs.length := by
  fun_induction scanString buf cs with
  | case1 | case3 | case6 | case7 | case8 => cases hs
  | case2 buf cs =>
    cases hs
    simp
  | case4 buf e r d hd _ ih =>
    have hlt := ih hs
    simp only [List.length_cons]
    omega
  | case5 buf h1 h2 r' a b hb ha _ he ih =>
    have hlt := ih hs
    simp only [List.length_cons]
    omega
  | case9 buf c cs hq hb ih =>
    have hlt := ih hs
    simp only [List.length_cons]
    omega

theorem length_dropWhile_le (q : Char → Bool) (cs : List Char) :
    (cs.dropWhile q).length ≤ cs.length :=
  (List.dropWhile_sublist q).length_le

theorem scanNumber_length (hs : scanNumber c cs = .emit t r) : r.length ≤ cs.length := by
  have hle := length_dropWhile_le Char.isDigit cs
  simp only [scanNumber] at hs
  split_ifs at hs
  · obtain ⟨-, rfl⟩ := Scan.emit.inj hs
    have hle' := length_dropWhile_le Char.isDigit (cs.dropWhile Char.isDigit).tail
    have htail := List.length_tail (l := cs.dropWhile Char.isDigit)
    omega
  · obtain ⟨-, rfl⟩ := Scan.emit.inj hs
    exact hle

theorem scanQuote_length (hs : scanQuote cs = .emit t r) : r.length ≤ cs.length := by
  cases cs with
  | nil => cases hs
  | cons a cs =>
    have hle := length_dropWhile_le isIdentChar cs
    simp only [scanQuote] at hs
    split_ifs at hs
    · obtain ⟨-, rfl⟩ := Scan.emit.inj hs
      simp only [List.length_tail, List.length_cons]
      omega
    · obtain ⟨-, rfl⟩ := Scan.emit.inj hs
      simp only [List.length_cons]
      omega
    · cases hs

theorem scanSymbol_length (hs : scanSymbol c cs = .emit t r) : r.length ≤ cs.length := by
  unfold scanSymbol at hs
  split_ifs at hs
  · obtain ⟨-, rfl⟩ := Scan.emit.inj hs
    simp only [List.length_tail]
    omega
  · obtain ⟨-, rfl⟩ := Scan.emit.inj hs
    exact le_rfl
  · cases hs

theorem scan_emit_length (hs : scan identation cs = .emit t r) : r.length < cs.length := by
  cases cs with
  | nil => cases hs
  | cons c cs =>
    have hle := fun q => length_dropWhile_le q cs
    apply Nat.lt_succ_of_le
    simp only [scan] at hs
    split_ifs at hs
    · obtain ⟨-, rfl⟩ := Scan.emit.inj hs
      exact hle _
    · obtain ⟨-, rfl⟩ := Scan.emit.inj hs
      exact hle _
    · obtain ⟨-, rfl⟩ := Scan.emit.inj hs
      exact hle _
    · exact scanNumber_length hs
    · exact scanQuote_length hs
    · exact (scanString_length hs).le
    · exact scanSymbol_length hs

theorem scanString_ne_skip {buf : List Char} : scanString buf cs ≠ .skip r := by
  fun_induction scanString buf cs with
  | case1 | case2 | case3 | case6 | case7 | case8 => simp
  | case4 _ _ _ _ _ _ ih | case5 _ _ _ _ _ _ _ _ _ _ ih | case9 _ _ _ _ _ ih => exact ih

theorem scan_skip_cases (hs : scan identation cs = .skip r) :
    (∃ c, cs = '/' :: '/' :: c ∧ r = afterComment c) ∨ ∃ c, cs = '\r' :: c ∧ r = c := by
  cases cs with
  | nil => cases hs
  | cons c cs =>
    simp only [scan] at hs
    by_cases hcomment : c = '/' ∧ cs.head? = some '/'
    · rw [if_pos hcomment] at hs
      obtain ⟨rfl, hhead⟩ := hcomment
      obtain rfl := Scan.skip.inj hs
      cases cs with
      | nil => cases hhead
      | cons d cs =>
        obtain rfl := Option.some.inj hhead
        exact Or.inl ⟨cs, rfl, rfl⟩
    · rw [if_neg hcomment] at hs
      split_ifs at hs with _ _ _ _ _ _ hreturn
      · simp only [scanNumber] at hs
        split_ifs at hs
      · cases cs with
        | nil => cases hs
        | cons a cs =>
          simp only [scanQuote] at hs
          split_ifs at hs
          cases hs
      · exact (scanString_ne_skip hs).elim
      · obtain rfl := Scan.skip.inj hs
        exact Or.inr ⟨cs, by rw [hreturn], rfl⟩
      · unfold scanSymbol at hs
        split_ifs at hs
        cases hs

theorem scan_skip_length (hs : scan identation cs = .skip r) : r.length < cs.length := by
  rcases scan_skip_cases hs with ⟨c, rfl, rfl⟩ | ⟨c, rfl, rfl⟩
  · have hle := length_dropWhile_le (fun c => decide (c ≠ '\n')) c
    simp only [afterComment, List.length_tail, List.length_cons]
    omega
  · exact Nat.lt_succ_self _

theorem lexFuel_eq {fuel fuel' : Nat} (h : cs.length < fuel) (h' : cs.length < fuel') :
    lexFuel identation fuel cs = lexFuel identation fuel' cs := by
  induction fuel generalizing cs fuel' with
  | zero => omega
  | succ fuel ih =>
    cases fuel' with
    | zero => omega
    | succ fuel' =>
      simp only [lexFuel]
      cases hs : scan identation cs with
      | eof | error => rfl
      | skip r =>
        have hlt := scan_skip_length hs
        exact ih (by omega) (by omega)
      | emit t r =>
        have hlt := scan_emit_length hs
        have hrec : lexFuel identation fuel r = lexFuel identation fuel' r :=
          ih (by omega) (by omega)
        simp only [hrec]

theorem lex_emit (hs : scan identation cs = .emit t r) :
    lex identation cs = (t :: ·) <$> lex identation r := by
  have hlt := scan_emit_length hs
  have hrec : lexFuel identation cs.length r = lexFuel identation (r.length + 1) r :=
    lexFuel_eq hlt (by omega)
  rw [lex, lexFuel, hs]
  simp only [lex, hrec]

theorem lex_skip (hs : scan identation cs = .skip r) : lex identation cs = lex identation r := by
  have hlt := scan_skip_length hs
  rw [lex, lexFuel, hs]
  exact lexFuel_eq hlt (by omega)

theorem lex_of_reads (h : Reads identation cs ts rest) :
    lex identation cs = (ts ++ ·) <$> lex identation rest := by
  induction h with
  | refl => simp
  | emit hs _ ih =>
    rw [lex_emit hs, ih]
    simp
  | skip hs _ ih => rw [lex_skip hs, ih]

theorem Reads.trans {ts₁ ts₂ : List Token} (h₁ : Reads identation cs ts₁ r)
    (h₂ : Reads identation r ts₂ rest) : Reads identation cs (ts₁ ++ ts₂) rest := by
  induction h₁ with
  | refl => exact h₂
  | emit hs _ ih => exact .emit hs (ih h₂)
  | skip hs _ ih => exact .skip hs (ih h₂)

/-- A comment or a carriage return that more text follows stays what it is. -/
theorem scan_skip_append (hs : scan identation p = .skip r) (hr : r ≠ []) :
    scan identation (p ++ x) = .skip (r ++ x) := by
  rcases scan_skip_cases hs with ⟨c, rfl, rfl⟩ | ⟨c, rfl, rfl⟩
  · have hne : c.dropWhile (fun c => decide (c ≠ '\n')) ≠ [] := fun hnil => by
      rw [afterComment, hnil] at hr
      exact hr rfl
    obtain ⟨-, hd⟩ := run_append (x := x) (fun c => decide (c ≠ '\n')) c fun hnil => (hne hnil).elim
    have htail : afterComment (c ++ x) = afterComment c ++ x := by
      rw [afterComment, hd, List.tail_append_of_ne_nil hne]
      rfl
    simp only [← htail, List.cons_append]
    rfl
  · rfl

theorem Reads.append (h : Reads identation cs ts rest) (hr : rest ≠ []) :
    Reads identation (cs ++ x) ts (rest ++ x) := by
  induction h with
  | refl => exact .refl
  | @emit cs r rest t ts hs hreads ih =>
    refine .emit (scan_append hs fun hnil => ?_) (ih hr)
    subst hnil
    cases hreads with
    | refl => exact (hr rfl).elim
    | emit hs' | skip hs' => cases hs'
  | @skip cs r rest ts hs hreads ih =>
    refine .skip (scan_skip_append hs fun hnil => ?_) (ih hr)
    subst hnil
    cases hreads with
    | refl => exact hr rfl
    | emit hs' | skip hs' => cases hs'

/-- How the last lexeme of a text reads. -/
inductive LastLexeme (identation : Int) : List Char → List Token → Prop where
  | token {l : List Char} {t : Token} : scan identation l = .emit t [] →
      LastLexeme identation l [t]
  | comment {c : List Char} : '\n' ∉ c → LastLexeme identation ('/' :: '/' :: c) []
  | line {c : List Char} : '\n' ∉ c → LastLexeme identation ('/' :: '/' :: c ++ ['\n']) []
  | carriageReturn : LastLexeme identation ['\r'] []

theorem lastLexeme_of_skip (hs : scan identation p = .skip []) : LastLexeme identation p [] := by
  rcases scan_skip_cases hs with ⟨c, rfl, hc⟩ | ⟨c, rfl, hc⟩
  · by_cases hmem : '\n' ∈ c
    · have hline : c = c.takeWhile (fun c => decide (c ≠ '\n')) ++ ['\n'] := by
        have hsplit := List.takeWhile_append_dropWhile (p := fun c => decide (c ≠ '\n')) (l := c)
        cases hd : c.dropWhile (fun c => decide (c ≠ '\n')) with
        | nil =>
          rw [List.dropWhile_eq_nil_iff] at hd
          simpa using hd _ hmem
        | cons d r =>
          have hne : decide (d ≠ '\n') = false := by
            have hhead := List.head?_dropWhile_not (fun c => decide (c ≠ '\n')) c
            rw [hd] at hhead
            exact hhead
          obtain rfl : d = '\n' := by simpa using hne
          rw [afterComment, hd, List.tail_cons] at hc
          rw [hd, ← hc] at hsplit
          exact hsplit.symm
      rw [hline]
      refine .line fun hmem => ?_
      have himp := List.mem_takeWhile_imp hmem
      simp at himp
    · exact .comment hmem
  · rw [← hc]
    exact .carriageReturn

/-- A text that is read to its end has a last lexeme, and what comes before it is read whatever
follows. -/
theorem exists_lastLexeme (h : Reads identation p ts []) (hp : p ≠ []) :
    ∃ ts₀ l tl, l ≠ [] ∧ LastLexeme identation l tl ∧ ts = ts₀ ++ tl ∧
      ∀ x, Reads identation (p ++ x) ts₀ (l ++ x) := by
  generalize hrest : ([] : List Char) = rest at h
  induction h with
  | refl => exact (hp hrest.symm).elim
  | @emit cs r rest t ts hs hr ih =>
    subst hrest
    by_cases hnil : r = []
    · subst hnil
      cases hr with
      | refl => exact ⟨[], cs, [t], hp, .token hs, rfl, fun x => .refl⟩
      | emit hs' | skip hs' => cases hs'
    · obtain ⟨ts₀, l, tl, hl, hlast, rfl, hreads⟩ := ih hnil rfl
      exact ⟨t :: ts₀, l, tl, hl, hlast, rfl, fun x =>
        .emit (scan_append hs fun hn => (hnil hn).elim) (hreads x)⟩
  | @skip cs r rest ts hs hr ih =>
    subst hrest
    by_cases hnil : r = []
    · subst hnil
      cases hr with
      | refl => exact ⟨[], cs, [], hp, lastLexeme_of_skip hs, rfl, fun x => .refl⟩
      | emit hs' | skip hs' => cases hs'
    · obtain ⟨ts₀, l, tl, hl, hlast, rfl, hreads⟩ := ih hnil rfl
      exact ⟨ts₀, l, tl, hl, hlast, rfl, fun x => .skip (scan_skip_append hs hnil) (hreads x)⟩

end Texts

end Syli.Compiler.Lexer
