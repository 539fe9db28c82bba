import Mathlib.Data.List.Basic
import Mathlib.Tactic.Cases
import Std.Data.String.ToNat

/-! `lower_ast_to_core.ml`: the names it gives to binders, and when two of them are equal. -/
namespace Syli.Compiler.Desugar

/-- An identifier as the lexer accepts it: it has no dot. -/
structure Name where
  text : String
  undotted : '.' ∉ text.toList
deriving DecidableEq

theorem Name.ext {x y : Name} (h : x.text = y.text) : x = y := by
  cases x
  cases y
  cases h
  rfl

/-- `"sy" ^ string_of_int (fresh_id ()) ^ "_" ^ name` -/
def rename (k : Nat) (name : Name) : String := "sy" ++ toString k ++ "_" ++ name.text

/-- `String.concat "." (path @ [ name ])` -/
def dotted (path : List Name) (name : String) : String :=
  path.foldr (fun m s => m.text ++ "." ++ s) name

variable {k k' : Nat} {x y : Name} {p p' : List Name} {s s' : String}

/-- A list is split at its first separator in one way. -/
theorem split_inj {α : Type} {a : α} {l₁ l₂ r₁ r₂ : List α} (h₁ : a ∉ l₁) (h₂ : a ∉ l₂)
    (h : l₁ ++ a :: r₁ = l₂ ++ a :: r₂) : l₁ = l₂ ∧ r₁ = r₂ := by
  induction l₁ generalizing l₂ with
  | nil =>
    cases l₂ with
    | nil => exact ⟨rfl, (List.cons.inj h).2⟩
    | cons b l₂ => exact (h₂ ((List.cons.inj h).1 ▸ List.mem_cons_self)).elim
  | cons b l₁ ih =>
    cases l₂ with
    | nil => exact (h₁ ((List.cons.inj h).1 ▸ List.mem_cons_self)).elim
    | cons c l₂ =>
      obtain ⟨hhead, htail⟩ := List.cons.inj h
      simp only [List.mem_cons, not_or] at h₁ h₂
      obtain ⟨hl, hr⟩ := ih h₁.2 h₂.2 htail
      exact ⟨by rw [hhead, hl], hr⟩

theorem toList_rename (k : Nat) (x : Name) :
    (rename k x).toList = 's' :: 'y' :: (Nat.toDigits 10 k ++ '_' :: x.text.toList) := by
  simp [rename]

theorem isDigit_of_mem {c : Char} (h : c ∈ Nat.toDigits 10 k) : c.isDigit = true :=
  Nat.isDigit_of_mem_toDigits (by omega) (by omega) h

theorem toDigits_inj (h : Nat.toDigits 10 k = Nat.toDigits 10 k') : k = k' := by
  apply Nat.repr_injective
  rw [Nat.repr, Nat.repr, h]

/-- The number and the name can be read back from a generated name. -/
theorem rename_inj (h : rename k x = rename k' y) : k = k' ∧ x = y := by
  have hlist := congrArg String.toList h
  rw [toList_rename, toList_rename, List.cons_inj_right, List.cons_inj_right] at hlist
  have hdigits : ∀ n, '_' ∉ Nat.toDigits 10 n := fun n hmem => by
    have := isDigit_of_mem hmem
    simp at this
  obtain ⟨hk, hx⟩ := split_inj (hdigits k) (hdigits k') hlist
  exact ⟨toDigits_inj hk, Name.ext (String.toList_injective hx)⟩

theorem rename_undotted (k : Nat) (x : Name) : '.' ∉ (rename k x).toList := by
  intro hmem
  rw [toList_rename] at hmem
  simp only [List.mem_cons, List.mem_append, Char.reduceEq, false_or] at hmem
  obtain hk | hx := hmem
  · have := isDigit_of_mem hk
    simp at this
  · exact x.undotted hx

theorem toList_dotted_cons (m : Name) (p : List Name) (s : String) :
    (dotted (m :: p) s).toList = m.text.toList ++ '.' :: (dotted p s).toList := by
  simp [dotted]

/-- The path and the last part can be read back from a qualified name. -/
theorem dotted_inj (hs : '.' ∉ s.toList) (hs' : '.' ∉ s'.toList) (h : dotted p s = dotted p' s') :
    p = p' ∧ s = s' := by
  induction p generalizing p' with
  | nil =>
    cases p' with
    | nil => exact ⟨rfl, h⟩
    | cons m p' =>
      have hlist := congrArg String.toList h
      rw [toList_dotted_cons] at hlist
      exact (hs (by simpa [dotted] using hlist ▸ List.mem_append_right _ List.mem_cons_self)).elim
  | cons m p ih =>
    cases p' with
    | nil =>
      have hlist := congrArg String.toList h
      rw [toList_dotted_cons] at hlist
      exact (hs' (by simpa [dotted] using hlist ▸ List.mem_append_right _ List.mem_cons_self)).elim
    | cons m' p' =>
      have hlist := congrArg String.toList h
      rw [toList_dotted_cons, toList_dotted_cons] at hlist
      obtain ⟨hm, hrest⟩ := split_inj m.undotted m'.undotted hlist
      obtain ⟨rfl, rfl⟩ := ih (String.toList_injective hrest)
      exact ⟨by rw [Name.ext (String.toList_injective hm)], rfl⟩

end Syli.Compiler.Desugar
