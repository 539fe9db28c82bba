import Syli.Compiler.AlphaScopes
import Syli.Compiler.CoreNames

/-! The names that the alpha renaming gives, and what they refer to in the renamed program. -/
namespace Syli.Compiler.Alpha

open Foundation RenameEnv

variable {n k lo hi i : Nat} {x y : SourceName} {s t : Scope SourceName} {xs : List SourceName}
  {b : Binder}

theorem toList_freshName (x : SourceName) (k : Nat) :
    (freshName x k).toList = x.text.toList ++ '#' :: Nat.toDigits 10 k := by
  simp [freshName]

theorem number_not_mem (k : Nat) : '#' ∉ Nat.toDigits 10 k := by
  intro hmem
  have := Desugar.isDigit_of_mem hmem
  simp at this

/-- The name and the number can be read back from a fresh name. -/
theorem freshName_inj {m : Nat} (h : freshName x k = freshName y m) : x = y ∧ k = m := by
  have hlist := congrArg (fun s => s.toList.reverse) h
  simp only [toList_freshName, List.reverse_append, List.reverse_cons, List.append_assoc,
    List.singleton_append] at hlist
  obtain ⟨hnumber, htext⟩ := Desugar.split_inj (fun hm => number_not_mem k (List.mem_reverse.mp hm))
    (fun hm => number_not_mem m (List.mem_reverse.mp hm)) hlist
  constructor
  · cases x
    cases y
    cases String.toList_injective (List.reverse_injective htext)
    rfl
  · exact Desugar.toDigits_inj (List.reverse_injective hnumber)

/-- The parser builds no name that ends with a number sign and digits. -/
theorem freshName_ne_text (x y : SourceName) (k : Nat) : freshName x k ≠ y.text := by
  intro h
  have hlist := toList_freshName x k
  rw [h] at hlist
  rcases y.unnumbered with hy | hy
  · apply hy
    rw [hlist]
    simp
  · have hne : Nat.toDigits 10 k ≠ [] := Nat.toDigits_ne_nil
    rw [hlist, List.getLast?_append_cons, List.getLast?_cons, List.getLast?_eq_getLast_of_ne_nil hne]
      at hy
    have hmem := List.getLast_mem hne
    simp only [Option.getD_some, Option.some.injEq] at hy
    rw [hy] at hmem
    have := Desugar.isDigit_of_mem hmem
    simp at this

/-- The name of a binder after a run that starts with the counter at `n`. -/
def Binder.newName (n : Nat) (x : SourceName) : Binder → String
  | .local k => freshName x (n + k + 1)
  | .external _ => x.text

def renamedScope (n : Nat) (s : Scope SourceName) : Scope String :=
  s.map fun e => (e.2.newName n e.1, e.2)

/-- The accumulator of the traversal, for the binders that it holds. -/
def renamedEnv (n : Nat) (s : Scope SourceName) : RenameEnv :=
  s.map fun e => (e.1, e.2.newName n e.1)

def freshNames (n : Nat) : List SourceName → List String
  | [] => []
  | x :: xs => freshName x (n + 1) :: freshNames (n + 1) xs

/-- The number of the innermost binder of the name, unless it is an external or there is none. -/
def Scope.visible (s : Scope SourceName) (x : SourceName) : Option Nat :=
  match s.findOpt x with
  | some (.local k) => some k
  | _ => none

@[simp] theorem renamedScope_append (n : Nat) (s t : Scope SourceName) :
    renamedScope n (s ++ t) = renamedScope n s ++ renamedScope n t :=
  List.map_append

/-- An external has its own name. -/
theorem renamedScope_external (n : Nat) (s : Scope SourceName) (x : SourceName) (j : Nat) :
    renamedScope n (s.add x (.external j)) = (renamedScope n s).add x.text (.external j) := rfl

@[simp] theorem renamedEnv_append (n : Nat) (s t : Scope SourceName) :
    renamedEnv n (s ++ t) = renamedEnv n s ++ renamedEnv n t :=
  List.map_append

@[simp] theorem length_freshNames (n : Nat) (xs : List SourceName) :
    (freshNames n xs).length = xs.length := by
  induction xs generalizing n with
  | nil => rfl
  | cons x xs ih => simp [freshNames, ih]

theorem freshNames_append (n : Nat) (xs ys : List SourceName) :
    freshNames n (xs ++ ys) = freshNames n xs ++ freshNames (n + xs.length) ys := by
  induction xs generalizing n with
  | nil => simp [freshNames]
  | cons x xs ih =>
    simp only [List.cons_append, freshNames, ih, List.length_cons]
    rw [show n + 1 + xs.length = n + (xs.length + 1) by omega]

theorem entries_append {ν : Type} (k : Nat) (xs ys : List ν) :
    entries k (xs ++ ys) = entries (k + xs.length) ys ++ entries k xs := by
  induction xs generalizing k with
  | nil => simp [entries]
  | cons x xs ih =>
    simp only [List.cons_append, entries, ih, List.length_cons, List.append_assoc]
    rw [show k + 1 + xs.length = k + (xs.length + 1) by omega]

theorem entries_freshNames (n k : Nat) (xs : List SourceName) :
    entries k (freshNames (n + k) xs) = renamedScope n (entries k xs) := by
  induction xs generalizing k with
  | nil => rfl
  | cons x xs ih =>
    have htail := ih (k + 1)
    rw [← Nat.add_assoc] at htail
    rw [freshNames, entries, entries, renamedScope_append, htail]
    rfl

theorem exists_of_mem_freshNames {name : String} (h : name ∈ freshNames n xs) :
    ∃ x k, n < k ∧ name = freshName x k := by
  induction xs generalizing n with
  | nil => simp [freshNames] at h
  | cons x xs ih =>
    rcases List.mem_cons.mp h with rfl | h
    · exact ⟨x, n + 1, by omega, rfl⟩
    · obtain ⟨y, k, hk, rfl⟩ := ih h
      exact ⟨y, k, by omega, rfl⟩

theorem freshNames_nodup (n : Nat) (xs : List SourceName) : (freshNames n xs).Nodup := by
  induction xs generalizing n with
  | nil => exact List.nodup_nil
  | cons x xs ih =>
    refine List.nodup_cons.mpr ⟨?_, ih (n + 1)⟩
    intro hmem
    obtain ⟨y, k, hk, hname⟩ := exists_of_mem_freshNames hmem
    have := (freshName_inj hname).2
    omega

theorem visible_eq_some : s.visible x = some i ↔ s.findOpt x = some (.local i) := by
  rw [Scope.visible]
  split
  · rename_i k hk
    rw [hk]
    simp
  · rename_i hne
    constructor
    · intro h
      cases h
    · intro h
      exact (hne i h).elim

theorem lookup_renamedEnv (n : Nat) (s : Scope SourceName) (x : SourceName) :
    lookup (renamedEnv n s) x = match s.visible x with
      | some i => freshName x (n + i + 1)
      | none => x.text := by
  have hfind : (renamedEnv n s).findOpt x = (s.findOpt x).map (Binder.newName n x) :=
    AssocMap.findOpt_map
  rw [lookup, hfind, Scope.visible]
  cases s.findOpt x with
  | none => rfl
  | some b => cases b <;> rfl

/-- A fresh name refers to its own binder only. -/
theorem findOpt_freshName (h : (renamedScope n s).findOpt (freshName x (n + i + 1)) = some b) :
    b = .local i := by
  obtain ⟨⟨y, c⟩, -, heq⟩ := List.mem_map.mp (AssocMap.mem_of_findOpt h)
  obtain ⟨hname, rfl⟩ := Prod.mk.inj heq
  cases c with
  | «local» j =>
    have hnumber := (freshName_inj hname).2
    rw [show j = i by omega]
  | external j => exact (freshName_ne_text x y _ hname.symm).elim

theorem findOpt_of_visible (h : s.visible x = some i) :
    (renamedScope n s).findOpt (freshName x (n + i + 1)) = some (.local i) := by
  have hmem : (freshName x (n + i + 1), Binder.local i) ∈ renamedScope n s :=
    List.mem_map.mpr ⟨_, AssocMap.mem_of_findOpt (visible_eq_some.mp h), rfl⟩
  cases hfind : (renamedScope n s).findOpt (freshName x (n + i + 1)) with
  | none =>
    rw [AssocMap.findOpt_eq_none_iff] at hfind
    exact (hfind (List.mem_map.mpr ⟨_, hmem, rfl⟩)).elim
  | some b => rw [findOpt_freshName hfind]

theorem findOpt_text_ne_local :
    (renamedScope n s).findOpt x.text ≠ some (.local i) := by
  intro h
  obtain ⟨⟨y, c⟩, -, heq⟩ := List.mem_map.mp (AssocMap.mem_of_findOpt h)
  obtain ⟨hname, rfl⟩ := Prod.mk.inj heq
  exact freshName_ne_text y x _ hname

theorem findOpt_text (h : s.visible x = none) :
    (renamedScope n s).findOpt x.text = s.findOpt x := by
  induction s with
  | nil => rfl
  | cons e s ih =>
    obtain ⟨y, c⟩ := e
    by_cases hxy : x = y
    · subst hxy
      cases c with
      | «local» k => simp [Scope.visible, AssocMap.findOpt] at h
      | external j => exact AssocMap.findOpt_add_self.trans AssocMap.findOpt_add_self.symm
    · have hname : x.text ≠ c.newName n y := by
        cases c with
        | «local» k => exact (freshName_ne_text y x _).symm
        | external j =>
          intro heq
          apply hxy
          cases x
          cases y
          cases heq
          rfl
      have hold : AssocMap.findOpt ((y, c) :: s) x = AssocMap.findOpt s x :=
        AssocMap.findOpt_add_of_ne hxy
      have hnew : (renamedScope n ((y, c) :: s)).findOpt x.text =
          (renamedScope n s).findOpt x.text := AssocMap.findOpt_add_of_ne hname
      rw [Scope.visible, hold] at h
      rw [hold, hnew]
      exact ih h

/-- The new name of an identifier refers to the binder of the old one exactly when the accumulator
holds the innermost visible binder. -/
theorem reference_iff (n : Nat) (passed scope : Scope SourceName) (x : SourceName) :
    (renamedScope n scope).reference id (lookup (renamedEnv n passed) x) =
      scope.reference SourceName.text x ↔ passed.visible x = scope.visible x := by
  rw [lookup_renamedEnv, Scope.reference, Scope.reference]
  cases hpassed : passed.visible x with
  | some i =>
    constructor
    · intro h
      cases hnew : (renamedScope n scope).findOpt (freshName x (n + i + 1)) with
      | some b =>
        simp only [hnew, findOpt_freshName hnew] at h
        cases hold : scope.findOpt x with
        | none => simp [hold] at h
        | some c =>
          simp only [hold, Reference.bound.injEq] at h
          exact (visible_eq_some.mpr (h ▸ hold)).symm
      | none =>
        simp only [hnew, id] at h
        cases hold : scope.findOpt x with
        | none =>
          simp only [hold, Reference.free.injEq] at h
          exact (freshName_ne_text x x _ h).elim
        | some c => simp [hold] at h
    · intro h
      simp [findOpt_of_visible h.symm, visible_eq_some.mp h.symm]
  | none =>
    constructor
    · intro h
      cases hvisible : scope.visible x with
      | none => rfl
      | some i =>
        rw [visible_eq_some.mp hvisible] at h
        cases hnew : (renamedScope n scope).findOpt x.text with
        | none => simp [hnew] at h
        | some b =>
          simp only [hnew, Reference.bound.injEq] at h
          exact (findOpt_text_ne_local (h ▸ hnew)).elim
    · intro h
      simp [findOpt_text h.symm]

end Syli.Compiler.Alpha
