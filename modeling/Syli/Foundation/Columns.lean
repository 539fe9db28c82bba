import Mathlib

/-! The columns that a text with nested blocks has open above its base, as a stack with the deepest
one on top. -/
namespace Syli.Foundation

variable {α : Type*} [LinearOrder α] {b c d n : α} {is ms : List α}

/-- The stack after a line at column `n`: a deeper line opens a column, and every line closes the
columns that are deeper than it. -/
def enter (b : α) (is : List α) (n : α) : List α :=
  if is.headD b < n then n :: is else is.dropWhile fun i => n < i

/-- The stack after the lines, of which the latest comes first. -/
def columns (b : α) (ms : List α) : List α := ms.foldr (fun n is => enter b is n) []

/-- A column is open where a line deeper than all columns open before has opened it, and no line
since was shallower. -/
def OpenColumn (b : α) : List α → α → Prop
  | [], c => c = b
  | n :: ms, c => c ≤ n ∧ (OpenColumn b ms c ∨ c = n ∧ ∀ d, OpenColumn b ms d → d < n)

/-- The line opens a column or returns to one. -/
def FitsColumns (b : α) (ms : List α) (n : α) : Prop :=
  OpenColumn b ms n ∨ ∀ d, OpenColumn b ms d → d < n

/-- The base is the least column. -/
def NestedColumns (b : α) (is : List α) : Prop := (is ++ [b]).Pairwise (· > ·)

theorem headD_mem {β : Type*} (b : β) (is : List β) : is.headD b ∈ is ++ [b] := by
  cases is <;> simp

theorem nestedColumns_nil : NestedColumns b [] := List.pairwise_singleton _ _

theorem NestedColumns.le_headD (h : NestedColumns b is) (hd : d ∈ is ++ [b]) : d ≤ is.headD b := by
  cases is with
  | nil => simp_all
  | cons i is =>
    rcases List.mem_cons.mp hd with rfl | hd
    · exact le_rfl
    · exact ((List.pairwise_cons.mp h).1 d hd).le

theorem NestedColumns.tail {i : α} (h : NestedColumns b (i :: is)) : NestedColumns b is :=
  (List.pairwise_cons.mp h).2

theorem NestedColumns.base_le (h : NestedColumns b is) (hd : d ∈ is ++ [b]) : b ≤ d := by
  induction is with
  | nil => exact (List.mem_singleton.mp hd).ge
  | cons i is ih =>
    rcases List.mem_cons.mp hd with rfl | hd
    · exact ((List.pairwise_cons.mp h).1 b (by simp)).le
    · exact ih h.tail hd

theorem NestedColumns.dropWhile (h : NestedColumns b is) :
    NestedColumns b (is.dropWhile fun i => n < i) := by
  induction is with
  | nil => exact h
  | cons i is ih =>
    rw [List.dropWhile_cons]
    split
    · exact ih h.tail
    · exact h

theorem mem_dropWhile_iff (h : NestedColumns b is) (hn : b ≤ n) :
    c ∈ (is.dropWhile fun i => n < i) ++ [b] ↔ c ∈ is ++ [b] ∧ c ≤ n := by
  induction is with
  | nil =>
    simp only [List.dropWhile_nil, List.nil_append, List.mem_singleton]
    exact ⟨fun hc => ⟨hc, hc ▸ hn⟩, fun hc => hc.1⟩
  | cons i is ih =>
    rw [List.dropWhile_cons]
    split
    · rename_i hlt
      have hlt : n < i := by simpa using hlt
      rw [ih h.tail, List.cons_append, List.mem_cons]
      refine ⟨fun hc => ⟨Or.inr hc.1, hc.2⟩, fun hc => ⟨hc.1.resolve_left ?_, hc.2⟩⟩
      rintro rfl
      exact (hlt.trans_le hc.2).false
    · rename_i hle
      have hle : i ≤ n := by simpa using hle
      exact ⟨fun hc => ⟨hc, (h.le_headD hc).trans hle⟩, fun hc => hc.1⟩

theorem NestedColumns.enter (h : NestedColumns b is) : NestedColumns b (enter b is n) := by
  unfold Foundation.enter
  split
  · rename_i hlt
    exact List.pairwise_cons.mpr ⟨fun d hd => (h.le_headD hd).trans_lt hlt, h⟩
  · exact h.dropWhile

theorem mem_enter_iff (h : NestedColumns b is) (hn : b ≤ n) : c ∈ enter b is n ++ [b] ↔
    c ≤ n ∧ (c ∈ is ++ [b] ∨ c = n ∧ ∀ d ∈ is ++ [b], d < n) := by
  unfold enter
  split
  · rename_i hlt
    have hall : ∀ d ∈ is ++ [b], d < n := fun d hd => (h.le_headD hd).trans_lt hlt
    rw [List.cons_append, List.mem_cons]
    constructor
    · rintro (rfl | hc)
      · exact ⟨le_rfl, Or.inr ⟨rfl, hall⟩⟩
      · exact ⟨(hall c hc).le, Or.inl hc⟩
    · rintro ⟨-, hc | ⟨hc, -⟩⟩
      · exact Or.inr hc
      · exact Or.inl hc
  · rename_i hnot
    rw [mem_dropWhile_iff h hn]
    constructor
    · exact fun hc => ⟨hc.2, Or.inl hc.1⟩
    · rintro ⟨hle, hc | ⟨-, hall⟩⟩
      · exact ⟨hc, hle⟩
      · exact (hnot (hall _ (headD_mem b is))).elim

/-- The line is at the top of the stack where its column was open or is deeper than all open
ones. -/
theorem headD_enter_iff (h : NestedColumns b is) (hn : b ≤ n) : (enter b is n).headD b = n ↔
    n ∈ is ++ [b] ∨ ∀ d ∈ is ++ [b], d < n := by
  have hmem := mem_enter_iff (c := n) (n := n) h hn
  constructor
  · intro htop
    have hin := headD_mem b (enter b is n)
    rw [htop] at hin
    exact (hmem.mp hin).2.imp_right And.right
  · intro hin
    have hin := hmem.mpr ⟨le_rfl, hin.imp_right fun hall => ⟨rfl, hall⟩⟩
    have hle := ((mem_enter_iff h hn).mp (headD_mem b (enter b is n))).1
    exact le_antisymm hle (h.enter.le_headD hin)

theorem nestedColumns_columns (b : α) (ms : List α) : NestedColumns b (columns b ms) := by
  induction ms with
  | nil => exact nestedColumns_nil
  | cons n ms ih => exact ih.enter

/-- The stack holds the open columns. -/
theorem mem_columns_iff (hms : ∀ n ∈ ms, b ≤ n) : c ∈ columns b ms ++ [b] ↔ OpenColumn b ms c := by
  induction ms generalizing c with
  | nil => simp [columns, OpenColumn]
  | cons n ms ih =>
    obtain ⟨hn, hms⟩ := List.forall_mem_cons.mp hms
    have h := mem_enter_iff (c := c) (nestedColumns_columns b ms) hn
    simp only [ih hms] at h
    exact h

theorem fitsColumns_iff (hn : b ≤ n) (hms : ∀ n ∈ ms, b ≤ n) :
    (columns b (n :: ms)).headD b = n ↔ FitsColumns b ms n := by
  have h := headD_enter_iff (nestedColumns_columns b ms) hn
  simp only [mem_columns_iff hms] at h
  exact h

end Syli.Foundation
