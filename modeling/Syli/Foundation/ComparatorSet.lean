import Mathlib.Data.List.Induction
import Mathlib.Data.List.Nodup

/-! The balanced trees of OCaml's `Set.Make`, over a comparison that need not be an order. -/
namespace Syli.Foundation

universe u v

inductive ComparatorSet (α : Type u) where
  | empty
  | node (l : ComparatorSet α) (v : α) (r : ComparatorSet α) (h : Nat)
deriving DecidableEq, Repr

namespace ComparatorSet

variable {α : Type u} {β : Type v}

def height : ComparatorSet α → Nat
  | empty => 0
  | node _ _ _ h => h

def create (l : ComparatorSet α) (v : α) (r : ComparatorSet α) : ComparatorSet α :=
  node l v r (if r.height ≤ l.height then l.height + 1 else r.height + 1)

/-- The branches that the library reports as an invalid argument have height 0, and so are never
taken; here they leave the tree unbalanced. -/
def bal (l : ComparatorSet α) (v : α) (r : ComparatorSet α) : ComparatorSet α :=
  if r.height + 2 < l.height then
    match l with
    | empty => create l v r
    | node ll lv lr _ =>
      if lr.height ≤ ll.height then create ll lv (create lr v r)
      else
        match lr with
        | empty => create l v r
        | node lrl lrv lrr _ => create (create ll lv lrl) lrv (create lrr v r)
  else if l.height + 2 < r.height then
    match r with
    | empty => create l v r
    | node rl rv rr _ =>
      if rl.height ≤ rr.height then create (create l v rl) rv rr
      else
        match rl with
        | empty => create l v r
        | node rll rlv rlr _ => create (create l v rll) rlv (create rlr rv rr)
  else create l v r

/-- The set stays as it is where the subtree does. -/
def add [DecidableEq α] (compare : α → α → Int) (x : α) : ComparatorSet α → ComparatorSet α
  | empty => node empty x empty 1
  | node l v r h =>
    let c := compare x v
    if c = 0 then node l v r h
    else if c < 0 then
      let ll := add compare x l
      if ll = l then node l v r h else bal ll v r
    else
      let rr := add compare x r
      if rr = r then node l v r h else bal l v rr

def mem (compare : α → α → Int) (x : α) : ComparatorSet α → Bool
  | empty => false
  | node l v r _ =>
    let c := compare x v
    c = 0 || if c < 0 then mem compare x l else mem compare x r

def fold (f : α → β → β) : ComparatorSet α → β → β
  | empty, accu => accu
  | node l v r _, accu => fold f r (f v (fold f l accu))

def cardinal : ComparatorSet α → Nat
  | empty => 0
  | node l _ r _ => l.cardinal + 1 + r.cardinal

/-- The elements in the order in which `fold` visits them. -/
def elements : ComparatorSet α → List α
  | empty => []
  | node l v r _ => l.elements ++ v :: r.elements

theorem fold_eq (f : α → β → β) (s : ComparatorSet α) (accu : β) :
    s.fold f accu = s.elements.foldl (fun b a => f a b) accu := by
  induction s generalizing accu with
  | empty => rfl
  | node l v r h ihl ihr => simp only [fold, elements, ihl, ihr, List.foldl_append, List.foldl_cons]

theorem cardinal_eq (s : ComparatorSet α) : s.cardinal = s.elements.length := by
  induction s with
  | empty => rfl
  | node l v r h ihl ihr => simp only [cardinal, elements, ihl, ihr, List.length_append,
      List.length_cons, Nat.add_assoc, Nat.add_comm 1]

@[simp] theorem elements_create (l : ComparatorSet α) (v : α) (r : ComparatorSet α) :
    (create l v r).elements = l.elements ++ v :: r.elements := rfl

/-- Rebalancing keeps the order of the elements. -/
@[simp] theorem elements_bal (l : ComparatorSet α) (v : α) (r : ComparatorSet α) :
    (bal l v r).elements = l.elements ++ v :: r.elements := by
  unfold bal
  split
  · cases l with
    | empty => rfl
    | node ll lv lr lh =>
      dsimp only
      split
      · simp [elements]
      · cases lr <;> simp [elements]
  · split
    · cases r with
      | empty => rfl
      | node rl rv rr rh =>
        dsimp only
        split
        · simp [elements]
        · cases rl <;> simp [elements]
    · rfl

section NoOrder

variable [DecidableEq α]

/-- The comparison that only tells equal from different. -/
def compareEq (x y : α) : Int := if x = y then 0 else 1

theorem mem_node (x v : α) (l r : ComparatorSet α) (h : Nat) :
    (node l v r h).mem compareEq x = true ↔ x = v ∨ r.mem compareEq x = true := by
  by_cases hx : x = v
  · simp [mem, compareEq, hx]
  · simp [mem, compareEq, hx]

theorem mem_elements_of_mem {x : α} {s : ComparatorSet α} (hx : s.mem compareEq x = true) :
    x ∈ s.elements := by
  induction s with
  | empty => cases hx
  | node l v r h _ ihr =>
    rcases (mem_node x v l r h).mp hx with rfl | hr
    · simp [elements]
    · simp [elements, ihr hr]

theorem add_of_mem {x : α} {s : ComparatorSet α} (hx : s.mem compareEq x = true) :
    s.add compareEq x = s := by
  induction s with
  | empty => cases hx
  | node l v r h _ ihr =>
    by_cases hxv : x = v
    · simp [add, compareEq, hxv]
    · have hr := ((mem_node x v l r h).mp hx).resolve_left hxv
      simp [add, compareEq, hxv, ihr hr]

/-- An element that is not found on the way to the right is put behind all others. -/
theorem elements_add (x : α) (s : ComparatorSet α) :
    (s.add compareEq x).elements =
      if s.mem compareEq x then s.elements else s.elements ++ [x] := by
  induction s with
  | empty => rfl
  | node l v r h _ ihr =>
    by_cases hmem : (node l v r h).mem compareEq x = true
    · rw [add_of_mem hmem, if_pos hmem]
    · have hno := fun hx => hmem ((mem_node x v l r h).mpr hx)
      have hxv : x ≠ v := fun hx => hno (Or.inl hx)
      have hr : r.mem compareEq x ≠ true := fun hx => hno (Or.inr hx)
      rw [if_neg hr] at ihr
      have hne : r.add compareEq x ≠ r := by
        intro heq
        rw [heq] at ihr
        simpa using congrArg List.length ihr
      rw [if_neg hmem]
      simp [add, compareEq, hxv, hne, ihr, elements]

def ofList (l : List α) : ComparatorSet α := l.foldl (fun s x => s.add compareEq x) empty

@[simp] theorem ofList_concat (l : List α) (x : α) :
    ofList (l ++ [x]) = (ofList l).add compareEq x := by
  simp [ofList]

theorem mem_elements_ofList {l : List α} {x : α} : x ∈ (ofList l).elements ↔ x ∈ l := by
  induction l using List.reverseRecOn with
  | nil => simp [ofList, elements]
  | append_singleton l y ih =>
    rw [ofList_concat, elements_add]
    split
    · rename_i hy
      have hyl := mem_elements_of_mem hy
      rw [List.mem_append, List.mem_singleton]
      constructor
      · exact fun hx => Or.inl (ih.mp hx)
      · rintro (hx | rfl)
        · exact ih.mpr hx
        · exact hyl
    · simp [ih]

/-- No element is entered twice exactly when each repetition finds the element again. -/
theorem nodup_ofList {l : List α} :
    (ofList l).elements.Nodup ↔
      ∀ pre x post, l = pre ++ x :: post → x ∈ pre → (ofList pre).mem compareEq x = true := by
  induction l using List.reverseRecOn with
  | nil => simp [ofList, elements]
  | append_singleton l y ih =>
    have hstep : (ofList (l ++ [y])).elements.Nodup ↔
        (ofList l).elements.Nodup ∧ (y ∈ l → (ofList l).mem compareEq y = true) := by
      rw [ofList_concat, elements_add]
      split
      · simp [*]
      · rename_i hy
        rw [List.nodup_append_comm, List.singleton_append, List.nodup_cons, mem_elements_ofList]
        grind
    rw [hstep, ih]
    constructor
    · rintro ⟨hall, hlast⟩ pre x post heq hx
      rcases List.eq_nil_or_concat post with rfl | ⟨post, z, rfl⟩
      · obtain ⟨rfl, hyx⟩ := List.append_inj' heq rfl
        obtain rfl := List.singleton_inj.mp hyx
        exact hlast hx
      · have hsplit : l ++ [y] = (pre ++ x :: post) ++ [z] := by simpa using heq
        exact hall pre x post (List.append_inj' hsplit rfl).1 hx
    · intro hall
      refine ⟨fun pre x post heq => hall pre x (post ++ [y]) (by simp [heq]), fun hy => ?_⟩
      exact hall l y [] rfl hy

end NoOrder

end ComparatorSet

end Syli.Foundation
