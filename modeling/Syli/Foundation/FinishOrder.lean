import Mathlib.Data.List.Nodup
import Mathlib.Data.List.Perm.Basic
import Mathlib.Logic.Relation
import Syli.Foundation.Search

/-! The order in which a depth-first search completes the nodes, and the nodes in the order in which
it enters them. -/
namespace Syli.Foundation

variable {α : Type*} {next : α → List α} {U : Set α} {K : Finset α} {G G' : α → Prop} {a b v w : α}
variable {st st' : SearchState α} {l : List α} {n : Nat}

/-- The node leads to the other one. -/
def Leads (next : α → List α) : α → α → Prop := Relation.ReflTransGen fun a b => b ∈ next a

/-- A search that is inside the nodes `G`: a node that leads to a later one is led to by it, or
leads to a node that is completed after that one. -/
structure Ordered (next : α → List α) (G : α → Prop) (st : SearchState α) : Prop where
  nodup : st.2.Nodup
  visited : ∀ x ∈ st.2, x ∈ st.1
  covered : ∀ x ∈ st.1, x ∈ st.2 ∨ G x
  closed : ∀ x ∈ st.2, ∀ y ∈ next x, y ∈ st.1
  order : ∀ pre v post, st.2 = pre ++ v :: post → ∀ w ∈ post, Leads next w v →
    Leads next v w ∨ ∃ u, (u ∈ pre ∨ G u) ∧ Leads next w u

/-- A completed node leads out of the visited nodes only through a node that the search is in. -/
theorem Ordered.leaves (h : Ordered next G st) (hw : w ∈ st.2) (ha : a ∉ st.1)
    (hr : Leads next w a) : ∃ u, G u ∧ Leads next w u := by
  induction hr using Relation.ReflTransGen.head_induction_on with
  | refl => exact (ha (h.visited a hw)).elim
  | @head x y hxy hya ih =>
    rcases h.covered y (h.closed x hw y hxy) with hy | hy
    · obtain ⟨u, hu, hyu⟩ := ih hy
      exact ⟨u, hu, .head hxy hyu⟩
    · exact ⟨y, hy, .single hxy⟩

variable [DecidableEq α]

section Order

/-- What a search does to the order: it puts nodes that its start leads to before it. -/
structure Orders (next : α → List α) (G : α → Prop) (a : α) (st st' : SearchState α) : Prop where
  ordered : Ordered next G st'
  listed : ∃ l, st'.2 = l ++ st.2 ∧ ∀ w ∈ l, Leads next a w

theorem orders_foldl
    (hstep : ∀ b st, b ∈ U → (K \ st.1.toFinset).card < n → Ordered next G st →
      Orders next G b st (depthFirst next n b st))
    (hexplored : ∀ b st, b ∈ U → (K \ st.1.toFinset).card < n →
      Explored next U st (depthFirst next n b st))
    (hl : ∀ b ∈ l, b ∈ U ∧ Leads next a b) (hn : (K \ st.1.toFinset).card < n)
    (h : Ordered next G st) :
    Orders next G a st (l.foldl (fun st b => depthFirst next n b st) st) := by
  induction l generalizing st with
  | nil => exact ⟨h, [], rfl, by simp⟩
  | cons b l ih =>
    obtain ⟨⟨hbU, hab⟩, hl⟩ := List.forall_mem_cons.mp hl
    obtain ⟨hordered, new, hnew, hleads⟩ := hstep b st hbU hn h
    have hcard := (hexplored b st hbU hn).card_le (K := K)
    obtain ⟨hordered', new', hnew', hleads'⟩ :=
      @ih (depthFirst next n b st) hl (Nat.lt_of_le_of_lt hcard hn) hordered
    refine ⟨hordered', new' ++ new, ?_, fun w hw => ?_⟩
    · rw [List.foldl_cons, hnew', hnew, List.append_assoc]
    · rcases List.mem_append.mp hw with hw | hw
      · exact hleads' w hw
      · exact hab.trans (hleads w hw)

theorem orders_depthFirst (hU : ∀ a ∈ U, ∀ b ∈ next a, b ∈ U)
    (hK : ∀ a ∈ U, a ∉ K → next a = []) (ha : a ∈ U)
    (hn : (K \ st.1.toFinset).card < n) (h : Ordered next G st) :
    Orders next G a st (depthFirst next n a st) := by
  induction n generalizing a st G with
  | zero => omega
  | succ n ih =>
    unfold depthFirst
    split
    · exact ⟨h, [], rfl, by simp⟩
    · rename_i hnot
      have hstart : Ordered next (fun x => G x ∨ x = a) (a :: st.1, st.2) :=
        { nodup := h.nodup
          visited := fun x hx => List.mem_cons_of_mem a (h.visited x hx)
          covered := by
            intro x hx
            rcases List.mem_cons.mp hx with rfl | hx
            · exact Or.inr (Or.inr rfl)
            · exact (h.covered x hx).imp_right Or.inl
          closed := fun x hx y hy => List.mem_cons_of_mem a (h.closed x hx y hy)
          order := by
            intro pre v post heq w hw hwv
            rcases h.order pre v post heq w hw hwv with hvw | ⟨u, hu, hwu⟩
            · exact Or.inl hvw
            · exact Or.inr ⟨u, hu.imp_right Or.inl, hwu⟩ }
      -- the search of the successors, for which `a` is one of the nodes that it is inside
      obtain ⟨⟨hordered, new, hnew, hleads⟩, hall, hself, hfresh⟩ :
          Orders next (fun x => G x ∨ x = a) a (a :: st.1, st.2)
            ((next a).foldl (fun st b => depthFirst next n b st) (a :: st.1, st.2)) ∧
          (∀ b ∈ next a, b ∈ ((next a).foldl (fun st b => depthFirst next n b st)
            (a :: st.1, st.2)).1) ∧
          a ∈ ((next a).foldl (fun st b => depthFirst next n b st) (a :: st.1, st.2)).1 ∧
          a ∉ ((next a).foldl (fun st b => depthFirst next n b st) (a :: st.1, st.2)).2 := by
        have hold : a ∉ st.2 := fun hmem => hnot (h.visited a hmem)
        by_cases haK : a ∈ K
        · have hlt : (K \ ((a :: st.1, st.2) : SearchState α).1.toFinset).card < n :=
            card_cons_lt haK hnot hn
          refine ⟨orders_foldl (fun b st hb hst hord => ih hb hst hord)
            (fun b st hb hst => (explored_depthFirst hU hK hb hst).1)
            (fun b hb => ⟨hU a ha b hb, .single hb⟩) hlt hstart, ?_⟩
          obtain ⟨hexplored, hall⟩ := explored_foldl
            (fun b st hb hst => explored_depthFirst hU hK hb hst) (hU a ha) hlt
          refine ⟨hall, hexplored.grows a List.mem_cons_self, fun hmem => ?_⟩
          rcases (hexplored.listed a).mp hmem with hmem | ⟨-, hno⟩
          · exact hold hmem
          · exact hno List.mem_cons_self
        · rw [hK a ha haK]
          exact ⟨⟨hstart, [], rfl, by simp⟩, by simp, List.mem_cons_self, hold⟩
      generalize ((next a).foldl (fun st b => depthFirst next n b st) (a :: st.1, st.2)) = st₂
        at hordered hnew hall hself hfresh
      dsimp only
      refine ⟨⟨List.nodup_cons.mpr ⟨hfresh, hordered.nodup⟩, ?_, ?_, ?_, ?_⟩, a :: new,
        by simp [hnew], ?_⟩
      · intro x hx
        rcases List.mem_cons.mp hx with rfl | hx
        · exact hself
        · exact hordered.visited x hx
      · intro x hx
        rcases hordered.covered x hx with hx | hx | rfl
        · exact Or.inl (List.mem_cons_of_mem a hx)
        · exact Or.inr hx
        · exact Or.inl List.mem_cons_self
      · intro x hx
        rcases List.mem_cons.mp hx with rfl | hx
        · exact hall
        · exact hordered.closed x hx
      · intro pre v post heq w hw hwv
        rcases pre with _ | ⟨x, pre⟩
        · obtain ⟨rfl, rfl⟩ := List.cons.inj heq
          rw [hnew] at hw
          rcases List.mem_append.mp hw with hw | hw
          · exact Or.inl (hleads w hw)
          · obtain ⟨u, hu, hwu⟩ := h.leaves hw hnot hwv
            exact Or.inr ⟨u, Or.inr hu, hwu⟩
        · obtain ⟨rfl, hrest⟩ := List.cons.inj heq
          rcases hordered.order pre v post hrest w hw hwv with hvw | ⟨u, hu, hwu⟩
          · exact Or.inl hvw
          · refine Or.inr ⟨u, ?_, hwu⟩
            rcases hu with hu | hu | rfl
            · exact Or.inl (List.mem_cons_of_mem _ hu)
            · exact Or.inr hu
            · exact Or.inl List.mem_cons_self
      · intro w hw
        rcases List.mem_cons.mp hw with rfl | hw
        · exact .refl
        · exact hleads w hw

/-- The search visits a list of nodes one after the other, inside no node. -/
theorem ordered_foldl (hU : ∀ a ∈ U, ∀ b ∈ next a, b ∈ U) (hK : ∀ a ∈ U, a ∉ K → next a = [])
    (hl : ∀ b ∈ l, b ∈ U) (hn : (K \ st.1.toFinset).card < n) (h : Ordered next G st) :
    Ordered next G (l.foldl (fun st b => depthFirst next n b st) st) := by
  induction l generalizing st with
  | nil => exact h
  | cons b l ih =>
    obtain ⟨hb, hl⟩ := List.forall_mem_cons.mp hl
    have hcard := (explored_depthFirst hU hK hb hn).1.card_le (K := K)
    exact ih hl (Nat.lt_of_le_of_lt hcard hn) (orders_depthFirst hU hK hb hn h).ordered

end Order

section Edges

/-- A search that is inside the nodes `G`: an edge to an earlier node leads back. -/
structure EdgeOrdered (next : α → List α) (G : α → Prop) (st : SearchState α) : Prop where
  covered : ∀ x ∈ st.1, x ∈ st.2 ∨ G x
  order : ∀ pre v post, st.2 = pre ++ v :: post → ∀ w ∈ next v, w ∈ post ∨ Leads next w v

theorem edgeOrdered_foldl
    (hstep : ∀ b ∈ l, ∀ st, (K \ st.1.toFinset).card < n → EdgeOrdered next G st →
      EdgeOrdered next G (depthFirst next n b st))
    (hexplored : ∀ b st, (K \ st.1.toFinset).card < n →
      Explored next Set.univ st (depthFirst next n b st))
    (hn : (K \ st.1.toFinset).card < n) (h : EdgeOrdered next G st) :
    EdgeOrdered next G (l.foldl (fun st b => depthFirst next n b st) st) := by
  induction l generalizing st with
  | nil => exact h
  | cons b l ih =>
    have hcard := (hexplored b st hn).card_le (K := K)
    exact ih (fun c hc => hstep c (List.mem_cons_of_mem b hc)) (Nat.lt_of_le_of_lt hcard hn)
      (hstep b List.mem_cons_self st hn h)

/-- A search that is entered from nodes which lead to its start. -/
theorem edgeOrdered_depthFirst (hK : ∀ a, a ∉ K → next a = [])
    (hG : ∀ g, G g → Leads next g a) (hn : (K \ st.1.toFinset).card < n)
    (h : EdgeOrdered next G st) : EdgeOrdered next G (depthFirst next n a st) := by
  have hall : ∀ {n : Nat} {b : α} {st : SearchState α}, (K \ st.1.toFinset).card < n →
      Explored next Set.univ st (depthFirst next n b st) ∧ b ∈ (depthFirst next n b st).1 :=
    fun {_ _ _} hst => explored_depthFirst (fun _ _ _ _ => trivial) (fun a _ => hK a) trivial hst
  induction n generalizing a st G with
  | zero => omega
  | succ n ih =>
    unfold depthFirst
    split
    · exact h
    · rename_i hnot
      have hstart : EdgeOrdered next (fun x => G x ∨ x = a) (a :: st.1, st.2) := by
        refine ⟨fun x hx => ?_, h.order⟩
        rcases List.mem_cons.mp hx with rfl | hx
        · exact Or.inr (Or.inr rfl)
        · exact (h.covered x hx).imp_right Or.inl
      obtain ⟨hordered, hvisited⟩ : EdgeOrdered next (fun x => G x ∨ x = a)
            ((next a).foldl (fun st b => depthFirst next n b st) (a :: st.1, st.2)) ∧
          ∀ b ∈ next a, b ∈ ((next a).foldl (fun st b => depthFirst next n b st)
            (a :: st.1, st.2)).1 := by
        by_cases haK : a ∈ K
        · have hlt : (K \ ((a :: st.1, st.2) : SearchState α).1.toFinset).card < n :=
            card_cons_lt haK hnot hn
          refine ⟨edgeOrdered_foldl (fun b hb st' hst hord => ih ?_ hst hord)
            (fun b st' hst => (hall hst).1) hlt hstart, ?_⟩
          · rintro g (hg | rfl)
            · exact (hG g hg).tail hb
            · exact .single hb
          · exact (explored_foldl (U := Set.univ) (fun b st' _ hst => hall hst)
              (fun _ _ => trivial) hlt).2
        · rw [hK a haK]
          exact ⟨hstart, by simp⟩
      refine ⟨fun x hx => ?_, fun pre v post heq w hw => ?_⟩
      · rcases hordered.covered x hx with hx | hx | rfl
        · exact Or.inl (List.mem_cons_of_mem a hx)
        · exact Or.inr hx
        · exact Or.inl List.mem_cons_self
      · rcases pre with _ | ⟨x, pre⟩
        · obtain ⟨rfl, rfl⟩ := List.cons.inj heq
          rcases hordered.covered w (hvisited w hw) with hmem | hg | rfl
          · exact Or.inl hmem
          · exact Or.inr (hG w hg)
          · exact Or.inr .refl
        · obtain ⟨-, hrest⟩ := List.cons.inj heq
          exact hordered.order pre v post hrest w hw

end Edges

section Entry

/-- The search that lists a node when it enters it. -/
def depthFirstEntry (next : α → List α) : Nat → α → SearchState α → SearchState α
  | 0, _, st => st
  | n + 1, a, st =>
    if a ∈ st.1 then st
    else (next a).foldl (fun st b => depthFirstEntry next n b st) (a :: st.1, a :: st.2)

/-- It visits the same nodes in the same order. -/
theorem depthFirstEntry_perm (next : α → List α) (n : Nat) (a : α) (st st' : SearchState α)
    (l : List α) (hvisited : st.1 = st'.1) (hlisted : st.2.Perm (l ++ st'.2)) :
    (depthFirstEntry next n a st).1 = (depthFirst next n a st').1 ∧
      (depthFirstEntry next n a st).2.Perm (l ++ (depthFirst next n a st').2) := by
  induction n generalizing a st st' l with
  | zero => exact ⟨hvisited, hlisted⟩
  | succ n ih =>
    unfold depthFirstEntry depthFirst
    rw [hvisited]
    split
    · exact ⟨hvisited, hlisted⟩
    · have hfold : ∀ (bs : List α) (l : List α) (st st' : SearchState α), st.1 = st'.1 →
          st.2.Perm (l ++ st'.2) →
          (bs.foldl (fun st b => depthFirstEntry next n b st) st).1 =
              (bs.foldl (fun st b => depthFirst next n b st) st').1 ∧
            (bs.foldl (fun st b => depthFirstEntry next n b st) st).2.Perm
              (l ++ (bs.foldl (fun st b => depthFirst next n b st) st').2) := by
        intro bs
        induction bs with
        | nil => exact fun l st st' h h' => ⟨h, h'⟩
        | cons b bs ihbs =>
          intro l st st' h h'
          obtain ⟨h₁, h₁'⟩ := ih b st st' l h h'
          exact ihbs l _ _ h₁ h₁'
      obtain ⟨h₁, h₂⟩ := hfold (next a) (l ++ [a]) (a :: st'.1, a :: st.2) (a :: st'.1, st'.2) rfl
        (by simpa using (List.Perm.cons a hlisted).trans List.perm_middle.symm)
      refine ⟨h₁, ?_⟩
      simpa using h₂

end Entry

end Syli.Foundation
