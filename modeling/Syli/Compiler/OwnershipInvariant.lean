import Syli.Compiler.OwnershipRuns
import Syli.Compiler.LiveSets

/-! The live variables hold distinct owned counts, and every count has such a holder. -/
namespace Syli.Compiler

open Foundation

variable {st st' : OwnState} {L M : IntSet} {v w : Id} {dst : Var} {t : Nat} {op : Operand}

/-- The variables in `L` hold counts that were not given up, each its own. -/
structure Held (L : IntSet) (st : OwnState) : Prop where
  held : ∀ v ∈ L, st.env v = some .eternal ∨ ∃ t ∈ st.counts, st.env v = some (.own t)
  distinct : ∀ v ∈ L, ∀ w ∈ L, ∀ t, st.env v = some (.own t) → st.env w = some (.own t) → v = w
  below : ∀ t ∈ st.counts, t < st.next

/-- Every count that was not given up is held by a variable in `L`. -/
def Accounted (L : IntSet) (st : OwnState) : Prop :=
  ∀ t ∈ st.counts, ∃ v ∈ L, st.env v = some (.own t)

namespace Held

theorem mono (h : Held M st) (hs : L ⊆ M) : Held L st where
  held v hv := h.held v (hs hv)
  distinct v hv w hw := h.distinct v (hs hv) w (hs hw)
  below := h.below

theorem readVar {v : Var} (h : Held L st) (hv : isRefTy v.ty → v.id ∈ L) :
    st.readVar v = .ok () := by
  unfold OwnState.readVar
  split
  · rename_i href
    rcases h.held v.id (hv href) with henv | ⟨t, ht, henv⟩
    · rw [henv]
    · rw [henv]
      simp [ht]
  · rfl

theorem read (h : Held L st) (hv : varsOfOperand op ⊆ L) : st.read op = .ok () := by
  cases op with
  | constant _ _ => rfl
  | var v =>
    apply h.readVar
    intro href
    exact hv (by simp [varsOfOperand, href])

theorem readProjection {p : Projection} (h : Held L st) (hv : varsOfProjection p ⊆ L) :
    st.readProjection p = .ok () := by
  cases p with
  | array index => exact h.read hv
  | field _ => rfl
  | variant _ _ => rfl

/-- A live variable can give its count up. -/
theorem giveUp (h : Held L st) (hv : v ∈ L) :
    ∃ st', st.giveUp v = .ok st' ∧ Held (L.erase v) st' ∧
      (Accounted L st → Accounted (L.erase v) st') := by
  unfold OwnState.giveUp
  rcases h.held v hv with henv | ⟨t, ht, henv⟩
  · rw [henv]
    refine ⟨st, rfl, h.mono (Finset.erase_subset v L), fun ha t ht => ?_⟩
    obtain ⟨w, hw, hwenv⟩ := ha t ht
    have hne : w ≠ v := by
      rintro rfl
      simp [henv] at hwenv
    exact ⟨w, Finset.mem_erase.mpr ⟨hne, hw⟩, hwenv⟩
  · rw [henv]
    refine ⟨{ st with counts := st.counts.erase t }, by simp [ht], ⟨?_, ?_, ?_⟩, ?_⟩
    · intro w hw
      obtain ⟨hne, hw⟩ := Finset.mem_erase.mp hw
      rcases h.held w hw with hwenv | ⟨u, hu, hwenv⟩
      · exact Or.inl hwenv
      · refine Or.inr ⟨u, Finset.mem_erase.mpr ⟨?_, hu⟩, hwenv⟩
        rintro rfl
        exact hne (h.distinct w hw v hv u hwenv henv)
    · intro a ha b hb
      exact h.distinct a (Finset.mem_of_mem_erase ha) b (Finset.mem_of_mem_erase hb)
    · exact fun u hu => h.below u (Finset.mem_of_mem_erase hu)
    · intro ha u hu
      obtain ⟨hne, hu⟩ := Finset.mem_erase.mp hu
      obtain ⟨w, hw, hwenv⟩ := ha u hu
      refine ⟨w, Finset.mem_erase.mpr ⟨?_, hw⟩, hwenv⟩
      rintro rfl
      exact hne (by simpa [henv] using hwenv.symm)

theorem env_of_ne (hne : v ≠ dst.id) (r : Option Ref) :
    Function.update st.env dst.id r v = st.env v := by
  simp [hne]

/-- A variable that holds nothing that counts takes a new count. -/
theorem defineOwn (h : Held L st) (hdst : dst.id ∉ L) (href : isRefTy dst.ty) :
    Held (insert dst.id L) (st.defineOwn dst) ∧
      (Accounted L st → Accounted (insert dst.id L) (st.defineOwn dst)) := by
  unfold OwnState.defineOwn
  rw [if_pos href]
  have hne : ∀ v ∈ L, v ≠ dst.id := by
    rintro v hv rfl
    exact hdst hv
  have hfresh : ∀ v ∈ L, st.env v ≠ some (.own st.next) := by
    intro v hv henv
    rcases h.held v hv with he | ⟨t, ht, he⟩
    · simp [he] at henv
    · rw [he] at henv
      have := h.below t ht
      simp only [Option.some.injEq, Ref.own.injEq] at henv
      omega
  refine ⟨⟨?_, ?_, ?_⟩, ?_⟩
  · intro v hv
    rcases Finset.mem_insert.mp hv with rfl | hv
    · exact Or.inr ⟨st.next, Finset.mem_insert_self _ _, by simp⟩
    · rcases h.held v hv with he | ⟨t, ht, he⟩
      · exact Or.inl ((env_of_ne (hne v hv) _).trans he)
      · exact Or.inr ⟨t, Finset.mem_insert_of_mem ht, (env_of_ne (hne v hv) _).trans he⟩
  · intro v hv w hw t hvt hwt
    rcases Finset.mem_insert.mp hv with rfl | hv
    · rcases Finset.mem_insert.mp hw with rfl | hw
      · rfl
      · simp only [Function.update_self, Option.some.injEq, Ref.own.injEq] at hvt
        subst hvt
        exact absurd ((env_of_ne (hne w hw) _).symm.trans hwt) (hfresh w hw)
    · rcases Finset.mem_insert.mp hw with rfl | hw
      · simp only [Function.update_self, Option.some.injEq, Ref.own.injEq] at hwt
        subst hwt
        exact absurd ((env_of_ne (hne v hv) _).symm.trans hvt) (hfresh v hv)
      · exact h.distinct v hv w hw t ((env_of_ne (hne v hv) _).symm.trans hvt)
          ((env_of_ne (hne w hw) _).symm.trans hwt)
  · intro t ht
    rcases Finset.mem_insert.mp ht with rfl | ht
    · exact Nat.lt_succ_self _
    · exact Nat.lt_succ_of_lt (h.below t ht)
  · intro ha t ht
    rcases Finset.mem_insert.mp ht with rfl | ht
    · exact ⟨dst.id, Finset.mem_insert_self _ _, by simp⟩
    · obtain ⟨v, hv, he⟩ := ha t ht
      exact ⟨v, Finset.mem_insert_of_mem hv, (env_of_ne (hne v hv) _).trans he⟩

/-- A variable that is not live is overwritten. -/
theorem define {r : Ref} (h : Held L st) (hdst : isRefTy dst.ty → dst.id ∉ L) :
    Held L (st.define dst r) ∧ (Accounted L st → Accounted L (st.define dst r)) := by
  unfold OwnState.define
  split
  · rename_i href
    have hne : ∀ v ∈ L, v ≠ dst.id := by
      rintro v hv rfl
      exact hdst href hv
    refine ⟨⟨?_, ?_, h.below⟩, ?_⟩
    · intro v hv
      simp only [env_of_ne (hne v hv)]
      exact h.held v hv
    · intro v hv w hw
      simp only [env_of_ne (hne v hv), env_of_ne (hne w hw)]
      exact h.distinct v hv w hw
    · intro ha t ht
      obtain ⟨v, hv, he⟩ := ha t ht
      exact ⟨v, hv, (env_of_ne (hne v hv) _).trans he⟩
  · exact ⟨h, id⟩

theorem define_eternal (h : Held L st) (hdst : dst.id ∉ L) (href : isRefTy dst.ty) :
    Held (insert dst.id L) (st.define dst .eternal) ∧
      (Accounted L st → Accounted (insert dst.id L) (st.define dst .eternal)) := by
  obtain ⟨hd, ha⟩ := h.define (r := .eternal) fun _ => hdst
  have hself : (st.define dst .eternal).env dst.id = some .eternal := by
    simp [OwnState.define, href]
  refine ⟨⟨?_, ?_, hd.below⟩, ?_⟩
  · intro v hv
    rcases Finset.mem_insert.mp hv with rfl | hv
    · exact Or.inl hself
    · exact hd.held v hv
  · intro v hv w hw t hvt hwt
    rcases Finset.mem_insert.mp hv with rfl | hv
    · simp [hself] at hvt
    · rcases Finset.mem_insert.mp hw with rfl | hw
      · simp [hself] at hwt
      · exact hd.distinct v hv w hw t hvt hwt
  · intro hacc t ht
    obtain ⟨v, hv, he⟩ := ha hacc t ht
    exact ⟨v, Finset.mem_insert_of_mem hv, he⟩

end Held

end Syli.Compiler
