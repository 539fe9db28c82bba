import Syli.Collector.Exact

/-! The registry of cyclic candidates: each entry is an allocated candidate that knows its index. -/
namespace Syli.Collector

open Foundation Syli.Runtime

variable {s s' u : SyliState} {a b : Addr} {o w : GCObject} {cs : List Addr}

/-- The entries are the flagged objects, and each one holds its own index. -/
structure Registered (s : SyliState) : Prop where
  entry : ∀ i a, s.cyclicCandidates[i]? = some a → s.candidateIndex a = i ∧
    ∃ o, s.heap a = some o ∧ o.cyclicCandidate = true ∧ o.header.isCyclicMutable = true
  listed : ∀ a o, s.heap a = some o → o.cyclicCandidate = true → a ∈ s.cyclicCandidates
  waiting : ∀ a o, s.heap a = some o → o.waitingRemove = true → o.cyclicCandidate = false

namespace Registered

theorem flagged (h : Registered s) (ha : a ∈ s.cyclicCandidates) :
    ∃ o, s.heap a = some o ∧ o.cyclicCandidate = true ∧ o.header.isCyclicMutable = true := by
  obtain ⟨i, hi⟩ := List.mem_iff_getElem?.mp ha
  exact (h.entry i a hi).2

theorem index (h : Registered s) (ha : a ∈ s.cyclicCandidates) :
    s.cyclicCandidates[s.candidateIndex a]? = some a := by
  obtain ⟨i, hi⟩ := List.mem_iff_getElem?.mp ha
  rw [(h.entry i a hi).1]
  exact hi

/-- The rule for the steps that leave the registry, the headers and the flags alone. -/
theorem congr (h : Registered s) (hc : s'.cyclicCandidates = s.cyclicCandidates)
    (hi : s'.candidateIndex = s.candidateIndex)
    (hkeep : ∀ a o, s.heap a = some o → o.cyclicCandidate = true → ∃ o', s'.heap a = some o' ∧
      o'.cyclicCandidate = true ∧ o'.header = o.header)
    (hobj : ∀ a o', s'.heap a = some o' → ∃ o, s.heap a = some o ∧
      o'.cyclicCandidate = o.cyclicCandidate ∧
        (o'.waitingRemove = true → o.waitingRemove = true ∨ o.cyclicCandidate = false)) :
    Registered s' := by
  constructor
  · intro i a ha
    rw [hc] at ha
    obtain ⟨hindex, o, ho, hflag, hmut⟩ := h.entry i a ha
    obtain ⟨o', ho', hflag', hheader⟩ := hkeep a o ho hflag
    rw [hi]
    exact ⟨hindex, o', ho', hflag', hheader ▸ hmut⟩
  · intro a o' ho' hflag
    obtain ⟨o, ho, heq, -⟩ := hobj a o' ho'
    rw [hc]
    exact h.listed a o ho (heq.symm.trans hflag)
  · intro a o' ho' hw
    obtain ⟨o, ho, heq, hwait⟩ := hobj a o' ho'
    rcases hwait hw with hw | hno
    · exact heq.trans (h.waiting a o ho hw)
    · exact heq.trans hno

theorem setObj (h : Registered s) (ho : s.heap a = some o) (hheader : w.header = o.header)
    (hflag : w.cyclicCandidate = o.cyclicCandidate)
    (hw : w.waitingRemove = true → o.waitingRemove = true ∨ o.cyclicCandidate = false) :
    Registered (s.setObj a w) := by
  refine h.congr rfl rfl ?_ ?_
  · intro b ob hob hb
    by_cases hba : b = a
    · subst hba
      obtain rfl := Option.some.inj (ho.symm.trans hob)
      exact ⟨w, by simp, hflag.trans hb, hheader⟩
    · exact ⟨ob, by simp [hba, hob], hb, rfl⟩
  · intro b ob hob
    rcases heap_cases rfl hob with ⟨rfl, rfl⟩ | ⟨-, hb⟩
    · exact ⟨o, ho, hflag, hw⟩
    · exact ⟨ob, hb, rfl, Or.inl⟩

/-- An object that is not a candidate can be freed. -/
theorem dropObj (h : Registered s) (ho : s.heap a = some o) (hflag : o.cyclicCandidate = false) :
    Registered (s.dropObj a) := by
  refine h.congr rfl rfl ?_ ?_
  · intro b ob hob hb
    have hba : b ≠ a := by
      rintro rfl
      obtain rfl := Option.some.inj (ho.symm.trans hob)
      simp [hflag] at hb
    exact ⟨ob, by simp [hba, hob], hb, rfl⟩
  · intro b ob hob
    exact ⟨ob, (heap_drop_cases rfl hob).2, rfl, Or.inl⟩

theorem queueTracing (h : Registered s) (new : List Addr) : Registered (s.queueTracing new) := by
  refine h.congr rfl rfl ?_ ?_
  · intro b ob hob hb
    obtain ⟨tracing, hob'⟩ := flagTracing_of_heap hob new
    exact ⟨_, hob', hb, rfl⟩
  · intro b ob hob
    obtain ⟨o, ho, ⟨-, rfl⟩ | ⟨-, rfl⟩⟩ := flagTracing_eq_some (s := s) hob
    · exact ⟨_, ho, rfl, Or.inl⟩
    · exact ⟨o, ho, rfl, Or.inl⟩

end Registered

/-- The entries of the second registry are entries of the first one, and none stands higher. -/
def Descends (s s' : SyliState) : Prop :=
  ∀ (i : Nat) (b : Addr), s'.cyclicCandidates[i]? = some b →
    ∃ j : Nat, i ≤ j ∧ s.cyclicCandidates[j]? = some b

theorem Descends.of_eq (h : s'.cyclicCandidates = s.cyclicCandidates) : Descends s s' :=
  fun i _ hb => ⟨i, Nat.le_refl i, h ▸ hb⟩

theorem Descends.trans (h : Descends s u) (h' : Descends u s') : Descends s s' := by
  intro i b hb
  obtain ⟨j, hij, hj⟩ := h' i b hb
  obtain ⟨k, hjk, hk⟩ := h j b hj
  exact ⟨k, Nat.le_trans hij hjk, hk⟩

/-- The registry without `a`: the last entry takes its place. -/
theorem gcRemoveCandidateAt_ok (h : Registered s) (ha : a ∈ s.cyclicCandidates) :
    ∃ candidates index, gcRemoveCandidateAt s (s.candidateIndex a) =
        .ok (s.setRegistry candidates index) ∧
      (∀ i b, candidates[i]? = some b → index b = i ∧ b ≠ a ∧
        ∃ j, i ≤ j ∧ s.cyclicCandidates[j]? = some b) ∧
          ∀ b ∈ s.cyclicCandidates, b ≠ a → b ∈ candidates := by
  have hk := h.index ha
  obtain ⟨hlt, -⟩ := List.getElem?_eq_some_iff.mp hk
  have hn : s.cyclicCandidates.length - 1 < s.cyclicCandidates.length := by omega
  obtain ⟨last, hlast⟩ : ∃ last, s.cyclicCandidates[s.cyclicCandidates.length - 1]? = some last :=
    ⟨_, List.getElem?_eq_getElem hn⟩
  have hindex : ∀ {i b}, s.cyclicCandidates[i]? = some b → s.candidateIndex b = i :=
    fun hb => (h.entry _ _ hb).1
  unfold gcRemoveCandidateAt
  rw [List.getLast?_eq_getElem?, hlast]
  simp only
  split
  · rename_i hend
    refine ⟨_, _, rfl, ?_, ?_⟩
    · intro i b hb
      rw [List.getElem?_dropLast] at hb
      split at hb
      · refine ⟨hindex hb, ?_, i, Nat.le_refl i, hb⟩
        rintro rfl
        have := hindex hb
        omega
      · cases hb
    · intro b hb hba
      obtain ⟨i, hi⟩ := List.mem_iff_getElem?.mp hb
      obtain ⟨hil, -⟩ := List.getElem?_eq_some_iff.mp hi
      have hne : i ≠ s.cyclicCandidates.length - 1 := by
        rintro rfl
        rw [← hend] at hi
        exact hba (Option.some.inj (hi.symm.trans hk))
      refine List.mem_iff_getElem?.mpr ⟨i, ?_⟩
      rw [List.getElem?_dropLast, if_pos (by omega)]
      exact hi
  · rename_i hend
    obtain ⟨o, ho, hflag, hmut⟩ := (h.entry _ _ hlast).2
    have hlasta : last ≠ a := by
      rintro rfl
      exact hend (hindex hlast)
    refine ⟨(s.cyclicCandidates.set (s.candidateIndex a) last).dropLast,
      Function.update s.candidateIndex last (s.candidateIndex a), ?_, ?_, ?_⟩
    · simp only [bind_eq_ok, deref_eq_ok, check_eq_ok, pure_eq_ok]
      exact ⟨(), hlt, o, ho, (), hmut, trivial⟩
    · intro i b hb
      rw [List.getElem?_dropLast, List.length_set] at hb
      split at hb
      · by_cases hi : i = s.candidateIndex a
        · subst hi
          rw [List.getElem?_set_self hlt] at hb
          obtain rfl := Option.some.inj hb
          exact ⟨by simp, hlasta, _, by omega, hlast⟩
        · rw [List.getElem?_set_ne (Ne.symm hi)] at hb
          have hib := hindex hb
          have hbl : b ≠ last := by
            rintro rfl
            have := hindex hlast
            omega
          refine ⟨by rw [Function.update_of_ne hbl, hib], ?_, i, Nat.le_refl i, hb⟩
          rintro rfl
          exact hi hib.symm
      · cases hb
    · intro b hb hba
      obtain ⟨i, hi⟩ := List.mem_iff_getElem?.mp hb
      obtain ⟨hil, -⟩ := List.getElem?_eq_some_iff.mp hi
      have hia : i ≠ s.candidateIndex a := by
        rintro rfl
        exact hba (Option.some.inj (hi.symm.trans hk))
      by_cases hie : i = s.cyclicCandidates.length - 1
      · subst hie
        obtain rfl := Option.some.inj (hi.symm.trans hlast)
        refine List.mem_iff_getElem?.mpr ⟨s.candidateIndex a, ?_⟩
        rw [List.getElem?_dropLast, List.length_set, if_pos (by omega),
          List.getElem?_set_self hlt]
      · refine List.mem_iff_getElem?.mpr ⟨i, ?_⟩
        rw [List.getElem?_dropLast, List.length_set, if_pos (by omega),
          List.getElem?_set_ne (Ne.symm hia)]
        exact hi

theorem freeReleasedObject_eq (ho : s.heap a = some o)
    (hmut : o.cyclicCandidate = true → o.header.isCyclicMutable = true)
    (hreg : (if o.cyclicCandidate then gcRemoveCandidateAt s (s.candidateIndex a) else pure s) =
      .ok u) :
    freeReleasedObject s a =
      if o.tracing then
        .ok (u.setObj a { o with cyclicCandidate := false, waitingRemove := true })
      else (gcAccountCyclicFree (u.setObj a { o with cyclicCandidate := false })
        { o with cyclicCandidate := false }).free a := by
  unfold freeReleasedObject
  rw [deref_eq_ok.mpr ho]
  cases hflag : o.cyclicCandidate <;>
    simp_all [bind, Except.bind, pure, Except.pure, check]

namespace Registered

theorem setRegistry (h : Registered s) {candidates : List Addr} {index : Addr → Nat}
    (hentry : ∀ i b, candidates[i]? = some b → index b = i ∧ b ≠ a ∧
      ∃ j, i ≤ j ∧ s.cyclicCandidates[j]? = some b)
    (hlisted : ∀ b ∈ s.cyclicCandidates, b ≠ a → b ∈ candidates)
    (hw : w.cyclicCandidate = false) :
    Registered ((s.setRegistry candidates index).setObj a w) := by
  constructor
  · intro i b hb
    obtain ⟨hi, hba, j, -, hj⟩ := hentry i b hb
    obtain ⟨ob, hob, hflag⟩ := (h.entry j b hj).2
    exact ⟨hi, ob, by simp [hba, hob], hflag⟩
  · intro b ob hob hflag
    rcases heap_cases (s := s) rfl hob with ⟨rfl, rfl⟩ | ⟨hba, hb⟩
    · simp [hw] at hflag
    · exact hlisted b (h.listed b ob hb hflag) hba
  · intro b ob hob hwait
    rcases heap_cases (s := s) rfl hob with ⟨rfl, rfl⟩ | ⟨-, hb⟩
    · exact hw
    · exact h.waiting b ob hb hwait

/-- `free_released_object` succeeds on an allocated object, and takes it out of the registry. -/
theorem freeReleasedObject (h : Registered s) (ho : s.heap a = some o) :
    ∃ s', freeReleasedObject s a = .ok s' ∧ Registered s' ∧ Descends s s' := by
  obtain ⟨candidates, index, hreg, hdesc, hok⟩ : ∃ candidates index,
      Registered ((s.setRegistry candidates index).setObj a { o with cyclicCandidate := false }) ∧
        Descends s (s.setRegistry candidates index) ∧
          (if o.cyclicCandidate then gcRemoveCandidateAt s (s.candidateIndex a) else pure s) =
            Except.ok (s.setRegistry candidates index) := by
    cases hflag : o.cyclicCandidate with
    | true =>
      obtain ⟨candidates, index, hok, hentry, hlisted⟩ :=
        gcRemoveCandidateAt_ok h (h.listed a o ho hflag)
      exact ⟨candidates, index, h.setRegistry hentry hlisted rfl,
        fun i b hb => (hentry i b hb).2.2, hok⟩
    | false =>
      refine ⟨s.cyclicCandidates, s.candidateIndex, ?_, .of_eq rfl, rfl⟩
      exact h.setObj ho rfl hflag.symm fun hw => Or.inr hflag
  have hmut : o.cyclicCandidate = true → o.header.isCyclicMutable = true := by
    intro hflag
    obtain ⟨o', ho', -, hmut⟩ := h.flagged (h.listed a o ho hflag)
    obtain rfl := Option.some.inj (ho.symm.trans ho')
    exact hmut
  obtain ⟨g, hg⟩ := gcAccountCyclicFree_effect ((s.setRegistry candidates index).setObj a
    { o with cyclicCandidate := false }) { o with cyclicCandidate := false }
  cases ht : o.tracing with
  | true =>
    refine ⟨(s.setRegistry candidates index).setObj a
      { o with cyclicCandidate := false, waitingRemove := true }, ?_, ?_, hdesc⟩
    · rw [freeReleasedObject_eq ho hmut hok, if_pos ht]
    · have hset := hreg.setObj (a := a) (o := { o with cyclicCandidate := false })
        (w := { o with cyclicCandidate := false, waitingRemove := true }) (by simp) rfl rfl
        fun _ => Or.inr rfl
      rwa [SyliState.setObj_setObj] at hset
  | false =>
    refine ⟨(((s.setRegistry candidates index).setObj a
      { o with cyclicCandidate := false }).setGauges g).dropObj a, ?_, ?_, hdesc⟩
    · rw [freeReleasedObject_eq ho hmut hok, if_neg (by simp [ht]), hg, free_eq_ok]
      exact ⟨by simp, rfl⟩
    · have hd := hreg.dropObj (a := a) (o := { o with cyclicCandidate := false }) (by simp) rfl
      exact { hd with }

theorem gcReleasingWorklistPush (h : Registered s) (ho : s.heap a = some o)
    (hz : o.refcount = 0) :
    ∃ s', gcReleasingWorklistPush s a = .ok s' ∧ Registered s' ∧ Descends s s' := by
  unfold Runtime.gcReleasingWorklistPush
  simp only [bind_eq_ok, deref_eq_ok, check_eq_ok, pure_eq_ok]
  refine ⟨_, ⟨o, ho, (), hz, rfl⟩, ?_⟩
  split
  · have hs := h.setObj ho (w := gcMarkTagObject s o) rfl rfl Or.inl
    exact ⟨{ hs with }, .of_eq rfl⟩
  · exact ⟨{ h with }, .of_eq rfl⟩

theorem syliObjectDecrLocal (h : Registered s) (ho : s.heap a = some o) :
    Registered (s.setObj a { o with refcount := o.refcount - 1 }) :=
  h.setObj ho rfl rfl Or.inl

/-- `syli_rt_object_decr` succeeds on an object with counts. -/
theorem syliRtObjectDecr (h : Registered s) (ho : s.heap a = some o) (hpos : 0 < o.refcount)
    (hwf : o.header.WellFormed) :
    ∃ s', syliRtObjectDecr naturalCounts s a = .ok s' ∧ Registered s' := by
  have hs := h.syliObjectDecrLocal ho
  have hself : (s.setObj a { o with refcount := o.refcount - 1 }).heap a =
      some { o with refcount := o.refcount - 1 } := by simp
  have hdecr := naturalCounts_decr.mpr ⟨hpos, rfl⟩
  unfold Runtime.syliRtObjectDecr
  simp only [bind_eq_ok, deref_eq_ok]
  by_cases hz : o.refcount - 1 = 0
  · cases himm : o.header.isMonoImm with
    | true =>
      have hflag : o.cyclicCandidate = false := by
        by_contra hne
        obtain ⟨o', ho', -, hmut⟩ := h.flagged (h.listed a o ho (by simpa using hne))
        obtain rfl := Option.some.inj (ho.symm.trans ho')
        simp [hwf.not_monoImm_of_cyclicMutable hmut] at himm
      refine ⟨_, ⟨o, ho, _, hdecr, ?_⟩, hs.dropObj hself hflag⟩
      simp only [hz, if_true, himm, free_eq_ok]
      exact ⟨by simp, trivial⟩
    | false =>
      obtain ⟨s', hok, hs', -⟩ := hs.gcReleasingWorklistPush hself hz
      refine ⟨s', ⟨o, ho, _, hdecr, ?_⟩, hs'⟩
      simpa only [hz, if_true, himm, Bool.false_eq_true, if_false] using hok
  · refine ⟨_, ⟨o, ho, _, hdecr, ?_⟩, hs⟩
    simp only [hz, if_false, pure_eq_ok]

theorem childReleaseObject (h : Registered s) (ho : s.heap a = some o) (hpos : 0 < o.refcount) :
    ∃ s', childReleaseObject s a = .ok s' ∧ Registered s' ∧ Descends s s' := by
  have hs := h.syliObjectDecrLocal ho
  have hself : (s.setObj a { o with refcount := o.refcount - 1 }).heap a =
      some { o with refcount := o.refcount - 1 } := by simp
  have hdecr := syliObjectDecrLocal_effect.mpr ⟨o, ho, hpos, rfl⟩
  unfold Runtime.childReleaseObject
  simp only [bind_eq_ok, deref_eq_ok]
  by_cases hz : o.refcount - 1 = 0
  · cases hptr : o.header.hasPointers with
    | true =>
      obtain ⟨s', hok, hs'⟩ := hs.gcReleasingWorklistPush hself hz
      refine ⟨s', ⟨_, hdecr, _, hself, ?_⟩, hs'⟩
      simpa only [hz, Nat.lt_irrefl, if_false, hptr, if_true] using hok
    | false =>
      obtain ⟨s', hok, hs'⟩ := hs.freeReleasedObject hself
      refine ⟨s', ⟨_, hdecr, _, hself, ?_⟩, hs'⟩
      simpa only [hz, Nat.lt_irrefl, if_false, hptr, Bool.false_eq_true] using hok
  · refine ⟨_, ⟨_, hdecr, _, hself, ?_⟩, hs, .of_eq rfl⟩
    simp only [Nat.pos_of_ne_zero hz, if_true, pure_eq_ok]

/-- Where every reference that is released is counted, no release of children fails. -/
theorem releaseChildren {claims : List Addr} {out : Addr → List Addr} {p : Pipeline}
    {f : SyliState → Addr → Result SyliState} (h : Registered s) (hl : Ledger s (cs ++ claims) out)
    (hstate : p = .cycles → s.tracingState = .reclaimingCyclicCandidates)
    (heffect : ∀ s c s', f s c = .ok s' → ∃ o, s.heap c = some o ∧ GiveUp p s c o s')
    (hok : ∀ {s c o}, Registered s → s.heap c = some o → 0 < o.refcount →
      ∃ s', f s c = .ok s' ∧ Registered s' ∧ Descends s s') :
    ∃ s', cs.foldlM f s = .ok s' ∧ Registered s' ∧ Descends s s' := by
  induction cs generalizing s with
  | nil => exact ⟨s, rfl, h, .of_eq rfl⟩
  | cons c cs ih =>
    obtain ⟨o, ho, hpos⟩ := hl.exists_of_claim (a := c) (by simp)
    obtain ⟨u, hu, hreg, hdesc⟩ := hok h ho hpos
    obtain ⟨o', ho', hg⟩ := heffect s c u hu
    obtain rfl := Option.some.inj (ho.symm.trans ho')
    have hstate' : p = .cycles → u.tracingState = .reclaimingCyclicCandidates :=
      fun hp => (hg.frame ho).state.trans (hstate hp)
    obtain ⟨s', hs', hreg', hdesc'⟩ := ih hreg (hl.giveUp ho hstate hg) hstate'
    refine ⟨s', ?_, hreg', hdesc.trans hdesc'⟩
    rw [List.foldlM_cons, bind_eq_ok]
    exact ⟨u, hu, hs'⟩

theorem gcOneStepReleasing {claims rest : List Addr} (h : Registered s)
    (hl : Ledger s claims s.outRefs) (hwl : s.releasingWorklist = a :: rest)
    (ho : s.heap a = some o) (hcr : o.childrenReleased = false) :
    ∃ s', gcOneStepReleasing s = .ok s' ∧ Registered s' := by
  have hz := (hl.releasing a (by simp [hwl]) o ho).1
  have hbase : Registered ((s.setReleasing rest s.releasingWaitlist).chargeReleasing
      (1 + o.header.slotBudget)) := { h with }
  obtain ⟨v, hv, hreg, -⟩ := hbase.releaseChildren (p := .counting)
    (hl.popReleasing hwl ho hcr (1 + o.header.slotBudget)) (by simp)
    (fun _ _ _ => childReleaseObject_effect) childReleaseObject
  have hg := giveUpAll_of_foldlM (fun _ _ _ => childReleaseObject_effect) hv
  have hva : v.heap a = some o := hg.heap_of_zero (by simpa using ho) hz
  obtain ⟨w, hw, hregw, -⟩ := hreg.freeReleasedObject hva
  refine ⟨w, ?_, hregw⟩
  unfold Runtime.gcOneStepReleasing
  simp only [bind_eq_ok, deref_eq_ok, check_eq_ok, Prod.exists, gcVectorPopBack_eq_ok]
  exact ⟨a, rest, hwl, o, ho, v, hv, o, hva, (), hz, hw⟩

theorem lostCycleEnqueueFree_ok (ho : s.heap a = some o) (hz : o.refcount = 0) :
    lostCycleEnqueueFree s a = .ok (s.setLostCycleWorklist (a :: s.lostCycleWorklist)) := by
  unfold lostCycleEnqueueFree
  simp only [bind_eq_ok, deref_eq_ok, check_eq_ok, pure_eq_ok]
  exact ⟨o, ho, (), hz, trivial⟩

theorem lostCycleChildDecr (h : Registered s) (ho : s.heap a = some o) (hpos : 0 < o.refcount) :
    ∃ s', lostCycleChildDecr s a = .ok s' ∧ Registered s' ∧ Descends s s' := by
  have hs := h.syliObjectDecrLocal ho
  have hself : (s.setObj a { o with refcount := o.refcount - 1 }).heap a =
      some { o with refcount := o.refcount - 1 } := by simp
  have hdecr := syliObjectDecrLocal_effect.mpr ⟨o, ho, hpos, rfl⟩
  unfold Runtime.lostCycleChildDecr
  simp only [bind_eq_ok, deref_eq_ok]
  by_cases hz : o.refcount - 1 = 0
  · cases hptr : o.header.hasPointers with
    | true =>
      refine ⟨(s.setObj a { o with refcount := o.refcount - 1 }).setLostCycleWorklist
        (a :: s.lostCycleWorklist), ⟨_, hdecr, _, hself, ?_⟩, { hs with }, .of_eq rfl⟩
      rw [if_pos hz, if_pos hptr]
      exact lostCycleEnqueueFree_ok hself hz
    | false =>
      obtain ⟨s', hok, hs'⟩ := hs.freeReleasedObject hself
      refine ⟨s', ⟨_, hdecr, _, hself, ?_⟩, hs'⟩
      simpa only [hz, if_true, hptr, Bool.false_eq_true, if_false] using hok
  · refine ⟨_, ⟨_, hdecr, _, hself, ?_⟩, hs, .of_eq rfl⟩
    simp only [hz, if_false, pure_eq_ok]

theorem releaseChildrenOnce {claims : List Addr} (h : Registered s)
    (hl : Ledger s claims s.outRefs) (hstate : s.tracingState = .reclaimingCyclicCandidates)
    (ho : s.heap a = some o) :
    ∃ s', releaseChildrenOnce s a = .ok s' ∧ Registered s' ∧ Descends s s' := by
  unfold Runtime.releaseChildrenOnce
  simp only [bind_eq_ok, deref_eq_ok]
  cases hcr : o.childrenReleased with
  | true => exact ⟨s, ⟨o, ho, by simp only [hcr, if_true, pure_eq_ok]⟩, h, .of_eq rfl⟩
  | false =>
    have hset := h.setObj ho (w := { o with childrenReleased := true }) rfl rfl Or.inl
    have hbase : Registered ((s.setObj a { o with childrenReleased := true }).chargeChecking
        o.header.slotBudget) := { hset with }
    obtain ⟨s', hs', hreg⟩ := hbase.releaseChildren (p := .cycles)
      (hl.markReleased hstate ho hcr o.header.slotBudget) (fun _ => hstate)
      (fun _ _ _ => lostCycleChildDecr_effect) lostCycleChildDecr
    refine ⟨s', ⟨o, ho, ?_⟩, hreg⟩
    simp only [hcr, Bool.false_eq_true, if_false]
    exact hs'

theorem markStep (h : Registered s) (hs : MarkStep s s') : Registered s' := by
  cases hs with
  | popWaiting g _ _ ho hw _ =>
    have hd := h.dropObj ho (h.waiting _ _ ho hw)
    exact { hd with }
  | @popSkip a rest o t _ _ ho _ _ _ =>
    exact { h.setObj ho (w := { o with tracing := false }) rfl rfl Or.inl with }
  | @popMark u a rest new o t b _ _ ho _ _ _ hu _ _ =>
    have hset := h.setObj ho (w := { o with tracing := false, mark := s.tracingCurrentBitMark })
      rfl rfl Or.inl
    have hu' : Registered u := hu ▸ { hset with }
    exact { hu'.queueTracing new with }
  | mutationsDone _ _ _ => exact { h with }
  | mutationWaiting _ _ ho hw =>
    have hd := h.dropObj ho (h.waiting _ _ ho hw)
    exact { hd with }
  | @mutationScan a rest o new b _ _ _ _ _ =>
    have hbase : Registered ((s.setMutations rest).setBudgets b) := { h with }
    exact hbase.queueTracing new

end Registered

end Syli.Collector
