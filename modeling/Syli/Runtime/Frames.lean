import Syli.Runtime.MutatorEffects

/-! What the release of counts leaves as it is. -/
namespace Syli.Runtime

open Foundation

variable {s u s' : SyliState} {a b x y : Addr} {o o' : GCObject} {p : Pipeline} {cs : List Addr}

/-- The release of counts never raises a count and never touches header, fields, the tracing flag
or the released children of an object; it waits with the removal only of queued objects without
counts, and marks only objects without counts. -/
structure ObjFrame (o o' : GCObject) : Prop where
  header : o'.header = o.header
  value : o'.value = o.value
  tracing : o'.tracing = o.tracing
  childrenReleased : o'.childrenReleased = o.childrenReleased
  refcount : o'.refcount ≤ o.refcount
  waiting : o.waitingRemove = true → o'.waitingRemove = true
  waits : o'.waitingRemove = true → o.waitingRemove = true ∨ o'.tracing = true ∧ o'.refcount = 0
  mark : o'.mark = o.mark ∨ o'.refcount = 0

theorem ObjFrame.refl (o : GCObject) : ObjFrame o o :=
  ⟨rfl, rfl, rfl, rfl, Nat.le_refl _, id, Or.inl, Or.inl rfl⟩

theorem ObjFrame.trans {o₁ o₂ o₃ : GCObject} (h : ObjFrame o₁ o₂) (h' : ObjFrame o₂ o₃) :
    ObjFrame o₁ o₃ where
  header := h'.header.trans h.header
  value := h'.value.trans h.value
  tracing := h'.tracing.trans h.tracing
  childrenReleased := h'.childrenReleased.trans h.childrenReleased
  refcount := Nat.le_trans h'.refcount h.refcount
  waiting hw := h'.waiting (h.waiting hw)
  waits hw := by
    have hle := h'.refcount
    rcases h'.waits hw with hw | hw
    · rcases h.waits hw with hw | ⟨ht, hz⟩
      · exact Or.inl hw
      · exact Or.inr ⟨h'.tracing.trans ht, by omega⟩
    · exact Or.inr hw
  mark := by
    have hle := h'.refcount
    rcases h'.mark with hm | hm
    · rcases h.mark with hm' | hz
      · exact Or.inl (hm.trans hm')
      · exact Or.inr (by omega)
    · exact Or.inr hm

theorem ObjFrame.ownRefs (h : ObjFrame o o') : o'.ownRefs = o.ownRefs := by
  simp only [GCObject.ownRefs, h.header, h.value]

/-- The release of counts works on the counts, the flags and the release lists only. -/
structure ReleaseFrame (s s' : SyliState) : Prop where
  obj : ∀ a o', s'.heap a = some o' → ∃ o, s.heap a = some o ∧ ObjFrame o o'
  worklist : s'.tracingWorklist = s.tracingWorklist
  mutations : s'.tracingMutationsWorklist = s.tracingMutationsWorklist
  bit : s'.tracingCurrentBitMark = s.tracingCurrentBitMark
  state : s'.tracingState = s.tracingState
  next : s'.next = s.next

theorem ReleaseFrame.refl (s : SyliState) : ReleaseFrame s s :=
  ⟨fun _ o ho => ⟨o, ho, .refl o⟩, rfl, rfl, rfl, rfl, rfl⟩

theorem ReleaseFrame.trans (h : ReleaseFrame s u) (h' : ReleaseFrame u s') : ReleaseFrame s s' where
  obj a o' ho' := by
    obtain ⟨o₂, ho₂, hf₂⟩ := h'.obj a o' ho'
    obtain ⟨o₁, ho₁, hf₁⟩ := h.obj a o₂ ho₂
    exact ⟨o₁, ho₁, hf₁.trans hf₂⟩
  worklist := h'.worklist.trans h.worklist
  mutations := h'.mutations.trans h.mutations
  bit := h'.bit.trans h.bit
  state := h'.state.trans h.state
  next := h'.next.trans h.next

theorem ReleaseFrame.set {w : GCObject} (ho : s.heap a = some o) (hf : ObjFrame o w) :
    ReleaseFrame s (s.setObj a w) where
  obj b ob hb := by
    by_cases hba : b = a
    · subst hba
      obtain rfl : w = ob := by simpa using hb
      exact ⟨o, ho, hf⟩
    · exact ⟨ob, by simpa [hba] using hb, .refl ob⟩
  worklist := rfl
  mutations := rfl
  bit := rfl
  state := rfl
  next := rfl

theorem ReleaseFrame.drop (s : SyliState) (a : Addr) : ReleaseFrame s (s.dropObj a) where
  obj b ob hb := by
    by_cases hba : b = a
    · subst hba
      simp at hb
    · exact ⟨ob, by simpa [hba] using hb, .refl ob⟩
  worklist := rfl
  mutations := rfl
  bit := rfl
  state := rfl
  next := rfl

/-- Any change to the release lists, the registry and the counters. -/
theorem ReleaseFrame.lists {w : SyliState} (h : ReleaseFrame s u) (hheap : w.heap = u.heap)
    (hwl : w.tracingWorklist = u.tracingWorklist)
    (hm : w.tracingMutationsWorklist = u.tracingMutationsWorklist)
    (hb : w.tracingCurrentBitMark = u.tracingCurrentBitMark)
    (ht : w.tracingState = u.tracingState) (hn : w.next = u.next) : ReleaseFrame s w :=
  ⟨hheap ▸ h.obj, hwl.trans h.worklist, hm.trans h.mutations, hb.trans h.bit, ht.trans h.state,
    hn.trans h.next⟩

theorem Removed.frame (h : Removed s a o s') (ho : s.heap a = some o) (hz : o.refcount = 0) :
    ReleaseFrame s s' := by
  cases h with
  | drop candidates index g _ =>
    exact (ReleaseFrame.drop s a).lists rfl rfl rfl rfl rfl rfl
  | wait candidates index ht =>
    exact (ReleaseFrame.set (w := { o with cyclicCandidate := false, waitingRemove := true }) ho
      ⟨rfl, rfl, rfl, rfl, Nat.le_refl _, fun _ => rfl, fun _ => Or.inr ⟨ht, hz⟩,
        Or.inl rfl⟩).lists rfl rfl rfl rfl rfl rfl

theorem GiveUp.frame (h : GiveUp p s a o s') (ho : s.heap a = some o) : ReleaseFrame s s' := by
  cases h with
  | keep _ => exact .set ho ⟨rfl, rfl, rfl, rfl, Nat.sub_le _ _, id, Or.inl, Or.inl rfl⟩
  | queue mark _ _ _ =>
    exact (ReleaseFrame.set (w := { o with refcount := 0, mark := mark }) ho
      ⟨rfl, rfl, rfl, rfl, Nat.zero_le _, id, Or.inl, Or.inr rfl⟩).lists rfl rfl rfl rfl rfl rfl
  | enqueue _ _ =>
    exact (ReleaseFrame.set (w := { o with refcount := 0 }) ho
      ⟨rfl, rfl, rfl, rfl, Nat.zero_le _, id, Or.inl, Or.inl rfl⟩).lists rfl rfl rfl rfl rfl rfl
  | freeImm _ _ => exact .drop s a
  | remove _ _ _ hr =>
    exact (ReleaseFrame.set (w := { o with refcount := 0 }) ho
      ⟨rfl, rfl, rfl, rfl, Nat.zero_le _, id, Or.inl, Or.inl rfl⟩).trans (hr.frame (by simp) rfl)

theorem GiveUpAll.frame (h : GiveUpAll p s cs s') : ReleaseFrame s s' :=
  h.invariant (P := fun _ u => ReleaseFrame s u) (.refl s)
    fun _ _ _ _ _ hs hc hg => hs.trans (hg.frame hc)

theorem Removed.heap_of_ne (h : Removed s a o s') (hb : b ≠ a) : s'.heap b = s.heap b := by
  cases h <;> simp [hb]

theorem GiveUp.heap_of_ne (h : GiveUp p s a o s') (hb : b ≠ a) : s'.heap b = s.heap b := by
  cases h with
  | remove _ _ _ hr => simp [hr.heap_of_ne hb, hb]
  | _ => simp [hb]

theorem GiveUp.pos (h : GiveUp p s a o s') : 0 < o.refcount := by
  cases h <;> omega

theorem GiveUp.refcount_le (h : GiveUp p s a o s') (ho' : s'.heap a = some o') :
    o'.header = o.header ∧ o.refcount ≤ o'.refcount + 1 := by
  cases h with
  | keep _ =>
    obtain rfl : { o with refcount := o.refcount - 1 } = o' := by simpa using ho'
    exact ⟨rfl, by simp only; omega⟩
  | queue mark hone _ _ =>
    obtain rfl : { o with refcount := 0, mark := mark } = o' := by simpa using ho'
    exact ⟨rfl, by simp only; omega⟩
  | enqueue hone _ =>
    obtain rfl : { o with refcount := 0 } = o' := by simpa using ho'
    exact ⟨rfl, by simp only; omega⟩
  | freeImm _ _ => simp at ho'
  | remove _ hone _ hr =>
    cases hr with
    | drop _ _ _ _ => simp at ho'
    | wait _ _ _ =>
      obtain rfl : { o with refcount := 0, cyclicCandidate := false, waitingRemove := true } = o' := by
        simpa using ho'
      exact ⟨rfl, by simp only; omega⟩

/-- A count that the mutator gives up never makes an object wait for its removal. -/
theorem GiveUp.waiting_of_dropping (h : GiveUp .dropping s a o s') (ho : s.heap a = some o)
    (ho' : s'.heap b = some o') :
    ∃ o₁, s.heap b = some o₁ ∧ o'.waitingRemove = o₁.waitingRemove := by
  by_cases hb : b = a
  · subst hb
    refine ⟨o, ho, ?_⟩
    cases h with
    | keep _ =>
      obtain rfl : { o with refcount := o.refcount - 1 } = o' := by simpa using ho'
      rfl
    | queue mark _ _ _ =>
      obtain rfl : { o with refcount := 0, mark := mark } = o' := by simpa using ho'
      rfl
    | freeImm _ _ => simp at ho'
    | remove hne _ _ _ => exact absurd rfl hne
  · exact ⟨o', h.heap_of_ne hb ▸ ho', rfl⟩

theorem GiveUp.releasing_mem (h : GiveUp p s a o s')
    (hb : b ∈ s'.releasingWaitlist ++ s'.releasingWorklist) :
    b = a ∨ b ∈ s.releasingWaitlist ++ s.releasingWorklist := by
  cases h with
  | queue _ _ _ _ => simpa [or_assoc] using hb
  | remove _ _ _ hr =>
    cases hr <;> exact Or.inr hb
  | _ => exact Or.inr hb

/-- An object without counts is not touched when counts are given up. -/
theorem GiveUpAll.heap_of_zero (h : GiveUpAll p s cs s') (ho : s.heap a = some o)
    (hz : o.refcount = 0) : s'.heap a = some o := by
  refine h.invariant (P := fun _ u => u.heap a = some o) ho ?_
  intro s c cs oc u ha hc hg
  have hac : a ≠ c := by
    rintro rfl
    obtain rfl : o = oc := Option.some.inj (ha.symm.trans hc)
    have := hg.pos
    omega
  exact (hg.heap_of_ne hac).trans ha

/-- Only objects with counts are queued when counts are given up. -/
theorem GiveUpAll.not_mem_releasing (h : GiveUpAll p s cs s') (ho : s.heap a = some o)
    (hz : o.refcount = 0) (hnot : a ∉ s.releasingWaitlist ++ s.releasingWorklist) :
    a ∉ s'.releasingWaitlist ++ s'.releasingWorklist := by
  induction h with
  | nil => exact hnot
  | @cons s u s' c cs oc hc hg _ ih =>
    have hac : a ≠ c := by
      rintro rfl
      obtain rfl : o = oc := Option.some.inj (ho.symm.trans hc)
      have := hg.pos
      omega
    exact ih ((hg.heap_of_ne hac).trans ho) fun ha => (hg.releasing_mem ha).elim hac hnot

/-- An object with counts left over from those given up stays, with that many fewer. -/
theorem GiveUpAll.heap_of_lt (h : GiveUpAll p s cs s') (ho : s.heap a = some o)
    (hlt : cs.count a < o.refcount) :
    s'.heap a = some { o with refcount := o.refcount - cs.count a } := by
  induction h generalizing o with
  | nil => simpa using ho
  | @cons s u s' c cs oc hc hg _ ih =>
    by_cases hca : c = a
    · subst hca
      obtain rfl : o = oc := Option.some.inj (ho.symm.trans hc)
      rw [List.count_cons_self] at hlt ⊢
      have hu : u.heap c = some { o with refcount := o.refcount - 1 } := by
        cases hg with
        | keep _ => simp
        | _ => omega
      rw [ih hu (by simp only; omega)]
      simp only [Nat.sub_sub, Nat.add_comm]
    · rw [List.count_cons_of_ne hca] at hlt ⊢
      exact ih ((hg.heap_of_ne (Ne.symm hca)).trans ho) hlt

theorem ObjFrame.countedRefs_subset (h : ObjFrame o o') : o'.countedRefs ⊆ o.countedRefs := by
  unfold GCObject.countedRefs
  rw [h.ownRefs, h.childrenReleased]
  cases hw : o.waitingRemove with
  | true => simp [h.waiting hw]
  | false => cases o'.waitingRemove <;> simp

theorem outRefs_subset (ha : ∀ o', s'.heap a = some o' → ∃ o, s.heap a = some o ∧
    o'.countedRefs ⊆ o.countedRefs) : s'.outRefs a ⊆ s.outRefs a := by
  cases ho' : s'.heap a with
  | none => simp [SyliState.outRefs, ho']
  | some o' =>
    obtain ⟨o, ho, hsub⟩ := ha o' ho'
    rw [outRefs_of_heap ho', outRefs_of_heap ho]
    exact hsub

theorem ReleaseFrame.outRefs_subset (h : ReleaseFrame s s') (a : Addr) :
    s'.outRefs a ⊆ s.outRefs a :=
  Runtime.outRefs_subset fun o' ho' => by
    obtain ⟨o, ho, hf⟩ := h.obj a o' ho'
    exact ⟨o, ho, hf.countedRefs_subset⟩

theorem countedRefs_subset_ownRefs (o : GCObject) : o.countedRefs ⊆ o.ownRefs := by
  unfold GCObject.countedRefs
  split <;> simp

theorem flagTracing_eq_some {new : List Addr} (h : flagTracing s.heap new a = some o') :
    ∃ o, s.heap a = some o ∧ (a ∉ new ∧ o' = o ∨ a ∈ new ∧ o' = { o with tracing := true }) := by
  by_cases ha : a ∈ new
  · rw [flagTracing_of_mem ha] at h
    obtain ⟨o, ho, rfl⟩ := Option.map_eq_some_iff.mp h
    exact ⟨o, ho, Or.inr ⟨ha, rfl⟩⟩
  · rw [flagTracing_of_not_mem ha] at h
    exact ⟨o', h, Or.inl ⟨ha, rfl⟩⟩

theorem heap_cases {u : SyliState} (hu : u.heap = Function.update s.heap a (some o)) {b : Addr}
    (ho' : u.heap b = some o') : b = a ∧ o' = o ∨ b ≠ a ∧ s.heap b = some o' := by
  rw [hu] at ho'
  by_cases hb : b = a
  · subst hb
    exact Or.inl ⟨rfl, by simpa [eq_comm] using ho'⟩
  · exact Or.inr ⟨hb, by simpa [hb] using ho'⟩

theorem heap_drop_cases {u : SyliState} (hu : u.heap = Function.update s.heap a none) {b : Addr}
    (ho' : u.heap b = some o') : b ≠ a ∧ s.heap b = some o' := by
  rw [hu] at ho'
  by_cases hb : b = a
  · subst hb
    simp at ho'
  · exact ⟨hb, by simpa [hb] using ho'⟩

theorem flag_cases {u : SyliState} {new : List Addr} (hu : u.heap = flagTracing s.heap new)
    {b : Addr} (ho' : u.heap b = some o') : ∃ o, s.heap b = some o ∧
      o'.countedRefs = o.countedRefs ∧ o'.childrenReleased = o.childrenReleased ∧
        o'.mark = o.mark ∧ o'.refcount = o.refcount := by
  rw [hu] at ho'
  obtain ⟨o, ho, ⟨-, rfl⟩ | ⟨-, rfl⟩⟩ := flagTracing_eq_some ho'
  · exact ⟨_, ho, rfl, rfl, rfl, rfl⟩
  · exact ⟨_, ho, rfl, rfl, rfl, rfl⟩

theorem Notified.obj {operand : Operand} (h : Notified operand x y s s') {b : Addr}
    (ho' : s'.heap b = some o') : ∃ o, s.heap b = some o ∧ o'.countedRefs = o.countedRefs ∧
      o'.childrenReleased = o.childrenReleased ∧ o'.refcount = o.refcount ∧
        (o'.mark = o.mark ∨ o'.mark = s.tracingCurrentBitMark ∧
          ObjPtr.own b ∈ s'.tracingMutationsWorklist) := by
  cases h with
  | quiet _ => exact ⟨o', ho', rfl, rfl, rfl, Or.inl rfl⟩
  | barrier _ _ _ _ _ ht _ =>
    rcases heap_cases rfl ho' with ⟨rfl, rfl⟩ | ⟨-, hb⟩
    · exact ⟨_, ht, rfl, rfl, rfl, Or.inr ⟨rfl, List.mem_cons_self⟩⟩
    · exact ⟨o', hb, rfl, rfl, rfl, Or.inl rfl⟩

theorem Notified.waiting {operand : Operand} (h : Notified operand x y s s') {b : Addr}
    (ho' : s'.heap b = some o') : ∃ o, s.heap b = some o ∧ o'.waitingRemove = o.waitingRemove := by
  cases h with
  | quiet _ => exact ⟨o', ho', rfl⟩
  | barrier _ _ _ _ _ ht _ =>
    rcases heap_cases rfl ho' with ⟨rfl, rfl⟩ | ⟨-, hb⟩
    · exact ⟨_, ht, rfl⟩
    · exact ⟨o', hb, rfl⟩

theorem Notified.lists {operand : Operand} (h : Notified operand x y s s') :
    s'.tracingWorklist = s.tracingWorklist ∧
      s'.tracingCurrentBitMark = s.tracingCurrentBitMark ∧ s'.tracingState = s.tracingState ∧
        ∀ p ∈ s.tracingMutationsWorklist, p ∈ s'.tracingMutationsWorklist := by
  cases h with
  | quiet _ => exact ⟨rfl, rfl, rfl, fun _ => id⟩
  | barrier _ _ _ _ _ _ _ => exact ⟨rfl, rfl, rfl, fun _ => List.mem_cons_of_mem _⟩

theorem countedRefs_of_leaf (h : o.header.refSlots = []) : o.countedRefs = [] := by
  simp [GCObject.countedRefs, ownRefs_eq_nil h]

theorem countedRefs_of_intact (hw : o.waitingRemove = false) (hr : o.childrenReleased = false) :
    o.countedRefs = o.ownRefs := by
  simp [GCObject.countedRefs, hw, hr]

@[simp] theorem outRefs_setObj :
    (s.setObj a o).outRefs = Function.update s.outRefs a o.countedRefs := by
  funext b
  by_cases hb : b = a
  · subst hb
    simp [SyliState.outRefs]
  · simp [SyliState.outRefs, hb]

@[simp] theorem outRefs_dropObj : (s.dropObj a).outRefs = Function.update s.outRefs a [] := by
  funext b
  by_cases hb : b = a
  · subst hb
    simp [SyliState.outRefs]
  · simp [SyliState.outRefs, hb]

@[simp] theorem outRefs_queueTracing (new : List Addr) :
    (s.queueTracing new).outRefs = s.outRefs := by
  funext a
  by_cases ha : a ∈ new
  · cases ho : s.heap a <;> simp [SyliState.outRefs, flagTracing_of_mem ha, ho]
    rfl
  · simp [SyliState.outRefs, flagTracing_of_not_mem ha]

theorem update_outRefs_of_eq (ho : s.heap a = some o) {l : List Addr} (hl : o.countedRefs = l) :
    Function.update s.outRefs a l = s.outRefs := by
  rw [← hl, ← outRefs_of_heap ho, Function.update_eq_self]

theorem outRefs_setRefcount (ho : s.heap a = some o) (n : Nat) :
    (s.setObj a { o with refcount := n }).outRefs = s.outRefs :=
  outRefs_setObj.trans (update_outRefs_of_eq ho rfl)

theorem Removed.outRefs (h : Removed s a o s') : s'.outRefs = Function.update s.outRefs a [] := by
  cases h with
  | drop candidates index g _ => exact outRefs_dropObj
  | wait candidates index _ =>
    rw [outRefs_setObj]
    simp [GCObject.countedRefs]
    rfl

theorem GiveUp.outRefs (h : GiveUp p s a o s') (ho : s.heap a = some o)
    (hwf : o.header.WellFormed) : s'.outRefs = s.outRefs := by
  cases h with
  | keep _ => exact outRefs_setObj.trans (update_outRefs_of_eq ho rfl)
  | queue _ _ _ _ => exact outRefs_setObj.trans (update_outRefs_of_eq ho rfl)
  | enqueue _ _ => exact outRefs_setObj.trans (update_outRefs_of_eq ho rfl)
  | freeImm _ himm =>
    rw [outRefs_dropObj]
    exact update_outRefs_of_eq ho (countedRefs_of_leaf (o.header.refSlots_of_isMonoImm himm))
  | remove _ _ hleaf hr =>
    rw [hr.outRefs, outRefs_setObj, Function.update_idem]
    exact update_outRefs_of_eq ho (countedRefs_of_leaf (hwf.refSlots_of_no_pointers hleaf))

theorem ReleaseFrame.refSlots (h : ReleaseFrame s s') (ho' : s'.heap a = some o')
    (ho : s.heap a = some o) {slot : Nat} (hs : slot ∈ o.header.refSlots) :
    slot ∈ o'.header.refSlots := by
  obtain ⟨o₁, ho₁, hf⟩ := h.obj a o' ho'
  obtain rfl := Option.some.inj (ho.symm.trans ho₁)
  rwa [hf.header]

theorem ReleaseFrame.value_length (h : ReleaseFrame s s') (ho' : s'.heap a = some o')
    (ho : s.heap a = some o) {slot : Nat} (hs : slot < o.value.length) :
    slot < o'.value.length := by
  obtain ⟨o₁, ho₁, hf⟩ := h.obj a o' ho'
  obtain rfl := Option.some.inj (ho.symm.trans ho₁)
  rwa [hf.value]

/-- What the release of the children of `a` leaves as it is; `a` itself is flagged. -/
theorem releaseChildrenOnce_frame (h : releaseChildrenOnce s a = .ok s') :
    ∃ o, s.heap a = some o ∧
      (o.childrenReleased = true ∧ s' = s ∨ o.childrenReleased = false ∧
        ReleaseFrame (s.setObj a { o with childrenReleased := true }) s') ∧
      (o.refcount = 0 → s'.heap a = some { o with childrenReleased := true }) := by
  obtain ⟨o, ho, ⟨hcr, rfl⟩ | ⟨hcr, n, hg⟩⟩ := releaseChildrenOnce_effect h
  · refine ⟨o, ho, Or.inl ⟨hcr, rfl⟩, fun _ => ?_⟩
    rw [ho, ← hcr]
  · refine ⟨o, ho, Or.inr ⟨hcr, ?_⟩, fun hz => hg.heap_of_zero (by simp) hz⟩
    exact ⟨hg.frame.obj, hg.frame.worklist, hg.frame.mutations, hg.frame.bit, hg.frame.state,
      hg.frame.next⟩

/-- An object after the children of `a` were released, next to the object before. -/
theorem releaseChildrenOnce_obj (h : releaseChildrenOnce s a = .ok s')
    (ho' : s'.heap b = some o') : ∃ o, s.heap b = some o ∧ o'.header = o.header ∧
      o'.value = o.value ∧ o'.countedRefs ⊆ o.countedRefs ∧
        (b ≠ a → o'.childrenReleased = o.childrenReleased) ∧
          (o'.mark = o.mark ∨ o'.refcount = 0) ∧ o'.refcount ≤ o.refcount ∧
            (o.waitingRemove = true → o'.waitingRemove = true) := by
  obtain ⟨o₀, ho₀, ⟨-, rfl⟩ | ⟨-, hf⟩, -⟩ := releaseChildrenOnce_frame h
  · exact ⟨o', ho', rfl, rfl, fun _ => id, fun _ => rfl, Or.inl rfl, Nat.le_refl _, id⟩
  · obtain ⟨o₁, ho₁, hframe⟩ := hf.obj b o' ho'
    by_cases hb : b = a
    · subst hb
      obtain rfl : { o₀ with childrenReleased := true } = o₁ := by simpa using ho₁
      refine ⟨o₀, ho₀, hframe.header, hframe.value, ?_, fun hne => absurd rfl hne, hframe.mark,
        hframe.refcount, hframe.waiting⟩
      refine List.Subset.trans hframe.countedRefs_subset ?_
      simp [GCObject.countedRefs]
    · have ho : s.heap b = some o₁ := by simpa [hb] using ho₁
      exact ⟨o₁, ho, hframe.header, hframe.value, hframe.countedRefs_subset,
        fun _ => hframe.childrenReleased, hframe.mark, hframe.refcount, hframe.waiting⟩

theorem releaseChildrenOnce_lists (h : releaseChildrenOnce s a = .ok s') :
    s'.tracingWorklist = s.tracingWorklist ∧
      s'.tracingMutationsWorklist = s.tracingMutationsWorklist ∧
        s'.tracingCurrentBitMark = s.tracingCurrentBitMark := by
  obtain ⟨o, -, ⟨-, rfl⟩ | ⟨-, hf⟩, -⟩ := releaseChildrenOnce_frame h
  · exact ⟨rfl, rfl, rfl⟩
  · exact ⟨hf.worklist, hf.mutations, hf.bit⟩

theorem releaseChildrenOnce_state (h : releaseChildrenOnce s a = .ok s') :
    s'.tracingState = s.tracingState := by
  obtain ⟨o, -, ⟨-, rfl⟩ | ⟨-, hf⟩, -⟩ := releaseChildrenOnce_frame h
  · rfl
  · exact hf.state

theorem releaseChildrenOnce_next (h : releaseChildrenOnce s a = .ok s') : s'.next = s.next := by
  obtain ⟨o, -, ⟨-, rfl⟩ | ⟨-, hf⟩, -⟩ := releaseChildrenOnce_frame h
  · rfl
  · exact hf.next

theorem releaseChildrenOnce_released (h : releaseChildrenOnce s a = .ok s')
    (ho : s'.heap a = some o) : o.childrenReleased = true := by
  obtain ⟨o₀, ho₀, ⟨hcr, rfl⟩ | ⟨-, hf⟩, -⟩ := releaseChildrenOnce_frame h
  · rwa [← Option.some.inj (ho₀.symm.trans ho)]
  · obtain ⟨o₁, ho₁, hframe⟩ := hf.obj a o ho
    obtain rfl : { o₀ with childrenReleased := true } = o₁ := by simpa using ho₁
    exact hframe.childrenReleased

/-- Overwriting one slot replaces the reference it held and leaves the others. -/
theorem ownRefs_set {slot : Nat} {r : ObjPtr} (hslot : slot ∈ o.header.refSlots)
    (hlen : slot < o.value.length) :
    ∃ rest, o.ownRefs.Perm ((o.value.getD slot .null).ownRef?.toList ++ rest) ∧
      (GCObject.ownRefs { o with value := o.value.set slot r }).Perm (r.ownRef?.toList ++ rest) := by
  have hperm := List.perm_cons_erase hslot
  have hnodup := o.header.nodup_refSlots
  refine ⟨(o.header.refSlots.erase slot).filterMap fun i => (o.value.getD i .null).ownRef?, ?_, ?_⟩
  · refine (hperm.filterMap _).trans ?_
    cases hv : (o.value.getD slot .null).ownRef? with
    | none => exact .of_eq (List.filterMap_cons_none hv)
    | some c => exact .of_eq (List.filterMap_cons_some hv)
  · have hrest : ((o.header.refSlots.erase slot).filterMap fun i =>
        ((o.value.set slot r).getD i .null).ownRef?) =
        (o.header.refSlots.erase slot).filterMap fun i => (o.value.getD i .null).ownRef? := by
      refine List.filterMap_congr fun i hi => ?_
      have hne : i ≠ slot := fun he => hnodup.not_mem_erase (he ▸ hi)
      simp [List.getD_eq_getElem?_getD, List.getElem?_set_ne (Ne.symm hne)]
    refine (hperm.filterMap _).trans ?_
    rw [← hrest]
    have hget : (o.value.set slot r).getD slot .null = r := by
      simp [List.getD_eq_getElem?_getD, hlen]
    cases hv : r.ownRef? with
    | none => exact .of_eq (List.filterMap_cons_none ((congrArg ObjPtr.ownRef? hget).trans hv))
    | some c => exact .of_eq (List.filterMap_cons_some ((congrArg ObjPtr.ownRef? hget).trans hv))

theorem mem_countedRefs_set {slot : Nat} (hslot : slot ∈ o.header.refSlots)
    (hlen : slot < o.value.length) :
    ∀ c ∈ GCObject.countedRefs { o with value := o.value.set slot (.own y) },
      c ∈ o.countedRefs ∨ c = y := by
  intro c hc
  obtain ⟨rest, hrest, hset⟩ := ownRefs_set (r := .own y) hslot hlen
  unfold GCObject.countedRefs at hc ⊢
  split at hc
  · simp at hc
  · rename_i hcond
    rw [if_neg hcond]
    rcases List.mem_cons.mp (hset.subset hc) with rfl | hc
    · exact Or.inr rfl
    · exact Or.inl (hrest.symm.subset (List.mem_append_right _ hc))

section Stores

variable {operand : Operand} {slot : Nat}

theorem Stored.lists (h : Stored operand x slot y s s') :
    s'.tracingWorklist = s.tracingWorklist ∧
      s'.tracingCurrentBitMark = s.tracingCurrentBitMark ∧ s'.tracingState = s.tracingState ∧
        ∀ p ∈ s.tracingMutationsWorklist, p ∈ s'.tracingMutationsWorklist := by
  obtain @⟨u, o, o₁, -, -, -, hold, -, hn⟩ := h
  have hframe : ReleaseFrame s u := by
    rcases hold with ⟨rfl, -⟩ | ⟨c, oc, -, hc, hg⟩
    · exact .refl _
    · exact hg.frame hc
  obtain ⟨hwl, hbit, hstate, hmut⟩ := hn.lists
  refine ⟨hwl.trans hframe.worklist, hbit.trans hframe.bit, hstate.trans hframe.state, ?_⟩
  intro p hp
  refine hmut p ?_
  show p ∈ u.tracingMutationsWorklist
  rwa [hframe.mutations]

/-- An object after a store into `x`, next to the object before. -/
theorem Stored.obj (h : Stored operand x slot y s s') (ho' : s'.heap b = some o') :
    ∃ o, s.heap b = some o ∧ (∀ c ∈ o'.countedRefs, c ∈ o.countedRefs ∨ b = x ∧ c = y) ∧
      o'.childrenReleased = o.childrenReleased ∧ o'.refcount ≤ o.refcount ∧
        (o'.mark = o.mark ∨ o'.refcount = 0 ∨ o'.mark = s.tracingCurrentBitMark ∧
          ObjPtr.own b ∈ s'.tracingMutationsWorklist) := by
  obtain @⟨u, o, o₁, ho, hslot, hlen, hold, ho₁, hn⟩ := h
  have hframe : ReleaseFrame s u := by
    rcases hold with ⟨rfl, -⟩ | ⟨c, oc, -, hc, hg⟩
    · exact .refl _
    · exact hg.frame hc
  obtain ⟨o₂, ho₂, hout, hcr, hcount, hmark⟩ := hn.obj ho'
  have hu : ∃ ou, u.heap b = some ou ∧
      (∀ c ∈ o₂.countedRefs, c ∈ ou.countedRefs ∨ b = x ∧ c = y) ∧
        o₂.childrenReleased = ou.childrenReleased ∧ o₂.refcount = ou.refcount ∧
          o₂.mark = ou.mark := by
    rcases heap_cases rfl ho₂ with ⟨rfl, rfl⟩ | ⟨-, hb⟩
    · refine ⟨o₁, ho₁, fun c hc => ?_, rfl, rfl, rfl⟩
      exact (mem_countedRefs_set (hframe.refSlots ho₁ ho hslot)
        (hframe.value_length ho₁ ho hlen) c hc).imp_right fun hc => ⟨rfl, hc⟩
    · exact ⟨o₂, hb, fun c => Or.inl, rfl, rfl, rfl⟩
  obtain ⟨ou, hou, hmem, hcr', hcount', hmark'⟩ := hu
  obtain ⟨ob, hob, hf⟩ := hframe.obj b ou hou
  rw [hout, hcount, hcount']
  refine ⟨ob, hob, ?_, hcr.trans (hcr'.trans hf.childrenReleased), hf.refcount, ?_⟩
  · exact fun c hc => (hmem c hc).imp_left fun hc => hf.countedRefs_subset hc
  · rcases hmark with hm | ⟨hm, hq⟩
    · rcases hf.mark with hm' | hz
      · exact Or.inl (hm.trans (hmark'.trans hm'))
      · exact Or.inr (Or.inl hz)
    · exact Or.inr (Or.inr ⟨hm.trans hframe.bit, hq⟩)

theorem Stored.waiting (h : Stored operand x slot y s s') (ho' : s'.heap b = some o') :
    ∃ o, s.heap b = some o ∧ o'.waitingRemove = o.waitingRemove := by
  obtain @⟨u, o, o₁, -, -, -, hold, ho₁, hn⟩ := h
  have hu : ∃ ou, u.heap b = some ou ∧ o'.waitingRemove = ou.waitingRemove := by
    obtain ⟨o₂, ho₂, hw⟩ := hn.waiting ho'
    rcases heap_cases rfl ho₂ with ⟨rfl, rfl⟩ | ⟨-, hb⟩
    · exact ⟨o₁, ho₁, hw⟩
    · exact ⟨o₂, hb, hw⟩
  obtain ⟨ou, hou, hw⟩ := hu
  rcases hold with ⟨rfl, -⟩ | ⟨c, oc, -, hc, hg⟩
  · exact ⟨ou, hou, hw⟩
  · obtain ⟨o₂, ho₂, hw'⟩ := hg.waiting_of_dropping hc hou
    exact ⟨o₂, ho₂, hw.trans hw'⟩

theorem Stored.outRefs (h : Stored operand x slot y s s') {c : Addr} (hc : c ∈ s'.outRefs b) :
    c ∈ s.outRefs b ∨ b = x ∧ c = y := by
  cases hb : s'.heap b with
  | none => simp [outRefs_of_none hb] at hc
  | some o' =>
    obtain ⟨ob, hob, hmem, -⟩ := h.obj hb
    rw [outRefs_of_heap hb] at hc
    rw [outRefs_of_heap hob]
    exact hmem c hc

end Stores

theorem ReleasingStep.frame (h : ReleasingStep s s') : ReleaseFrame s s' := by
  cases h with
  | start _ => exact (ReleaseFrame.refl s).lists rfl rfl rfl rfl rfl rfl
  | @release v w _ a rest o o' n _ _ _ hg ho hz hr hs' =>
    have hbase := (ReleaseFrame.refl s).lists
      (w := (s.setReleasing rest s.releasingWaitlist).chargeReleasing n) rfl rfl rfl rfl rfl rfl
    subst hs'
    exact ((hbase.trans hg.frame).trans (hr.frame ho hz)).lists rfl rfl rfl rfl rfl rfl

/-- An object after the removal of `a`, next to the object before. -/
theorem Removed.obj (h : Removed s a o s') (ho : s.heap a = some o) (ho' : s'.heap b = some o') :
    ∃ o₁, s.heap b = some o₁ ∧ o'.header = o₁.header ∧ o'.value = o₁.value ∧
      o'.countedRefs ⊆ o₁.countedRefs ∧ o'.childrenReleased = o₁.childrenReleased ∧
        o'.mark = o₁.mark ∧ o'.refcount = o₁.refcount ∧
          (o₁.waitingRemove = true → o'.waitingRemove = true) := by
  by_cases hb : b = a
  · subst hb
    cases h with
    | drop _ _ _ _ => simp at ho'
    | wait _ _ _ =>
      obtain rfl : { o with cyclicCandidate := false, waitingRemove := true } = o' := by
        simpa using ho'
      exact ⟨o, ho, rfl, rfl, by simp [GCObject.countedRefs], rfl, rfl, rfl, fun _ => rfl⟩
  · exact ⟨o', h.heap_of_ne hb ▸ ho', rfl, rfl, fun _ => id, rfl, rfl, rfl, id⟩

/-- The marking steps work on marks and tracing flags only. -/
theorem MarkStep.obj (h : MarkStep s s') (ho' : s'.heap b = some o') :
    ∃ o mark tracing, s.heap b = some o ∧ o' = { o with mark := mark, tracing := tracing } := by
  cases h with
  | popWaiting _ _ _ _ _ _ =>
    exact ⟨o', o'.mark, o'.tracing, (heap_drop_cases rfl ho').2, rfl⟩
  | @popSkip a rest o t _ _ ho _ _ _ =>
    rcases heap_cases rfl ho' with ⟨rfl, rfl⟩ | ⟨-, hb⟩
    · exact ⟨o, o.mark, false, ho, rfl⟩
    · exact ⟨o', o'.mark, o'.tracing, hb, rfl⟩
  | @popMark u a rest new o t g _ _ ho _ _ _ hu _ _ =>
    have hmark : ∀ ob, u.heap b = some ob → ∃ o mark tracing, s.heap b = some o ∧
        ob = { o with mark := mark, tracing := tracing } := by
      intro ob hob
      rw [hu] at hob
      rcases heap_cases rfl hob with ⟨rfl, rfl⟩ | ⟨-, hb⟩
      · exact ⟨o, s.tracingCurrentBitMark, false, ho, rfl⟩
      · exact ⟨ob, ob.mark, ob.tracing, hb, rfl⟩
    obtain ⟨o₁, ho₁, ⟨-, rfl⟩ | ⟨-, rfl⟩⟩ := flagTracing_eq_some (s := u) ho'
    · exact hmark _ ho₁
    · obtain ⟨o₂, mark, tracing, ho₂, rfl⟩ := hmark o₁ ho₁
      exact ⟨o₂, mark, true, ho₂, rfl⟩
  | mutationsDone _ _ _ => exact ⟨o', o'.mark, o'.tracing, ho', rfl⟩
  | mutationWaiting _ _ _ _ =>
    exact ⟨o', o'.mark, o'.tracing, (heap_drop_cases rfl ho').2, rfl⟩
  | mutationScan _ _ _ _ _ _ =>
    obtain ⟨o, ho, ⟨-, rfl⟩ | ⟨-, rfl⟩⟩ := flagTracing_eq_some (s := s) ho'
    · exact ⟨_, _, _, ho, rfl⟩
    · exact ⟨o, o.mark, true, ho, rfl⟩

theorem flagTracing_of_heap {heap : Addr → Option GCObject} (ho : heap b = some o)
    (new : List Addr) :
    ∃ tracing, flagTracing heap new b = some { o with tracing := tracing } := by
  by_cases hb : b ∈ new
  · exact ⟨true, by rw [flagTracing_of_mem hb, ho]; rfl⟩
  · exact ⟨o.tracing, by rw [flagTracing_of_not_mem hb, ho]⟩

/-- The marking steps free only objects that wait for their removal. -/
theorem MarkStep.heap (h : MarkStep s s') (ho : s.heap b = some o) :
    (∃ mark tracing, s'.heap b = some { o with mark := mark, tracing := tracing }) ∨
      o.waitingRemove = true ∧ s'.heap b = none := by
  have hdrop : ∀ {c : Addr} {oc : GCObject} {u : SyliState}, s.heap c = some oc →
      oc.waitingRemove = true → u.heap = Function.update s.heap c none →
        (∃ mark tracing, u.heap b = some { o with mark := mark, tracing := tracing }) ∨
          o.waitingRemove = true ∧ u.heap b = none := by
    intro c oc u hc hw hu
    by_cases hbc : b = c
    · subst hbc
      obtain rfl := Option.some.inj (ho.symm.trans hc)
      exact Or.inr ⟨hw, by simp [hu]⟩
    · exact Or.inl ⟨o.mark, o.tracing, by simp [hu, hbc, ho]⟩
  cases h with
  | popWaiting _ _ _ hc hw _ => exact hdrop hc hw rfl
  | @popSkip a rest oa t _ _ ha _ _ _ =>
    by_cases hba : b = a
    · subst hba
      obtain rfl := Option.some.inj (ho.symm.trans ha)
      exact Or.inl ⟨o.mark, false, by simp⟩
    · exact Or.inl ⟨o.mark, o.tracing, by simp [hba, ho]⟩
  | @popMark u a rest new oa t g _ _ ha _ _ _ hu _ _ =>
    have hub : ∃ mark tracing, u.heap b = some { o with mark := mark, tracing := tracing } := by
      by_cases hba : b = a
      · subst hba
        obtain rfl := Option.some.inj (ho.symm.trans ha)
        exact ⟨s.tracingCurrentBitMark, false, by simp [hu]⟩
      · exact ⟨o.mark, o.tracing, by simp [hu, hba, ho]⟩
    obtain ⟨mark, tracing, hub⟩ := hub
    obtain ⟨tracing', hf⟩ := flagTracing_of_heap hub new
    exact Or.inl ⟨mark, tracing', hf⟩
  | mutationsDone _ _ _ => exact Or.inl ⟨o.mark, o.tracing, ho⟩
  | mutationWaiting _ _ hc hw => exact hdrop hc hw rfl
  | @mutationScan a rest oa new g _ _ _ _ _ =>
    obtain ⟨tracing, hf⟩ := flagTracing_of_heap ho new
    exact Or.inl ⟨o.mark, tracing, hf⟩

theorem MarkStep.outRefs (h : MarkStep s s') : s'.outRefs = s.outRefs := by
  funext b
  cases hb : s.heap b with
  | none =>
    have hnone : s'.heap b = none := by
      cases hb' : s'.heap b with
      | none => rfl
      | some o' =>
        obtain ⟨o, mark, tracing, ho, -⟩ := h.obj hb'
        simp [hb] at ho
    rw [outRefs_of_none hb, outRefs_of_none hnone]
  | some o =>
    rw [outRefs_of_heap hb]
    rcases h.heap hb with ⟨mark, tracing, hb'⟩ | ⟨hw, hb'⟩
    · rw [outRefs_of_heap hb']
      rfl
    · rw [outRefs_of_none hb']
      simp [GCObject.countedRefs, hw]

/-- A reclaiming step releases the children of one object, which is lost or unmarked. -/
structure ReclaimFrame (s : SyliState) (b : Addr) (o o' : GCObject) : Prop where
  header : o'.header = o.header
  value : o'.value = o.value
  countedRefs : o'.countedRefs ⊆ o.countedRefs
  refcount : o'.refcount ≤ o.refcount
  mark : o'.mark = o.mark ∨ o'.refcount = 0
  waiting : o.waitingRemove = true → o'.waitingRemove = true
  childrenReleased : o'.childrenReleased = o.childrenReleased ∨ b ∈ s.lostCycleWorklist ∨
    o.mark ≠ s.tracingCurrentBitMark

theorem ReclaimFrame.refl (s : SyliState) (b : Addr) (o : GCObject) : ReclaimFrame s b o o :=
  ⟨rfl, rfl, fun _ => id, Nat.le_refl _, Or.inl rfl, id, Or.inl rfl⟩

theorem ReclaimStep.obj (h : ReclaimStep s s') (ho' : s'.heap b = some o') :
    ∃ o, s.heap b = some o ∧ ReclaimFrame s b o o' := by
  cases h with
  | @reclaimFree u _ a rest g _ hl hu hf =>
    obtain ⟨oa, hoa, hr⟩ := freeReleasedObject_effect hf
    obtain ⟨o₁, ho₁, hh, hv, hsub, hcr, hm, hc, hw⟩ := hr.obj hoa ho'
    obtain ⟨o₂, ho₂, hh', hv', hsub', hcr', hm', hc', hw'⟩ := releaseChildrenOnce_obj hu ho₁
    refine ⟨o₂, ho₂, hh.trans hh', hv.trans hv', List.Subset.trans hsub hsub', by omega, ?_,
      fun hwait => hw (hw' hwait), ?_⟩
    · rcases hm' with hm' | hz
      · exact Or.inl (hm.trans hm')
      · exact Or.inr (hc.trans hz)
    · by_cases hba : b = a
      · exact Or.inr (Or.inl (by simp [hl, hba]))
      · exact Or.inl (hcr.trans (hcr' hba))
  | reclaimDone _ _ _ _ => exact ⟨o', ho', .refl s b o'⟩
  | scanIdle _ _ _ _ => exact ⟨o', ho', .refl s b o'⟩
  | scanMarked _ _ _ _ _ _ _ => exact ⟨o', ho', .refl s b o'⟩
  | @scanRelease u _ a oa o₁ i g _ _ _ _ hoa hmark hu _ hs' =>
    have hob : u.heap b = some o' := by
      rcases hs' with ⟨-, rfl⟩ | ⟨-, rfl⟩
      · exact ho'
      · exact ho'
    obtain ⟨o₂, ho₂, hh, hv, hsub, hcr, hm, hc, hw⟩ := releaseChildrenOnce_obj hu hob
    refine ⟨o₂, ho₂, hh, hv, hsub, hc, hm, hw, ?_⟩
    by_cases hba : b = a
    · subst hba
      obtain rfl := Option.some.inj (hoa.symm.trans ho₂)
      exact Or.inr (Or.inr hmark)
    · exact Or.inl (hcr hba)

theorem ReclaimStep.lists (h : ReclaimStep s s') : s'.tracingWorklist = s.tracingWorklist ∧
    s'.tracingMutationsWorklist = s.tracingMutationsWorklist ∧
      s'.tracingCurrentBitMark = s.tracingCurrentBitMark := by
  cases h with
  | reclaimFree _ _ _ hu hf =>
    obtain ⟨hwl, hmut, hbit⟩ := releaseChildrenOnce_lists hu
    obtain ⟨o, ho, hr⟩ := freeReleasedObject_effect hf
    cases hr with
    | drop _ _ _ _ => exact ⟨hwl, hmut, hbit⟩
    | wait _ _ _ => exact ⟨hwl, hmut, hbit⟩
  | reclaimDone _ _ _ _ => exact ⟨rfl, rfl, rfl⟩
  | scanIdle _ _ _ _ => exact ⟨rfl, rfl, rfl⟩
  | scanMarked _ _ _ _ _ _ _ => exact ⟨rfl, rfl, rfl⟩
  | scanRelease _ _ _ _ _ _ _ hu _ hs' =>
    obtain ⟨hwl, hmut, hbit⟩ := releaseChildrenOnce_lists hu
    rcases hs' with ⟨-, rfl⟩ | ⟨-, rfl⟩
    · exact ⟨hwl, hmut, hbit⟩
    · exact ⟨hwl, hmut, hbit⟩

theorem ReclaimStep.outRefs_subset (h : ReclaimStep s s') (a : Addr) :
    s'.outRefs a ⊆ s.outRefs a :=
  Runtime.outRefs_subset fun o' ho' => by
    obtain ⟨o, ho, hf⟩ := h.obj ho'
    exact ⟨o, ho, hf.countedRefs⟩

/-- The tracing machine writes no header and no field. -/
theorem TracingStep.fields {roots : List ObjPtr} (h : TracingStep roots s s')
    (ho' : s'.heap b = some o') :
    ∃ o, s.heap b = some o ∧ o'.header = o.header ∧ o'.value = o.value := by
  cases h with
  | start _ _ _ =>
    obtain ⟨o, ho, ⟨-, rfl⟩ | ⟨-, rfl⟩⟩ := flagTracing_eq_some (s := s) ho'
    · exact ⟨_, ho, rfl, rfl⟩
    · exact ⟨_, ho, rfl, rfl⟩
  | mark hs =>
    obtain ⟨o, mark, tracing, ho, rfl⟩ := hs.obj ho'
    exact ⟨o, ho, rfl, rfl⟩
  | reclaim hs =>
    obtain ⟨o, ho, hf⟩ := hs.obj ho'
    exact ⟨o, ho, hf.header, hf.value⟩

theorem Notified.next {operand : Operand} (h : Notified operand x y s s') :
    s'.next = s.next := by
  cases h with
  | quiet _ => rfl
  | barrier _ _ _ _ _ _ _ => rfl

theorem Stored.next {operand : Operand} {slot : Nat} (h : Stored operand x slot y s s') :
    s'.next = s.next := by
  obtain @⟨u, o, o₁, -, -, -, hold, -, hn⟩ := h
  have hu : u.next = s.next := by
    rcases hold with ⟨rfl, -⟩ | ⟨c, oc, -, hc, hg⟩
    · rfl
    · exact (hg.frame hc).next
  exact hn.next.trans hu

theorem MarkStep.next (h : MarkStep s s') : s'.next = s.next := by
  cases h with
  | @popMark u _ _ _ _ _ _ _ _ _ _ _ _ hu _ _ =>
    show u.next = s.next
    rw [hu]
    rfl
  | _ => rfl

theorem ReclaimStep.next (h : ReclaimStep s s') : s'.next = s.next := by
  cases h with
  | reclaimFree _ _ _ hu hf =>
    have hnext := releaseChildrenOnce_next hu
    obtain ⟨o, ho, hr⟩ := freeReleasedObject_effect hf
    cases hr with
    | drop _ _ _ _ => exact hnext
    | wait _ _ _ => exact hnext
  | scanRelease _ _ _ _ _ _ _ hu _ hs' =>
    have hnext := releaseChildrenOnce_next hu
    rcases hs' with ⟨-, rfl⟩ | ⟨-, rfl⟩
    · exact hnext
    · exact hnext
  | _ => rfl

/-- Addresses are never handed out again. -/
theorem Move.next_le {m m' : Machine} {act : Action} (h : Move m act m') :
    m.rt.next ≤ m'.rt.next := by
  cases h with
  | alloc _ _ _ _ _ _ => simp
  | drop _ _ ho hg => exact Nat.le_of_eq (hg.frame ho).next.symm
  | store _ _ _ hs => exact Nat.le_of_eq hs.next.symm
  | notify _ _ _ hn => exact Nat.le_of_eq hn.next.symm
  | releasing _ hs => exact Nat.le_of_eq hs.frame.next.symm
  | tracing _ _ hs =>
    cases hs with
    | start _ _ _ => simp
    | mark hs => exact Nat.le_of_eq hs.next.symm
    | reclaim hs => exact Nat.le_of_eq hs.next.symm
  | _ => exact Nat.le_refl _

end Syli.Runtime
