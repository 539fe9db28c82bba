import Syli.Collector.Sound

/-! How the steps of the machine treat the marks and the worklists of a trace. -/
namespace Syli.Collector

open Foundation Syli.Runtime

variable {s s' u : SyliState} {claims : List Addr} {a x y : Addr} {o o' : GCObject}
variable {roots : List ObjPtr}

def Marked (s : SyliState) (a : Addr) : Prop :=
  ∃ o, s.heap a = some o ∧ o.mark = s.tracingCurrentBitMark

/-- Marked, or queued for tracing. -/
def Shaded (s : SyliState) (a : Addr) : Prop := Marked s a ∨ a ∈ s.tracingWorklist

instance (s : SyliState) (a : Addr) : Decidable (Marked s a) :=
  decidable_of_iff (∃ o ∈ s.heap a, o.mark = s.tracingCurrentBitMark) Iff.rfl

instance (s : SyliState) (a : Addr) : Decidable (Shaded s a) := inferInstanceAs (Decidable (_ ∨ _))

/-- The references of the marked objects in `R` are shaded, or wait for the mutations pass. -/
def Covered (R : Addr → Prop) (s : SyliState) : Prop :=
  ∀ x y, R x → Marked s x → y ∈ s.outRefs x →
    Shaded s y ∨ ObjPtr.own x ∈ s.tracingMutationsWorklist

/-- With empty worklists the references of marked objects are marked. -/
theorem Covered.marked {R : Addr → Prop} (h : Covered R s) (hwl : s.tracingWorklist = [])
    (hm : s.tracingMutationsWorklist = []) (hx : R x) (hmx : Marked s x)
    (hxy : y ∈ s.outRefs x) : Marked s y := by
  rcases h x y hx hmx hxy with (hmark | hmem) | hmem
  · exact hmark
  · simp [hwl] at hmem
  · simp [hm] at hmem

/-- What a step does to the marks of the objects that have counts after it: no mark and no queue
entry is lost, and the references of a newly marked object and a new reference of a marked object
are shaded or wait for the mutations pass. -/
structure Respects (s s' : SyliState) : Prop where
  counted : ∀ a, Counted s' a → Counted s a
  marked : ∀ a, Counted s' a → Marked s a → Marked s' a
  queued : ∀ a, Counted s' a → a ∈ s.tracingWorklist → Shaded s' a
  mutations : ∀ x y, Counted s' x → ObjPtr.own x ∈ s.tracingMutationsWorklist →
    y ∈ s'.outRefs x → Shaded s' y ∨ ObjPtr.own x ∈ s'.tracingMutationsWorklist
  edge : ∀ x y, Counted s' x → Marked s' x → y ∈ s'.outRefs x →
    Marked s x ∧ y ∈ s.outRefs x ∨ Shaded s' y ∨ ObjPtr.own x ∈ s'.tracingMutationsWorklist

theorem Respects.shaded (h : Respects s s') (ha : Counted s' a) (hs : Shaded s a) : Shaded s' a :=
  hs.elim (fun hm => Or.inl (h.marked a ha hm)) (h.queued a ha)

theorem exists_of_outRefs (hy : y ∈ s.outRefs x) : ∃ o, s.heap x = some o := by
  by_contra hno
  have hnone : s.heap x = none := Option.eq_none_iff_forall_not_mem.mpr
    fun o ho => hno ⟨o, ho⟩
  rw [outRefs_of_none hnone] at hy
  simp at hy

theorem Ledger.counted_of_outRefs (h : Ledger s claims s.outRefs) (hy : y ∈ s.outRefs x) :
    Counted s y := by
  obtain ⟨o, ho⟩ := exists_of_outRefs hy
  exact h.exists_of_edge (h.lt_next ho) hy

theorem Respects.covered (hr : Respects s s') (h' : Ledger s' claims s'.outRefs)
    {R R' : Addr → Prop} (hR : ∀ a, R' a → R a) (hc : ∀ a, R' a → Counted s' a)
    (h : Covered R s) : Covered R' s' := by
  intro x y hx hmx hxy
  rcases hr.edge x y (hc x hx) hmx hxy with ⟨hm, he⟩ | hnew
  · rcases h x y (hR x hx) hm he with hs | hmem
    · exact Or.inl (hr.shaded (h'.counted_of_outRefs hxy) hs)
    · exact hr.mutations x y (hc x hx) hmem hxy
  · exact hnew

/-- A step that only takes away references and counts, and marks only objects without counts. -/
theorem respects_of_shrink
    (hobj : ∀ b o', s'.heap b = some o' → ∃ o, s.heap b = some o ∧
      o'.countedRefs ⊆ o.countedRefs ∧ o'.refcount ≤ o.refcount ∧
        (o'.mark = o.mark ∨ o'.refcount = 0))
    (hbit : s'.tracingCurrentBitMark = s.tracingCurrentBitMark)
    (hwl : s'.tracingWorklist = s.tracingWorklist)
    (hmut : s'.tracingMutationsWorklist = s.tracingMutationsWorklist) : Respects s s' := by
  have hsub : ∀ x, s'.outRefs x ⊆ s.outRefs x := fun x => outRefs_subset fun o' ho' => by
    obtain ⟨o, ho, hsub, -⟩ := hobj x o' ho'
    exact ⟨o, ho, hsub⟩
  have hmark : ∀ a, Counted s' a → (Marked s a ↔ Marked s' a) := by
    rintro a ⟨o', ho', hpos⟩
    obtain ⟨o, ho, -, -, hm⟩ := hobj a o' ho'
    have hm' : o'.mark = o.mark := hm.resolve_right (by omega)
    unfold Marked
    rw [ho, ho', hbit]
    simp [hm']
  refine
    { counted := ?_
      marked := fun a ha => (hmark a ha).mp
      queued := fun a _ hq => Or.inr (hwl ▸ hq)
      mutations := fun x y _ hmem _ => Or.inr (hmut ▸ hmem)
      edge := fun x y hx hmx hxy => Or.inl ⟨(hmark x hx).mpr hmx, hsub x hxy⟩ }
  rintro a ⟨o', ho', hpos⟩
  obtain ⟨o, ho, -, hle, -⟩ := hobj a o' ho'
  exact ⟨o, ho, Nat.lt_of_lt_of_le hpos hle⟩

/-- The release of counts respects the marks. -/
theorem respects_of_release (hf : ReleaseFrame s s') : Respects s s' := by
  refine respects_of_shrink ?_ hf.bit hf.worklist hf.mutations
  intro b o' ho'
  obtain ⟨o, ho, hframe⟩ := hf.obj b o' ho'
  exact ⟨o, ho, hframe.countedRefs_subset, hframe.refcount, hframe.mark⟩

/-- A step that leaves references, marks and queues as they are. -/
theorem respects_of_gain (hrt : s'.outRefs = s.outRefs) (hcount : ∀ a, Counted s' a → Counted s a)
    (hmark : ∀ a, Marked s' a ↔ Marked s a) (hwl : s'.tracingWorklist = s.tracingWorklist)
    (hmut : s'.tracingMutationsWorklist = s.tracingMutationsWorklist) : Respects s s' where
  counted := hcount
  marked a _ := (hmark a).mpr
  queued _ _ hq := Or.inr (hwl ▸ hq)
  mutations _ _ _ hmem _ := Or.inr (hmut ▸ hmem)
  edge x _ _ hmx hxy := Or.inl ⟨(hmark x).mp hmx, hrt ▸ hxy⟩

theorem respects_of_heap (hheap : s'.heap = s.heap)
    (hbit : s'.tracingCurrentBitMark = s.tracingCurrentBitMark)
    (hwl : s'.tracingWorklist = s.tracingWorklist)
    (hmut : s'.tracingMutationsWorklist = s.tracingMutationsWorklist) : Respects s s' := by
  refine respects_of_gain (outRefs_congr hheap) ?_ ?_ hwl hmut
  · rintro a ⟨o, ho, hpos⟩
    exact ⟨o, hheap ▸ ho, hpos⟩
  · intro a
    unfold Marked
    rw [hheap, hbit]

theorem marked_setObj (ho : s.heap x = some o) (hm : o'.mark = o.mark) (a : Addr) :
    Marked (s.setObj x o') a ↔ Marked s a := by
  unfold Marked
  by_cases hax : a = x
  · subst hax
    simp [ho, hm]
  · simp [hax]

/-- A share of an object that has counts. -/
theorem respects_of_share (ho : s.heap x = some o) (hpos : 0 < o.refcount) :
    Respects s (s.setObj x { o with refcount := o.refcount + 1 }) := by
  refine respects_of_gain (outRefs_setRefcount ho _) ?_ (marked_setObj ho rfl) rfl rfl
  rintro a ⟨o', ho', hpos'⟩
  rcases heap_cases rfl ho' with ⟨rfl, -⟩ | ⟨-, ha⟩
  · exact ⟨o, ho, hpos⟩
  · exact ⟨o', ha, hpos'⟩

/-- An object whose references have all been pushed has its children queued. -/
theorem Ledger.queued_of_push (h' : Ledger s' claims s'.outRefs) {refs new : List Addr}
    (hq : Queued u refs new) (hheap : s'.heap = flagTracing u.heap new)
    (hwl : ∀ a ∈ new, a ∈ s'.tracingWorklist) (hy : y ∈ refs) : y ∈ s'.tracingWorklist := by
  rcases hq.flagged y hy with hn | ⟨o, ho, ht⟩
  · exact hwl y hn
  · by_cases hn : y ∈ new
    · exact hwl y hn
    · refine h'.flagged y o ?_ ht
      rw [hheap, flagTracing_of_not_mem hn]
      exact ho

/-- A step that works on marks, flags and worklists respects the marks if it does so for the
objects that have counts. -/
theorem respects_of_retrace (hbit : s'.tracingCurrentBitMark = s.tracingCurrentBitMark)
    (hobj : ∀ b o', s'.heap b = some o' → ∃ o, s.heap b = some o ∧
      o'.countedRefs ⊆ o.countedRefs ∧ o'.refcount ≤ o.refcount ∧
        (o.mark = s.tracingCurrentBitMark → o'.mark = s.tracingCurrentBitMark))
    (hqueued : ∀ b o', s'.heap b = some o' → 0 < o'.refcount → b ∈ s.tracingWorklist → Shaded s' b)
    (hmut : ∀ b o' y, s'.heap b = some o' → 0 < o'.refcount →
      ObjPtr.own b ∈ s.tracingMutationsWorklist → y ∈ o'.countedRefs →
        y ∈ s'.tracingWorklist ∨ ObjPtr.own b ∈ s'.tracingMutationsWorklist)
    (hblack : ∀ b o o' y, s.heap b = some o → s'.heap b = some o' → 0 < o'.refcount →
      o'.mark = s.tracingCurrentBitMark → y ∈ o'.countedRefs →
        o.mark = s.tracingCurrentBitMark ∨ y ∈ s'.tracingWorklist ∨
          ObjPtr.own b ∈ s'.tracingMutationsWorklist) : Respects s s' := by
  refine
    { counted := ?_
      marked := ?_
      queued := ?_
      mutations := ?_
      edge := ?_ }
  · rintro a ⟨o', ho', hpos⟩
    obtain ⟨o, ho, -, hle, -⟩ := hobj a o' ho'
    exact ⟨o, ho, Nat.lt_of_lt_of_le hpos hle⟩
  · rintro a ⟨o', ho', -⟩ ⟨o, ho, hmark⟩
    obtain ⟨o₁, ho₁, -, -, hm⟩ := hobj a o' ho'
    obtain rfl := Option.some.inj (ho.symm.trans ho₁)
    exact ⟨o', ho', (hm hmark).trans hbit.symm⟩
  · rintro a ⟨o', ho', hpos⟩ hq
    exact hqueued a o' ho' hpos hq
  · rintro x y ⟨o', ho', hpos⟩ hmem hxy
    rw [outRefs_of_heap ho'] at hxy
    exact (hmut x o' y ho' hpos hmem hxy).imp_left Or.inr
  · rintro x y ⟨o', ho', hpos⟩ ⟨o₁, ho₁, hmark⟩ hxy
    obtain rfl := Option.some.inj (ho'.symm.trans ho₁)
    obtain ⟨o, ho, hsub, -⟩ := hobj x o' ho'
    rw [outRefs_of_heap ho'] at hxy
    rcases hblack x o o' y ho ho' hpos (hmark.trans hbit) hxy with hm | hwl | hmem
    · exact Or.inl ⟨⟨o, ho, hm⟩, by rw [outRefs_of_heap ho]; exact hsub hxy⟩
    · exact Or.inr (Or.inl (Or.inr hwl))
    · exact Or.inr (Or.inr hmem)

theorem mem_rest {l rest : List Addr} {b : Addr} (hl : l = a :: rest) (hb : b ≠ a) (hmem : b ∈ l) :
    b ∈ rest := by
  rw [hl] at hmem
  exact (List.mem_cons.mp hmem).resolve_left hb

/-- The steps of a trace under way respect the marks. -/
theorem respects_of_mark (h' : Ledger s' claims s'.outRefs) (hs : MarkStep s s') :
    Respects s s' := by
  cases hs with
  | @popWaiting a rest o t g hst hwl ho hw _ =>
    refine respects_of_retrace rfl ?_ ?_ ?_ ?_
    · intro b o' ho'
      obtain ⟨-, hb⟩ := heap_drop_cases rfl ho'
      exact ⟨o', hb, fun _ => id, Nat.le_refl _, id⟩
    · intro b o' ho' _ hmem
      obtain ⟨hne, -⟩ := heap_drop_cases rfl ho'
      exact Or.inr (mem_rest hwl hne hmem)
    · exact fun _ _ _ _ _ hmem _ => Or.inr hmem
    · intro b o₁ o' y ho₁ ho' _ hmark _
      obtain ⟨-, hb⟩ := heap_drop_cases rfl ho'
      obtain rfl := Option.some.inj (ho₁.symm.trans hb)
      exact Or.inl hmark
  | @popSkip a rest o t hst hwl ho hw hskip _ =>
    refine respects_of_retrace rfl ?_ ?_ ?_ ?_
    · intro b o' ho'
      rcases heap_cases rfl ho' with ⟨rfl, rfl⟩ | ⟨-, hb⟩
      · exact ⟨o, ho, fun _ => id, Nat.le_refl _, id⟩
      · exact ⟨o', hb, fun _ => id, Nat.le_refl _, id⟩
    · intro b o' ho' hpos hmem
      rcases heap_cases rfl ho' with ⟨rfl, rfl⟩ | ⟨hne, -⟩
      · exact Or.inl ⟨_, ho', hskip.resolve_left (Nat.ne_of_gt hpos)⟩
      · exact Or.inr (mem_rest hwl hne hmem)
    · exact fun _ _ _ _ _ hmem _ => Or.inr hmem
    · intro b o₁ o' y ho₁ ho' _ hmark _
      rcases heap_cases rfl ho' with ⟨rfl, rfl⟩ | ⟨-, hb⟩
      · obtain rfl := Option.some.inj (ho.symm.trans ho₁)
        exact Or.inl hmark
      · obtain rfl := Option.some.inj (ho₁.symm.trans hb)
        exact Or.inl hmark
  | @popMark u a rest new o t b hst hwl ho hw _ _ hu hq _ =>
    have huheap : u.heap = Function.update s.heap a
        (some { o with tracing := false, mark := s.tracingCurrentBitMark }) := by
      rw [hu]
      rfl
    have hubit : u.tracingCurrentBitMark = s.tracingCurrentBitMark := by rw [hu]; rfl
    have huwl : u.tracingWorklist = rest := by rw [hu]; rfl
    have humut : u.tracingMutationsWorklist = s.tracingMutationsWorklist := by rw [hu]; rfl
    have hnew : ∀ c ∈ new, c ∈ ((u.queueTracing new).setTracingState t).tracingWorklist :=
      fun c hc => List.mem_append_left _ hc
    refine respects_of_retrace hubit ?_ ?_ ?_ ?_
    · intro b o' ho'
      obtain ⟨o₁, ho₁, hout, -, hmark, hcount⟩ := flag_cases (s := u) rfl ho'
      rw [hout, hcount, hmark]
      rcases heap_cases huheap ho₁ with ⟨rfl, rfl⟩ | ⟨-, hb⟩
      · exact ⟨o, ho, fun _ => id, Nat.le_refl _, fun _ => rfl⟩
      · exact ⟨o₁, hb, fun _ => id, Nat.le_refl _, id⟩
    · intro b o' ho' hpos hmem
      by_cases hb : b = a
      · subst hb
        obtain ⟨o₁, ho₁, -, -, hmark, -⟩ := flag_cases (s := u) rfl ho'
        rcases heap_cases huheap ho₁ with ⟨-, rfl⟩ | ⟨hne, -⟩
        · exact Or.inl ⟨o', ho', hmark.trans hubit.symm⟩
        · exact absurd rfl hne
      · exact Or.inr (List.mem_append_right _ (huwl ▸ mem_rest hwl hb hmem))
    · exact fun _ _ _ _ _ hmem _ => Or.inr (humut ▸ hmem)
    · intro b o₀ o' y ho₀ ho' _ hmark hy
      obtain ⟨o₁, ho₁, hout, -, hm, -⟩ := flag_cases (s := u) rfl ho'
      rw [hout] at hy
      rcases heap_cases huheap ho₁ with ⟨rfl, rfl⟩ | ⟨-, hb⟩
      · exact Or.inr (Or.inl (h'.queued_of_push hq rfl hnew (countedRefs_subset_ownRefs o hy)))
      · obtain rfl := Option.some.inj (ho₀.symm.trans hb)
        exact Or.inl (hm.symm.trans hmark)
  | @mutationsDone t _ _ _ =>
    exact respects_of_heap rfl rfl rfl rfl
  | @mutationWaiting a rest o hst hm ho hw =>
    refine respects_of_retrace rfl ?_ ?_ ?_ ?_
    · intro b o' ho'
      obtain ⟨-, hb⟩ := heap_drop_cases rfl ho'
      exact ⟨o', hb, fun _ => id, Nat.le_refl _, id⟩
    · exact fun _ _ _ _ hmem => Or.inr hmem
    · intro b o' y ho' _ hmem _
      obtain ⟨hne, -⟩ := heap_drop_cases rfl ho'
      rw [hm] at hmem
      exact Or.inr ((List.mem_cons.mp hmem).resolve_left (by simpa using hne))
    · intro b o₁ o' y ho₁ ho' _ hmark _
      obtain ⟨-, hb⟩ := heap_drop_cases rfl ho'
      obtain rfl := Option.some.inj (ho₁.symm.trans hb)
      exact Or.inl hmark
  | @mutationScan a rest o new b hst hm ho hw hq =>
    have hnew : ∀ c ∈ new, c ∈ (((s.setMutations rest).setBudgets b).queueTracing
        new).tracingWorklist := fun c hc => List.mem_append_left _ hc
    refine respects_of_retrace rfl ?_ ?_ ?_ ?_
    · intro b o' ho'
      obtain ⟨o₁, ho₁, hout, -, hmark, hcount⟩ := flag_cases (s := s) rfl ho'
      rw [hout, hcount, hmark]
      exact ⟨o₁, ho₁, fun _ => id, Nat.le_refl _, id⟩
    · exact fun _ _ _ _ hmem => Or.inr (List.mem_append_right _ hmem)
    · intro b o' y ho' _ hmem hy
      obtain ⟨o₁, ho₁, hout, -⟩ := flag_cases (s := s) rfl ho'
      rw [hm] at hmem
      rcases List.mem_cons.mp hmem with heq | hmem
      · obtain rfl : b = a := by simpa using heq
        obtain rfl := Option.some.inj (ho.symm.trans ho₁)
        rw [hout] at hy
        exact Or.inl (h'.queued_of_push hq rfl hnew (countedRefs_subset_ownRefs o hy))
      · exact Or.inr hmem
    · intro b o₀ o' y ho₀ ho' _ hmark _
      obtain ⟨o₁, ho₁, -, -, hm, -⟩ := flag_cases (s := s) rfl ho'
      obtain rfl := Option.some.inj (ho₀.symm.trans ho₁)
      exact Or.inl (hm.symm.trans hmark)

theorem respects_of_notified {operand : Operand} (hn : Notified operand x y s s') :
    Respects s s' := by
  obtain ⟨hwl, hbit, -, hmut⟩ := hn.lists
  refine respects_of_retrace hbit ?_ ?_ ?_ ?_
  · intro b o' ho'
    obtain ⟨o, ho, hout, -, hcount, hm⟩ := hn.obj ho'
    refine ⟨o, ho, fun c hc => hout ▸ hc, Nat.le_of_eq hcount, fun hmark => ?_⟩
    rcases hm with hm | ⟨hm, -⟩
    · exact hm.trans hmark
    · exact hm
  · exact fun _ _ _ _ hmem => Or.inr (hwl ▸ hmem)
  · exact fun _ _ _ _ _ hmem _ => Or.inr (hmut _ hmem)
  · intro b o o' z ho ho' _ hmark _
    obtain ⟨o₁, ho₁, -, -, -, hm⟩ := hn.obj ho'
    obtain rfl := Option.some.inj (ho.symm.trans ho₁)
    rcases hm with hm | ⟨-, hq⟩
    · exact Or.inl (hm.symm.trans hmark)
    · exact Or.inr (Or.inr hq)

/-- A store respects the marks if its target is shaded, if it marks the target where the object
is marked, or if the object was not marked before. -/
theorem respects_of_stored {operand : Operand} {slot : Nat} (h' : Ledger s' claims s'.outRefs)
    (hs : Stored operand x slot y s s')
    (hnew : Shaded s y ∨ (Marked s' x → Marked s' y) ∨ ¬ Marked s x) : Respects s s' := by
  obtain ⟨hwl, hbit, -, hmut⟩ := hs.lists
  have hmarked : ∀ a, Counted s' a → Marked s a → Marked s' a := by
    rintro a ⟨o', ho', hpos⟩ ⟨o₂, ho₂, hmark⟩
    obtain ⟨ob, hob, -, -, -, hm | hz | ⟨hm, -⟩⟩ := hs.obj ho'
    · obtain rfl := Option.some.inj (ho₂.symm.trans hob)
      exact ⟨o', ho', hm.trans (hmark.trans hbit.symm)⟩
    · omega
    · exact ⟨o', ho', hm.trans hbit.symm⟩
  have hback : ∀ b, Counted s' b → Marked s' b →
      Marked s b ∨ ObjPtr.own b ∈ s'.tracingMutationsWorklist := by
    rintro b ⟨o', ho', hpos⟩ ⟨o₂, ho₂, hmark⟩
    obtain rfl := Option.some.inj (ho₂.symm.trans ho')
    obtain ⟨ob, hob, -, -, -, hm | hz | ⟨-, hq⟩⟩ := hs.obj ho'
    · exact Or.inl ⟨ob, hob, hm.symm.trans (hmark.trans hbit)⟩
    · omega
    · exact Or.inr hq
  refine
    { counted := ?_
      marked := hmarked
      queued := fun a _ ha => Or.inr (hwl ▸ ha)
      mutations := fun b c _ hmem _ => Or.inr (hmut _ hmem)
      edge := ?_ }
  · rintro a ⟨o', ho', hpos⟩
    obtain ⟨o, ho, -, -, hle, -⟩ := hs.obj ho'
    exact ⟨o, ho, Nat.lt_of_lt_of_le hpos hle⟩
  · intro b c hb hmb hbc
    rcases hback b hb hmb with hm | hq
    · rcases hs.outRefs hbc with hc | ⟨rfl, rfl⟩
      · exact Or.inl ⟨hm, hc⟩
      · rcases hnew with (hm' | hq) | himp | hno
        · exact Or.inr (Or.inl (Or.inl (hmarked c (h'.counted_of_outRefs hbc) hm')))
        · exact Or.inr (Or.inl (Or.inr (hwl ▸ hq)))
        · exact Or.inr (Or.inl (Or.inl (himp hmb)))
        · exact absurd hm hno
    · exact Or.inr (Or.inr hq)

theorem respects_of_reclaim (hs : ReclaimStep s s') : Respects s s' := by
  obtain ⟨hwl, hmut, hbit⟩ := hs.lists
  refine respects_of_shrink ?_ hbit hwl hmut
  intro b o' ho'
  obtain ⟨o, ho, hf⟩ := hs.obj ho'
  exact ⟨o, ho, hf.countedRefs, hf.refcount, hf.mark⟩

theorem not_inTrace_of_reclaim (hs : ReclaimStep s s') : ¬ InTrace s'.tracingState := by
  have hkeep := not_inTrace_of_reclaiming hs.reclaiming
  cases hs with
  | reclaimFree _ _ _ hu hf =>
    obtain ⟨o, ho, hr⟩ := freeReleasedObject_effect hf
    rw [hr.tracingState, releaseChildrenOnce_state hu]
    exact hkeep
  | reclaimDone _ _ _ _ => simp [InTrace]
  | scanIdle _ _ _ _ => exact hkeep
  | scanMarked _ _ _ _ _ _ _ => exact hkeep
  | scanRelease _ _ _ _ _ _ _ hu _ hs' =>
    have hstate := releaseChildrenOnce_state hu
    rcases hs' with ⟨-, rfl⟩ | ⟨-, rfl⟩
    · exact fun hin => hkeep (hstate ▸ hin)
    · exact fun hin => hkeep (hstate ▸ hin)

/-- The state after an allocation, as far as the collector sees it. -/
structure Allocated (s s' : SyliState) : Prop where
  heap : ∃ header candidate, s'.heap = Function.update s.heap s.next
    (some (freshObject s header candidate))
  outRefs : s'.outRefs = s.outRefs
  bit : s'.tracingCurrentBitMark = s.tracingCurrentBitMark
  worklist : s'.tracingWorklist = s.tracingWorklist
  mutations : s'.tracingMutationsWorklist = s.tracingMutationsWorklist
  state : s'.tracingState = s.tracingState

theorem allocated (h : Ledger s claims s.outRefs) {header : ObjectHeader} {candidate : Bool}
    (candidates : List Addr) (index : Addr → Nat) (g : Gauges) :
    Allocated s ((((s.setObj s.next (freshObject s header candidate)).bumpNext).setGauges
      g).setRegistry candidates index) where
  heap := ⟨header, candidate, rfl⟩
  outRefs := by
    have hheap : ((((s.setObj s.next (freshObject s header candidate)).bumpNext).setGauges
        g).setRegistry candidates index).outRefs =
        ((s.setObj s.next (freshObject s header candidate)).bumpNext).outRefs := outRefs_congr rfl
    rw [hheap, h.outRefs_alloc header candidate]
  bit := by simp
  worklist := by simp
  mutations := by simp
  state := by simp

/-- A fresh object is marked and intact, and the others are as before. -/
theorem Allocated.obj (h : Allocated s s') (ho' : s'.heap a = some o') :
    a = s.next ∧ o'.childrenReleased = false ∧ o'.mark = s.tracingCurrentBitMark ∨
      a ≠ s.next ∧ s.heap a = some o' := by
  obtain ⟨header, candidate, hheap⟩ := h.heap
  rcases heap_cases hheap ho' with ⟨rfl, rfl⟩ | ⟨hne, ha⟩
  · exact Or.inl ⟨rfl, rfl, rfl⟩
  · exact Or.inr ⟨hne, ha⟩

theorem Allocated.fresh (h : Allocated s s') : ∃ o', s'.heap s.next = some o' := by
  obtain ⟨header, candidate, hheap⟩ := h.heap
  exact ⟨_, by rw [hheap, Function.update_self]⟩

theorem Allocated.marked (h : Allocated s s') (hfresh : s.heap s.next = none)
    (hm : Marked s a) : Marked s' a := by
  obtain ⟨o, ho, hm⟩ := hm
  obtain ⟨header, candidate, hheap⟩ := h.heap
  have hne : a ≠ s.next := by
    rintro rfl
    simp [hfresh] at ho
  exact ⟨o, by simpa [hheap, hne] using ho, hm.trans h.bit.symm⟩

theorem Allocated.covered (h : Allocated s s') (hl : Ledger s claims s.outRefs)
    {R R' : Addr → Prop} (hR : ∀ a, R' a → R a ∨ a = s.next) (hc : Covered R s) :
    Covered R' s' := by
  have hfresh := hl.fresh s.next (Nat.le_refl _)
  rintro x y hx ⟨o', ho', hm⟩ hxy
  rw [h.mutations]
  rcases h.obj ho' with ⟨rfl, -⟩ | ⟨hne, ho⟩
  · rw [h.outRefs, outRefs_of_none hfresh] at hxy
    simp at hxy
  · have hold := hc x y ((hR x hx).resolve_right hne) ⟨o', ho, hm.trans h.bit⟩ (h.outRefs ▸ hxy)
    exact hold.imp_left (Or.imp (h.marked hfresh) (h.worklist ▸ ·))

/-- The start of a trace turns every mark. -/
structure Started (roots : List ObjPtr) (s s' : SyliState) : Prop where
  heap : ∃ new, Queued (tracingStart s) (roots.filterMap ObjPtr.ownRef?) new ∧
    s'.heap = flagTracing s.heap new ∧ s'.tracingWorklist = new ++ s.tracingWorklist
  bit : s'.tracingCurrentBitMark = !s.tracingCurrentBitMark
  mutations : s'.tracingMutationsWorklist = s.tracingMutationsWorklist
  state : ¬ InTrace s'.tracingState →
    s'.tracingWorklist = [] ∧ s'.tracingMutationsWorklist = []

theorem started_of_idle (hidle : s.tracingState = .idle) (hs : TracingStep roots s s') :
    Started roots s s' := by
  obtain ⟨new, t, hq, ht, rfl⟩ := hs.of_idle hidle
  refine ⟨⟨new, hq, ?_, ?_⟩, ?_, ?_, fun hn => ?_⟩
  · funext a
    simp
  · simp
  · simp
  · simp
  · simp only [SyliState.setTracingState_tracingState] at hn
    by_contra hne
    rw [ht, if_neg (by simpa using hne)] at hn
    exact hn (Or.inl rfl)

theorem Started.obj (h : Started roots s s') (ho' : s'.heap a = some o') :
    ∃ o, s.heap a = some o ∧ o'.countedRefs = o.countedRefs ∧
      o'.childrenReleased = o.childrenReleased ∧ o'.mark = o.mark ∧ o'.refcount = o.refcount := by
  obtain ⟨new, -, hheap, -⟩ := h.heap
  exact flag_cases hheap ho'

theorem Started.outRefs_subset (h : Started roots s s') (x : Addr) :
    s'.outRefs x ⊆ s.outRefs x :=
  Runtime.outRefs_subset fun o' ho' => by
    obtain ⟨o, ho, hout, -⟩ := h.obj ho'
    exact ⟨o, ho, by rw [hout]; exact fun _ => id⟩

theorem Started.not_marked (h : Started roots s s') (hm : Marked s a) : ¬ Marked s' a := by
  rintro ⟨o', ho', hm'⟩
  obtain ⟨o, ho, -, -, hmark, -⟩ := h.obj ho'
  obtain ⟨o₁, ho₁, hold⟩ := hm
  obtain rfl := Option.some.inj (ho₁.symm.trans ho)
  rw [h.bit, hmark, hold] at hm'
  simp at hm'

/-- Where everything was marked the start of a trace leaves nothing marked. -/
theorem Started.covered (h : Started roots s s') {R : Addr → Prop} (hR : ∀ a, R a → Marked s a) :
    Covered R s' :=
  fun x _ hx hmx _ => absurd hmx (h.not_marked (hR x hx))

theorem Started.queued (h : Started roots s s') (h' : Ledger s' claims s'.outRefs)
    (ha : ObjPtr.own a ∈ roots) : a ∈ s'.tracingWorklist := by
  obtain ⟨new, hq, hheap, hwl⟩ := h.heap
  have hmem : a ∈ roots.filterMap ObjPtr.ownRef? := List.mem_filterMap.mpr ⟨.own a, ha, rfl⟩
  exact h'.queued_of_push hq hheap (fun c hc => hwl ▸ List.mem_append_left _ hc) hmem

end Syli.Collector
