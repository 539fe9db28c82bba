import Syli.Collector.Candidates

/-! The reclaiming scans every candidate, whatever happens between its iterations. -/
namespace Syli.Collector

open Foundation Syli.Runtime

variable {s₀ s s' u : SyliState} {a b : Addr} {o : GCObject} {p : Pipeline} {cs visited : List Addr}
variable {k : Counting} {e : Entry} {roots : List ObjPtr} {env : Env}

/-- The cursor of the scan and the phase of the machine are left alone. -/
structure SameScan (s s' : SyliState) : Prop where
  index : s'.currentCandidateCheckIndex = s.currentCandidateCheckIndex
  state : s'.tracingState = s.tracingState

theorem SameScan.refl (s : SyliState) : SameScan s s := ⟨rfl, rfl⟩

theorem SameScan.trans (h : SameScan s u) (h' : SameScan u s') : SameScan s s' :=
  ⟨h'.index.trans h.index, h'.state.trans h.state⟩

theorem sameScan_removed (h : Removed s a o s') : SameScan s s' := by
  cases h with
  | drop _ _ _ _ => exact ⟨rfl, rfl⟩
  | wait _ _ _ => exact ⟨rfl, rfl⟩

theorem sameScan_giveUp (h : GiveUp p s a o s') : SameScan s s' := by
  cases h with
  | keep _ => exact ⟨rfl, rfl⟩
  | queue _ _ _ _ => exact ⟨rfl, rfl⟩
  | enqueue _ _ => exact ⟨rfl, rfl⟩
  | freeImm _ _ => exact ⟨rfl, rfl⟩
  | remove _ _ _ hr => exact ⟨(sameScan_removed hr).index, (sameScan_removed hr).state⟩

theorem sameScan_giveUpAll (h : GiveUpAll p s cs s') : SameScan s s' := by
  refine h.invariant (P := fun _ u => SameScan s u) (.refl s) ?_
  intro u c cs o v hu _ hstep
  exact hu.trans (sameScan_giveUp hstep)

theorem sameScan_releaseOnce (h : releaseChildrenOnce s a = .ok s') : SameScan s s' := by
  obtain ⟨o, -, ⟨-, rfl⟩ | ⟨-, n, hg⟩⟩ := releaseChildrenOnce_effect h
  · exact .refl _
  · have hall := sameScan_giveUpAll hg
    exact ⟨hall.index, hall.state⟩

theorem sameScan_releasing (h : ReleasingStep s s') : SameScan s s' := by
  cases h with
  | start _ => exact ⟨rfl, rfl⟩
  | release n _ _ _ hg _ _ hr hs' =>
    subst hs'
    have hall := sameScan_giveUpAll hg
    have hremoved := sameScan_removed hr
    exact ⟨hremoved.index.trans hall.index, hremoved.state.trans hall.state⟩

theorem sameScan_notify {ptr target : ObjPtr}
    (h : syliRtOwnershipNotifyMutation s ptr target = .ok s') : SameScan s s' := by
  simp only [syliRtOwnershipNotifyMutation, bind_eq_ok, check_eq_ok] at h
  obtain ⟨-, -, h⟩ := h
  split at h
  · obtain rfl := pure_eq_ok.mp h
    exact .refl _
  split at h
  · simp only [bind_eq_ok, syliRtObjectNotifyMutation, deref_eq_ok] at h
    obtain ⟨_, -, o, -, h⟩ := h
    split at h
    · obtain rfl := pure_eq_ok.mp h
      exact .refl _
    split at h
    · obtain rfl := pure_eq_ok.mp h
      exact .refl _
    · obtain ⟨t, -, h⟩ := bind_eq_ok.mp h
      split at h
      · obtain rfl := pure_eq_ok.mp h
        exact .refl _
      · obtain rfl := pure_eq_ok.mp h
        exact ⟨rfl, rfl⟩
  · obtain rfl := pure_eq_ok.mp h
    exact .refl _

theorem sameScan_share {ptr q : ObjPtr} (h : syliRtOwnershipShare k s ptr = .ok (q, s')) :
    SameScan s s' := by
  simp only [syliRtOwnershipShare, bind_eq_ok, pure_eq_ok] at h
  obtain ⟨c, -, u, hu, heq⟩ := h
  obtain ⟨-, rfl⟩ := Prod.mk.inj heq
  obtain ⟨o, -, rfl⟩ := syliRtObjectIncr_effect.mp hu
  exact ⟨rfl, rfl⟩

theorem sameScan_decr (h : syliRtObjectDecr k s a = .ok s') : SameScan s s' := by
  obtain ⟨o, o', -, -, ⟨-, rfl⟩ | ⟨-, -, ⟨-, rfl⟩ | ⟨-, hpush⟩⟩⟩ := syliRtObjectDecr_cases h
  · exact ⟨rfl, rfl⟩
  · exact ⟨rfl, rfl⟩
  · obtain ⟨_, mark, -, -, -, rfl⟩ := gcReleasingWorklistPush_effect hpush
    exact ⟨rfl, rfl⟩

/-- Only the tracing loop moves the cursor or the machine. -/
theorem sameScan_run (hs : e.run k s = .ok s') (he : ∀ roots, e ≠ .gcTracing roots) :
    SameScan s s' := by
  cases e with
  | alloc header n =>
    obtain ⟨a, ha⟩ := Entry.run_alloc.mp hs
    obtain ⟨candidate, candidates, index, g, -, -, rfl⟩ := alloc_registry ha
    exact ⟨by simp, by simp⟩
  | share ptr =>
    obtain ⟨q, hq⟩ := Entry.run_share.mp hs
    exact sameScan_share hq
  | own ptr =>
    obtain rfl | ⟨q, hq⟩ := Entry.run_own hs
    · exact .refl _
    · exact sameScan_share hq
  | release ptr =>
    cases ptr with
    | own c => exact sameScan_decr hs
    | null | borrow c =>
      obtain rfl := Except.ok.inj hs
      exact .refl _
    | alwaysBorrow | immediate => cases hs
  | decr ptr =>
    cases ptr with
    | own c => exact sameScan_decr hs
    | null | borrow | alwaysBorrow | immediate => cases hs
  | notify ptr target => exact sameScan_notify hs
  | write c slot ptr =>
    obtain ⟨o, -, -, rfl⟩ := Entry.run_write.mp hs
    exact ⟨rfl, rfl⟩
  | gcCycle budgets =>
    obtain rfl := Except.ok.inj hs
    exact ⟨rfl, rfl⟩
  | gcReleasing =>
    obtain ⟨r, hr, rfl⟩ := Entry.run_gcReleasing.mp hs
    cases r with
    | none => exact .refl _
    | some u => exact sameScan_releasing (syliStateGcReleasing_effect hr)
  | gcTracing roots => exact absurd rfl (he roots)

theorem descends_gcRemoveCandidateAt {i : Nat} (h : gcRemoveCandidateAt s i = .ok s') :
    Descends s s' := by
  unfold gcRemoveCandidateAt at h
  split at h
  · cases h
  rename_i last hlast
  rw [List.getLast?_eq_getElem?] at hlast
  split at h
  · obtain rfl := Except.ok.inj h
    intro j b hb
    replace hb : s.cyclicCandidates.dropLast[j]? = some b := hb
    rw [List.getElem?_dropLast] at hb
    split at hb
    · exact ⟨j, Nat.le_refl j, hb⟩
    · cases hb
  · simp only [bind_eq_ok, deref_eq_ok, check_eq_ok, pure_eq_ok] at h
    obtain ⟨-, hi, o, -, -, -, rfl⟩ := h
    intro j b hb
    replace hb : (s.cyclicCandidates.set i last).dropLast[j]? = some b := hb
    rw [List.getElem?_dropLast, List.length_set] at hb
    split at hb
    · by_cases hji : j = i
      · -- the last entry has moved down
        subst hji
        rw [List.getElem?_set_self hi] at hb
        obtain rfl := Option.some.inj hb
        exact ⟨_, by omega, hlast⟩
      · rw [List.getElem?_set_ne (Ne.symm hji)] at hb
        exact ⟨j, Nat.le_refl j, hb⟩
    · cases hb

/-- `free_released_object` takes the object out of the registry, and waits or frees it. -/
theorem freeReleasedObject_cases (h : freeReleasedObject s a = .ok s') :
    ∃ o u, s.heap a = some o ∧ Descends s u ∧
      (∃ candidates index, u = s.setRegistry candidates index) ∧
        (s' = u.setObj a { o with cyclicCandidate := false, waitingRemove := true } ∨
          s' = (gcAccountCyclicFree u o).dropObj a) := by
  unfold freeReleasedObject at h
  simp only [bind_eq_ok, deref_eq_ok] at h
  obtain ⟨o, ho, h⟩ := h
  obtain ⟨u, hd, hreg, h⟩ : ∃ u, Descends s u ∧
      (∃ candidates index, u = s.setRegistry candidates index) ∧
      (if o.tracing = true then
        pure (u.setObj a { o with cyclicCandidate := false, waitingRemove := true })
      else (gcAccountCyclicFree (u.setObj a { o with cyclicCandidate := false })
        { o with cyclicCandidate := false }).free a) = Except.ok s' := by
    split at h
    · obtain ⟨-, -, h⟩ := bind_eq_ok.mp h
      obtain ⟨u, hu, h⟩ := bind_eq_ok.mp h
      exact ⟨u, descends_gcRemoveCandidateAt hu, gcRemoveCandidateAt_effect hu, h⟩
    · exact ⟨s, .of_eq rfl, ⟨s.cyclicCandidates, s.candidateIndex, rfl⟩, h⟩
  refine ⟨o, u, ho, hd, hreg, ?_⟩
  split at h
  · obtain rfl := pure_eq_ok.mp h
    exact Or.inl rfl
  · obtain ⟨-, rfl⟩ := free_eq_ok.mp h
    right
    unfold gcAccountCyclicFree
    split
    · simp [SyliState.setObj, SyliState.dropObj, SyliState.setGauges]
    · simp

theorem descends_freeReleasedObject (h : freeReleasedObject s a = .ok s') :
    Descends s s' ∧ s'.next = s.next := by
  obtain ⟨o, u, -, hd, ⟨candidates, index, rfl⟩, rfl | rfl⟩ := freeReleasedObject_cases h
  · exact ⟨hd.trans (.of_eq rfl), rfl⟩
  · obtain ⟨g, hg⟩ := gcAccountCyclicFree_effect (s.setRegistry candidates index) o
    rw [hg]
    exact ⟨hd.trans (.of_eq rfl), rfl⟩

/-- Without an allocation no entry of the registry is new, and none moves up. -/
theorem kept_descends (s₀ : SyliState) :
    Kept (fun s : SyliState => Descends s₀ s ∧ s.next = s₀.next) fun _ => True where
  same h hs := ⟨h.1.trans (.of_eq hs.candidates), hs.next.trans h.2⟩
  setObj h _ _ _ _ := ⟨h.1.trans (.of_eq rfl), h.2⟩
  freeReleased h hs :=
    ⟨h.1.trans (descends_freeReleasedObject hs).1, (descends_freeReleasedObject hs).2.trans h.2⟩
  freeWaiting h ho hw := by
    rename_i s a o
    obtain ⟨g, hg⟩ := gcAccountCyclicFree_effect s o
    rw [hg]
    exact ⟨h.1.trans (.of_eq rfl), h.2⟩
  free h _ _ := ⟨h.1.trans (.of_eq rfl), h.2⟩

/-- An entry of the registry after a call: the object just allocated, or an entry that did not
move up. -/
theorem candidates_run (hs : e.run k s = .ok s') :
    s.next ≤ s'.next ∧ ∀ (i : Nat) (b : Addr), s'.cyclicCandidates[i]? = some b →
      b = s.next ∧ s.next < s'.next ∨ ∃ j : Nat, i ≤ j ∧ s.cyclicCandidates[j]? = some b := by
  by_cases he : ∃ header n, e = .alloc header n
  · obtain ⟨header, n, rfl⟩ := he
    obtain ⟨a, ha⟩ := Entry.run_alloc.mp hs
    obtain ⟨candidate, candidates, index, g, hlist, -, rfl⟩ := alloc_registry ha
    refine ⟨by simp, ?_⟩
    intro i b hb
    replace hb : candidates[i]? = some b := by simpa using hb
    cases hlist with
    | skip => exact Or.inr ⟨i, Nat.le_refl i, hb⟩
    | push _ =>
      rw [List.getElem?_append] at hb
      split at hb
      · exact Or.inr ⟨i, Nat.le_refl i, hb⟩
      · have hmem := List.mem_of_getElem? hb
        exact Or.inl ⟨List.mem_singleton.mp hmem, Nat.lt_succ_self _⟩
  · have hfree : e.FreesOnly (fun _ => True) s := by
      cases e with
      | release ptr | decr ptr => exact fun _ _ _ _ _ _ => trivial
      | gcTracing roots => exact fun _ _ _ _ _ _ _ _ _ => trivial
      | _ => trivial
    have hcount : CountKept k (fun u : SyliState => Descends s u ∧ u.next = s.next) :=
      ⟨fun h _ => ⟨h.1.trans (.of_eq rfl), h.2⟩, fun h _ _ => ⟨h.1.trans (.of_eq rfl), h.2⟩⟩
    obtain ⟨hd, hnext⟩ := (kept_descends s).run hcount ⟨.of_eq rfl, rfl⟩ hs hfree
      fun header n _ heq _ => absurd ⟨header, n, heq⟩ he
    exact ⟨Nat.le_of_eq hnext.symm, fun i b hb => Or.inr (hd i b hb)⟩

theorem candidates_lt_next (hr : Runs (Entry.run wordCounts) (fun _ _ => True) (syliStateInit env) s) :
    ∀ a ∈ s.cyclicCandidates, a < s.next := by
  refine hr.invariant (P := fun s => ∀ a ∈ s.cyclicCandidates, a < s.next)
    (by simp [syliStateInit]) ?_
  intro s e s' h _ hs b hb
  obtain ⟨hle, hentries⟩ := candidates_run hs
  obtain ⟨i, hi⟩ := List.mem_iff_getElem?.mp hb
  rcases hentries i b hi with ⟨rfl, hlt⟩ | ⟨j, -, hj⟩
  · exact hlt
  · exact Nat.lt_of_lt_of_le (h b (List.mem_of_getElem? hj)) hle

/-- The index that `gc_one_step_scan` reads, after clamping: none when the list is drained. -/
def scanIndex (s : SyliState) : Option Nat :=
  match min s.currentCandidateCheckIndex s.cyclicCandidates.length with
  | 0 => none
  | index + 1 => some index

/-- What `gc_one_step_scan` does with the candidate that it has read. -/
def scanCandidate (s : SyliState) (a : Addr) : Result SyliState := do
  let o ← s.deref a
  if gcIsObjectMarkTagged s o then return s
  let s ← releaseChildrenOnce s a
  let o ← s.deref a
  if o.refcount = 0 then lostCycleEnqueueFree s a else return s

/-- The only entry of the registry that `gc_one_step_scan` reads is the one at `scanIndex`. -/
theorem gcOneStepScan_eq (s : SyliState) :
    gcOneStepScan s =
      match scanIndex s with
      | none => .ok (s.setCheckIndex 0)
      | some index =>
        match s.cyclicCandidates[index]? with
        | none => .error .nullDeref
        | some a => scanCandidate (s.setCheckIndex index) a := by
  unfold gcOneStepScan scanIndex
  cases min s.currentCandidateCheckIndex s.cyclicCandidates.length with
  | zero => rfl
  | succ index => rfl

theorem scanIndex_eq_some {i : Nat} :
    scanIndex s = some i ↔
      min s.currentCandidateCheckIndex s.cyclicCandidates.length = i + 1 := by
  unfold scanIndex
  cases min s.currentCandidateCheckIndex s.cyclicCandidates.length with
  | zero => simp
  | succ index => simp

theorem scanIndex_lt {i : Nat} (h : scanIndex s = some i) : i < s.cyclicCandidates.length := by
  have := scanIndex_eq_some.mp h
  omega

/-- The next iteration of the tracing loop calls `gc_one_step_scan`. -/
def Scans (s : SyliState) : Prop :=
  0 < s.budgets.tracing ∧ s.tracingState = .reclaimingCyclicCandidates ∧
    s.lostCycleWorklist = [] ∧ s.currentCandidateCheckIndex ≠ 0

instance (s : SyliState) : Decidable (Scans s) := inferInstanceAs (Decidable (_ ∧ _ ∧ _ ∧ _))

theorem scans_iterate (roots : List ObjPtr) (h : Scans s) :
    syliStateGcTracing s roots = (gcOneStepScan (s.chargeChecking 1)).map some := by
  obtain ⟨hb, hst, hlost, hindex⟩ := h
  unfold syliStateGcTracing
  rw [if_neg (by omega), hst]
  have hlost' : ¬ (s.chargeChecking 1).lostCycleWorklist ≠ [] := not_not.mpr hlost
  have hindex' : ¬ (s.chargeChecking 1).currentCandidateCheckIndex = 0 := hindex
  simp only [if_neg hlost', if_neg hindex']
  rfl

/-- The candidate that an entry point scans. -/
def scanned (s : SyliState) : Entry → Option Addr
  | .gcTracing _ => if Scans s then (scanIndex s).bind fun i => s.cyclicCandidates[i]? else none
  | _ => none

/-- The iteration that calls `gc_one_step_scan` finds the list drained, or reads the candidate that
counts as scanned and no other. -/
inductive ScanRead (s : SyliState) (roots : List ObjPtr) : Prop where
  | drained : scanIndex s = none → scanned s (.gcTracing roots) = none →
      syliStateGcTracing s roots = .ok (some ((s.chargeChecking 1).setCheckIndex 0)) →
      ScanRead s roots
  | read (i : Nat) (a : Addr) : scanIndex s = some i → s.cyclicCandidates[i]? = some a →
      scanned s (.gcTracing roots) = some a →
      syliStateGcTracing s roots =
        (scanCandidate ((s.chargeChecking 1).setCheckIndex i) a).map some →
      ScanRead s roots

theorem scanRead (h : Scans s) : ScanRead s roots := by
  have hstep := scans_iterate roots h
  rw [gcOneStepScan_eq] at hstep
  have hindex : scanIndex (s.chargeChecking 1) = scanIndex s := rfl
  rw [hindex] at hstep
  cases hi : scanIndex s with
  | none =>
    rw [hi] at hstep
    exact .drained hi (by simp [scanned, h, hi]) hstep
  | some i =>
    obtain ⟨a, ha⟩ : ∃ a, s.cyclicCandidates[i]? = some a :=
      ⟨_, List.getElem?_eq_getElem (scanIndex_lt hi)⟩
    have hread : (s.chargeChecking 1).cyclicCandidates[i]? = some a := ha
    rw [hi] at hstep
    simp only [hread] at hstep
    exact .read i a hi ha (by simp [scanned, h, hi, ha]) hstep

/-- A trace that was started in `s₀` is under way, or has just ended in `s`; `visited` are the
candidates that it has scanned. Any entry points run between its iterations. -/
inductive Traces (s₀ : SyliState) : SyliState → List Addr → Prop where
  | start {s : SyliState} (roots : List ObjPtr) : TraceStarts s₀ →
      Entry.run wordCounts s₀ (.gcTracing roots) = .ok s → Traces s₀ s []
  | step {s s' : SyliState} {visited : List Addr} (e : Entry) : Traces s₀ s visited →
      s.tracingState ≠ .idle → e.run wordCounts s = .ok s' →
      Traces s₀ s' ((scanned s e).toList ++ visited)

/-- Follows the entry points from a state of a trace, for as long as they succeed. -/
def traceRun : SyliState → List Addr → List Entry → Option (SyliState × List Addr)
  | s, visited, [] => some (s, visited)
  | s, visited, e :: es =>
    if s.tracingState = .idle then none
    else match e.run wordCounts s with
      | .ok s' => traceRun s' ((scanned s e).toList ++ visited) es
      | .error _ => none

theorem Traces.of_traceRun {es : List Entry} {v : List Addr} (h : Traces s₀ u v)
    (hs : traceRun u v es = some (s, visited)) : Traces s₀ s visited := by
  induction es generalizing u v with
  | nil =>
    obtain ⟨rfl, rfl⟩ := Prod.mk.inj (Option.some.inj hs)
    exact h
  | cons e es ih =>
    unfold traceRun at hs
    split at hs
    · cases hs
    · rename_i hbusy
      split at hs
      · exact ih (h.step e hbusy ‹_›) hs
      · cases hs

/-- What was registered at the start of the trace was scanned or lies below the cursor. -/
structure Scanning (s₀ s : SyliState) (visited : List Addr) : Prop where
  known : ∀ a ∈ s₀.cyclicCandidates, a < s.next
  ahead : ∀ i a, s.cyclicCandidates[i]? = some a → a ∈ s₀.cyclicCandidates →
    a ∈ visited ∨ i < s.currentCandidateCheckIndex
  idle : s.tracingState = .idle → s.currentCandidateCheckIndex = 0

namespace Scanning

theorem start (hknown : ∀ a ∈ s₀.cyclicCandidates, a < s₀.next) (ht : TraceStarts s₀)
    (hs : Entry.run wordCounts s₀ (.gcTracing roots) = .ok s) : Scanning s₀ s [] := by
  obtain ⟨r, hr, rfl⟩ := Entry.run_gcTracing.mp hs
  obtain ⟨u, rfl⟩ : ∃ u, r = some u := by
    cases r with
    | some u => exact ⟨u, rfl⟩
    | none =>
      obtain ⟨hidle, hb, htrig⟩ := ht
      unfold syliStateGcTracing at hr
      rw [if_neg (by omega), hidle] at hr
      simp only [htrig, if_true, bind_eq_ok] at hr
      obtain ⟨v, -, hr⟩ := hr
      split at hr <;> cases hr
  obtain ⟨new, t, -, ht', rfl⟩ := (syliStateGcTracing_effect hr).of_idle ht.1
  refine ⟨hknown, ?_, ?_⟩
  · intro i a ha _
    have ha : s₀.cyclicCandidates[i]? = some a := by simpa using ha
    exact Or.inr (by simpa using (List.getElem?_eq_some_iff.mp ha).1)
  · intro hidle
    have hidle : t = .idle := by simpa using hidle
    rw [ht'] at hidle
    split at hidle <;> cases hidle

/-- What the entries below a cursor that does not move become. -/
theorem descend (h : Scanning s₀ s visited) (hs : e.run k s = .ok s') {i : Nat}
    (ha : s'.cyclicCandidates[i]? = some a) (hmem : a ∈ s₀.cyclicCandidates) :
    ∃ j, i ≤ j ∧ s.cyclicCandidates[j]? = some a := by
  rcases (candidates_run hs).2 i a ha with ⟨rfl, -⟩ | hold
  · exact absurd (h.known _ hmem) (Nat.lt_irrefl _)
  · exact hold

/-- The rule for the calls that leave the cursor where it is. -/
theorem of_index (h : Scanning s₀ s visited) (hs : e.run k s = .ok s')
    (hindex : s'.currentCandidateCheckIndex = s.currentCandidateCheckIndex)
    (hidle : s'.tracingState = .idle → s.currentCandidateCheckIndex = 0) :
    Scanning s₀ s' visited := by
  refine ⟨?_, ?_, ?_⟩
  · intro b hb
    exact Nat.lt_of_lt_of_le (h.known b hb) (candidates_run hs).1
  · intro i b hb hmem
    obtain ⟨j, hij, hj⟩ := h.descend hs hb hmem
    rcases h.ahead j b hj hmem with hv | hlt
    · exact Or.inl hv
    · exact Or.inr (by omega)
  · intro hst
    exact hindex.trans (hidle hst)

/-- The rule for a scan: the cursor moves down by one, past the candidate that is visited. -/
theorem of_scan (h : Scanning s₀ s visited) (hs : e.run k s = .ok s') {i : Nat}
    (hi : scanIndex s = some i) (ha : s.cyclicCandidates[i]? = some a)
    (hindex : s'.currentCandidateCheckIndex = i) (hidle : s'.tracingState ≠ .idle) :
    Scanning s₀ s' (a :: visited) := by
  have hmin := scanIndex_eq_some.mp hi
  refine ⟨?_, ?_, fun hst => absurd hst hidle⟩
  · intro b hb
    exact Nat.lt_of_lt_of_le (h.known b hb) (candidates_run hs).1
  · intro k b hb hmem
    obtain ⟨j, hkj, hj⟩ := h.descend hs hb hmem
    rcases h.ahead j b hj hmem with hv | hlt
    · exact Or.inl (List.mem_cons_of_mem a hv)
    · have hjl : j < s.cyclicCandidates.length := (List.getElem?_eq_some_iff.mp hj).1
      by_cases hji : j = i
      · subst hji
        obtain rfl := Option.some.inj (ha.symm.trans hj)
        exact Or.inl List.mem_cons_self
      · exact Or.inr (by omega)

theorem visited_of_idle (h : Scanning s₀ s visited) (hst : s.tracingState = .idle)
    (hstart : a ∈ s₀.cyclicCandidates) (ha : a ∈ s.cyclicCandidates) : a ∈ visited := by
  obtain ⟨i, hi⟩ := List.mem_iff_getElem?.mp ha
  rcases h.ahead i a hi hstart with hv | hlt
  · exact hv
  · have := h.idle hst
    omega

theorem mono (h : Scanning s₀ s visited) (l : List Addr) : Scanning s₀ s (l ++ visited) := by
  refine ⟨h.known, ?_, h.idle⟩
  intro i b hb hmem
  rcases h.ahead i b hb hmem with hv | hlt
  · exact Or.inl (List.mem_append_right l hv)
  · exact Or.inr hlt

end Scanning

theorem markStep_state_ne (h : MarkStep s s') : s'.tracingState ≠ .idle := by
  have hafter : ∀ l ms, afterTracing l ms ≠ .idle := by
    intro l ms
    unfold afterTracing
    split
    · simp
    · split <;> simp
  cases h with
  | popWaiting g _ _ _ _ ht =>
    subst ht
    exact hafter _ _
  | popSkip _ _ _ _ _ ht =>
    subst ht
    exact hafter _ _
  | popMark b _ _ _ _ _ _ _ _ ht =>
    subst ht
    exact hafter _ _
  | mutationsDone _ _ ht =>
    subst ht
    change (if s.tracingWorklist = [] then TracingState.reclaimingCyclicCandidates
      else .tracing) ≠ .idle
    split <;> simp
  | mutationWaiting hst _ _ _ =>
    change s.tracingState ≠ .idle
    simp [hst]
  | mutationScan b hst _ _ _ =>
    change s.tracingState ≠ .idle
    simp [hst]

theorem markStep_index (h : MarkStep s s') :
    s'.currentCandidateCheckIndex = s.currentCandidateCheckIndex := by
  cases h with
  | popMark b _ _ _ _ _ _ hu _ _ =>
    subst hu
    rfl
  | _ => rfl

theorem tracing_budget_pos (h : syliStateGcTracing s roots = .ok (some s')) :
    0 < s.budgets.tracing := by
  by_contra hb
  unfold syliStateGcTracing at h
  rw [if_pos (by omega)] at h
  cases h

theorem scanned_eq {i : Nat} (hb : 0 < s.budgets.tracing)
    (hst : s.tracingState = .reclaimingCyclicCandidates) (hlost : s.lostCycleWorklist = [])
    (hi : scanIndex s = some i) (ha : s.cyclicCandidates[i]? = some a) :
    scanned s (.gcTracing roots) = some a := by
  have hmin := scanIndex_eq_some.mp hi
  have hscans : Scans s := ⟨hb, hst, hlost, by omega⟩
  simp only [scanned, if_pos hscans, hi, Option.bind_some, ha]

namespace Scanning

/-- An iteration of the reclaiming: only a scan moves the cursor, and only a cursor at 0 ends it. -/
theorem reclaim (h : Scanning s₀ s visited) (hrun : Entry.run k s (.gcTracing roots) = .ok s')
    (hb : 0 < s.budgets.tracing) (hs : ReclaimStep s s') :
    Scanning s₀ s' ((scanned s (.gcTracing roots)).toList ++ visited) := by
  cases hs with
  | @reclaimFree u _ c rest b hst _ hu hf =>
    obtain ⟨o, -, hr⟩ := freeReleasedObject_effect hf
    have hsame := (sameScan_releaseOnce hu).trans (sameScan_removed hr)
    refine (h.of_index hrun hsame.index fun hidle => ?_).mono _
    have hidle' : s.tracingState = .idle := hsame.state.symm.trans hidle
    simp [hst] at hidle'
  | reclaimDone b _ _ hzero => exact (h.of_index hrun rfl fun _ => hzero).mono _
  | scanIdle b hst _ hdrained =>
    have hne : ((s.setBudgets b).setCheckIndex 0).tracingState ≠ .idle := by
      change s.tracingState ≠ .idle
      simp [hst]
    rcases hdrained with hzero | hnil
    · exact (h.of_index hrun hzero.symm fun hidle => absurd hidle hne).mono _
    · refine mono ⟨?_, ?_, fun hidle => absurd hidle hne⟩ _
      · exact h.known
      · intro i c hc _
        have hsome : s.cyclicCandidates[i]? = some c := hc
        simp [hnil] at hsome
  | @scanMarked c o i b hst hlost hmin hc _ _ =>
    have hi := scanIndex_eq_some.mpr hmin
    have hne : ((s.setBudgets b).setCheckIndex i).tracingState ≠ .idle := by
      change s.tracingState ≠ .idle
      simp [hst]
    rw [scanned_eq hb hst hlost hi hc]
    exact h.of_scan hrun hi hc rfl hne
  | @scanRelease u _ c o o' i b hst hlost hmin hc _ _ hu _ hs' =>
    have hi := scanIndex_eq_some.mpr hmin
    have hsame := sameScan_releaseOnce hu
    have hindex : s'.currentCandidateCheckIndex = i := by
      rcases hs' with ⟨-, rfl⟩ | ⟨-, rfl⟩
      · exact hsame.index
      · exact hsame.index
    have hstate : s'.tracingState = s.tracingState := by
      rcases hs' with ⟨-, rfl⟩ | ⟨-, rfl⟩
      · exact hsame.state
      · exact hsame.state
    rw [scanned_eq hb hst hlost hi hc]
    refine h.of_scan hrun hi hc hindex ?_
    rw [hstate, hst]
    simp

theorem step (h : Scanning s₀ s visited) (hbusy : s.tracingState ≠ .idle)
    (hs : e.run k s = .ok s') : Scanning s₀ s' ((scanned s e).toList ++ visited) := by
  by_cases he : ∃ roots, e = .gcTracing roots
  · obtain ⟨roots, rfl⟩ := he
    obtain ⟨r, hr, hr'⟩ := bind_eq_ok.mp hs
    obtain rfl := pure_eq_ok.mp hr'
    cases r with
    | none => exact h.mono _
    | some u =>
      cases syliStateGcTracing_effect hr with
      | start ht _ _ => exact absurd ht.1 hbusy
      | mark hm =>
        exact (h.of_index hs (markStep_index hm) fun hidle =>
          absurd hidle (markStep_state_ne hm)).mono _
      | reclaim hrec => exact h.reclaim hs (tracing_budget_pos hr) hrec
  · have hsame := sameScan_run hs fun roots heq => he ⟨roots, heq⟩
    exact (h.of_index hs hsame.index fun hidle =>
      absurd (hsame.state.symm.trans hidle) hbusy).mono _

end Scanning

theorem scanning_of_traces (hknown : ∀ a ∈ s₀.cyclicCandidates, a < s₀.next)
    (ht : Traces s₀ s visited) : Scanning s₀ s visited := by
  induction ht with
  | start roots hstart hs => exact .start hknown hstart hs
  | step e _ hbusy hs ih => exact ih.step hbusy hs

/-- When the machine is idle again, every candidate that was registered at the start of the trace
and still is has been scanned; a scan never reads behind the registry, and reads what counts as
scanned. -/
theorem candidates_scanned (hr : Runs (Entry.run wordCounts) (fun _ _ => True) (syliStateInit env) s₀)
    (ht : Traces s₀ s visited) :
    (s.tracingState = .idle →
      ∀ a ∈ s₀.cyclicCandidates, a ∈ s.cyclicCandidates → a ∈ visited) ∧
        (∀ i ∈ scanIndex s, i < s.cyclicCandidates.length) ∧ ∀ roots, Scans s → ScanRead s roots :=
  ⟨fun hidle _ hstart ha =>
    (scanning_of_traces (candidates_lt_next hr) ht).visited_of_idle hidle hstart ha,
    fun _ hi => scanIndex_lt hi, fun _ hscans => scanRead hscans⟩

/-- Between two scans the first candidate is freed, and the third one takes its place. -/
theorem candidates_scanned_swap :
    ∃ s₀ s visited, Runs (Entry.run wordCounts) (fun _ _ => True) (syliStateInit testEnv) s₀ ∧
      Traces s₀ s visited ∧ s₀.cyclicCandidates = [1, 2, 3] ∧ s.cyclicCandidates = [3, 2] ∧
        s.tracingState = .idle ∧ ∀ a ∈ s.cyclicCandidates, a ∈ visited := by
  obtain ⟨s₀, hs₀, hstart, hfirst⟩ :
      ∃ s₀ ∈ execute (Entry.run wordCounts) (fun _ _ => True) (syliStateInit testEnv)
        [.alloc (mutableCell 1) 1, .alloc (mutableCell 1) 1, .alloc (mutableCell 1) 1,
          .gcCycle { tracing := 100, releasing := 100 }],
        TraceStarts s₀ ∧ s₀.cyclicCandidates = [1, 2, 3] ∧
          ∃ u ∈ (Entry.run wordCounts s₀ (.gcTracing [.own 1, .own 2, .own 3])).toOption,
            ∃ r ∈ traceRun u [] (List.replicate 4 (.gcTracing []) ++
              [.release (.own 1), .gcReleasing, .gcReleasing] ++
                List.replicate 3 (.gcTracing [])),
              r.1.cyclicCandidates = [3, 2] ∧ r.1.tracingState = .idle := by
    decide +kernel
  obtain ⟨hc₀, u, hu, ⟨s, visited⟩, hr, hc, hidle⟩ := hfirst
  have hruns := Runs.of_execute hs₀
  have htraces := Traces.of_traceRun (.start _ hstart (mem_toOption.mp hu)) hr
  refine ⟨s₀, s, visited, hruns, htraces, hc₀, hc, hidle, ?_⟩
  intro a ha
  refine (candidates_scanned hruns htraces).1 hidle a ?_ ha
  rw [hc] at ha
  simp only [hc₀, List.mem_cons] at ha ⊢
  tauto

end Syli.Collector
