import Syli.Collector.Registry
import Syli.Runtime.Entries

/-! The candidate registry is consistent along every run of the entry points. -/
namespace Syli.Collector

open Foundation Syli.Runtime

variable {s s' : SyliState} {a : Addr} {o : GCObject} {env : Env} {e : Entry}

/-- Entry and object name each other, and removing a candidate by its index removes that object. -/
structure RegistryConsistent (s : SyliState) : Prop where
  entry : ∀ (i : Nat) (a : Addr), s.cyclicCandidates[i]? = some a →
    (∃ o, s.heap a = some o ∧ o.cyclicCandidate = true) ∧ s.candidateIndex a = i
  once : ∀ a o, s.heap a = some o → o.cyclicCandidate = true →
    ∃! i : Nat, s.cyclicCandidates[i]? = some a
  removes : ∀ a o, s.heap a = some o → o.cyclicCandidate = true →
    ∃ s', gcRemoveCandidateAt s (s.candidateIndex a) = .ok s' ∧
      ∀ b, b ∈ s'.cyclicCandidates ↔ b ∈ s.cyclicCandidates ∧ b ≠ a

/-- A cyclic-mutable header is not the header of an object without references. -/
def MutableHasRefs (header : ObjectHeader) : Prop :=
  header.isCyclicMutable = true → header.isMonoImm = false

instance (header : ObjectHeader) : Decidable (MutableHasRefs header) :=
  inferInstanceAs (Decidable (_ → _))

/-- The compiler gives the cyclic-mutable bit to types with a reference field only. -/
def CompilerHeaders (_ : SyliState) : Entry → Prop
  | .alloc header _ => MutableHasRefs header
  | _ => True

instance (s : SyliState) (e : Entry) : Decidable (CompilerHeaders s e) := by
  cases e <;> (unfold CompilerHeaders; infer_instance)

/-- The entry point gives up no count below 1, and raises none past 56 bits. -/
def CountsInRange (s : SyliState) : Entry → Prop
  | .alloc _ refcount => refcount < 2 ^ 56
  | .share p => ∀ a ∈ p.untag.toOption, ∀ o ∈ s.heap a, o.refcount + 1 < 2 ^ 56
  | .own p => p.ownRef? = none →
      ∀ a ∈ p.untag.toOption, ∀ o ∈ s.heap a, o.refcount + 1 < 2 ^ 56
  | .release p | .decr p => ∀ a ∈ p.ownRef?, ∀ o ∈ s.heap a, 0 < o.refcount
  | _ => True

instance (s : SyliState) (e : Entry) : Decidable (CountsInRange s e) := by
  cases e <;> (unfold CountsInRange; infer_instance)

/-- Calls of compiled code that keep the counts in their range. -/
def CountedCalls (s : SyliState) (e : Entry) : Prop := CompilerHeaders s e ∧ CountsInRange s e

instance (s : SyliState) (e : Entry) : Decidable (CountedCalls s e) :=
  inferInstanceAs (Decidable (_ ∧ _))

theorem syliRtOwnershipShare_word {p : ObjPtr}
    (h : ∀ a ∈ p.untag.toOption, ∀ o ∈ s.heap a, o.refcount + 1 < 2 ^ 56) :
    syliRtOwnershipShare wordCounts s p = syliRtOwnershipShare naturalCounts s p := by
  unfold syliRtOwnershipShare
  cases hp : p.untag with
  | error => rfl
  | ok a =>
    have hincr := syliRtObjectIncr_word (h a (mem_toOption.mpr hp))
    exact congrArg (fun r => r >>= fun s => pure (ObjPtr.own a, s)) hincr

/-- In their range the counts of the words are natural numbers. -/
theorem run_wordCounts (h : CountsInRange s e) : e.run wordCounts s = e.run naturalCounts s := by
  cases e with
  | share p =>
    have hshare := syliRtOwnershipShare_word h
    exact congrArg (fun r => r >>= fun r => pure r.2) hshare
  | own p =>
    cases p with
    | own a => rfl
    | null | borrow | alwaysBorrow | immediate =>
      have hshare := syliRtOwnershipShare_word (h rfl)
      exact congrArg (fun r => r >>= fun r => pure r.2) hshare
  | release p | decr p =>
    cases p with
    | own a => exact syliRtObjectDecr_word (h a rfl)
    | null | borrow | alwaysBorrow | immediate => rfl
  | _ => rfl

structure Candidates (s : SyliState) : Prop where
  registered : Registered s
  headers : ∀ a o, s.heap a = some o → MutableHasRefs o.header
  fresh : ∀ a o, s.heap a = some o → a < s.next

theorem kept_candidates : Kept Candidates fun o => o.cyclicCandidate = false where
  same h hs := by
    refine ⟨h.registered.congr hs.candidates hs.index ?_ ?_, ?_, ?_⟩
    · intro a o ho hflag
      exact ⟨o, by rw [hs.heap]; exact ho, hflag, rfl⟩
    · intro a o ho
      rw [hs.heap] at ho
      exact ⟨o, ho, rfl, Or.inl⟩
    · intro a o ho
      rw [hs.heap] at ho
      exact h.headers a o ho
    · intro a o ho
      rw [hs.heap] at ho
      rw [hs.next]
      exact h.fresh a o ho
  setObj h ho hheader hflag hwait := by
    refine ⟨h.registered.setObj ho hheader hflag fun hw => Or.inl (hwait ▸ hw), ?_, ?_⟩
    · intro b ob hob
      rcases heap_cases rfl hob with ⟨rfl, rfl⟩ | ⟨-, hb⟩
      · rw [hheader]
        exact h.headers _ _ ho
      · exact h.headers b ob hb
    · intro b ob hob
      rcases heap_cases rfl hob with ⟨rfl, rfl⟩ | ⟨-, hb⟩
      · exact h.fresh _ _ ho
      · exact h.fresh b ob hb
  freeReleased h hs := by
    obtain ⟨o, ho, hremoved⟩ := freeReleasedObject_effect hs
    obtain ⟨s', hs', hreg, -⟩ := h.registered.freeReleasedObject ho
    obtain rfl := Except.ok.inj (hs.symm.trans hs')
    refine ⟨hreg, ?_, ?_⟩
    · intro b ob hob
      cases hremoved with
      | drop => exact h.headers b ob (heap_drop_cases rfl hob).2
      | wait =>
        rcases heap_cases rfl hob with ⟨rfl, rfl⟩ | ⟨-, hb⟩
        · have hheader : MutableHasRefs o.header := h.headers _ o ho
          exact hheader
        · exact h.headers b ob hb
    · intro b ob hob
      cases hremoved with
      | drop => exact h.fresh b ob (heap_drop_cases rfl hob).2
      | wait =>
        rcases heap_cases rfl hob with ⟨rfl, rfl⟩ | ⟨-, hb⟩
        · exact h.fresh _ _ ho
        · exact h.fresh b ob hb
  freeWaiting h ho hw := by
    rename_i s a o
    obtain ⟨g, hg⟩ := gcAccountCyclicFree_effect s o
    rw [hg]
    have hreg := h.registered.dropObj ho (h.registered.waiting _ _ ho hw)
    refine ⟨{ hreg with }, ?_, ?_⟩
    · exact fun b ob hob => h.headers b ob (heap_drop_cases rfl hob).2
    · exact fun b ob hob => h.fresh b ob (heap_drop_cases rfl hob).2
  free h ho hflag :=
    ⟨h.registered.dropObj ho hflag, fun b ob hob => h.headers b ob (heap_drop_cases rfl hob).2,
      fun b ob hob => h.fresh b ob (heap_drop_cases rfl hob).2⟩

/-- What is freed without a look at the registry is no candidate. -/
theorem Candidates.freesOnly (h : Candidates s) (e : Entry) :
    e.FreesOnly (fun o => o.cyclicCandidate = false) s := by
  have himm : ∀ a o, s.heap a = some o → o.header.isMonoImm = true →
      o.cyclicCandidate = false := by
    intro a o ho himm
    by_contra hflag
    have hmem := h.registered.listed a o ho (by simpa using hflag)
    obtain ⟨o', ho', -, hmut⟩ := h.registered.flagged hmem
    obtain rfl := Option.some.inj (ho.symm.trans ho')
    have := h.headers a o ho hmut
    simp [himm] at this
  cases e with
  | release p | decr p => exact fun a o _ ho _ hi => himm a o ho hi
  | gcTracing roots => exact fun _ _ a o _ _ _ ho hw => h.registered.waiting a o ho hw
  | _ => trivial

/-- A new object becomes a candidate exactly when it is entered into the registry. -/
theorem Registered.alloc {header : ObjectHeader} {n : Nat} {candidate : Bool} {g : Gauges}
    {candidates : List Addr} {index : Addr → Nat} (h : Registered s) (hnew : s.heap s.next = none)
    (hlist : Enlisted s header candidate candidates index) :
    Registered ((((s.setObj s.next (newObject s header n candidate)).bumpNext).setGauges
      g).setRegistry candidates index) := by
  have hcases : ∀ b ob, (s.setObj s.next (newObject s header n candidate)).heap b = some ob →
      b = s.next ∧ ob = newObject s header n candidate ∨ b ≠ s.next ∧ s.heap b = some ob :=
    fun b ob => heap_cases rfl
  have hother : ∀ a ∈ s.cyclicCandidates, a ≠ s.next := by
    rintro a ha rfl
    obtain ⟨o, ho, -⟩ := h.flagged ha
    simp [hnew] at ho
  have hold : ∀ (i : Nat) (a : Addr), s.cyclicCandidates[i]? = some a → ∃ o,
      (s.setObj s.next (newObject s header n candidate)).heap a = some o ∧
        o.cyclicCandidate = true ∧ o.header.isCyclicMutable = true := by
    intro i a ha
    obtain ⟨-, o, ho, hflag⟩ := h.entry i a ha
    exact ⟨o, by simp [hother a (List.mem_of_getElem? ha), ho], hflag⟩
  constructor
  · intro i a ha
    cases hlist with
    | skip =>
      have ha : s.cyclicCandidates[i]? = some a := by simpa using ha
      exact ⟨by simpa using (h.entry i a ha).1, by simpa using hold i a ha⟩
    | push hmut =>
      have ha : (s.cyclicCandidates ++ [s.next])[i]? = some a := ha
      by_cases hi : i < s.cyclicCandidates.length
      · rw [List.getElem?_append_left hi] at ha
        have hne := hother a (List.mem_of_getElem? ha)
        exact ⟨by simp [hne, (h.entry i a ha).1], hold i a ha⟩
      · have hlast : i = s.cyclicCandidates.length := by
          have := (List.getElem?_eq_some_iff.mp ha).1
          simp only [List.length_append, List.length_singleton] at this
          omega
        obtain rfl : s.next = a := by simpa [hlast] using ha
        exact ⟨by simp [hlast], newObject s header n true, by simp, rfl, hmut⟩
  · intro a o ho hflag
    rcases hcases a o ho with ⟨rfl, rfl⟩ | ⟨-, ha⟩
    · cases hlist with
      | skip => cases hflag
      | push hmut => simp
    · have hmem := h.listed a o ha hflag
      cases hlist with
      | skip => simpa using hmem
      | push hmut => simp [hmem]
  · intro a o ho hw
    rcases hcases a o ho with ⟨rfl, rfl⟩ | ⟨-, ha⟩
    · cases hw
    · exact h.waiting a o ha hw

theorem Candidates.alloc {header : ObjectHeader} {n : Nat} (h : Candidates s)
    (hheader : MutableHasRefs header)
    (hs : syliRtOwnershipAllocObject s header n header.objectLength = .ok (a, s')) :
    Candidates s' := by
  have hnew : s.heap s.next = none := by
    by_contra hne
    obtain ⟨o, ho⟩ := Option.ne_none_iff_exists'.mp hne
    exact absurd (h.fresh _ _ ho) (lt_irrefl _)
  obtain ⟨candidate, candidates, index, g, hlist, -, rfl⟩ := alloc_registry hs
  have hcases : ∀ b ob, (s.setObj s.next (newObject s header n candidate)).heap b = some ob →
      b = s.next ∧ ob = newObject s header n candidate ∨ b ≠ s.next ∧ s.heap b = some ob :=
    fun b ob => heap_cases rfl
  refine ⟨h.registered.alloc hnew hlist, ?_, ?_⟩
  · intro b ob hob
    rcases hcases b ob hob with ⟨rfl, rfl⟩ | ⟨-, hb⟩
    · exact hheader
    · exact h.headers b ob hb
  · intro b ob hob
    rcases hcases b ob hob with ⟨rfl, rfl⟩ | ⟨-, hb⟩
    · exact Nat.lt_succ_self _
    · exact Nat.lt_succ_of_lt (h.fresh b ob hb)

theorem candidates_of_runs
    (hr : Runs (Entry.run naturalCounts) CompilerHeaders (syliStateInit env) s) :
    Candidates s := by
  refine hr.invariant ?_ fun s e s' h hok hs => ?_
  · refine ⟨⟨?_, ?_, ?_⟩, ?_, ?_⟩ <;> simp [syliStateInit]
  · exact kept_candidates.run kept_candidates.natural h hs (h.freesOnly e) fun header n a he halloc =>
      h.alloc (by subst he; exact hok) halloc

/-- Along every run whose counts stay in their range the registry is consistent. -/
theorem registry_consistent
    (hr : Runs (Entry.run wordCounts) CountedCalls (syliStateInit env) s) :
    RegistryConsistent s := by
  have hnatural : Runs (Entry.run naturalCounts) CompilerHeaders (syliStateInit env) s :=
    hr.congr fun s e h => ⟨h.1, run_wordCounts h.2⟩
  have h := (candidates_of_runs hnatural).registered
  have hmem : ∀ a o, s.heap a = some o → o.cyclicCandidate = true →
      s.cyclicCandidates[s.candidateIndex a]? = some a := fun a o ho hflag =>
    h.index (h.listed a o ho hflag)
  refine ⟨fun i a ha => ?_, fun a o ho hflag => ?_, fun a o ho hflag => ?_⟩
  · obtain ⟨hi, o, ho, hflag, -⟩ := h.entry i a ha
    exact ⟨⟨o, ho, hflag⟩, hi⟩
  · exact ⟨s.candidateIndex a, hmem a o ho hflag, fun j hj => (h.entry j a hj).1.symm⟩
  · obtain ⟨candidates, index, hok, hentry, hlisted⟩ :=
      gcRemoveCandidateAt_ok h (h.listed a o ho hflag)
    refine ⟨_, hok, fun b => ⟨fun hb => ?_, fun hb => hlisted b hb.1 hb.2⟩⟩
    obtain ⟨i, hi⟩ := List.mem_iff_getElem?.mp hb
    obtain ⟨-, hba, j, -, hj⟩ := hentry i b hi
    exact ⟨List.mem_of_getElem? hj, hba⟩

/-- Two candidates are allocated; freeing the first one moves the second into its place. -/
theorem registry_consistent_swap :
    ∃ s, Runs (Entry.run wordCounts) CountedCalls (syliStateInit testEnv) s ∧
      RegistryConsistent s ∧ s.cyclicCandidates = [2] ∧ s.candidateIndex 2 = 0 := by
  obtain ⟨s, hs, hc, hi⟩ : ∃ s ∈ execute (Entry.run wordCounts) CountedCalls (syliStateInit testEnv)
      [.alloc (mutableCell 1) 1, .alloc (mutableCell 1) 1, .release (.own 1),
        .gcCycle { releasing := 100 }, .gcReleasing, .gcReleasing],
      s.cyclicCandidates = [2] ∧ s.candidateIndex 2 = 0 := by
    decide +kernel
  exact ⟨s, Runs.of_execute hs, registry_consistent (Runs.of_execute hs), hc, hi⟩

/-- A candidate waits for its release with the count 0. Releasing it again borrows from its flags:
it stays in the registry and is no candidate any more. -/
theorem candidate_cleared_by_release :
    ∃ s, Runs (Entry.run wordCounts) CompilerHeaders (syliStateInit testEnv) s ∧
      ¬ RegistryConsistent s := by
  obtain ⟨s, hs, hlisted, hflag⟩ : ∃ s ∈ execute (Entry.run wordCounts) CompilerHeaders
      (syliStateInit testEnv)
      [.alloc (mutableCell 1) 1, .release (.own 1), .release (.own 1)],
      s.cyclicCandidates = [1] ∧ (s.heap 1).map (·.cyclicCandidate) = some false := by
    decide +kernel
  refine ⟨s, Runs.of_execute hs, fun h => ?_⟩
  obtain ⟨⟨o, ho, hcandidate⟩, -⟩ := h.entry 0 1 (by simp [hlisted])
  simp [ho, hcandidate] at hflag

end Syli.Collector
