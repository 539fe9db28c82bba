import Mathlib.Algebra.BigOperators.Group.Finset.Basic
import Mathlib.Algebra.BigOperators.Group.Finset.Piecewise
import Syli.Runtime.Frames
import Syli.Runtime.Entries

/-! The gauges of cyclic memory count the cyclic objects, as long as every freeing is accounted. -/
namespace Syli.Collector

open Foundation Syli.Runtime

variable {s s' : SyliState} {a : Addr} {o w : GCObject} {env : Env} {e : Entry}

/-- The allocated objects whose header has the cyclic bit. -/
def cyclicObjects (s : SyliState) : Finset Addr :=
  (Finset.range s.next).filter fun a => (s.heap a).any (·.header.isCyclic)

def bytesAt (s : SyliState) (a : Addr) : Nat := (s.heap a).elim 0 (·.header.totalBytes)

structure GaugesExact (s : SyliState) : Prop where
  cyclic : ∀ a, a ∈ cyclicObjects s ↔ ∃ o, s.heap a = some o ∧ o.header.isCyclic = true
  objects : s.gauges.cyclicObjAlloc = s.gauges.cyclicObjDealloc + (cyclicObjects s).card
  bytes : s.gauges.cyclicMemAlloc =
    s.gauges.cyclicMemDealloc + ∑ a ∈ cyclicObjects s, bytesAt s a

/-- The object that the entry point frees with a bare `free`: one without references that loses
its last count, or one that waits for its removal and is popped from the queue of mutations. -/
def freedInPlace (s : SyliState) : Entry → Option GCObject
  | .release p | .decr p =>
    (p.ownRef?.bind s.heap).filter fun o => o.refcount == 1 && o.header.isMonoImm
  | .gcTracing _ =>
    if s.tracingState = .mutationPrepare then
      (s.tracingMutationsWorklist.head?.bind fun p => p.ownRef?.bind s.heap).filter
        (·.waitingRemove)
    else none
  | _ => none

/-- What is freed without accounting does not have the cyclic bit. -/
def CountedFrees (s : SyliState) (e : Entry) : Prop :=
  ∀ o ∈ freedInPlace s e, o.header.isCyclic = false

instance (s : SyliState) (e : Entry) : Decidable (CountedFrees s e) :=
  inferInstanceAs (Decidable (∀ o ∈ freedInPlace s e, o.header.isCyclic = false))

theorem CountedFrees.freesOnly (h : CountedFrees s e) :
    e.FreesOnly (fun o => o.header.isCyclic = false) s := by
  cases e with
  | release p | decr p =>
    rintro a o rfl ho hone himm
    exact h o (by simp [freedInPlace, ObjPtr.ownRef?, ho, hone, himm])
  | gcTracing roots =>
    rintro p rest a o hstate hlist rfl ho hw
    exact h o (by simp [freedInPlace, hstate, hlist, ObjPtr.ownRef?, ho, hw])
  | _ => trivial

section Totals

variable (weight : GCObject → Nat)

def heapTotal (s : SyliState) : Nat := ∑ a ∈ Finset.range s.next, (s.heap a).elim 0 weight

theorem heapTotal_congr (hheap : s'.heap = s.heap) (hnext : s'.next = s.next) :
    heapTotal weight s' = heapTotal weight s := by
  simp only [heapTotal, hheap, hnext]

theorem heapTotal_setObj (ho : s.heap a = some o) (hw : weight w = weight o) :
    heapTotal weight (s.setObj a w) = heapTotal weight s := by
  refine Finset.sum_congr rfl fun b _ => ?_
  by_cases hb : b = a
  · subst hb
    simp [ho, hw]
  · simp [hb]

theorem heapTotal_dropObj (ho : s.heap a = some o) (ha : a < s.next) :
    heapTotal weight s = heapTotal weight (s.dropObj a) + weight o := by
  have hmem : a ∈ Finset.range s.next := Finset.mem_range.mpr ha
  have hrest : ∑ b ∈ (Finset.range s.next).erase a, ((s.dropObj a).heap b).elim 0 weight =
      ∑ b ∈ (Finset.range s.next).erase a, (s.heap b).elim 0 weight := by
    refine Finset.sum_congr rfl fun b hb => ?_
    simp [Finset.ne_of_mem_erase hb]
  have hself : ((s.dropObj a).heap a).elim 0 weight = 0 := by simp
  have hs : (s.heap a).elim 0 weight + _ = heapTotal weight s :=
    Finset.add_sum_erase _ (fun b => (s.heap b).elim 0 weight) hmem
  have hd : ((s.dropObj a).heap a).elim 0 weight +
      ∑ b ∈ (Finset.range s.next).erase a, ((s.dropObj a).heap b).elim 0 weight =
        heapTotal weight (s.dropObj a) :=
    Finset.add_sum_erase _ (fun b => ((s.dropObj a).heap b).elim 0 weight) hmem
  rw [hself, hrest, Nat.zero_add] at hd
  rw [← hs, ← hd, ho, Option.elim_some, Nat.add_comm]

theorem heapTotal_alloc (hheap : s'.heap = (s.setObj s.next o).heap)
    (hnext : s'.next = s.next + 1) : heapTotal weight s' = heapTotal weight s + weight o := by
  simp only [heapTotal, hheap, hnext, Finset.sum_range_succ]
  congr 1
  · refine Finset.sum_congr rfl fun b hb => ?_
    have hne : b ≠ s.next := by
      have := Finset.mem_range.mp hb
      omega
    simp [hne]
  · simp

end Totals

def cyclicCount (o : GCObject) : Nat := if o.header.isCyclic then 1 else 0

def cyclicBytes (o : GCObject) : Nat := if o.header.isCyclic then o.header.totalBytes else 0

theorem card_cyclicObjects (s : SyliState) :
    (cyclicObjects s).card = heapTotal cyclicCount s := by
  rw [cyclicObjects, Finset.card_eq_sum_ones, Finset.sum_filter]
  refine Finset.sum_congr rfl fun a _ => ?_
  cases s.heap a <;> simp [cyclicCount]

theorem sum_bytesAt (s : SyliState) :
    ∑ a ∈ cyclicObjects s, bytesAt s a = heapTotal cyclicBytes s := by
  rw [cyclicObjects, Finset.sum_filter]
  refine Finset.sum_congr rfl fun a _ => ?_
  unfold bytesAt
  cases s.heap a <;> simp [cyclicBytes]

/-- What is allocated and not deallocated is on the heap. -/
structure Accounted (s : SyliState) : Prop where
  fresh : ∀ a o, s.heap a = some o → a < s.next
  objects : s.gauges.cyclicObjAlloc = s.gauges.cyclicObjDealloc + heapTotal cyclicCount s
  bytes : s.gauges.cyclicMemAlloc = s.gauges.cyclicMemDealloc + heapTotal cyclicBytes s

namespace Accounted

theorem same (h : Accounted s) (hs : SameObjects s s') : Accounted s' where
  fresh a o ho := by
    rw [hs.next]
    exact h.fresh a o (by rw [← hs.heap]; exact ho)
  objects := by
    rw [hs.objAlloc, hs.objDealloc, heapTotal_congr _ hs.heap hs.next]
    exact h.objects
  bytes := by
    rw [hs.memAlloc, hs.memDealloc, heapTotal_congr _ hs.heap hs.next]
    exact h.bytes

theorem setObj (h : Accounted s) (ho : s.heap a = some o) (hw : w.header = o.header) :
    Accounted (s.setObj a w) where
  fresh b ob hob := by
    rcases heap_cases rfl hob with ⟨rfl, -⟩ | ⟨-, hb⟩
    · exact h.fresh _ o ho
    · exact h.fresh b ob hb
  objects := by
    rw [heapTotal_setObj cyclicCount ho (by simp only [cyclicCount, hw])]
    exact h.objects
  bytes := by
    rw [heapTotal_setObj cyclicBytes ho (by simp only [cyclicBytes, hw])]
    exact h.bytes

/-- Freeing an object is accounted for by `gc_account_cyclic_free`. -/
theorem freeCounted (h : Accounted s) (ho : s.heap a = some o) :
    Accounted ((gcAccountCyclicFree s o).dropObj a) := by
  have hlt := h.fresh a o ho
  have hobjects := heapTotal_dropObj cyclicCount ho hlt
  have hbytes := heapTotal_dropObj cyclicBytes ho hlt
  have hfresh : ∀ b ob, (s.dropObj a).heap b = some ob → b < s.next :=
    fun b ob hob => h.fresh b ob (heap_drop_cases rfl hob).2
  have hh := h.objects
  have hb := h.bytes
  unfold gcAccountCyclicFree
  split
  · rename_i hcyclic
    simp only [cyclicCount, cyclicBytes, hcyclic, if_true] at hobjects hbytes
    refine ⟨hfresh, ?_, ?_⟩
    · show s.gauges.cyclicObjAlloc = s.gauges.cyclicObjDealloc + 1 + _
      have hsame : heapTotal cyclicCount ((s.setGauges (s.gauges.dealloc o.header)).dropObj a) =
        heapTotal cyclicCount (s.dropObj a) := rfl
      omega
    · show s.gauges.cyclicMemAlloc = s.gauges.cyclicMemDealloc + o.header.totalBytes + _
      have hsame : heapTotal cyclicBytes ((s.setGauges (s.gauges.dealloc o.header)).dropObj a) =
        heapTotal cyclicBytes (s.dropObj a) := rfl
      omega
  · rename_i hcyclic
    rw [cyclicCount, if_neg hcyclic] at hobjects
    rw [cyclicBytes, if_neg hcyclic] at hbytes
    refine ⟨hfresh, ?_, ?_⟩
    · show s.gauges.cyclicObjAlloc = s.gauges.cyclicObjDealloc + _
      omega
    · show s.gauges.cyclicMemAlloc = s.gauges.cyclicMemDealloc + _
      omega

/-- An object without the cyclic bit is freed without accounting. -/
theorem free (h : Accounted s) (ho : s.heap a = some o) (hcyclic : o.header.isCyclic = false) :
    Accounted (s.dropObj a) := by
  have hfree := h.freeCounted ho
  simpa [gcAccountCyclicFree, hcyclic] using hfree

theorem registry (h : Accounted s) (candidates : List Addr) (index : Addr → Nat) :
    Accounted (s.setRegistry candidates index) :=
  ⟨h.fresh, h.objects, h.bytes⟩

theorem freeReleased (h : Accounted s) (hs : freeReleasedObject s a = .ok s') : Accounted s' := by
  unfold freeReleasedObject at hs
  simp only [bind_eq_ok, deref_eq_ok] at hs
  obtain ⟨o, ho, hs⟩ := hs
  obtain ⟨u, hleft, hs⟩ : ∃ u, (Accounted u ∧ u.heap a = some o) ∧ (if o.tracing = true then
      pure (u.setObj a { o with cyclicCandidate := false, waitingRemove := true })
      else (gcAccountCyclicFree (u.setObj a { o with cyclicCandidate := false })
        { o with cyclicCandidate := false }).free a) = Except.ok s' := by
    split at hs
    · obtain ⟨-, -, hs⟩ := bind_eq_ok.mp hs
      obtain ⟨u, hu, hs⟩ := bind_eq_ok.mp hs
      obtain ⟨candidates, index, rfl⟩ := gcRemoveCandidateAt_effect hu
      exact ⟨_, ⟨h.registry candidates index, ho⟩, hs⟩
    · exact ⟨s, ⟨h, ho⟩, hs⟩
  split at hs
  · obtain rfl := pure_eq_ok.mp hs
    exact hleft.1.setObj hleft.2 rfl
  · rw [free_eq_ok] at hs
    obtain ⟨-, rfl⟩ := hs
    have hset : Accounted (u.setObj a { o with cyclicCandidate := false }) :=
      hleft.1.setObj hleft.2 rfl
    exact hset.freeCounted (by simp)

theorem alloc {header : ObjectHeader} {n : Nat} (h : Accounted s)
    (hs : syliRtOwnershipAllocObject s header n header.objectLength = .ok (a, s')) :
    Accounted s' := by
  obtain ⟨candidate, candidates, index, g, -, rfl, rfl⟩ := alloc_registry hs
  have hobjects := h.objects
  have hbytes := h.bytes
  have hcount : heapTotal cyclicCount
      (s.setObj s.next (newObject s header n candidate)).bumpNext =
        heapTotal cyclicCount s + cyclicCount (newObject s header n candidate) :=
    heapTotal_alloc cyclicCount rfl rfl
  have hsize : heapTotal cyclicBytes
      (s.setObj s.next (newObject s header n candidate)).bumpNext =
        heapTotal cyclicBytes s + cyclicBytes (newObject s header n candidate) :=
    heapTotal_alloc cyclicBytes rfl rfl
  have hheader : (newObject s header n candidate).header = header := rfl
  refine Accounted.registry ⟨?_, ?_, ?_⟩ candidates index
  · intro b ob hob
    rcases heap_cases (s := s) rfl hob with ⟨rfl, -⟩ | ⟨-, hb⟩
    · exact Nat.lt_succ_self _
    · exact Nat.lt_succ_of_lt (h.fresh b ob hb)
  · show (if header.isCyclic then s.gauges.alloc header else s.gauges).cyclicObjAlloc =
      (if header.isCyclic then s.gauges.alloc header else s.gauges).cyclicObjDealloc +
        heapTotal cyclicCount (s.setObj s.next (newObject s header n candidate)).bumpNext
    rw [hcount, cyclicCount, hheader]
    split
    · simp only [Gauges.alloc]
      omega
    · omega
  · show (if header.isCyclic then s.gauges.alloc header else s.gauges).cyclicMemAlloc =
      (if header.isCyclic then s.gauges.alloc header else s.gauges).cyclicMemDealloc +
        heapTotal cyclicBytes (s.setObj s.next (newObject s header n candidate)).bumpNext
    rw [hsize, cyclicBytes, hheader]
    split
    · simp only [Gauges.alloc]
      omega
    · omega

theorem kept : Kept Accounted fun o => o.header.isCyclic = false where
  same h hs := h.same hs
  setObj h ho hheader _ _ := h.setObj ho hheader
  freeReleased h hs := h.freeReleased hs
  freeWaiting h ho _ := h.freeCounted ho
  free h ho hcyclic := h.free ho hcyclic

theorem counted (k : Counting) : CountKept k Accounted where
  incr h ho := h.setObj ho (k.incr_header _)
  decr h ho hdecr := h.setObj ho (k.decr_header hdecr)

theorem gaugesExact (h : Accounted s) : GaugesExact s where
  cyclic a := by
    simp only [cyclicObjects, Finset.mem_filter, Finset.mem_range, Option.any_eq_true]
    refine ⟨fun ha => ?_, fun ⟨o, ho, hcyclic⟩ => ⟨h.fresh a o ho, o, ho, hcyclic⟩⟩
    obtain ⟨-, o, ho, hcyclic⟩ := ha
    exact ⟨o, ho, hcyclic⟩
  objects := by
    rw [card_cyclicObjects]
    exact h.objects
  bytes := by
    rw [sum_bytesAt]
    exact h.bytes

end Accounted

/-- In every run whose frees are counted, the gauges agree with the heap. -/
theorem gauges_exact (hr : Runs (Entry.run wordCounts) CountedFrees (syliStateInit env) s) :
    GaugesExact s := by
  have hinv : Accounted s := by
    refine hr.invariant ⟨?_, ?_, ?_⟩ fun s e s' h hok hs => ?_
    · intro a o ho
      cases ho
    · simp [syliStateInit, heapTotal]
    · simp [syliStateInit, heapTotal]
    · exact Accounted.kept.run (Accounted.counted wordCounts) h hs hok.freesOnly
        fun header n a _ halloc => h.alloc halloc
  exact hinv.gaugesExact

/-- The header of a closure over one scalar: nothing is known about its cycles. -/
def scalarClosure : ObjectHeader := makeHeader true .monoImm flagTraceable 3 2

/-- A cell and a closure are allocated, and the cell is released, whose freeing is counted. -/
theorem gauges_exact_release :
    ∃ s, Runs (Entry.run wordCounts) CountedFrees (syliStateInit testEnv) s ∧ GaugesExact s ∧
      s.gauges.cyclicObjAlloc = 2 ∧ s.gauges.cyclicObjDealloc = 1 := by
  obtain ⟨s, hs, ha, hd⟩ : ∃ s ∈ execute (Entry.run wordCounts) CountedFrees (syliStateInit testEnv)
      [.alloc (mutableCell 1) 1, .alloc scalarClosure 1, .release (.own 1),
        .gcCycle { releasing := 100 }, .gcReleasing, .gcReleasing],
      s.gauges.cyclicObjAlloc = 2 ∧ s.gauges.cyclicObjDealloc = 1 := by
    decide +kernel
  exact ⟨s, Runs.of_execute hs, gauges_exact (Runs.of_execute hs), ha, hd⟩

/-- The closure is freed as soon as it is released, and stays in the gauges for ever. -/
theorem closure_release_uncounted :
    ∃ s, Runs (Entry.run wordCounts) (fun _ _ => True) (syliStateInit testEnv) s ∧
      ¬ GaugesExact s := by
  obtain ⟨s, hs, ha, hd, hcard⟩ : ∃ s ∈ execute (Entry.run wordCounts) (fun _ _ => True)
      (syliStateInit testEnv) [.alloc scalarClosure 1, .release (.own 1)],
      s.gauges.cyclicObjAlloc = 1 ∧ s.gauges.cyclicObjDealloc = 0 ∧
        (cyclicObjects s).card = 0 := by
    decide +kernel
  refine ⟨s, Runs.of_execute hs, fun h => ?_⟩
  have := h.objects
  omega

end Syli.Collector
