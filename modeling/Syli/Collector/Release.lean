import Syli.Foundation.Reach
import Syli.Collector.Registry
import Syli.Collector.Separation

/-! The release by reference counting: which objects it frees, under every schedule. -/
namespace Syli.Collector

open Foundation Syli.Runtime

variable {s s' u : SyliState} {a b c x y : Addr} {o o' : GCObject} {p : Pipeline} {cs : List Addr}
variable {claims : List Addr} {out : Addr → List Addr}

/-- The runtime next to the references that own its objects from outside the heap. -/
structure Owned where
  rt : SyliState
  owners : List Addr

/-- An `iterate` is one iteration of the loop of `syli_state_gc_releasing`, and a `budget` is set
before each call. -/
inductive ReleaseAction where
  | drop (x : Addr)
  | budget (releasing : Int)
  | iterate
deriving DecidableEq, Repr

variable {m m' m₀ : Owned} {act : ReleaseAction}

def Owned.step (m : Owned) : ReleaseAction → Result Owned
  | .drop x => do
    check (x ∈ m.owners) .illegal
    let s ← syliRtOwnershipDecr naturalCounts m.rt (.own x)
    return { rt := s, owners := m.owners.erase x }
  | .budget releasing =>
    .ok { m with rt := m.rt.setBudgets { m.rt.budgets with releasing := releasing } }
  | .iterate => do
    match ← syliStateGcReleasing m.rt with
    | some s => return { m with rt := s }
    | none => return m

/-- The cell of an object whose counts were given up: only the count is lower, and the mark of an
object without counts may be that of the current generation. -/
def SameCell (o o' : GCObject) : Prop :=
  ∃ n mark, o' = { o with refcount := n, mark := mark } ∧ (mark = o.mark ∨ n = 0) ∧
    n ≤ o.refcount

theorem SameCell.refl (o : GCObject) : SameCell o o :=
  ⟨o.refcount, o.mark, rfl, Or.inl rfl, Nat.le_refl _⟩

theorem SameCell.trans {o₁ o₂ o₃ : GCObject} (h : SameCell o₁ o₂) (h' : SameCell o₂ o₃) :
    SameCell o₁ o₃ := by
  obtain ⟨n, mark, rfl, hmark, hle⟩ := h
  obtain ⟨n', mark', rfl, hmark', hle'⟩ := h'
  refine ⟨n', mark', rfl, ?_, Nat.le_trans hle' hle⟩
  rcases hmark' with rfl | hz
  · rcases hmark with hm | hz
    · exact Or.inl hm
    · exact Or.inr (Nat.le_zero.mp (hz ▸ hle'))
  · exact Or.inr hz

/-- Every object that is left is an object from before. -/
def Shrinks (s s' : SyliState) : Prop :=
  ∀ a o', s'.heap a = some o' → ∃ o, s.heap a = some o ∧ SameCell o o'

theorem Shrinks.refl (s : SyliState) : Shrinks s s := fun _ o' ho' => ⟨o', ho', .refl o'⟩

theorem Shrinks.trans (h : Shrinks s u) (h' : Shrinks u s') : Shrinks s s' := by
  intro a o' ho'
  obtain ⟨o₁, ho₁, h₁⟩ := h' a o' ho'
  obtain ⟨o, ho, h₂⟩ := h a o₁ ho₁
  exact ⟨o, ho, h₂.trans h₁⟩

/-- No object is queued for tracing. -/
def Untraced (s : SyliState) : Prop := ∀ a o, s.heap a = some o → o.tracing = false

theorem Untraced.shrinks (h : Untraced s) (hs : Shrinks s s') : Untraced s' := by
  intro a o' ho'
  obtain ⟨o, ho, n, mark, rfl, -⟩ := hs a o' ho'
  exact h a o ho

theorem shrinks_set {w : GCObject} (ho : s.heap a = some o) (hw : SameCell o w) :
    Shrinks s (s.setObj a w) := by
  intro b ob hob
  rcases heap_cases rfl hob with ⟨rfl, rfl⟩ | ⟨-, hb⟩
  · exact ⟨o, ho, hw⟩
  · exact ⟨ob, hb, .refl ob⟩

theorem shrinks_drop (s : SyliState) (a : Addr) : Shrinks s (s.dropObj a) :=
  fun _ ob hob => ⟨ob, (heap_drop_cases rfl hob).2, .refl ob⟩

theorem shrinks_removed (ht : o.tracing = false) (hr : Removed s a o s') : Shrinks s s' := by
  cases hr with
  | drop _ _ _ _ => exact shrinks_drop s a
  | wait _ _ hflag => simp [ht] at hflag

theorem shrinks_giveUp (hs : Untraced s) (ho : s.heap a = some o) (hg : GiveUp p s a o s') :
    Shrinks s s' := by
  have hzero : ∀ mark, SameCell o { o with refcount := 0, mark := mark } :=
    fun mark => ⟨0, mark, rfl, Or.inr rfl, Nat.zero_le _⟩
  cases hg with
  | keep _ => exact shrinks_set ho ⟨o.refcount - 1, o.mark, rfl, Or.inl rfl, Nat.sub_le _ _⟩
  | queue mark _ _ _ => exact shrinks_set ho (hzero mark)
  | enqueue _ _ => exact shrinks_set ho (hzero o.mark)
  | freeImm _ _ => exact shrinks_drop s a
  | remove _ _ _ hr =>
    have hset := shrinks_set ho (hzero o.mark)
    exact hset.trans (shrinks_removed (o := { o with refcount := 0 }) (hs a o ho) hr)

theorem shrinks_giveUpAll (hs : Untraced s) (hg : GiveUpAll p s cs s') : Shrinks s s' := by
  refine (hg.invariant (P := fun _ u => Shrinks s u) (.refl s) ?_)
  intro u c cs o v hu hc hstep
  exact hu.trans (shrinks_giveUp (hs.shrinks hu) hc hstep)

theorem shrinks_releasingStep (hs : Untraced s) (h : ReleasingStep s s') : Shrinks s s' := by
  cases h with
  | start _ => exact fun a o' ho' => ⟨o', ho', .refl o'⟩
  | @release v w _ a rest o o' n _ _ ho hg ho' _ hr hs' =>
    have hbase : Untraced ((s.setReleasing rest s.releasingWaitlist).chargeReleasing n) := hs
    have hv := shrinks_giveUpAll hbase hg
    have hw := hv.trans (shrinks_removed (hbase.shrinks hv a o' ho') hr)
    subst hs'
    exact hw

theorem env_removed (hr : Removed s a o s') : s'.env = s.env := by
  cases hr <;> rfl

theorem env_giveUp (hg : GiveUp p s a o s') : s'.env = s.env := by
  cases hg with
  | remove _ _ _ hr => cases hr <;> rfl
  | _ => rfl

theorem env_releasingStep (h : ReleasingStep s s') : s'.env = s.env := by
  cases h with
  | start _ => rfl
  | @release v w _ a rest o o' n _ _ _ hg _ _ hr hs' =>
    have hv : v.env = s.env := hg.invariant (P := fun _ u => u.env = s.env) rfl
      fun _ _ _ _ _ hu _ hstep => (env_giveUp hstep).trans hu
    subst hs'
    exact (env_removed hr).trans hv

/-- The objects without counts wait to be released, those in `extra` apart. -/
def QueuesZero (s : SyliState) (extra : List Addr) : Prop :=
  ∀ b o, s.heap b = some o → o.refcount = 0 →
    b ∈ extra ++ (s.releasingWaitlist ++ s.releasingWorklist)

namespace QueuesZero

variable {extra : List Addr}

theorem set {w : GCObject} (h : QueuesZero s extra) (hw : 0 < w.refcount) :
    QueuesZero (s.setObj a w) extra := by
  intro b ob hob hz
  rcases heap_cases rfl hob with ⟨rfl, rfl⟩ | ⟨-, hb⟩
  · omega
  · exact h b ob hb hz

theorem drop (h : QueuesZero s extra) : QueuesZero (s.dropObj a) extra :=
  fun b ob hob => h b ob (heap_drop_cases rfl hob).2

theorem giveUp (h : QueuesZero s extra) (hp : p ≠ .cycles) (ht : o.tracing = false)
    (hg : GiveUp p s a o s') : QueuesZero s' extra := by
  cases hg with
  | keep hone => exact h.set (by simp only; omega)
  | queue mark _ _ _ =>
    intro b ob hob hz
    simp only [SyliState.setReleasing_releasingWaitlist, SyliState.setReleasing_releasingWorklist,
      List.cons_append, List.mem_append, List.mem_cons]
    rcases heap_cases rfl hob with ⟨rfl, -⟩ | ⟨-, hb⟩
    · exact Or.inr (Or.inl rfl)
    · have hmem := h b ob hb hz
      rw [List.mem_append, List.mem_append] at hmem
      exact hmem.imp_right Or.inr
  | enqueue _ _ => exact absurd rfl hp
  | freeImm _ _ => exact h.drop
  | remove _ _ _ hr =>
    cases hr with
    | drop candidates index g _ =>
      intro b ob hob hz
      obtain ⟨hne, hb⟩ := heap_drop_cases rfl hob
      have hb' : s.heap b = some ob := by simpa [hne] using hb
      exact h b ob hb' hz
    | wait _ _ hflag => simp [ht] at hflag

theorem giveUpAll (h : QueuesZero s extra) (hp : p ≠ .cycles) (ht : Untraced s)
    (hg : GiveUpAll p s cs s') : QueuesZero s' extra := by
  refine (hg.invariant (P := fun _ u => QueuesZero u extra ∧ Untraced u) ⟨h, ht⟩ ?_).1
  rintro u c cs o v ⟨hu, htu⟩ hc hstep
  exact ⟨hu.giveUp hp (htu c o hc) hstep, htu.shrinks (shrinks_giveUp htu hc hstep)⟩

theorem releasingStep (h : QueuesZero s []) (ht : Untraced s)
    (hidle : s.releasingState = .idle → s.releasingWorklist = []) (hs : ReleasingStep s s') :
    QueuesZero s' [] := by
  cases hs with
  | start hst =>
    intro b ob hob hz
    have hmem := h b ob hob hz
    rw [hidle hst] at hmem
    simpa using hmem
  | @release v w _ a rest o o' n _ hwl ho hg ho' _ hr hs' =>
    have hbase : QueuesZero ((s.setReleasing rest s.releasingWaitlist).chargeReleasing n) [a] := by
      intro b ob hob hz
      have hmem := h b ob hob hz
      simp only [hwl, List.nil_append, List.mem_append, List.mem_cons] at hmem
      simp only [SyliState.chargeReleasing_releasingWaitlist,
        SyliState.chargeReleasing_releasingWorklist, SyliState.setReleasing_releasingWaitlist,
        SyliState.setReleasing_releasingWorklist, List.cons_append, List.nil_append,
        List.mem_cons, List.mem_append]
      tauto
    have htb : Untraced ((s.setReleasing rest s.releasingWaitlist).chargeReleasing n) := ht
    have hv := hbase.giveUpAll (by simp) htb hg
    have htv := htb.shrinks (shrinks_giveUpAll htb hg)
    have hw : QueuesZero w [] := by
      cases hr with
      | drop _ _ _ _ =>
        intro b ob hob hz
        obtain ⟨hne, hb⟩ := heap_drop_cases (s := v) rfl hob
        have hmem := hv b ob hb hz
        rw [List.cons_append, List.mem_cons] at hmem
        exact hmem.resolve_left hne
      | wait _ _ hflag => simp [htv a o' ho'] at hflag
    subst hs'
    exact hw

end QueuesZero

/-- A heap whose counts are exact, outside of a trace: every object without counts waits to be
released, and the registry and the ledger of frees are in order. -/
structure ExactHeap (m : Owned) : Prop where
  ledger : Ledger m.rt m.owners m.rt.outRefs
  separate : Separate m.rt
  registered : Registered m.rt
  freed : Freed m.rt
  idle : m.rt.tracingState = .idle
  intact : ∀ a o, m.rt.heap a = some o → o.childrenReleased = false
  queued : QueuesZero m.rt []
  working : m.rt.releasingState = .idle ↔ m.rt.releasingWorklist = []

namespace ExactHeap

theorem notInTrace (h : ExactHeap m) : ¬ InTrace m.rt.tracingState := by
  simp [h.idle, InTrace]

theorem untraced (h : ExactHeap m) : Untraced m.rt :=
  fun _ _ ho => (h.ledger.not_waiting h.notInTrace ho).2

/-- An iteration of the releasing loop does not fail. -/
theorem iterate_ok (h : ExactHeap m) : ∃ r, syliStateGcReleasing m.rt = .ok r ∧
    ∀ s ∈ r, Registered s ∧ (s.releasingState = .idle ↔ s.releasingWorklist = []) := by
  unfold syliStateGcReleasing
  split
  · exact ⟨none, rfl, by simp⟩
  split
  · split
    · exact ⟨none, rfl, by simp⟩
    · rename_i hne
      refine ⟨_, rfl, ?_⟩
      rintro s hs
      obtain rfl := Option.some.inj (Option.mem_def.mp hs)
      refine ⟨{ h.registered with }, ?_⟩
      have hwait : m.rt.releasingWaitlist ≠ [] := by
        intro hnil
        simp [hnil] at hne
      simpa [setReleasingWorking] using hwait
  · rename_i hst
    have hne : m.rt.releasingWorklist ≠ [] := fun hnil => by
      simp [h.working.mpr hnil] at hst
    obtain ⟨a, rest, hwl⟩ := List.exists_cons_of_ne_nil hne
    obtain ⟨o, ho, -, -⟩ := h.separate.alive a (by simp [releaseQueues, hwl])
    obtain ⟨w, hw, hreg⟩ := h.registered.gcOneStepReleasing h.ledger hwl ho (h.intact a o ho)
    by_cases hnil : w.releasingWorklist = []
    · refine ⟨some (w.setReleasingState .idle), ?_, ?_⟩
      · rw [bind_eq_ok]
        exact ⟨w, hw, by rw [if_pos hnil]; rfl⟩
      · rintro s hs
        obtain rfl := Option.some.inj (Option.mem_def.mp hs)
        exact ⟨{ hreg with }, by simp [hnil]⟩
    · refine ⟨some w, ?_, ?_⟩
      · rw [bind_eq_ok]
        exact ⟨w, hw, by rw [if_neg hnil]; rfl⟩
      · rintro s hs
        obtain rfl := Option.some.inj (Option.mem_def.mp hs)
        refine ⟨hreg, ?_⟩
        have hkeep : w.releasingState = m.rt.releasingState := by
          simp only [gcOneStepReleasing, bind_eq_ok, deref_eq_ok, check_eq_ok, Prod.exists] at hw
          obtain ⟨_, _, -, _, -, v, hv, _, -, -, -, hw⟩ := hw
          have hv := giveUpAll_of_foldlM (fun _ _ _ => childReleaseObject_effect) hv
          obtain ⟨_, -, hr⟩ := freeReleasedObject_effect hw
          rw [hr.releasing, hv.releasing]
          rfl
        simp [hkeep, hst, hnil]

theorem drop_ok (h : ExactHeap m) (hx : x ∈ m.owners) :
    ∃ s, syliRtObjectDecr naturalCounts m.rt x = .ok s ∧ Registered s := by
  obtain ⟨o, ho, hpos⟩ := h.ledger.exists_of_claim hx
  exact h.registered.syliRtObjectDecr ho hpos (h.ledger.wellFormed x o ho)

theorem drop (h : ExactHeap m) (hx : x ∈ m.owners)
    (hs : syliRtObjectDecr naturalCounts m.rt x = .ok s) :
    ExactHeap { rt := s, owners := m.owners.erase x } ∧ Shrinks m.rt s ∧ s.next = m.rt.next ∧
      s.env = m.rt.env := by
  obtain ⟨o, ho, hg⟩ := syliRtObjectDecr_effect hs
  obtain ⟨u, hu, hreg⟩ := h.drop_ok hx
  obtain rfl : u = s := Except.ok.inj (hu.symm.trans hs)
  have hl := (h.ledger.perm (List.perm_cons_erase hx)).giveUp ho (by simp) hg
  rw [← h.ledger.outRefs_giveUp ho hg] at hl
  have hshrink := shrinks_giveUp h.untraced ho hg
  have hlists : u.releasingWorklist = m.rt.releasingWorklist := by
    cases hg with
    | remove hp _ _ _ => exact absurd rfl hp
    | _ => rfl
  refine ⟨?_, hshrink, (hg.frame ho).next, env_giveUp hg⟩
  exact
    { ledger := hl
      separate := h.separate.giveUp ho (h.ledger.not_waiting_of_pos ho) hg
      registered := hreg
      freed := h.freed.giveUp ho hg
      idle := (hg.frame ho).state.trans h.idle
      intact := fun a o' ho' => by
        obtain ⟨o₁, ho₁, n, mark, rfl, -⟩ := hshrink a o' ho'
        exact h.intact a o₁ ho₁
      queued := h.queued.giveUp (by simp) (h.untraced x o ho) hg
      working := by
        rw [hg.releasing, hlists]
        exact h.working }

theorem iterate (h : ExactHeap m) (hs : syliStateGcReleasing m.rt = .ok (some s)) :
    ExactHeap { m with rt := s } ∧ Shrinks m.rt s ∧ s.next = m.rt.next ∧
      s.env = m.rt.env := by
  have hr := syliStateGcReleasing_effect hs
  obtain ⟨r, hok, hreg⟩ := h.iterate_ok
  obtain rfl : r = some s := Except.ok.inj (hok.symm.trans hs)
  obtain ⟨hreg, hworking⟩ := hreg s rfl
  have hintact : ∀ a ∈ m.rt.releasingWorklist.head?, ∀ o, m.rt.heap a = some o →
      o.childrenReleased = false := fun a _ o ho => h.intact a o ho
  have hshrink := shrinks_releasingStep h.untraced hr
  refine ⟨?_, hshrink, hr.frame.next, env_releasingStep hr⟩
  exact
    { ledger := h.ledger.releasingStep hr hintact
      separate := h.separate.releasingStep h.ledger hr hintact
      registered := hreg
      freed := h.freed.releasingStep hr
      idle := hr.frame.state.trans h.idle
      intact := fun a o' ho' => by
        obtain ⟨o₁, ho₁, n, mark, rfl, -⟩ := hshrink a o' ho'
        exact h.intact a o₁ ho₁
      queued := h.queued.releasingStep h.untraced h.working.mp hr
      working := hworking }

end ExactHeap

/-- A drop gives up a reference that is held. -/
def Owned.Legal (m : Owned) : ReleaseAction → Prop
  | .drop x => x ∈ m.owners
  | .budget _ | .iterate => True

theorem step_of_legal (h : ExactHeap m) (hlegal : m.Legal act) : ∃ m', m.step act = .ok m' := by
  cases act with
  | drop x =>
    obtain ⟨s, hs, -⟩ := h.drop_ok hlegal
    refine ⟨{ rt := s, owners := m.owners.erase x }, ?_⟩
    simp only [Owned.step, bind_eq_ok, check_eq_ok, pure_eq_ok]
    exact ⟨(), hlegal, s, hs, rfl⟩
  | budget b => exact ⟨_, rfl⟩
  | iterate =>
    obtain ⟨r, hr, -⟩ := h.iterate_ok
    cases r with
    | none => exact ⟨m, by rw [Owned.step, bind_eq_ok]; exact ⟨none, hr, rfl⟩⟩
    | some s =>
      refine ⟨{ m with rt := s }, ?_⟩
      rw [Owned.step, bind_eq_ok]
      exact ⟨some s, hr, rfl⟩

theorem exactHeap_step (h : ExactHeap m) (hstep : m.step act = .ok m') :
    ExactHeap m' ∧ Shrinks m.rt m'.rt ∧ m'.rt.next = m.rt.next ∧ m'.rt.env = m.rt.env := by
  cases act with
  | drop x =>
    simp only [Owned.step, bind_eq_ok, check_eq_ok, pure_eq_ok] at hstep
    obtain ⟨-, hx, s, hs, rfl⟩ := hstep
    exact h.drop hx hs
  | budget b =>
    obtain rfl := Except.ok.inj hstep
    refine ⟨?_, .refl m.rt, rfl, rfl⟩
    exact { h with
      ledger := { h.ledger with }
      separate := { h.separate with }
      registered := { h.registered with }
      freed := { h.freed with } }
  | iterate =>
    obtain ⟨r, hr, hstep⟩ := bind_eq_ok.mp hstep
    cases r with
    | none =>
      obtain rfl := pure_eq_ok.mp hstep
      exact ⟨h, .refl m.rt, rfl, rfl⟩
    | some s =>
      obtain rfl := pure_eq_ok.mp hstep
      exact h.iterate hr

theorem exactHeap_runs {ok : Owned → ReleaseAction → Prop} (h₀ : ExactHeap m₀)
    (h : Runs Owned.step ok m₀ m) :
    ExactHeap m ∧ Shrinks m₀.rt m.rt ∧ m.rt.next = m₀.rt.next ∧ m.rt.env = m₀.rt.env := by
  refine h.invariant (P := fun m => ExactHeap m ∧ Shrinks m₀.rt m.rt ∧
    m.rt.next = m₀.rt.next ∧ m.rt.env = m₀.rt.env) ⟨h₀, .refl m₀.rt, rfl, rfl⟩ ?_
  rintro m act m' ⟨hm, hs, hn, he⟩ - hstep
  obtain ⟨hm', hs', hn', he'⟩ := exactHeap_step hm hstep
  exact ⟨hm', hs.trans hs', hn'.trans hn, he'.trans he⟩

/-- The releasing machine is idle and nothing waits. -/
def Owned.Settled (m : Owned) : Prop :=
  m.rt.releasingState = .idle ∧ m.rt.releasingWaitlist = [] ∧ m.rt.releasingWorklist = []

/-- What the releasing loop still has to do: the objects, and the start of a round. -/
def Owned.work (m : Owned) : Nat :=
  2 * ((Finset.range m.rt.next).filter fun a => (m.rt.heap a).isSome = true).card +
    if m.rt.releasingWorklist = [] then 1 else 0

theorem work_iterate (h : ExactHeap m) (hs : syliStateGcReleasing m.rt = .ok (some s)) :
    Owned.work { m with rt := s } < m.work := by
  obtain ⟨h', hshrink, hnext, -⟩ := h.iterate hs
  have halive : ∀ a, (s.heap a).isSome = true → (m.rt.heap a).isSome = true := by
    intro a ha
    obtain ⟨o', ho'⟩ := Option.isSome_iff_exists.mp ha
    obtain ⟨o, ho, -⟩ := hshrink a o' ho'
    simp [ho]
  have hsub : (Finset.range s.next).filter (fun a => (s.heap a).isSome = true) ⊆
      (Finset.range m.rt.next).filter fun a => (m.rt.heap a).isSome = true := by
    intro a ha
    rw [Finset.mem_filter] at ha ⊢
    exact ⟨hnext ▸ ha.1, halive a ha.2⟩
  have hwork := h'.working
  unfold Owned.work
  cases syliStateGcReleasing_effect hs with
  | start hst =>
    have hne : m.rt.releasingWaitlist ≠ [] := by
      intro hnil
      simp [hnil] at hwork
    have hle := Finset.card_le_card hsub
    simp only [SyliState.setReleasingState_releasingWorklist,
      SyliState.setReleasing_releasingWorklist, h.working.mp hst, hne, if_true, if_false] at hle ⊢
    omega
  | @release v w _ a rest o o' n hst hwl ho hg ho' hz hr hs' =>
    have hfreed : s.heap a = none := by
      have ht : o'.tracing = false := by
        have hbase : Untraced ((m.rt.setReleasing rest m.rt.releasingWaitlist).chargeReleasing n) :=
          h.untraced
        exact hbase.shrinks (shrinks_giveUpAll hbase hg) a o' ho'
      subst hs'
      cases hr with
      | drop _ _ _ _ => simp
      | wait _ _ hflag => simp [ht] at hflag
    have hlt : ((Finset.range s.next).filter fun a => (s.heap a).isSome = true).card <
        ((Finset.range m.rt.next).filter fun a => (m.rt.heap a).isSome = true).card := by
      refine Finset.card_lt_card (Finset.ssubset_iff_subset_ne.mpr ⟨hsub, ?_⟩)
      intro heq
      have hmem : a ∈ (Finset.range m.rt.next).filter fun a => (m.rt.heap a).isSome = true := by
        rw [Finset.mem_filter]
        exact ⟨Finset.mem_range.mpr (h.ledger.lt_next ho), by simp [ho]⟩
      rw [← heq, Finset.mem_filter, hfreed] at hmem
      simp at hmem
    rw [if_neg (by simp [hwl] : ¬ m.rt.releasingWorklist = [])]
    simp only at hlt ⊢
    split <;> omega

/-- With a threshold of at most one the release can always be completed. -/
theorem exists_settled (h : ExactHeap m) (hthreshold : m.rt.env.thresholdReleasingBucket ≤ 1) :
    ∃ m', Runs Owned.step (fun _ act => ∀ x, act ≠ .drop x) m m' ∧ m'.Settled ∧
      m'.owners = m.owners := by
  induction hn : m.work using Nat.strong_induction_on generalizing m with
  | _ n ih =>
    by_cases hdone : m.Settled
    · exact ⟨m, .refl, hdone, rfl⟩
    have hbudget : m.step (.budget 1) =
        .ok { m with rt := m.rt.setBudgets { m.rt.budgets with releasing := 1 } } := rfl
    obtain ⟨hb, -⟩ := exactHeap_step h hbudget
    obtain ⟨r, hr, -⟩ := hb.iterate_ok
    have hsome : r ≠ none := by
      rintro rfl
      simp only [syliStateGcReleasing, SyliState.setBudgets_budgets,
        SyliState.setBudgets_releasingState, SyliState.setBudgets_releasingWaitlist,
        SyliState.setBudgets_env] at hr
      split at hr
      · omega
      split at hr
      · rename_i hidle
        split at hr
        · rename_i hguard
          refine hdone ⟨hidle, ?_, h.working.mp hidle⟩
          exact List.eq_nil_of_length_eq_zero (by omega)
        · cases hr
      · obtain ⟨w, -, hr⟩ := bind_eq_ok.mp hr
        split at hr <;> cases hr
    obtain ⟨s, rfl⟩ := Option.ne_none_iff_exists'.mp hsome
    have hwork := work_iterate hb hr
    obtain ⟨hs, -, -, henv⟩ := hb.iterate hr
    have hstep : Owned.step { m with rt := m.rt.setBudgets { m.rt.budgets with releasing := 1 } }
        .iterate = .ok { m with rt := s } := by
      rw [Owned.step, bind_eq_ok]
      exact ⟨some s, hr, rfl⟩
    obtain ⟨m', hruns, hset, howners⟩ := ih _ (hn ▸ hwork) hs (henv ▸ hthreshold) rfl
    refine ⟨m', ?_, hset, howners⟩
    exact ((Runs.refl.tail (by simp) hbudget).tail (by simp) hstep).trans hruns

/-- The references of the heap of `m`. -/
def Refers (m : Owned) (x y : Addr) : Prop := y ∈ m.rt.outRefs x

/-- Reachable by own references of the heap of `m` from the references `owners`. -/
def OwnedReach (m : Owned) (owners : List Addr) : Addr → Prop :=
  Reach (Refers m) (· ∈ owners)

theorem outRefs_shrinks (h : Shrinks s s') (ho' : s'.heap a = some o') :
    s'.outRefs a = s.outRefs a := by
  obtain ⟨o, ho, n, mark, rfl, -⟩ := h a o' ho'
  rw [outRefs_of_heap ho, outRefs_of_heap ho']
  rfl

/-- In a settled state the unfreed objects are those reachable from the owners that are left. -/
theorem allocated_iff_reach (hm : ExactHeap m) (hs : Shrinks m₀.rt m.rt)
    (hacyclic : ∀ a, ¬ Relation.TransGen (Refers m₀) a a) (hset : m.Settled) :
    (∃ o, m.rt.heap a = some o) ↔ OwnedReach m₀ m.owners a := by
  have hedge : ∀ {x y o}, m.rt.heap x = some o → (y ∈ m.rt.outRefs x ↔ Refers m₀ x y) := by
    intro x y o ho
    rw [outRefs_shrinks hs ho]
    rfl
  constructor
  · intro ha
    by_contra hnot
    -- an unreachable object has an owner that is unreachable too, so some of them form a cycle
    have hfin : {a | (∃ o, m.rt.heap a = some o) ∧ ¬ OwnedReach m₀ m.owners a}.Finite := by
      refine (Set.finite_lt_nat m.rt.next).subset ?_
      rintro b ⟨⟨ob, hob⟩, -⟩
      exact hm.ledger.lt_next hob
    obtain ⟨b, -, hb⟩ := exists_cycle_of_predecessors (Refers m₀) hfin ⟨a, ha, hnot⟩ (by
      rintro b ⟨⟨ob, hob⟩, hnb⟩
      have hpos : 0 < m.rt.refcountOf b := by
        rw [refcountOf_of_heap hob]
        by_contra hz
        have hmem := hm.queued b ob hob (by omega)
        rw [hset.2.1, hset.2.2] at hmem
        simp at hmem
      rcases hm.ledger.balanced.owner_of_count_pos hpos with hc | ⟨x, -, hx⟩
      · exact absurd (Reach.root hc) hnb
      · obtain ⟨ox, hox⟩ : ∃ ox, m.rt.heap x = some ox := by
          by_contra hno
          rw [outRefs_of_none (Option.eq_none_iff_forall_ne_some.mpr fun ox hox =>
            hno ⟨ox, hox⟩)] at hx
          simp at hx
        have he := (hedge hox).mp hx
        exact ⟨x, ⟨⟨ox, hox⟩, fun hreach => hnb (hreach.step he)⟩, he⟩)
    exact hacyclic b (Relation.TransGen.mono (fun _ _ h => h.2.2) b b hb)
  · intro hreach
    refine hreach.closed (P := fun a => ∃ o, m.rt.heap a = some o) ?_ ?_
    · intro b hb
      obtain ⟨ob, hob, -⟩ := hm.ledger.exists_of_claim hb
      exact ⟨ob, hob⟩
    · rintro x y - ⟨ox, hox⟩ hxy
      obtain ⟨oy, hoy, -⟩ := hm.ledger.exists_of_edge (hm.ledger.lt_next hox) ((hedge hox).mpr hxy)
      exact ⟨oy, hoy⟩

/-- What is left of the heap of `m₀` in `m`: the objects that the owners of `m` reach, each with as
many counts as it has owners; the others were freed. -/
structure Released (m₀ m : Owned) : Prop where
  freed : ∀ a o, m₀.rt.heap a = some o → (a ∈ m.rt.freed ↔ ¬ OwnedReach m₀ m.owners a)
  freed_nodup : m.rt.freed.Nodup
  survivor : ∀ a o, m₀.rt.heap a = some o → OwnedReach m₀ m.owners a →
    m.rt.heap a = some { o with
      refcount := m.owners.count a + inDegree (Finset.range m.rt.next) m.rt.outRefs a }
  nothing_new : ∀ a, m₀.rt.heap a = none → m.rt.heap a = none

theorem released_of_settled (hm₀ : ExactHeap m₀) (hm : ExactHeap m) (hs : Shrinks m₀.rt m.rt)
    (hnext : m.rt.next = m₀.rt.next) (hacyclic : ∀ a, ¬ Relation.TransGen (Refers m₀) a a)
    (hset : m.Settled) : Released m₀ m where
  freed a o ho := by
    obtain ⟨hpos, hlt⟩ := hm₀.freed.live a o ho
    rw [hm.freed.freed a, ← allocated_iff_reach hm hs hacyclic hset, hnext]
    constructor
    · rintro ⟨-, -, hnone⟩ ⟨o', ho'⟩
      simp [hnone] at ho'
    · intro hno
      refine ⟨hpos, hlt, Option.eq_none_iff_forall_ne_some.mpr fun o' ho' => hno ⟨o', ho'⟩⟩
  freed_nodup := hm.freed.freed_nodup
  survivor a o ho hreach := by
    obtain ⟨o', ho'⟩ := (allocated_iff_reach hm hs hacyclic hset).mpr hreach
    obtain ⟨o₁, ho₁, n, mark, rfl, hmark, -⟩ := hs a o' ho'
    obtain rfl := Option.some.inj (ho.symm.trans ho₁)
    have hcount := hm.ledger.balanced a
    rw [refcountOf_of_heap ho'] at hcount
    have hne : n ≠ 0 := by
      intro hz
      have hmem := hm.queued a _ ho' hz
      rw [hset.2.1, hset.2.2] at hmem
      simp at hmem
    obtain rfl := hmark.resolve_right hne
    rw [ho']
    exact congrArg (fun n => some { o with refcount := n }) hcount
  nothing_new a hnone := by
    refine Option.eq_none_iff_forall_ne_some.mpr fun o' ho' => ?_
    obtain ⟨o, ho, -⟩ := hs a o' ho'
    simp [hnone] at ho

/-- The heap that is left depends on the owners that are left only. -/
theorem Released.heap_eq (h : Released m₀ m) (h' : Released m₀ m')
    (hs : Shrinks m₀.rt m.rt) (hs' : Shrinks m₀.rt m'.rt) (hn : m.rt.next = m'.rt.next)
    (hdead : ∀ a, ¬ OwnedReach m₀ m.owners a → m.rt.heap a = none ∧ m'.rt.heap a = none)
    (hp : m'.owners.Perm m.owners) : m'.rt.heap = m.rt.heap := by
  have hreach : ∀ a, OwnedReach m₀ m'.owners a ↔ OwnedReach m₀ m.owners a := fun a =>
    ⟨fun hr => hr.mono (fun _ => hp.mem_iff.mp) fun _ _ => id,
      fun hr => hr.mono (fun _ => hp.mem_iff.mpr) fun _ _ => id⟩
  have hout : m'.rt.outRefs = m.rt.outRefs := by
    funext a
    by_cases hr : OwnedReach m₀ m.owners a
    · cases ho : m₀.rt.heap a with
      | none => rw [outRefs_of_none (h.nothing_new a ho), outRefs_of_none (h'.nothing_new a ho)]
      | some o =>
        rw [outRefs_shrinks hs (h.survivor a o ho hr),
          outRefs_shrinks hs' (h'.survivor a o ho ((hreach a).mpr hr))]
    · rw [outRefs_of_none (hdead a hr).1, outRefs_of_none (hdead a hr).2]
  funext a
  by_cases hr : OwnedReach m₀ m.owners a
  · cases ho : m₀.rt.heap a with
    | none => rw [h.nothing_new a ho, h'.nothing_new a ho]
    | some o =>
      rw [h.survivor a o ho hr, h'.survivor a o ho ((hreach a).mpr hr), hout, hn, hp.count_eq]
  · rw [(hdead a hr).1, (hdead a hr).2]

/-- The release by reference counting is exact under every schedule: no step fails, the work can
always be completed, a settled state has freed exactly what its owners do not reach, and its heap
depends on the owners that are left only. -/
theorem release_exact (h₀ : ExactHeap m₀) (hthreshold : m₀.rt.env.thresholdReleasingBucket ≤ 1)
    (hacyclic : ∀ a, ¬ Relation.TransGen (Refers m₀) a a)
    (h : Runs Owned.step (fun _ _ => True) m₀ m) :
    (∀ act, m.Legal act → ∃ m', m.step act = .ok m') ∧
      (∃ m', Runs Owned.step (fun _ act => ∀ x, act ≠ .drop x) m m' ∧ m'.Settled ∧
        m'.owners = m.owners) ∧
      (m.Settled → Released m₀ m ∧ ∀ m', Runs Owned.step (fun _ _ => True) m₀ m' → m'.Settled →
        m'.owners.Perm m.owners → m'.rt.heap = m.rt.heap) := by
  obtain ⟨hm, hs, hn, henv⟩ := exactHeap_runs h₀ h
  refine ⟨fun act => step_of_legal hm, exists_settled hm (henv ▸ hthreshold), ?_⟩
  intro hset
  have hreleased := released_of_settled h₀ hm hs hn hacyclic hset
  refine ⟨hreleased, ?_⟩
  intro m' h' hset' hp
  obtain ⟨hm', hs', hn', -⟩ := exactHeap_runs h₀ h'
  have hreleased' := released_of_settled h₀ hm' hs' hn' hacyclic hset'
  refine hreleased.heap_eq hreleased' hs hs' (hn.trans hn'.symm) ?_ hp
  intro a hno
  have hdead : ∀ {w : Owned}, ((∃ o, w.rt.heap a = some o) → False) → w.rt.heap a = none :=
    fun hw => Option.eq_none_iff_forall_ne_some.mpr fun o ho => hw ⟨o, ho⟩
  refine ⟨hdead fun hw => hno ((allocated_iff_reach hm hs hacyclic hset).mp hw), hdead fun hw => ?_⟩
  have hreach := (allocated_iff_reach hm' hs' hacyclic hset').mp hw
  exact hno (hreach.mono (fun _ => hp.mem_iff.mp) fun _ _ => id)

/-- What remains to be checked of a state that a mutator has reached. -/
def ReadyToRelease (s : SyliState) : Prop :=
  s.tracingState = .idle ∧ (s.releasingState = .idle ↔ s.releasingWorklist = []) ∧
    (∀ i < s.cyclicCandidates.length, ∀ a ∈ s.cyclicCandidates[i]?, s.candidateIndex a = i ∧
      ∃ o ∈ s.heap a, o.cyclicCandidate = true ∧ o.header.isCyclicMutable = true) ∧
    ∀ a < s.next, ∀ o ∈ s.heap a, o.childrenReleased = false ∧ o.waitingRemove = false ∧
      (o.cyclicCandidate = true → a ∈ s.cyclicCandidates) ∧
        (o.refcount = 0 → a ∈ s.releasingWaitlist ++ s.releasingWorklist)

instance (s : SyliState) : Decidable (ReadyToRelease s) :=
  inferInstanceAs (Decidable (_ ∧ _ ∧ _ ∧ _))

/-- A machine without globals, between two traces, is such a heap. -/
theorem exactHeap_of_machine {w : Machine} (he : Exact w) (hs : Separate w.rt) (hf : Freed w.rt)
    (hglobals : w.globals = [] ∧ w.leaked = []) (hready : ReadyToRelease w.rt) :
    ExactHeap { rt := w.rt, owners := w.locals } := by
  obtain ⟨hidle, hworking, hentry, hobj⟩ := hready
  have hobj : ∀ a o, w.rt.heap a = some o → _ := fun a o ho => hobj a (hf.live a o ho).2 o ho
  have hclaims : w.claims = w.locals := by
    simp [Machine.claims, Machine.held, Machine.globalRefs, hglobals]
  exact
    { ledger := hclaims ▸ he
      separate := hs
      registered :=
        { entry := fun i a ha => hentry i (List.getElem?_eq_some_iff.mp ha).1 a ha
          listed := fun a o ho => (hobj a o ho).2.2.1
          waiting := fun a o ho hw => by simp [(hobj a o ho).2.1] at hw }
      freed := hf
      idle := hidle
      intact := fun a o ho => (hobj a o ho).1
      queued := fun a o ho => (hobj a o ho).2.2.2
      working := hworking }

/-- `2` refers to `1`, and both are released through the drop of `2`. -/
theorem release_exact_chain :
    ∃ m₀ m, Runs Owned.step (fun _ _ => True) m₀ m ∧ m.Settled ∧ m.rt.freed = [1, 2] ∧
      Released m₀ m := by
  obtain ⟨w, hw, hglobals, hready, henv, hedges, m, hm, hset, hfreed⟩ :
      ∃ w ∈ execute Machine.step (fun m act => RespectsReleased m act ∧ ScansCounted m act)
        (Machine.init testEnv 0)
        [.alloc (mutableCell 1), .alloc (mutableCell 1), .store .own 2 0 1],
        (w.globals = [] ∧ w.leaked = []) ∧ ReadyToRelease w.rt ∧
          w.rt.env.thresholdReleasingBucket ≤ 1 ∧
            (∀ a < w.rt.next, ∀ b ∈ w.rt.outRefs a, b < a) ∧
              ∃ m ∈ execute Owned.step (fun _ _ => True) { rt := w.rt, owners := w.locals }
                [.drop 2, .budget 10, .iterate, .iterate, .iterate, .iterate],
                (m.rt.releasingState = .idle ∧ m.rt.releasingWaitlist = [] ∧
                  m.rt.releasingWorklist = []) ∧ m.rt.freed = [1, 2] := by
    decide +kernel
  have hruns := Runs.of_execute hw
  have hall : Exact w ∧ Freed w.rt := by
    refine hruns.invariant (P := fun m => Exact m ∧ Freed m.rt)
      ⟨exact_init testEnv 0, freed_init testEnv 0⟩ ?_
    rintro m act m' ⟨he, hf⟩ ⟨hok, -⟩ hstep
    exact ⟨exact_move he hok (step_move hstep), freed_move hf (step_move hstep)⟩
  have h₀ := exactHeap_of_machine hall.1 (separate_of_runs hruns) hall.2 hglobals hready
  have hdown : ∀ a b, Refers { rt := w.rt, owners := w.locals } a b → b < a := by
    intro a b hab
    by_cases ha : a < w.rt.next
    · exact hedges a ha b hab
    · rw [Refers, outRefs_of_none (h₀.ledger.fresh a (Nat.le_of_not_lt ha))] at hab
      simp at hab
  have hacyclic : ∀ a, ¬ Relation.TransGen (Refers { rt := w.rt, owners := w.locals }) a a := by
    intro a ha
    have hlt : Relation.TransGen (fun a b : Addr => b < a) a a :=
      Relation.TransGen.mono hdown a a ha
    have hle := Relation.transGen_minimal (le_refl fun a b : Addr => b < a)
    exact Nat.lt_irrefl a (hle a a hlt)
  exact ⟨_, m, Runs.of_execute hm, hset, hfreed,
    ((release_exact h₀ henv hacyclic (Runs.of_execute hm)).2.2 hset).1⟩

end Syli.Collector
