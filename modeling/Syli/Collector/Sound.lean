import Syli.Collector.Exact

/-! The counts are exact in every state of a run that never touches a released object. -/
namespace Syli.Collector

open Foundation Syli.Runtime

variable {s s' : SyliState} {m m' : Machine} {claims claims' : List Addr} {out : Addr → List Addr}
variable {x y slot : Nat} {o : GCObject} {operand : Operand} {act : Action}

/-- The counts of a machine are exactly its references and the slots that are still counted. -/
def Exact (m : Machine) : Prop := Ledger m.rt m.claims m.rt.outRefs

/-- The object has not had its children released. -/
def Intact (m : Machine) (a : Addr) : Prop :=
  ∀ o, m.rt.heap a = some o → o.childrenReleased = false

instance (m : Machine) (a : Addr) : Decidable (Intact m a) :=
  decidable_of_iff (∀ o ∈ m.rt.heap a, o.childrenReleased = false) Iff.rfl

/-- An object whose children the reclaiming of cycles has released is neither read, nor written,
nor released once more by the reference counting. -/
def RespectsReleased (m : Machine) : Action → Prop
  | .load x _ | .store _ x _ _ => Intact m x
  | .gcReleasing => ∀ a ∈ m.rt.releasingWorklist.head?, Intact m a
  | _ => True

instance (m : Machine) : (act : Action) → Decidable (RespectsReleased m act)
  | .load x _ | .store _ x _ _ => inferInstanceAs (Decidable (Intact m x))
  | .gcReleasing => inferInstanceAs (Decidable (∀ a ∈ m.rt.releasingWorklist.head?, Intact m a))
  | .alloc _ | .share _ | .drop _ | .notify _ _ _ | .storeGlobal _ _ | .gcCycle _ _ _
  | .gcTracing _ => isTrue trivial

namespace Ledger

theorem not_waiting_of_pos (h : Ledger s claims out) (ho : s.heap x = some o)
    (hpos : 0 < o.refcount) : o.waitingRemove = false := by
  by_contra hw
  have := (h.waiting x o ho (by simpa using hw)).2
  omega

theorem outRefs_of_claim (h : Ledger s claims out) (hx : x ∈ claims) (ho : s.heap x = some o)
    (hr : o.childrenReleased = false) : s.outRefs x = o.ownRefs := by
  obtain ⟨o', ho', hpos⟩ := h.exists_of_claim hx
  obtain rfl := Option.some.inj (ho.symm.trans ho')
  rw [outRefs_of_heap ho, countedRefs_of_intact (h.not_waiting_of_pos ho hpos) hr]

theorem alloc (h : Ledger s claims s.outRefs) {header : ObjectHeader} (hwf : header.WellFormed)
    (candidate : Bool) :
    Ledger ((s.setObj s.next (freshObject s header candidate)).bumpNext) (s.next :: claims)
      s.outRefs := by
  have hnone := h.fresh s.next (Nat.le_refl _)
  have hcases : ∀ b ob, ((s.setObj s.next (freshObject s header candidate)).bumpNext).heap b =
      some ob → b = s.next ∧ ob = freshObject s header candidate ∨ s.heap b = some ob := by
    intro b ob hob
    by_cases hb : b = s.next
    · subst hb
      exact Or.inl ⟨rfl, by simpa [eq_comm] using hob⟩
    · exact Or.inr (by simpa [hb] using hob)
  have hnot : ∀ a ∈ s.releasingWaitlist ++ s.releasingWorklist ++ s.lostCycleWorklist,
      a ≠ s.next := fun a ha => Nat.ne_of_lt (h.bounded a ha)
  refine { h with
    balanced := ?_
    fresh := ?_
    wellFormed := ?_
    bounded := fun a ha => Nat.lt_succ_of_lt (h.bounded a ha)
    releasing := ?_
    lost := ?_
    waiting := ?_
    flagged := ?_ }
  · have hb := h.balanced.insert (x := s.next) (by simp) (by simp [SyliState.refcountOf, hnone])
      (outRefs_of_none hnone)
    rw [← Finset.range_add_one] at hb
    exact refcountOf_setObj ▸ hb
  · intro a ha
    have hne : a ≠ s.next := Nat.ne_of_gt ha
    simpa [hne] using h.fresh a (Nat.le_of_succ_le ha)
  · intro b ob hob
    rcases hcases b ob hob with ⟨rfl, rfl⟩ | hob
    · exact hwf
    · exact h.wellFormed b ob hob
  · intro b hb ob hob
    rcases hcases b ob hob with ⟨rfl, rfl⟩ | hob
    · exact absurd rfl (hnot _ (List.mem_append_left _ hb))
    · exact h.releasing b hb ob hob
  · intro b hb ob hob
    rcases hcases b ob hob with ⟨rfl, rfl⟩ | hob
    · exact absurd rfl (hnot _ (List.mem_append_right _ hb))
    · exact h.lost b hb ob hob
  · intro b ob hob hw
    rcases hcases b ob hob with ⟨rfl, rfl⟩ | hob
    · simp [freshObject] at hw
    · exact h.waiting b ob hob hw
  · intro b ob hob ht
    rcases hcases b ob hob with ⟨rfl, rfl⟩ | hob
    · simp [freshObject] at ht
    · exact h.flagged b ob hob ht

theorem outRefs_alloc (h : Ledger s claims out) (header : ObjectHeader) (candidate : Bool) :
    ((s.setObj s.next (freshObject s header candidate)).bumpNext).outRefs = s.outRefs := by
  refine outRefs_setObj.trans ?_
  rw [countedRefs_of_intact rfl rfl, freshObject_ownRefs,
    ← outRefs_of_none (h.fresh s.next (Nat.le_refl _)), Function.update_eq_self]

theorem notified (h : Ledger s claims out) (hn : Notified operand x y s s') :
    Ledger s' claims out := by
  cases hn with
  | quiet _ => exact h
  | @barrier o t hst _ _ _ _ ht _ =>
    have hs := h.restate (w := { t with mark := s.tracingCurrentBitMark }) ht rfl rfl rfl rfl
    exact hs.popMutation hst _

theorem outRefs_notified (hn : Notified operand x y s s') : s'.outRefs = s.outRefs := by
  cases hn with
  | quiet _ => rfl
  | barrier _ _ _ _ _ ht _ => exact outRefs_setObj.trans (update_outRefs_of_eq ht rfl)

theorem share (h : Ledger s claims s.outRefs) (ho : s.heap x = some o) (hpos : 0 < o.refcount) :
    Ledger (s.setObj x { o with refcount := o.refcount + 1 }) (x :: claims)
      (s.setObj x { o with refcount := o.refcount + 1 }).outRefs := by
  rw [outRefs_setRefcount ho]
  exact h.gain ho hpos

/-- Counts outside the heap become the slots of an object that counted none. -/
theorem fill (h : Ledger s claims (Function.update out x [])) (ho : s.heap x = some o)
    {w : GCObject} (hp : claims.Perm (w.ownRefs ++ claims')) (hheader : w.header = o.header)
    (hcount : w.refcount = o.refcount) (htracing : w.tracing = o.tracing)
    (hwaiting : w.waitingRemove = o.waitingRemove) :
    Ledger (s.setObj x w) claims' (Function.update out x w.ownRefs) := by
  have hs := h.restate ho hheader hcount htracing hwaiting
  exact { hs with
    balanced := (hs.perm hp).balanced.attach (Finset.mem_range.mpr (h.lt_next ho)) }

/-- Giving up the old value of a slot: the other references of the object are claims meanwhile. -/
theorem overwrites {u : SyliState} (h : Ledger s claims s.outRefs) (hx : x ∈ claims)
    (ho : s.heap x = some o) (hcr : o.childrenReleased = false) (hslot : slot ∈ o.header.refSlots)
    (hlen : slot < o.value.length)
    (hold : u = s ∧ (o.value.getD slot .null).ownRef? = none ∨
      ∃ c oc, o.value.getD slot .null = .own c ∧ s.heap c = some oc ∧ GiveUp .dropping s c oc u) :
    ∃ rest, (GCObject.ownRefs { o with value := o.value.set slot (.own y) }).Perm (y :: rest) ∧
      Ledger u (rest ++ claims) (Function.update s.outRefs x []) ∧ u.outRefs = s.outRefs ∧
        ReleaseFrame s u := by
  obtain ⟨rest, hrest, hset⟩ := ownRefs_set (r := .own y) hslot hlen
  have hd := h.detach ho
  rw [h.outRefs_of_claim hx ho hcr] at hd
  refine ⟨rest, hset, ?_⟩
  rcases hold with ⟨rfl, hnone⟩ | ⟨c, oc, hval, hc, hg⟩
  · rw [hnone] at hrest
    exact ⟨hd.perm (hrest.append_right _), rfl, .refl _⟩
  · rw [hval] at hrest
    exact ⟨(hd.perm (hrest.append_right _)).giveUp hc (by simp) hg, h.outRefs_giveUp hc hg,
      hg.frame hc⟩

/-- A store moves a count of the mutator into the slot, and gives up the count of the old value. -/
theorem stored (h : Ledger s claims s.outRefs) (hx : x ∈ claims)
    (hp : claims.Perm (y :: claims')) (hr : ∀ o, s.heap x = some o → o.childrenReleased = false)
    (hs : Stored operand x slot y s s') : Ledger s' claims' s'.outRefs := by
  obtain @⟨u, o, o', ho, hslot, hlen, hold, ho', hn⟩ := hs
  obtain ⟨rest, hset, hl, houtu, hframe⟩ := h.overwrites (y := y) hx ho (hr o ho) hslot hlen hold
  obtain ⟨o₁, ho₁, hf⟩ := hframe.obj x o' ho'
  obtain rfl := Option.some.inj (ho.symm.trans ho₁)
  obtain ⟨o₂, ho₂, hpos⟩ := hl.exists_of_claim (List.mem_append_right rest hx)
  obtain rfl := Option.some.inj (ho'.symm.trans ho₂)
  have hwait := hl.not_waiting_of_pos ho' hpos
  have hcr := hf.childrenReleased.trans (hr o ho)
  have hperm : (rest ++ claims).Perm
      (GCObject.ownRefs { o' with value := o'.value.set slot (.own y) } ++ claims') := by
    have hsame : GCObject.ownRefs { o' with value := o'.value.set slot (.own y) } =
        GCObject.ownRefs { o with value := o.value.set slot (.own y) } := by
      simp only [GCObject.ownRefs, hf.header, hf.value]
    rw [hsame]
    exact (hp.append_left rest).trans (List.perm_middle.trans (hset.symm.append_right claims'))
  have hw := hl.fill ho' hperm rfl rfl rfl rfl
  have hout : (u.setObj x { o' with value := o'.value.set slot (.own y) }).outRefs =
      Function.update s.outRefs x
        (GCObject.ownRefs { o' with value := o'.value.set slot (.own y) }) := by
    rw [outRefs_setObj, houtu]
    exact congrArg _ (countedRefs_of_intact hwait hcr)
  rw [← hout] at hw
  rw [outRefs_notified hn]
  exact hw.notified hn

end Ledger

/-- Overwriting a global keeps its old reference outside the globals. -/
theorem globalRefs_set {globals : List ObjPtr} {g : Nat} {r : ObjPtr} (hg : g < globals.length) :
    ((globals.set g r).filterMap ObjPtr.ownRef? ++ (globals.getD g .null).ownRef?.toList).Perm
      (r.ownRef?.toList ++ globals.filterMap ObjPtr.ownRef?) := by
  have hcons : ∀ (p : ObjPtr) (ps : List ObjPtr), (p :: ps).filterMap ObjPtr.ownRef? =
      p.ownRef?.toList ++ ps.filterMap ObjPtr.ownRef? := by
    intro p ps
    cases hp : p.ownRef? <;> simp [hp]
  induction globals generalizing g with
  | nil => simp at hg
  | cons p ps ih =>
    cases g with
    | zero =>
      rw [List.set_cons_zero, hcons, hcons, List.getD_cons_zero, List.append_assoc]
      exact List.perm_append_comm.append_left _
    | succ g =>
      rw [List.set_cons_succ, hcons, hcons, List.getD_cons_succ, List.append_assoc]
      refine ((ih (by simpa using hg)).append_left _).trans ?_
      rw [← List.append_assoc, ← List.append_assoc]
      exact List.perm_append_comm.append_right _

theorem exact_move (h : Exact m) (hok : RespectsReleased m act) (hm : Move m act m') :
    Exact m' := by
  cases hm with
  | @alloc header candidate candidates index g _ hwf =>
    have hl := Ledger.alloc h hwf candidate
    rw [← Ledger.outRefs_alloc h header candidate] at hl
    exact { hl with }
  | @load x slot o oc c _ hx ho hc hoc _ =>
    have hmem : x ∈ m.claims := List.mem_append_left _ hx
    have hc' : c ∈ m.rt.outRefs x := by
      rw [Ledger.outRefs_of_claim h hmem ho (hok o ho)]
      exact hc
    obtain ⟨oc', hoc', hpos⟩ := h.exists_of_edge (h.lt_next ho) hc'
    obtain rfl := Option.some.inj (hoc.symm.trans hoc')
    exact h.share hoc hpos
  | share _ hx ho =>
    obtain ⟨o', ho', hpos⟩ := h.exists_of_claim (List.mem_append_left _ hx)
    obtain rfl := Option.some.inj (ho.symm.trans ho')
    exact h.share ho hpos
  | @drop x o s _ hx ho hg =>
    have hp : m.claims.Perm (x :: (m.locals.erase x ++ m.globalRefs ++ m.leaked)) :=
      ((List.perm_cons_erase hx).append_right _).append_right _
    have hl := (h.perm hp).giveUp ho (by simp) hg
    rw [← h.outRefs_giveUp ho hg] at hl
    exact hl
  | @store operand x y slot s _ hx hy hs =>
    have hp : m.claims.Perm (y :: (m.locals.erase y ++ m.globalRefs ++ m.leaked)) :=
      ((List.perm_cons_erase hy).append_right _).append_right _
    exact Ledger.stored h (List.mem_append_left _ hx) hp hok hs
  | notify _ _ _ hn =>
    have hl := Ledger.notified h hn
    rw [← Ledger.outRefs_notified hn] at hl
    exact hl
  | @storeGlobal g y _ hy hg =>
    have hglobals := globalRefs_set (r := .own y) hg
    refine h.perm ?_
    have hlocals := List.perm_cons_erase hy
    have hset : (y :: (m.globalRefs ++ m.leaked)).Perm ((m.globals.set g (.own y)).filterMap
        ObjPtr.ownRef? ++ ((m.globals.getD g .null).ownRef?.toList ++ m.leaked)) := by
      rw [← List.append_assoc]
      exact (hglobals.append_right m.leaked).symm
    show (m.locals ++ m.globalRefs ++ m.leaked).Perm (m.locals.erase y ++
      (m.globals.set g (.own y)).filterMap ObjPtr.ownRef? ++
        ((m.globals.getD g .null).ownRef?.toList ++ m.leaked))
    rw [List.append_assoc, List.append_assoc]
    refine (hlocals.append_right _).trans ?_
    exact List.perm_middle.symm.trans (hset.append_left _)
  | gcCycle b _ => exact { h with }
  | releasing _ hs => exact h.releasingStep hs hok
  | releasingDone _ => exact h
  | tracing _ _ hs => exact h.tracingStep hs
  | tracingDone _ => exact h

theorem exact_init (env : Env) (globals : Nat) : Exact (Machine.init env globals) := by
  have hclaims : (Machine.init env globals).claims = [] := by
    simp [Machine.claims, Machine.held, Machine.globalRefs, Machine.init, ObjPtr.ownRef?]
  unfold Exact
  rw [hclaims]
  refine ⟨fun a => ?_, ?_, ?_, ?_, ?_, ?_, ?_, ?_, ?_, ?_, ?_⟩
  · simp [SyliState.refcountOf, Machine.init, syliStateInit, inDegree, SyliState.outRefs]
  all_goals simp [Machine.init, syliStateInit]

end Syli.Collector
