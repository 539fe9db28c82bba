import Syli.Compiler.OwnershipInvariant

/-! An annotated statement takes the holders of the live variables before it to those after it. -/
namespace Syli.Compiler

open Foundation

variable {st st' : OwnState} {L M A : IntSet} {v w : Id} {dst : Var} {op : Operand}
variable {marker : OwnershipOp} {la : Id → Bool} {s : Statement} {fresh : Id → Id}
variable {args : List Arg}

def defsOf (dst : Var) : IntSet := if isRefTy dst.ty then {dst.id} else ∅

theorem mem_defsOf : v ∈ defsOf dst ↔ isRefTy dst.ty ∧ dst.id = v := by
  unfold defsOf
  split
  · rename_i h
    simp only [Finset.mem_singleton, h, true_and]
    exact eq_comm
  · rename_i h
    simp [h]

theorem mem_varsOfOperand {u : Var} : v ∈ varsOfOperand (.var u) ↔ isRefTy u.ty ∧ v = u.id := by
  by_cases href : isRefTy u.ty <;> simp [varsOfOperand, href]

theorem Accounted.mono (h : Accounted L st) (hs : L ⊆ M) : Accounted M st := by
  intro t ht
  obtain ⟨v, hv, he⟩ := h t ht
  exact ⟨v, hs hv, he⟩

/-- What an operation makes of the holders in `L`: it succeeds and leaves the holders in `M`, which
account for all counts where `K` holds. -/
def Takes (L M : IntSet) (st : OwnState) (K : Prop) (r : OwnResult OwnState) : Prop :=
  ∃ st', r = .ok st' ∧ Held M st' ∧ (Accounted L st → K → Accounted M st')

theorem Takes.intro {K : Prop} (h : Held M st')
    (ha : Accounted L st → K → Accounted M st') : Takes L M st K (.ok st') :=
  ⟨st', rfl, h, ha⟩

namespace Held

theorem takes_own {K : Prop} (h : Held L st) (hdst : isRefTy dst.ty → dst.id ∉ L)
    (hleak : K → isRefTy dst.ty → dst.id ∈ A) :
    Takes L (L ∪ (defsOf dst ∩ A)) st K (.ok (st.defineOwn dst)) := by
  by_cases href : isRefTy dst.ty
  · obtain ⟨hd, ha⟩ := h.defineOwn (hdst href) href
    refine .intro (hd.mono ?_) fun hacc hok => ?_
    · intro v hv
      rcases Finset.mem_union.mp hv with hv | hv
      · exact Finset.mem_insert_of_mem hv
      · rw [(mem_defsOf.mp (Finset.mem_inter.mp hv).1).2.symm]
        exact Finset.mem_insert_self _ _
    · refine (ha hacc).mono fun v hv => ?_
      rcases Finset.mem_insert.mp hv with rfl | hv
      · exact Finset.mem_union_right _
          (Finset.mem_inter.mpr ⟨mem_defsOf.mpr ⟨href, rfl⟩, hleak hok href⟩)
      · exact Finset.mem_union_left _ hv
  · have hnone : defsOf dst = ∅ := if_neg href
    have heq : st.defineOwn dst = st := if_neg href
    rw [hnone, heq, Finset.empty_inter, Finset.union_empty]
    exact .intro h fun hacc _ => hacc

theorem takes_eternal {K : Prop} (h : Held L st) (hdst : isRefTy dst.ty → dst.id ∉ L) :
    Takes L (L ∪ (defsOf dst ∩ A)) st K (.ok (st.define dst .eternal)) := by
  by_cases href : isRefTy dst.ty
  · obtain ⟨hd, -⟩ := h.define_eternal (hdst href) href
    obtain ⟨-, ha⟩ := h.define (r := .eternal) hdst
    refine .intro (hd.mono ?_) fun hacc _ => (ha hacc).mono Finset.subset_union_left
    intro v hv
    rcases Finset.mem_union.mp hv with hv | hv
    · exact Finset.mem_insert_of_mem hv
    · rw [(mem_defsOf.mp (Finset.mem_inter.mp hv).1).2.symm]
      exact Finset.mem_insert_self _ _
  · have hnone : defsOf dst = ∅ := if_neg href
    have heq : st.define dst .eternal = st := if_neg href
    rw [hnone, heq, Finset.empty_inter, Finset.union_empty]
    exact .intro h fun hacc _ => hacc

/-- A destination that is dead afterwards may hold anything. -/
theorem takes_dead {K : Prop} {r : Ref} (h : Held L st) (hdst : isRefTy dst.ty → dst.id ∉ L)
    (hdead : isRefTy dst.ty → dst.id ∉ A) :
    Takes L (L ∪ (defsOf dst ∩ A)) st K (.ok (st.define dst r)) := by
  have hnone : defsOf dst ∩ A = ∅ := by
    ext v
    simp only [Finset.mem_inter, mem_defsOf, Finset.notMem_empty, iff_false]
    rintro ⟨⟨href, rfl⟩, hv⟩
    exact hdead href hv
  rw [hnone, Finset.union_empty]
  obtain ⟨hd, ha⟩ := h.define (r := r) hdst
  exact .intro hd fun hacc _ => ha hacc

end Held

theorem mem_argUses :
    v ∈ args.foldl (fun s a => s ∪ varsOfOperand a.operand) (∅ : IntSet) ↔
      ∃ a ∈ args, v ∈ varsOfOperand a.operand := by
  have hall : ∀ {l : List Arg} {s : IntSet}, v ∈ l.foldl (fun s a => s ∪ varsOfOperand a.operand) s ↔
      v ∈ s ∨ ∃ a ∈ l, v ∈ varsOfOperand a.operand := by
    intro l s
    induction l generalizing s with
    | nil => simp
    | cons a l ih =>
      rw [List.foldl_cons, ih]
      simp [or_assoc]
  simpa using hall (l := args) (s := ∅)

/-- The variables whose counts an operand gives up. -/
def given (marker : OwnershipOp) (op : Operand) : IntSet :=
  match marker with
  | .transfer | .own => varsOfOperand op
  | _ => ∅

theorem Held.hand {K : Prop} (h : Held L st) (marker : OwnershipOp)
    (hop : varsOfOperand op ⊆ L) :
    Takes L (L \ given marker op) st K (st.hand marker op) := by
  have hread : Takes L L st K (do st.read op; return st) := by
    rw [h.read hop]
    exact .intro h fun hacc _ => hacc
  have hmove : ∀ v : Var, op = .var v → varsOfOperand op = given marker op →
      st.hand marker op = (if isRefTy v.ty then st.giveUp v.id else .ok st) →
        Takes L (L \ given marker op) st K (st.hand marker op) := by
    rintro v rfl hg heq
    rw [heq, ← hg]
    by_cases href : isRefTy v.ty
    · have hv : varsOfOperand (.var v) = {v.id} := by simp [varsOfOperand, href]
      rw [if_pos href, hv, Finset.sdiff_singleton_eq_erase]
      obtain ⟨st', hst', hheld, hacc⟩ := h.giveUp (v := v.id) (hop (by simp [hv]))
      exact ⟨st', hst', hheld, fun ha _ => hacc ha⟩
    · have hv : varsOfOperand (.var v) = ∅ := by simp [varsOfOperand, href]
      rw [if_neg href, hv, Finset.sdiff_empty]
      exact .intro h fun hacc _ => hacc
  have hconst : ∀ {c ty}, op = .constant c ty → given marker op = ∅ := by
    rintro c ty rfl
    cases marker <;> rfl
  cases marker with
  | transfer =>
    cases op with
    | var v => exact hmove v rfl rfl rfl
    | constant c ty =>
      rw [hconst rfl, Finset.sdiff_empty]
      exact hread
  | own =>
    cases op with
    | var v => exact hmove v rfl rfl rfl
    | constant c ty =>
      rw [hconst rfl, Finset.sdiff_empty]
      exact hread
  | borrow | share | constant | alwaysBorrow | unknown =>
    simp only [given, Finset.sdiff_empty]
    exact hread

/-- The reference variables among the arguments that are dead after the call. -/
def deadArgs (la : Id → Bool) (args : List Arg) : List Id :=
  args.filterMap fun a =>
    match a.operand with
    | .var v => if isRefTy v.ty ∧ la v.id = false then some v.id else none
    | .constant _ _ => none

/-- An argument as the pass marks it. -/
def markArg (la : Id → Bool) (a : Arg) : Arg :=
  match a.operand with
  | .var v =>
    if isRefTy v.ty then
      if la v.id then { a with ownershipArg := .borrow } else { a with ownershipArg := .transfer }
    else { a with ownershipArg := .constant }
  | .constant _ _ => { a with ownershipArg := .constant }

theorem foldl_annotateArg (hun : ∀ a ∈ args, a.ownershipArg = .unknown) (acc : List Arg × IntSet) :
    args.foldl (annotateArg la) acc =
      ((args.map (markArg la)).reverse ++ acc.1, acc.2 ∪ (deadArgs la args).toFinset) := by
  induction args generalizing acc with
  | nil => simp [deadArgs]
  | cons a args ih =>
    rw [List.foldl_cons, ih fun b hb => hun b (List.mem_cons_of_mem a hb)]
    obtain ⟨op, marker⟩ := a
    obtain rfl : marker = .unknown := hun _ List.mem_cons_self
    cases op with
    | constant c ty => simp [annotateArg, markArg, deadArgs]
    | var v =>
      by_cases href : isRefTy v.ty
      · cases hla : la v.id with
        | true => simp [annotateArg, markArg, deadArgs, href, hla]
        | false =>
          have hlist : deadArgs la ({ operand := .var v, ownershipArg := .unknown } :: args) =
              v.id :: deadArgs la args := by simp [deadArgs, href, hla]
          rw [hlist, List.toFinset_cons, Finset.union_insert]
          simp [annotateArg, markArg, href, hla]
      · simp [annotateArg, markArg, deadArgs, href]

theorem Held.handArgs {K : Prop} (h : Held L st)
    (hargs : ∀ a ∈ args, varsOfOperand a.operand ⊆ L) (hn : (deadArgs la args).Nodup) :
    Takes L (L \ (deadArgs la args).toFinset) st K
      ((args.map (markArg la)).foldlM (fun st a => st.hand a.ownershipArg a.operand) st) := by
  induction args generalizing L st with
  | nil =>
    simp only [deadArgs, List.filterMap_nil, List.toFinset_nil, Finset.sdiff_empty]
    exact .intro h fun hacc _ => hacc
  | cons a args ih =>
    have hop := hargs a List.mem_cons_self
    have hrest := fun b hb => hargs b (List.mem_cons_of_mem a hb)
    rw [List.map_cons, List.foldlM_cons]
    by_cases hdead : ∃ v : Var, a.operand = .var v ∧ isRefTy v.ty = true ∧ la v.id = false
    · obtain ⟨v, hv, href, hla⟩ := hdead
      have hlist : deadArgs la (a :: args) = v.id :: deadArgs la args := by
        simp [deadArgs, hv, href, hla]
      have hmark : (markArg la a).ownershipArg = .transfer ∧ (markArg la a).operand = .var v := by
        simp [markArg, hv, href, hla]
      rw [hlist] at hn ⊢
      obtain ⟨hnot, hn⟩ := List.nodup_cons.mp hn
      rw [hmark.1, hmark.2]
      have hgiven : given .transfer (.var v) = {v.id} := by simp [given, varsOfOperand, href]
      obtain ⟨st₁, hst₁, hheld, hacc⟩ := h.hand (K := K) .transfer (hv ▸ hop)
      rw [hgiven] at hheld hacc
      have hsub : ∀ b ∈ args, varsOfOperand b.operand ⊆ L \ {v.id} := by
        intro b hb w hw
        refine Finset.mem_sdiff.mpr ⟨hrest b hb hw, fun heq => ?_⟩
        rw [Finset.mem_singleton] at heq
        subst heq
        -- the variable would be another dead argument
        cases hb' : b.operand with
        | constant c ty => simp [hb', varsOfOperand] at hw
        | var u =>
          have hu : isRefTy u.ty = true ∧ v.id = u.id := by
            rw [hb'] at hw
            exact mem_varsOfOperand.mp hw
          refine hnot (List.mem_filterMap.mpr ⟨b, hb, ?_⟩)
          simp [hb', hu.1, ← hu.2, hla]
      obtain ⟨st₂, hst₂, hheld₂, hacc₂⟩ := ih hheld hsub hn
      have heq : L \ (v.id :: deadArgs la args).toFinset =
          (L \ {v.id}) \ (deadArgs la args).toFinset := by
        ext w
        simp [and_assoc]
      rw [heq]
      exact ⟨st₂, by rw [hst₁]; exact hst₂, hheld₂, fun ha hok => hacc₂ (hacc ha hok) hok⟩
    · have hlist : deadArgs la (a :: args) = deadArgs la args := by
        refine List.filterMap_cons_none ?_
        cases hv : a.operand with
        | constant c ty => rfl
        | var v =>
          refine if_neg fun hc => hdead ⟨v, hv, hc⟩
      have hgiven : given (markArg la a).ownershipArg (markArg la a).operand = ∅ := by
        cases hv : a.operand with
        | constant c ty => simp [markArg, hv, given]
        | var v =>
          by_cases href : isRefTy v.ty
          · have hla : la v.id = true := by
              by_contra hla
              exact hdead ⟨v, hv, href, by simpa using hla⟩
            simp [markArg, hv, href, hla, given]
          · simp [markArg, hv, href, given]
      have hsame : (markArg la a).operand = a.operand := by
        cases hv : a.operand with
        | constant c ty => simp [markArg, hv]
        | var v =>
          simp only [markArg, hv]
          split
          · split <;> rfl
          · rfl
      have hop' : varsOfOperand (markArg la a).operand ⊆ L := hsame ▸ hop
      obtain ⟨st₁, hst₁, hheld, hacc⟩ := h.hand (K := K) (markArg la a).ownershipArg hop'
      rw [hgiven, Finset.sdiff_empty] at hheld hacc
      rw [hlist] at hn ⊢
      obtain ⟨st₂, hst₂, hheld₂, hacc₂⟩ := ih hheld hrest hn
      exact ⟨st₂, by rw [hst₁]; exact hst₂, hheld₂, fun ha hok => hacc₂ (hacc ha hok) hok⟩

/-- A statement as its producer leaves it: its markers are unknown, a field is set to a value of its
type, and a function pointer is no reference. -/
def Unmarked (s : Statement) : Prop :=
  match s.node with
  | .assign _ (.objectGet _ _ _ marker) | .assign _ (.cast _ _ marker)
  | .storeGlobal _ _ marker => marker = .unknown
  | .objectSet _ _ value valueTy marker => marker = .unknown ∧
    ∀ v, value = .var v → isRefTy v.ty = isRefTy valueTy
  | .call _ target args => (∀ a ∈ args, a.ownershipArg = .unknown) ∧
    match target with
    | .directFnPtr ptr => isRefTy ptr.ty = false
    | .direct _ => True
  | _ => True

/-- The statements for which no count is given up twice: a call passes a variable that dies in it
once, the source of a move dies in it, a cast between references is not used, and nothing is
released by hand. -/
def StmtOk (la : Id → Bool) (s : Statement) : Prop :=
  match s.node with
  | .call _ _ args => (deadArgs la args).Nodup
  | .assign _ (.move (.var v)) => isRefTy v.ty → la v.id = false
  | .assign dst (.cast (.var v) _ _) => isRefTy v.ty → isRefTy dst.ty → la dst.id = false
  | .release _ => False
  | _ => True

/-- The statements that create no count which is dead at once. -/
def LeakOk (la : Id → Bool) (s : Statement) : Prop :=
  match s.node with
  | .objectCreate dst _ | .call dst _ _ => isRefTy dst.ty → la dst.id = true
  | .assign dst (.move (.var v)) => isRefTy v.ty → isRefTy dst.ty = true ∧ la dst.id = true
  | .assign dst (.cast (.var v) _ _) => ¬ isRefTy v.ty → isRefTy dst.ty → la dst.id = true
  | _ => True

instance (s : Statement) : Decidable (StmtOk la s) := by
  unfold StmtOk
  split <;> infer_instance

instance (s : Statement) : Decidable (LeakOk la s) := by
  unfold LeakOk
  split <;> infer_instance

theorem execAll_append (st : OwnState) (l₁ l₂ : List Statement) :
    st.execAll (l₁ ++ l₂) = (st.execAll l₁).bind (·.execAll l₂) := by
  simp only [OwnState.execAll, List.foldlM_append]
  rfl

theorem execAll_singleton (st : OwnState) (s : Statement) : st.execAll [s] = st.exec s := by
  simp [OwnState.execAll]

/-- What an annotated statement is to do: `B` are the variables live before it, `A` after it. -/
def Performs (B A : IntSet) (la : Id → Bool) (s : Statement) (fresh : Id → Id) (st : OwnState) :
    Prop :=
  Takes B ((B \ (annotateStmt fresh la s).2) ∪ (refDefOfStmt s ∩ A)) st (LeakOk la s)
    (st.execAll (annotateStmt fresh la s).1)

section

variable {B : IntSet} {rv : RvalueNode} {sid : Id} {obj length value : Operand} {target : CallTarget}
variable {p : Projection} {ty : IrType} {global : String}

theorem Takes.of_eq {K K' : Prop} {M' : IntSet} {r : OwnResult OwnState}
    (h : Takes L M st K r) (hM : M = M') (hleak : K' → K) :
    Takes L M' st K' r := by
  obtain ⟨st', hr, hheld, hacc⟩ := h
  subst hM
  exact ⟨st', hr, hheld, fun ha hok => hacc ha (hleak hok)⟩

variable (h : Held B st) (hla : ∀ v, la v = true ↔ v ∈ A)
include h

/-- An assignment that leaves an eternal reference, or none, in its destination. -/
theorem performs_eternal {s : Statement} (hdst : ∀ v ∈ refDefOfStmt s, v ∉ B)
    (hann : annotateStmt fresh la s = ([s], ∅)) (hdef : refDefOfStmt s = defsOf dst)
    (hexec : st.exec s = .ok (st.define dst .eternal)) : Performs B A la s fresh st := by
  unfold Performs
  rw [hann, execAll_singleton, hexec, hdef]
  refine (h.takes_eternal (A := A) fun href => ?_).of_eq (by simp) id
  exact hdst _ (hdef ▸ mem_defsOf.mpr ⟨href, rfl⟩)

/-- A statement that hands one operand on. -/
theorem performs_hand {s s' : Statement} (marker : OwnershipOp) (hop : varsOfOperand value ⊆ B)
    (hdef : refDefOfStmt s = ∅) (hann : annotateStmt fresh la s = ([s'], given marker value))
    (hexec : st.exec s' = st.hand marker value) : Performs B A la s fresh st := by
  unfold Performs
  rw [hann, execAll_singleton, hexec, hdef]
  exact (h.hand marker hop).of_eq (by simp) id

include hla in
theorem performs_objectGet (hun : Unmarked ⟨sid, .assign dst (.objectGet obj p ty marker)⟩)
    (hu : varsOfOperand obj ∪ varsOfProjection p ⊆ B) (hdst : ∀ v ∈ defsOf dst, v ∉ B) :
    Performs B A la ⟨sid, .assign dst (.objectGet obj p ty marker)⟩ fresh st := by
  obtain rfl : marker = .unknown := hun
  have hobj := h.read (Finset.union_subset_left hu)
  have hproj := h.readProjection (Finset.union_subset_right hu)
  have hnot : isRefTy dst.ty → dst.id ∉ B := fun href => hdst _ (mem_defsOf.mpr ⟨href, rfl⟩)
  have hshared : st.exec ⟨sid, .assign dst (.objectGet obj p ty .share)⟩ =
      .ok (st.defineOwn dst) := by
    simp only [OwnState.exec, OwnState.assign, hobj, hproj, bind, Except.bind]
    rfl
  have hview : ∀ marker, marker = .unknown ∨ marker = .borrow →
      st.exec ⟨sid, .assign dst (.objectGet obj p ty marker)⟩ =
        .ok (st.define dst (st.viewOf obj)) := by
    rintro marker (rfl | rfl) <;>
      simp only [OwnState.exec, OwnState.assign, hobj, hproj, bind, Except.bind] <;> rfl
  cases obj with
  | constant c cty =>
    exact performs_eternal h hdst rfl (rfl : _ = defsOf dst) (hview .unknown (Or.inl rfl))
  | var src =>
    by_cases hshare : isRefTy dst.ty ∧ la dst.id = true
    · have hann : annotateStmt fresh la ⟨sid, .assign dst (.objectGet (.var src) p ty .unknown)⟩ =
          ([⟨sid, .assign dst (.objectGet (.var src) p ty .share)⟩], ∅) := by
        simp [annotateStmt, hshare]
      unfold Performs
      rw [hann, execAll_singleton, hshared]
      exact (h.takes_own hnot fun _ _ => (hla _).mp hshare.2).of_eq (by simp [refDefOfStmt, defsOf])
        id
    · have hann : annotateStmt fresh la ⟨sid, .assign dst (.objectGet (.var src) p ty .unknown)⟩ =
          ([⟨sid, .assign dst (.objectGet (.var src) p ty .borrow)⟩], ∅) := by
        by_cases href : isRefTy dst.ty
        · have hdead : la dst.id = false := by
            by_contra hlive
            exact hshare ⟨href, by simpa using hlive⟩
          simp [annotateStmt, href, hdead]
        · simp [annotateStmt, href]
      unfold Performs
      rw [hann, execAll_singleton, hview .borrow (Or.inr rfl)]
      refine (h.takes_dead (A := A) hnot fun href hA => ?_).of_eq (by simp [refDefOfStmt, defsOf]) id
      exact hshare ⟨href, (hla _).mpr hA⟩

include hla in
theorem performs_cast (hun : Unmarked ⟨sid, .assign dst (.cast obj ty marker)⟩)
    (hok : StmtOk la ⟨sid, .assign dst (.cast obj ty marker)⟩)
    (hu : varsOfOperand obj ⊆ B) (hdst : ∀ v ∈ defsOf dst, v ∉ B) :
    Performs B A la ⟨sid, .assign dst (.cast obj ty marker)⟩ fresh st := by
  obtain rfl : marker = .unknown := hun
  have hnot : isRefTy dst.ty → dst.id ∉ B := fun href => hdst _ (mem_defsOf.mpr ⟨href, rfl⟩)
  unfold Performs
  cases obj with
  | constant c cty =>
    simp only [annotateStmt, execAll_singleton]
    exact (h.takes_eternal (A := A) hnot).of_eq (by simp [refDefOfStmt, defsOf]) id
  | var v =>
    by_cases hv : isRefTy v.ty
    · by_cases href : isRefTy dst.ty
      · have hann : annotateStmt fresh la ⟨sid, .assign dst (.cast (.var v) ty .unknown)⟩ =
            ([⟨sid, .assign dst (.cast (.var v) ty .transfer)⟩], ∅) := by
          simp [annotateStmt, hv, href]
        have hexec : st.exec ⟨sid, .assign dst (.cast (.var v) ty .transfer)⟩ =
            .ok (st.define dst ((st.env v.id).getD .eternal)) := by
          have hread := h.readVar (v := v) fun _ => hu (mem_varsOfOperand.mpr ⟨hv, rfl⟩)
          simp only [OwnState.exec, OwnState.assign, hv, href, if_true, hread, bind, Except.bind]
          rfl
        rw [hann, execAll_singleton, hexec]
        have hdead : la dst.id = false := hok hv href
        refine (h.takes_dead (A := A) hnot fun _ hA => ?_).of_eq (by simp [refDefOfStmt, defsOf]) id
        rw [(hla _).mpr hA] at hdead
        exact Bool.noConfusion hdead
      · have hexec : ∀ marker, st.exec ⟨sid, .assign dst (.cast (.var v) ty marker)⟩ =
            st.hand marker (.var v) := by
          intro marker
          simp [OwnState.exec, OwnState.assign, hv, href]
        have hdef : refDefOfStmt ⟨sid, .assign dst (.cast (.var v) ty .unknown)⟩ = ∅ := by
          simp [refDefOfStmt, href]
        have hvars : varsOfOperand (.var v) = {v.id} := by simp [varsOfOperand, hv]
        refine performs_hand h (if la v.id then .borrow else .transfer) hu hdef ?_ (hexec _)
        cases hlive : la v.id <;> simp [annotateStmt, hv, href, hlive, given, hvars]
    · have hann : annotateStmt fresh la ⟨sid, .assign dst (.cast (.var v) ty .unknown)⟩ =
          ([⟨sid, .assign dst (.cast (.var v) ty .transfer)⟩], ∅) := by
        simp [annotateStmt, hv]
      have hexec : st.exec ⟨sid, .assign dst (.cast (.var v) ty .transfer)⟩ =
          .ok (st.defineOwn dst) := by
        simp [OwnState.exec, OwnState.assign, hv]
      rw [hann, execAll_singleton, hexec]
      exact (h.takes_own (K := LeakOk la ⟨sid, .assign dst (.cast (.var v) ty .unknown)⟩) hnot
        fun hleak href => (hla _).mp (hleak hv href)).of_eq (by simp [refDefOfStmt, defsOf]) id

include hla in
theorem performs_move (hok : StmtOk la ⟨sid, .assign dst (.move obj)⟩)
    (hu : varsOfOperand obj ⊆ B) (hdst : ∀ v ∈ defsOf dst, v ∉ B) :
    Performs B A la ⟨sid, .assign dst (.move obj)⟩ fresh st := by
  have hnot : isRefTy dst.ty → dst.id ∉ B := fun href => hdst _ (mem_defsOf.mpr ⟨href, rfl⟩)
  cases obj with
  | constant c cty => exact performs_eternal h hdst rfl (rfl : _ = defsOf dst) rfl
  | var v =>
    by_cases hv : isRefTy v.ty
    · have hmem : v.id ∈ B := hu (mem_varsOfOperand.mpr ⟨hv, rfl⟩)
      have hann : annotateStmt fresh la ⟨sid, .assign dst (.move (.var v))⟩ =
          ([⟨sid, .assign dst (.move (.var v))⟩], {v.id}) := by simp [annotateStmt, hv]
      have hexec : st.exec ⟨sid, .assign dst (.move (.var v))⟩ = st.move dst v := by
        simp [OwnState.exec, OwnState.assign, hv]
      obtain ⟨st₁, hst₁, hheld, hacc⟩ := h.giveUp hmem
      have hnot' : isRefTy dst.ty → dst.id ∉ B.erase v.id :=
        fun href hmem => hnot href (Finset.mem_of_mem_erase hmem)
      unfold Performs
      rw [hann, execAll_singleton, hexec]
      rcases h.held v.id hmem with henv | ⟨t, ht, henv⟩
      · have hsame : st₁ = st := by
          simp only [OwnState.giveUp, henv, Except.ok.injEq] at hst₁
          exact hst₁.symm
        subst hsame
        have hmove : st₁.move dst v = .ok (st₁.define dst .eternal) := by
          have hread := h.readVar (v := v) fun _ => hmem
          simp only [OwnState.move, henv, hread, bind, Except.bind]
          rfl
        rw [hmove]
        obtain ⟨st₂, hst₂, hheld₂, hacc₂⟩ := hheld.takes_eternal (A := A)
          (K := LeakOk la ⟨sid, .assign dst (.move (.var v))⟩) hnot'
        rw [Finset.sdiff_singleton_eq_erase]
        exact ⟨st₂, hst₂, hheld₂, fun ha hok => hacc₂ (hacc ha) hok⟩
      · have hmove : st.move dst v = .ok (st₁.defineOwn dst) := by
          simp only [OwnState.move, henv, hst₁, bind, Except.bind]
          rfl
        rw [hmove]
        obtain ⟨st₂, hst₂, hheld₂, hacc₂⟩ := hheld.takes_own (A := A)
          (K := LeakOk la ⟨sid, .assign dst (.move (.var v))⟩) hnot'
          fun hleak _ => (hla _).mp (hleak hv).2
        rw [Finset.sdiff_singleton_eq_erase]
        exact ⟨st₂, hst₂, hheld₂, fun ha hok => hacc₂ (hacc ha) hok⟩
    · refine performs_eternal h hdst ?_ (rfl : _ = defsOf dst) ?_
      · simp [annotateStmt, hv]
      · simp [OwnState.exec, OwnState.assign, hv]

include hla in
theorem performs_objectCreate (hu : varsOfOperand length ⊆ B) (hdst : ∀ v ∈ defsOf dst, v ∉ B) :
    Performs B A la ⟨sid, .objectCreate dst length⟩ fresh st := by
  have hnot : isRefTy dst.ty → dst.id ∉ B := fun href => hdst _ (mem_defsOf.mpr ⟨href, rfl⟩)
  have hexec : st.exec ⟨sid, .objectCreate dst length⟩ = .ok (st.defineOwn dst) := by
    simp only [OwnState.exec, h.read hu, bind, Except.bind]
    rfl
  unfold Performs
  rw [show annotateStmt fresh la ⟨sid, .objectCreate dst length⟩ = (_, ∅) from rfl,
    execAll_singleton, hexec]
  exact (h.takes_own (K := LeakOk la ⟨sid, .objectCreate dst length⟩) (A := A) hnot
    fun hleak href => (hla _).mp (hleak href)).of_eq (by simp [refDefOfStmt, defsOf]) id

include hla in
theorem performs_call (hun : Unmarked ⟨sid, .call dst target args⟩)
    (hok : StmtOk la ⟨sid, .call dst target args⟩)
    (hu : ∀ a ∈ args, varsOfOperand a.operand ⊆ B) (hdst : ∀ v ∈ defsOf dst, v ∉ B) :
    Performs B A la ⟨sid, .call dst target args⟩ fresh st := by
  have hann : annotateStmt fresh la ⟨sid, .call dst target args⟩ =
      ([⟨sid, .call dst target (args.map (markArg la))⟩], (deadArgs la args).toFinset) := by
    simp [annotateStmt, foldl_annotateArg hun.1]
  obtain ⟨st₁, hst₁, hheld, hacc⟩ := h.handArgs (K := LeakOk la ⟨sid, .call dst target args⟩) hu hok
  have hexec : st.exec ⟨sid, .call dst target (args.map (markArg la))⟩ =
      .ok (st₁.defineOwn dst) := by
    cases target with
    | direct name =>
      simp only [OwnState.exec, hst₁, bind, Except.bind]
      rfl
    | directFnPtr ptr =>
      have hptr : st.readVar ptr = .ok () := by simp [OwnState.readVar, hun.2]
      simp only [OwnState.exec, hptr, hst₁, bind, Except.bind]
      rfl
  have hnot : isRefTy dst.ty → dst.id ∉ B \ (deadArgs la args).toFinset :=
    fun href hmem => hdst _ (mem_defsOf.mpr ⟨href, rfl⟩) (Finset.mem_sdiff.mp hmem).1
  obtain ⟨st₂, hst₂, hheld₂, hacc₂⟩ := hheld.takes_own (A := A)
    (K := LeakOk la ⟨sid, .call dst target args⟩) hnot fun hleak href => (hla _).mp (hleak href)
  unfold Performs
  rw [hann, execAll_singleton, hexec]
  exact ⟨st₂, hst₂, hheld₂, fun ha hleak => hacc₂ (hacc ha hleak) hleak⟩

theorem performs_storeGlobal (hun : Unmarked ⟨sid, .storeGlobal global value marker⟩)
    (hu : varsOfOperand value ⊆ B) :
    Performs B A la ⟨sid, .storeGlobal global value marker⟩ fresh st := by
  obtain rfl : marker = .unknown := hun
  cases value with
  | constant c cty => exact performs_hand h .constant hu rfl rfl rfl
  | var v =>
    have hexec : ∀ marker, st.exec ⟨sid, .storeGlobal global (.var v) marker⟩ =
        st.hand marker (.var v) := fun _ => rfl
    by_cases href : isRefTy v.ty
    · refine performs_hand h (if la v.id then .share else .transfer) hu rfl ?_ (hexec _)
      have hvars : varsOfOperand (.var v) = {v.id} := by simp [varsOfOperand, href]
      cases hlive : la v.id <;> simp [annotateStmt, href, hlive, given, hvars]
    · refine performs_hand h .constant hu rfl ?_ (hexec _)
      simp [annotateStmt, href, given]

variable {u : Var}

/-- The old value of a field is taken out with its count and released at once. -/
theorem Held.replace {K : Prop} (hobj : isRefTy u.ty → u.id ∈ B) (hp : varsOfProjection p ⊆ B)
    (hfresh : fresh 0 ∉ B) (href : isRefTy ty) :
    Takes B B st K (st.execAll [(mkGetReleaseTmp fresh u p ty).2,
      mkRelease (fresh 2) (mkGetReleaseTmp fresh u p ty).1]) := by
  have hget : st.exec (mkGetReleaseTmp fresh u p ty).2 =
      .ok (st.defineOwn (mkGetReleaseTmp fresh u p ty).1) := by
    simp only [mkGetReleaseTmp, OwnState.exec, OwnState.assign, OwnState.read, h.readVar hobj,
      h.readProjection hp, bind, Except.bind]
    rfl
  obtain ⟨hheld, hacc⟩ :=
    @Held.defineOwn _ _ (mkGetReleaseTmp fresh u p ty).1 h hfresh href
  obtain ⟨st', hst', hheld', hacc'⟩ := hheld.giveUp (Finset.mem_insert_self _ B)
  have herase : (insert (fresh 0) B).erase (fresh 0) = B := Finset.erase_insert hfresh
  replace hheld' : Held ((insert (fresh 0) B).erase (fresh 0)) st' := hheld'
  replace hacc' : Accounted (insert (fresh 0) B) _ →
      Accounted ((insert (fresh 0) B).erase (fresh 0)) st' := hacc'
  rw [herase] at hheld' hacc'
  refine ⟨st', ?_, hheld', fun ha _ => hacc' (hacc ha)⟩
  simp only [OwnState.execAll, List.foldlM_cons, hget, bind, Except.bind]
  exact congrArg (Except.bind · _) hst'

theorem performs_objectSet (hun : Unmarked ⟨sid, .objectSet u p value ty marker⟩)
    (hobj : isRefTy u.ty → u.id ∈ B) (hp : varsOfProjection p ⊆ B) (hu : varsOfOperand value ⊆ B)
    (hfresh : fresh 0 ∉ B) : Performs B A la ⟨sid, .objectSet u p value ty marker⟩ fresh st := by
  obtain ⟨rfl, hty⟩ := hun
  have hset : ∀ {st₁ marker}, Held B st₁ → st₁.exec ⟨sid, .objectSet u p value ty marker⟩ =
      st₁.hand marker value := by
    intro st₁ marker h₁
    simp only [OwnState.exec, h₁.readVar hobj, h₁.readProjection hp, bind, Except.bind]
  by_cases href : isRefTy ty
  · have hann : ∃ marker, annotateStmt fresh la ⟨sid, .objectSet u p value ty .unknown⟩ =
        ([(mkGetReleaseTmp fresh u p ty).2, mkRelease (fresh 2) (mkGetReleaseTmp fresh u p ty).1,
          ⟨sid, .objectSet u p value ty marker⟩], given marker value) := by
      cases value with
      | constant c cty => exact ⟨.own, by simp [annotateStmt, href, given, varsOfOperand]⟩
      | var v =>
        have hv : isRefTy v.ty := (hty v rfl).trans href
        refine ⟨if la v.id then .share else .own, ?_⟩
        cases hlive : la v.id <;> simp [annotateStmt, href, hlive, given, varsOfOperand, hv]
    obtain ⟨marker, hann⟩ := hann
    obtain ⟨st₁, hst₁, hheld, hacc⟩ :=
      Held.replace (K := LeakOk la ⟨sid, .objectSet u p value ty .unknown⟩) h hobj hp hfresh href
    obtain ⟨st₂, hst₂, hheld₂, hacc₂⟩ :=
      hheld.hand (K := LeakOk la ⟨sid, .objectSet u p value ty .unknown⟩) marker hu
    unfold Performs
    rw [hann]
    refine Takes.of_eq ⟨st₂, ?_, hheld₂, fun ha hok => hacc₂ (hacc ha hok) hok⟩
      (by simp [refDefOfStmt]) id
    rw [show ∀ s₁ s₂ s₃ : Statement, [s₁, s₂, s₃] = [s₁, s₂] ++ [s₃] from fun _ _ _ => rfl,
      execAll_append, hst₁]
    exact (execAll_singleton _ _).trans ((hset hheld).trans hst₂)
  · refine performs_hand h .constant hu rfl ?_ (hset h)
    simp [annotateStmt, href, given]

/-- Every annotated statement does what liveness expects of it. -/
theorem performs (fresh : Id → Id) (hla : ∀ v, la v = true ↔ v ∈ A) (hun : Unmarked s)
    (hok : StmtOk la s)
    (hu : refUseOfStmt s ⊆ B) (hdst : ∀ v ∈ refDefOfStmt s, v ∉ B) (hfresh : fresh 0 ∉ B) :
    Performs B A la s fresh st := by
  obtain ⟨sid, node⟩ := s
  have hnone : ∀ {s : Statement}, annotateStmt fresh la s = ([s], ∅) → refDefOfStmt s = ∅ →
      st.exec s = .ok st → Performs B A la s fresh st := by
    intro s hann hdef hexec
    unfold Performs
    rw [hann, execAll_singleton, hexec, hdef, Finset.empty_inter, Finset.union_empty,
      Finset.sdiff_empty]
    exact .intro h fun ha _ => ha
  cases node with
  | assign dst rv =>
    cases rv with
    | objectGet obj p ty marker => exact performs_objectGet h hla hun hu hdst
    | cast src ty marker => exact performs_cast h hla hun hok hu hdst
    | move src => exact performs_move h hla hok hu hdst
    | binOp op lhs rhs =>
      refine performs_eternal h hdst rfl (rfl : _ = defsOf dst) ?_
      simp only [OwnState.exec, OwnState.assign, h.read (Finset.union_subset_left hu),
        h.read (Finset.union_subset_right hu), bind, Except.bind]
      rfl
    | unOp op src | objectLength src | objectSize src | objectGetTag src =>
      refine performs_eternal h hdst rfl (rfl : _ = defsOf dst) ?_
      have hread : st.read src = .ok () := h.read hu
      simp only [OwnState.exec, OwnState.assign, hread, bind, Except.bind]
      rfl
    | addrFn fn => exact performs_eternal h hdst rfl (rfl : _ = defsOf dst) rfl
  | objectSet u p value ty marker =>
    have hp : varsOfProjection p ∪ varsOfOperand value ⊆ B := Finset.union_subset_right hu
    refine performs_objectSet h hun (fun href => ?_) (Finset.union_subset_left hp)
      (Finset.union_subset_right hp) hfresh
    exact Finset.union_subset_left hu (mem_varsOfOperand.mpr ⟨href, rfl⟩)
  | objectCreate dst length => exact performs_objectCreate h hla hu hdst
  | call dst target args =>
    exact performs_call h hla hun hok (fun a ha v hv => hu (mem_argUses.mpr ⟨a, ha, hv⟩)) hdst
  | storeGlobal global value marker => exact performs_storeGlobal h hun hu
  | release obj => exact absurd hok id
  | gcCycle => exact hnone rfl rfl rfl
  | nop => exact hnone rfl rfl rfl

end

end Syli.Compiler
