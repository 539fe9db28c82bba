import Mathlib
import Syli.Foundation.OptionLists
import Syli.Compiler.ClosureApplication

/-! `lower_cir_to_oir.ml`: the statements that make closures leave the objects that the generated
functions read. -/
namespace Syli.Compiler.GenClosure

def intOperand (value : Nat) : Operand := .constant (.intLit (toString (value : Int))) .i32

def int64Operand (value : Int) : Operand := .constant (.intLit (toString value)) .i64

def setFieldStmt (id : Id) (obj : Var) (i : Nat) (value : Operand) (valueTy : IrType)
    (ownership : OwnershipOp) : Statement :=
  ⟨id, .objectSet obj (.field i) value valueTy ownership⟩

/-- Stores operands, with their types, in consecutive fields. -/
def storeArgs (id : Id) (obj : Var) (fieldBase : Nat) : List (Operand × IrType) → List Statement
  | [] => []
  | (value, valueTy) :: args =>
    setFieldStmt id obj fieldBase value valueTy .unknown ::
      storeArgs (id + 1) obj (fieldBase + 1) args

/-- The object with its accumulator, the other fields null. -/
def createClosure (dst accumVar : Var) (accumFnName : String) (totalFields : Nat) :
    List Statement :=
  [⟨0, .objectCreate dst (intOperand totalFields)⟩, ⟨1, .assign accumVar (.addrFn accumFnName)⟩,
    setFieldStmt 2 dst 0 (.var accumVar) .fnPtr .constant]

/-- The accumulator of a closure with these specialisations, and its name. -/
def makeClosureApplyGenFunctions (nodeId : Id) (storedTys : List Ty) (argsSize : Nat) (retTy : Ty) :
    List Specialization → Option (String × Root)
  | [] => none
  | [s] => some (makeClosureAccumName s.fnName nodeId retTy,
      .single s.fnName storedTys argsSize s.paramTys retTy)
  | specializations => some (makeClosureAccumDispatchName nodeId retTy,
      .dispatch storedTys argsSize specializations retTy)

def lowerMakeClosure (dst accumVar : Var) (accumFnName : String)
    (storedOperands : List (Operand × IrType)) : List Statement :=
  createClosure dst accumVar accumFnName (1 + storedOperands.length) ++
    storeArgs 3 dst 1 storedOperands

/-- The accumulator of a partial application, its name, and whether a dispatch number is kept. -/
def partialGenApplyFunctions (dispatchIdPossibilities : List Int) (storedTys : List Ty)
    (argsSize : Nat) (retTy : Ty) : Bool × String × FunctionOir :=
  if dispatchIdPossibilities.any (0 < ·) then
    (true, partialClosureAccumDispatchName storedTys argsSize retTy,
      buildPartialClosureAccumDispatch storedTys argsSize retTy)
  else
    (false, partialClosureAccumName storedTys argsSize retTy,
      buildPartialClosureAccum storedTys argsSize retTy)

/-- A cast of a closure is the partial application without new arguments. -/
def lowerPartialApply (dst accumVar : Var) (isDispatch : Bool) (accumFnName : String)
    (edgeWeight : Int) (closure : Operand) (newArgs : List (Operand × IrType)) : List Statement :=
  if isDispatch then
    createClosure dst accumVar accumFnName (3 + newArgs.length) ++
      setFieldStmt 3 dst 1 (int64Operand edgeWeight) .i64 .constant ::
        setFieldStmt 4 dst 2 closure .objPtr .unknown :: storeArgs 5 dst 3 newArgs
  else
    createClosure dst accumVar accumFnName (2 + newArgs.length) ++
      setFieldStmt 3 dst 1 closure .objPtr .unknown :: storeArgs 4 dst 2 newArgs

section Filling

variable {w : World} (call : String → List Val → Mem → Option (Val × Mem)) {env : Env}
  {mem₀ mem mem' : Mem} {a m : Nat} {obj : Var} {value : Operand} {filled : List Val} {v : Val}

/-- The first fields of the new object are set, the other `m` are null, and the old objects are as
they were. -/
structure Filling (mem₀ mem : Mem) (a : Nat) (filled : List Val) (m : Nat) : Prop where
  object : mem.objects a = some (filled ++ List.replicate m (.word 0))
  others : ∀ b, b ≠ a → mem.objects b = mem₀.objects b
  next : mem.next = mem₀.next + 1

theorem filling_alloc (n : Nat) : Filling mem (mem.alloc n) mem.next [] n where
  object := by simp [Mem.alloc]
  others b hb := by simp [Mem.alloc, Function.update_of_ne hb]
  next := rfl

theorem Filling.set (h : Filling mem₀ mem a filled (m + 1)) (v : Val) :
    setField mem filled.length v (.ref a) =
        some (mem.set a (filled ++ v :: List.replicate m (.word 0))) ∧
      Filling mem₀ (mem.set a (filled ++ v :: List.replicate m (.word 0))) a (filled ++ [v]) m := by
  refine ⟨?_, ?_, ?_, h.next⟩
  · have hset : (filled ++ List.replicate (m + 1) (Val.word 0)).set filled.length v =
        filled ++ v :: List.replicate m (.word 0) := by
      rw [List.replicate_succ, List.set_append_right _ _ le_rfl, Nat.sub_self, List.set_cons_zero]
    have hlt : filled.length < (filled ++ List.replicate (m + 1) (Val.word 0)).length := by
      rw [List.length_append, List.length_replicate]
      omega
    rw [setField, h.object, Option.bind_some, if_pos hlt, hset]
  · simp [Mem.set]
  · intro b hb
    exact (Function.update_of_ne hb ..).trans (h.others b hb)

theorem exec_setField (id : Id) (valueTy : IrType) (ownership : OwnershipOp)
    (h : Filling mem₀ mem a filled (m + 1)) (hobj : env obj.id = some (.ref a))
    (hv : evalOperand w env value = some v) :
    ∃ mem', exec w call (env, mem) (setFieldStmt id obj filled.length value valueTy ownership) =
        some (env, mem') ∧ Filling mem₀ mem' a (filled ++ [v]) m := by
  obtain ⟨hset, hfilling⟩ := h.set v
  refine ⟨_, ?_, hfilling⟩
  simp [exec, setFieldStmt, hobj, hv, hset]

variable {call} in
theorem execAll_cons_of {s : Statement} {l : List Statement} {r r' : Env × Mem}
    (h : exec w call r s = some r') : execAll w call (s :: l) r = execAll w call l r' := by
  rw [execAll_cons, h, Option.bind_some]

theorem execAll_storeArgs (id : Id) {args : List (Operand × IrType)} {vals : List Val}
    (h : Filling mem₀ mem a filled args.length) (hobj : env obj.id = some (.ref a))
    (hvals : args.mapM (fun e => evalOperand w env e.1) = some vals) :
    ∃ mem', execAll w call (storeArgs id obj filled.length args) (env, mem) = some (env, mem') ∧
      Filling mem₀ mem' a (filled ++ vals) 0 := by
  induction args generalizing id mem filled vals with
  | nil =>
    obtain rfl : [] = vals := Option.some.inj hvals
    exact ⟨mem, rfl, by simpa using h⟩
  | cons e args ih =>
    obtain ⟨value, valueTy⟩ := e
    rw [List.mapM_cons] at hvals
    obtain ⟨v, hv, hvals⟩ := Option.bind_eq_some_iff.mp hvals
    obtain ⟨vs, hvs, hvals⟩ := Option.bind_eq_some_iff.mp hvals
    obtain rfl := Option.some.inj hvals
    obtain ⟨mem₁, hexec, h₁⟩ := exec_setField call id valueTy .unknown h hobj hv
    obtain ⟨mem', hrest, h'⟩ := ih (id + 1) h₁ hvs
    rw [List.length_append, List.length_singleton] at hrest
    exact ⟨mem', (execAll_cons_of hexec).trans hrest, by simpa using h'⟩

/-- The variables once the object is created. -/
def createdEnv (env : Env) (mem : Mem) (dst accumVar : Var) (f : String) : Env :=
  Function.update (Function.update env dst.id (some (.ref mem.next))) accumVar.id (some (.code f))

theorem createdEnv_dst {dst accumVar : Var} {f : String} (hne : accumVar.id ≠ dst.id) :
    createdEnv env mem dst accumVar f dst.id = some (.ref mem.next) := by
  rw [createdEnv, Function.update_of_ne hne.symm, Function.update_self]

theorem execAll_createClosure (mem : Mem) (env : Env) {dst accumVar : Var} (f : String)
    {n total : Nat} (hne : accumVar.id ≠ dst.id) (htotal : total = n + 1) (hsize : total < 2 ^ 64) :
    ∃ mem', execAll w call (createClosure dst accumVar f total) (env, mem) =
        some (createdEnv env mem dst accumVar f, mem') ∧
      Filling mem mem' mem.next [.code f] n := by
  have haccum : evalOperand w (createdEnv env mem dst accumVar f) (.var accumVar) =
      some (.code f) := by
    simp [createdEnv, evalOperand]
  have hfilling : Filling mem (mem.alloc total) mem.next [] (n + 1) := htotal ▸ filling_alloc total
  obtain ⟨mem', hset, hfilled⟩ :=
    exec_setField call 2 .fnPtr .constant hfilling (createdEnv_dst hne) haccum
  have hset' : exec w call (createdEnv env mem dst accumVar f, mem.alloc total)
      (setFieldStmt 2 dst 0 (.var accumVar) .fnPtr .constant) = some (_, mem') := hset
  have hword : (BitVec.ofInt 64 (total : Int)).toNat = total := by
    rw [BitVec.ofInt_natCast, BitVec.toNat_ofNat, Nat.mod_eq_of_lt hsize]
  have hcreate : exec w call (env, mem) ⟨0, .objectCreate dst (intOperand total)⟩ =
      some (Function.update env dst.id (some (.ref mem.next)), mem.alloc total) := by
    simp only [exec, intOperand, evalOperand, w.literal_int, Option.bind_eq_bind, Option.bind_some,
      create, hword, Option.pure_def]
  refine ⟨mem', ?_, hfilled⟩
  have haddr : exec w call (Function.update env dst.id (some (.ref mem.next)), mem.alloc total)
      ⟨1, .assign accumVar (.addrFn f)⟩ =
      some (createdEnv env mem dst accumVar f, mem.alloc total) := rfl
  exact (execAll_cons_of hcreate).trans ((execAll_cons_of haddr).trans (execAll_cons_of hset'))

end Filling

section Creation

variable {w : World} {call : String → List Val → Mem → Option (Val × Mem)} {env env' : Env}
  {mem mem' : Mem} {root : Root} {depth n : Nat} {c parent : Val} {stored vals : List Val}
  {number : BitVec 64} {dst accumVar : Var} {f : String} {storedTys : List Ty} {retTy : Ty}
  {args : List (Operand × IrType)}

theorem Chain.mono (h : Chain w mem root depth n c stored number)
    (hkept : ∀ a fields, mem.objects a = some fields → mem'.objects a = some fields) :
    Chain w mem' root depth n c stored number := by
  induction h with
  | make hobj hf hlen => exact .make (hkept _ _ hobj) hf hlen
  | apply _ hobj hf hlen ih => exact .apply ih (hkept _ _ hobj) hf hlen
  | applyDispatch _ hobj hf hlen ih => exact .applyDispatch ih (hkept _ _ hobj) hf hlen

/-- The objects to come are not there yet. -/
def Mem.Fresh (mem : Mem) : Prop := ∀ a, mem.next ≤ a → mem.objects a = none

theorem Filling.kept {filled : List Val} {m : Nat} (h : Filling mem mem' mem.next filled m)
    (hfresh : mem.Fresh) {a : Nat} {fields : List Val} (ha : mem.objects a = some fields) :
    mem'.objects a = some fields := by
  have hne : a ≠ mem.next := by
    rintro rfl
    rw [hfresh mem.next le_rfl] at ha
    cases ha
  rw [h.others a hne, ha]

theorem Filling.fresh {filled : List Val} {m : Nat} (h : Filling mem mem' mem.next filled m)
    (hfresh : mem.Fresh) : mem'.Fresh := by
  intro a ha
  rw [h.next] at ha
  have hne : a ≠ mem.next := by omega
  rw [h.others a hne]
  exact hfresh a (by omega)

/-- The statements leave the closure in their variable, and the rest as it was but for the variable
of the accumulator. -/
structure Makes (w : World) (root : Root) (dst accumVar : Var) (depth n : Nat) (stored : List Val)
    (number : BitVec 64) (env : Env) (mem : Mem) (env' : Env) (mem' : Mem) : Prop where
  closure : ∃ c, env' dst.id = some c ∧ Chain w mem' root depth n c stored number
  others : ∀ x, x ≠ dst.id → x ≠ accumVar.id → env' x = env x
  objects : ∀ a fields, mem.objects a = some fields → mem'.objects a = some fields
  fresh : mem'.Fresh

/-- The operand is no variable that the statements set. -/
def Avoids (dst accumVar : Var) (value : Operand) : Prop :=
  ∀ v, value = .var v → v.id ≠ dst.id ∧ v.id ≠ accumVar.id

theorem evalOperand_createdEnv {value : Operand} (h : Avoids dst accumVar value) :
    evalOperand w (createdEnv env mem dst accumVar f) value = evalOperand w env value := by
  cases value with
  | constant => rfl
  | var x =>
    obtain ⟨hdst, haccum⟩ := h x rfl
    rw [evalOperand, evalOperand, createdEnv, Function.update_of_ne haccum,
      Function.update_of_ne hdst]

theorem mapM_createdEnv (h : ∀ e ∈ args, Avoids dst accumVar e.1) :
    args.mapM (fun e => evalOperand w (createdEnv env mem dst accumVar f) e.1) =
      args.mapM fun e => evalOperand w env e.1 := by
  induction args with
  | nil => rfl
  | cons e args ih =>
    rw [List.mapM_cons, List.mapM_cons, evalOperand_createdEnv (h e List.mem_cons_self),
      ih fun e' he' => h e' (List.mem_cons_of_mem e he')]

theorem makes_of_filling {fields : List Val} (hne : accumVar.id ≠ dst.id) (hfresh : mem.Fresh)
    (hfilled : Filling mem mem' mem.next fields 0)
    (hchain : Chain w mem' root depth n (.ref mem.next) stored number) :
    Makes w root dst accumVar depth n stored number env mem (createdEnv env mem dst accumVar f)
      mem' where
  closure := ⟨_, createdEnv_dst hne, hchain⟩
  others x hdst haccum := by
    rw [createdEnv, Function.update_of_ne haccum, Function.update_of_ne hdst]
  objects _ _ := hfilled.kept hfresh
  fresh := hfilled.fresh hfresh

theorem root_of_genFunctions {nodeId : Id} {specializations : List Specialization} {argsSize : Nat}
    (h : makeClosureApplyGenFunctions nodeId storedTys argsSize retTy specializations =
      some (f, root)) : root.storedTys = storedTys ∧ root.argsSize = argsSize := by
  match specializations, h with
  | [_], h =>
    cases h
    exact ⟨rfl, rfl⟩
  | _ :: _ :: _, h =>
    cases h
    exact ⟨rfl, rfl⟩

variable (hne : accumVar.id ≠ dst.id) (hfresh : mem.Fresh)
  (havoids : ∀ e ∈ args, Avoids dst accumVar e.1)
  (hvals : args.mapM (fun e => evalOperand w env e.1) = some vals)
include hne hfresh havoids hvals

/-- The lowering of a closure makes the start of a chain. -/
theorem execAll_lowerMakeClosure {nodeId : Id} {specializations : List Specialization}
    {argsSize : Nat}
    (hgen : makeClosureApplyGenFunctions nodeId storedTys argsSize retTy specializations =
      some (f, root))
    (hf : w.functions f = some root.build) (hlen : args.length = storedTys.length)
    (hsize : 1 + args.length < 2 ^ 64) :
    ∃ env' mem', execAll w call (lowerMakeClosure dst accumVar f args) (env, mem) =
        some (env', mem') ∧ Makes w root dst accumVar 0 argsSize vals 0 env mem env' mem' := by
  let env' := createdEnv env mem dst accumVar f
  have hdst : env' dst.id = some (.ref mem.next) := createdEnv_dst hne
  have hvals' : args.mapM (fun e => evalOperand w env' e.1) = some vals :=
    (mapM_createdEnv havoids).trans hvals
  obtain ⟨mem₁, hcreate, h₁⟩ :=
    execAll_createClosure call mem env f hne (Nat.add_comm 1 args.length) hsize
  obtain ⟨mem', hstore, h'⟩ := execAll_storeArgs call 3 h₁ hdst hvals'
  obtain ⟨htys, hargs⟩ := root_of_genFunctions hgen
  have hchain : Chain w mem' root 0 argsSize (.ref mem.next) vals 0 := by
    rw [← hargs]
    refine .make ?_ hf ?_
    · simpa using h'.object
    · rw [(Foundation.zip_of_mapM hvals).1, hlen, htys]
  refine ⟨env', mem', ?_, makes_of_filling hne hfresh h' hchain⟩
  rw [lowerMakeClosure, execAll_append, hcreate]
  exact hstore

/-- The lowering of a partial application, or of a cast of a closure, makes the next link of a
chain. -/
theorem execAll_lowerPartialApply {possibilities : List Int} {isDispatch : Bool}
    {accum : FunctionOir} {edgeWeight : Int} {closure : Operand}
    (hgen : partialGenApplyFunctions possibilities storedTys n retTy = (isDispatch, f, accum))
    (hf : w.functions f = some accum) (hlen : args.length = storedTys.length)
    (hsize : 3 + args.length < 2 ^ 64) (hclosure : Avoids dst accumVar closure)
    (hparent : evalOperand w env closure = some parent)
    (hchain : Chain w mem root depth (args.length + n) parent stored number) :
    ∃ env' mem', execAll w call
        (lowerPartialApply dst accumVar isDispatch f edgeWeight closure args) (env, mem) =
          some (env', mem') ∧
      Makes w root dst accumVar (depth + 1) n (stored ++ vals)
        (number + if isDispatch then BitVec.ofInt 64 edgeWeight else 0) env mem env' mem' := by
  let env' := createdEnv env mem dst accumVar f
  have hdst : env' dst.id = some (.ref mem.next) := createdEnv_dst hne
  have hparent' : evalOperand w env' closure = some parent :=
    (evalOperand_createdEnv hclosure).trans hparent
  have hvals' : args.mapM (fun e => evalOperand w env' e.1) = some vals :=
    (mapM_createdEnv havoids).trans hvals
  have hcount := (Foundation.zip_of_mapM hvals).1
  unfold partialGenApplyFunctions at hgen
  split at hgen
  · cases hgen
    have htotal : 3 + args.length = args.length + 1 + 1 + 1 := by omega
    obtain ⟨mem₁, hcreate, h₁⟩ := execAll_createClosure call mem env
      (partialClosureAccumDispatchName storedTys n retTy) hne htotal hsize
    have hedge : evalOperand w env' (int64Operand edgeWeight) =
        some (.word (BitVec.ofInt 64 edgeWeight)) := w.literal_int edgeWeight
    obtain ⟨mem₂, hset₂, h₂⟩ := exec_setField call 3 .i64 .constant h₁ hdst hedge
    obtain ⟨mem₃, hset₃, h₃⟩ := exec_setField call 4 .objPtr .unknown h₂ hdst hparent'
    obtain ⟨mem', hstore, h'⟩ := execAll_storeArgs call 5 h₃ hdst hvals'
    refine ⟨env', mem', ?_, makes_of_filling hne hfresh h' ?_⟩
    · rw [lowerPartialApply, if_pos rfl, execAll_append, hcreate, Option.bind_some]
      exact (execAll_cons_of hset₂).trans ((execAll_cons_of hset₃).trans hstore)
    · rw [← hcount] at hchain
      exact .applyDispatch (hchain.mono fun _ _ => h'.kept hfresh) (by simpa using h'.object) hf
        (hcount.trans hlen)
  · cases hgen
    have htotal : 2 + args.length = args.length + 1 + 1 := by omega
    obtain ⟨mem₁, hcreate, h₁⟩ := execAll_createClosure call mem env
      (partialClosureAccumName storedTys n retTy) hne htotal (by omega)
    obtain ⟨mem₂, hset₂, h₂⟩ := exec_setField call 3 .objPtr .unknown h₁ hdst hparent'
    obtain ⟨mem', hstore, h'⟩ := execAll_storeArgs call 4 h₂ hdst hvals'
    refine ⟨env', mem', ?_, makes_of_filling hne hfresh h' ?_⟩
    · rw [lowerPartialApply, if_neg Bool.false_ne_true, execAll_append, hcreate, Option.bind_some]
      exact (execAll_cons_of hset₂).trans hstore
    · have hnumber : number + (0 : BitVec 64) = number := BitVec.add_zero number
      rw [if_neg Bool.false_ne_true, hnumber]
      rw [← hcount] at hchain
      exact .apply (hchain.mono fun _ _ => h'.kept hfresh) (by simpa using h'.object) hf
        (hcount.trans hlen)

end Creation

end Syli.Compiler.GenClosure
