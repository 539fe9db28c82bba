import Mathlib
import Syli.Compiler.ClosureRuns

/-! The application of a closure runs the function behind it on all its arguments. -/
namespace Syli.Compiler.GenClosure

variable {w : World} {call : String → List Val → Mem → Option (Val × Mem)} {env env' : Env}
  {mem mem' : Mem} {n id fuel : Nat} {tys : List IrType} {vals args : List Val} {v : Val}
  {ps qs : List Var} {vs us : List Val}

section Variables

/-- The variables from `n` on hold the values. -/
def Holds (env : Env) (n : Nat) (vals : List Val) : Prop :=
  ∀ (i : Nat) (v : Val), vals[i]? = some v → env (n + i) = some v

/-- The environments differ at most on `len` variables from `n` on. -/
def SameOutside (env env' : Env) (n len : Nat) : Prop :=
  ∀ i : Nat, i < n ∨ n + len ≤ i → env' i = env i

theorem length_freshVars (n : Nat) : (freshVars n tys).length = tys.length := by
  induction tys generalizing n with
  | nil => rfl
  | cons ty tys ih => simp [freshVars, ih]

theorem Holds.tail {vs : List Val} (h : Holds env n (v :: vs)) : Holds env (n + 1) vs := by
  intro i u hu
  have := h (i + 1) u hu
  rwa [show n + 1 + i = n + (i + 1) by omega]

theorem Holds.cons {vs : List Val} (hv : env n = some v) (h : Holds env (n + 1) vs) :
    Holds env n (v :: vs) := by
  intro i u hu
  cases i with
  | zero =>
    cases hu
    exact hv
  | succ i =>
    have := h i u hu
    rwa [show n + 1 + i = n + (i + 1) by omega] at this

theorem Holds.of_sameOutside {m len : Nat} (h : Holds env n vals) (hs : SameOutside env env' m len)
    (hd : n + vals.length ≤ m ∨ m + len ≤ n) : Holds env' n vals := by
  intro i u hu
  have hi : i < vals.length := (List.getElem?_eq_some_iff.mp hu).1
  rw [hs (n + i) (by omega)]
  exact h i u hu

theorem bindParams_append (hlen : vs.length = ps.length) :
    bindParams (ps ++ qs) (vs ++ us) env = (bindParams ps vs env).bind (bindParams qs us) := by
  induction ps generalizing vs env with
  | nil =>
    rw [List.length_eq_zero_iff.mp hlen]
    rfl
  | cons p ps ih =>
    cases vs with
    | nil => cases hlen
    | cons v vs => exact ih (Nat.succ.inj hlen)

theorem bindParams_freshVars (n : Nat) (env : Env) (hlen : vals.length = tys.length) :
    ∃ env', bindParams (freshVars n tys) vals env = some env' ∧ Holds env' n vals ∧
      SameOutside env env' n vals.length := by
  induction tys generalizing n vals env with
  | nil =>
    rw [List.length_eq_zero_iff.mp hlen]
    exact ⟨env, rfl, fun i u hu => by simp at hu, fun _ _ => rfl⟩
  | cons ty tys ih =>
    cases vals with
    | nil => cases hlen
    | cons v vals =>
      obtain ⟨env', hbind, hholds, hsame⟩ :=
        ih (n + 1) (Function.update env n (some v)) (Nat.succ.inj hlen)
      refine ⟨env', hbind, .cons ?_ hholds, fun i hi => ?_⟩
      · rw [hsame n (Or.inl n.lt_succ_self), Function.update_self]
      · have hlen' : (v :: vals).length = vals.length + 1 := rfl
        have hne : i ≠ n := by omega
        rw [hsame i (by omega), Function.update_of_ne hne]

theorem mapM_freshVars (n : Nat) (h : Holds env n vals) (hlen : vals.length = tys.length) :
    ((freshVars n tys).map argOf).mapM (fun a => evalOperand w env a.operand) = some vals := by
  induction tys generalizing n vals with
  | nil =>
    rw [List.length_eq_zero_iff.mp hlen]
    rfl
  | cons ty tys ih =>
    cases vals with
    | nil => cases hlen
    | cons v vals =>
      have hhead : env n = some v := h 0 v rfl
      rw [freshVars, List.map_cons, List.mapM_cons, ih (n + 1) h.tail (Nat.succ.inj hlen)]
      simp [argOf, evalOperand, hhead]

theorem mapM_append_args {vars vars' : List Var}
    (h : (vars.map argOf).mapM (fun a => evalOperand w env a.operand) = some vs)
    (h' : (vars'.map argOf).mapM (fun a => evalOperand w env a.operand) = some us) :
    ((vars ++ vars').map argOf).mapM (fun a => evalOperand w env a.operand) =
      some (vs ++ us) := by
  rw [List.map_append, List.mapM_append, h, h']
  rfl

end Variables

section Statements

theorem execAll_append (l l' : List Statement) (r : Env × Mem) :
    execAll w call (l ++ l') r = (execAll w call l r).bind (execAll w call l') := by
  rw [execAll, List.foldlM_append]
  rfl

theorem execAll_cons (s : Statement) (l : List Statement) (r : Env × Mem) :
    execAll w call (s :: l) r = (exec w call r s).bind (execAll w call l) := by
  rw [execAll, List.foldlM_cons]
  rfl

theorem exec_load {dst obj : Var} {field : Nat} {u : Val} (hobj : env obj.id = some u)
    (hfield : fieldOf mem field u = some v) :
    exec w call (env, mem) (load id dst obj field) =
      some (Function.update env dst.id (some v), mem) := by
  simp [exec, load, evalRvalue, evalOperand, hobj, hfield]

/-- The loads read consecutive fields of an object. -/
theorem execAll_loads (call : String → List Val → Mem → Option (Val × Mem)) (obj : Var)
    (id n base : Nat) {a : Nat} {fields : List Val}
    (hobj : env obj.id = some (.ref a)) (hmem : mem.objects a = some fields)
    (hfields : ∀ i v, vals[i]? = some v → fields[base + i]? = some v)
    (hlen : vals.length = tys.length) (hlt : obj.id < n) :
    ∃ env', execAll w call (loads id obj base (freshVars n tys)) (env, mem) = some (env', mem) ∧
      Holds env' n vals ∧ SameOutside env env' n vals.length := by
  induction tys generalizing n vals env id base with
  | nil =>
    rw [List.length_eq_zero_iff.mp hlen]
    exact ⟨env, rfl, fun i u hu => by simp at hu, fun _ _ => rfl⟩
  | cons ty tys ih =>
    cases vals with
    | nil => cases hlen
    | cons v vals =>
      have hfield : fieldOf mem base (.ref a) = some v := by
        simpa [fieldOf, hmem] using hfields 0 v rfl
      have hne : obj.id ≠ n := Nat.ne_of_lt hlt
      have hrest : ∀ i u, vals[i]? = some u → fields[base + 1 + i]? = some u := fun i u hu => by
        have := hfields (i + 1) u hu
        rwa [show base + 1 + i = base + (i + 1) by omega]
      have hobj' : Function.update env n (some v) obj.id = some (.ref a) := by
        rwa [Function.update_of_ne hne]
      obtain ⟨env', hexec, hholds, hsame⟩ := ih (id + 1) (n + 1) (base + 1) hobj' hrest
        (Nat.succ.inj hlen) (Nat.lt_succ_of_lt hlt)
      refine ⟨env', ?_, .cons ?_ hholds, fun i hi => ?_⟩
      · rw [freshVars, loads, execAll_cons, exec_load hobj hfield]
        exact hexec
      · rw [hsame n (Or.inl n.lt_succ_self), Function.update_self]
      · have hlen' : (v :: vals).length = vals.length + 1 := rfl
        have hne : i ≠ n := by omega
        rw [hsame i (by omega), Function.update_of_ne hne]

theorem exec_call {g : String} {k : Id} {dst : Var} {target : CallTarget} {vars : List Var}
    (htarget : targetOf env target = some g)
    (hvals : (vars.map argOf).mapM (fun a => evalOperand w env a.operand) = some vals) :
    exec w call (env, mem) (callFn k dst target vars) =
      (call g vals mem).map fun r => (Function.update env dst.id (some r.1), r.2) := by
  simp only [exec, callFn, hvals, htarget, Option.bind_eq_bind, Option.bind_some]
  cases call g vals mem <;> rfl

/-- A block that calls and returns the result does what the called function does. -/
theorem runBlocks_call {g : String} {f : FunctionOir} {pre : List Statement} {k b m : Nat}
    {dst : Var} {target : CallTarget} {vars : List Var}
    (hblock : f.blocks.find? (·.id == b) =
      some (returnBlock b (pre ++ [callFn k dst target vars]) dst))
    (hpre : execAll w call pre (env, mem) = some (env', mem))
    (htarget : targetOf env' target = some g)
    (hvals : (vars.map argOf).mapM (fun a => evalOperand w env' a.operand) = some vals) :
    runBlocks w call f (m + 1) b (env, mem) = call g vals mem := by
  have hrun : execAll w call (pre ++ [callFn k dst target vars]) (env, mem) =
      (call g vals mem).map fun r => (Function.update env' dst.id (some r.1), r.2) := by
    rw [execAll_append, hpre, Option.bind_some, execAll_cons, exec_call htarget hvals]
    cases call g vals mem <;> rfl
  simp only [runBlocks, hblock, Option.bind_eq_bind, Option.bind_some, returnBlock, hrun]
  cases call g vals mem with
  | none => rfl
  | some r => simp [evalOperand]

/-- A function of one block runs its statements and returns its result. -/
theorem callFunction_block {fn : String} {f : FunctionOir} {stmts : List Statement} {ret : Var}
    (hf : w.functions fn = some f) (hblocks : f.blocks = [returnBlock 0 stmts ret])
    (hentry : f.entryBlock = 0) (hbind : bindParams f.params args (fun _ => none) = some env) :
    callFunction w (fuel + 1) fn args mem =
      (execAll w (callFunction w fuel) stmts (env, mem)).bind fun r =>
        (r.1 ret.id).map fun v => (v, r.2) := by
  conv_lhs => unfold callFunction
  simp only [hf, hbind, hentry, hblocks, Option.bind_eq_bind, Option.bind_some, List.length_cons,
    List.length_nil, runBlocks, returnBlock, List.find?_cons, beq_self_eq_true, evalOperand]
  cases execAll w (callFunction w fuel) stmts (env, mem) with
  | none => rfl
  | some r =>
    rw [Option.bind_some, Option.bind_some]
    cases r.1 ret.id <;> rfl

/-- A function that ends in a call and returns its result does what the called function does. -/
theorem callFunction_tail {fn g : String} {f : FunctionOir} {pre : List Statement} {k : Id}
    {dst : Var} {target : CallTarget} {vars : List Var} (hf : w.functions fn = some f)
    (hblocks : f.blocks = [returnBlock 0 (pre ++ [callFn k dst target vars]) dst])
    (hentry : f.entryBlock = 0) (hbind : bindParams f.params args (fun _ => none) = some env)
    (hpre : execAll w (callFunction w fuel) pre (env, mem) = some (env', mem))
    (htarget : targetOf env' target = some g)
    (hvals : (vars.map argOf).mapM (fun a => evalOperand w env' a.operand) = some vals) :
    callFunction w (fuel + 1) fn args mem = callFunction w fuel g vals mem := by
  have hfind : f.blocks.find? (·.id == 0) =
      some (returnBlock 0 (pre ++ [callFn k dst target vars]) dst) := by
    rw [hblocks]
    rfl
  have hlen : f.blocks.length = 0 + 1 := by rw [hblocks]; rfl
  conv_lhs => unfold callFunction
  simp only [hf, hbind, hentry, hlen, Option.bind_eq_bind, Option.bind_some]
  exact runBlocks_call hfind hpre htarget hvals

end Statements

/-- How a closure starts: the function that it was made of, or one of several specialisations. -/
inductive Root where
  | single (fnName : String) (storedTys : List Ty) (argsSize : Nat) (paramTys : List Ty)
      (retTy : Ty)
  | dispatch (storedTys : List Ty) (argsSize : Nat) (specializations : List Specialization)
      (retTy : Ty)

namespace Root

def storedTys : Root → List Ty
  | single _ tys _ _ _ | dispatch tys _ _ _ => tys

def argsSize : Root → Nat
  | single _ _ n _ _ | dispatch _ n _ _ => n

def build : Root → FunctionOir
  | single fnName tys n paramTys retTy => buildMakeClosureAccum fnName tys n paramTys retTy
  | dispatch tys n specializations retTy =>
    buildMakeClosureAccumDispatch tys n specializations retTy

/-- The wrapper that runs for a dispatch number. -/
def select (id : BitVec 64) : Root → Option String
  | single fnName _ _ paramTys retTy => some (applyWrapperName fnName paramTys retTy none)
  | dispatch _ _ specializations retTy =>
    (specializations.find? fun s => BitVec.ofInt 64 s.tagId == id).map (wrapperOf retTy)

end Root

/-- The objects of a closure: `depth` partial applications after its start. It takes `n` arguments
more, holds the arguments `stored`, and the numbers on its edges add up to `id`. -/
inductive Chain (w : World) (mem : Mem) (root : Root) :
    Nat → Nat → Val → List Val → BitVec 64 → Prop where
  | make {a : Nat} {f : String} {stored : List Val}
      (hobj : mem.objects a = some (.code f :: stored)) (hf : w.functions f = some root.build)
      (hlen : stored.length = root.storedTys.length) :
      Chain w mem root 0 root.argsSize (.ref a) stored 0
  | apply {a depth n : Nat} {f : String} {parent : Val} {stored args : List Val}
      {id : BitVec 64} {tys : List Ty} {retTy : Ty}
      (hparent : Chain w mem root depth (args.length + n) parent stored id)
      (hobj : mem.objects a = some (.code f :: parent :: args))
      (hf : w.functions f = some (buildPartialClosureAccum tys n retTy))
      (hlen : args.length = tys.length) :
      Chain w mem root (depth + 1) n (.ref a) (stored ++ args) id
  | applyDispatch {a depth n : Nat} {f : String} {parent : Val} {stored args : List Val}
      {id edge : BitVec 64} {tys : List Ty} {retTy : Ty}
      (hparent : Chain w mem root depth (args.length + n) parent stored id)
      (hobj : mem.objects a = some (.code f :: .word edge :: parent :: args))
      (hf : w.functions f = some (buildPartialClosureAccumDispatch tys n retTy))
      (hlen : args.length = tys.length) :
      Chain w mem root (depth + 1) n (.ref a) (stored ++ args) (id + edge)

section Accumulators

variable {root : Root} {depth a : Nat} {f g : String} {storedTys tys : List Ty} {retTy : Ty}
  {stored xs : List Val} {parent clos : Val} {i edge : BitVec 64} {c : Val}

/-- The parameters of an accumulator: the arguments, the closure and the dispatch number. -/
theorem bindParams_accum (base : Nat) (hbase : 1 < base) (clos : Val) (i : BitVec 64)
    (hxs : xs.length = n) :
    ∃ env, bindParams (argParams base n ++ [⟨0, .objPtr⟩, ⟨1, .i64⟩]) (xs ++ [clos, .word i])
        (fun _ => none) = some env ∧
      env 0 = some clos ∧ env 1 = some (.word i) ∧ Holds env base xs := by
  have hlen : xs.length = (List.replicate n IrType.i64).length := by simpa using hxs
  obtain ⟨env, hbind, hholds, -⟩ := bindParams_freshVars base (fun _ => none) hlen
  refine ⟨Function.update (Function.update env 0 (some clos)) 1 (some (.word i)), ?_, ?_, ?_, ?_⟩
  · have hps : (argParams base n).length = n := by rw [argParams, length_freshVars]; simp
    rw [bindParams_append (hxs.trans hps.symm), argParams, hbind]
    rfl
  · rw [Function.update_of_ne (by decide), Function.update_self]
  · rw [Function.update_self]
  · intro j u hu
    have h₁ : base + j ≠ 1 := by omega
    have h₀ : base + j ≠ 0 := by omega
    rw [Function.update_of_ne h₁, Function.update_of_ne h₀]
    exact hholds j u hu

/-- The end of an accumulator: it reads its stored arguments and calls the parent's accumulator,
its own arguments before the others. -/
theorem callFunction_accum {f : FunctionOir} {fn : String} {head : List Statement}
    {dst idVar : Var} {base : Nat} {fields : List Val} (hf : w.functions fn = some f)
    (hparams : f.params = argParams 7 n ++ [⟨0, .objPtr⟩, ⟨1, .i64⟩])
    (hblocks : f.blocks = [returnBlock 0 (head ++
      loads 4 ⟨0, .objPtr⟩ base (freshVars (7 + n) (List.replicate storedTys.length .i64)) ++
      [callFn 5 dst (.directFnPtr ⟨5, .fnPtr⟩)
        (freshVars (7 + n) (List.replicate storedTys.length .i64) ++ argParams 7 n ++
          [⟨4, .objPtr⟩, idVar])]) dst])
    (hentry : f.entryBlock = 0) (hxs : xs.length = n) (hobj : mem.objects a = some fields)
    (hstored : ∀ (j : Nat) (u : Val), stored[j]? = some u → fields[base + j]? = some u)
    (hlen : stored.length = storedTys.length) (hid : idVar.id < 7)
    (hhead : ∀ env : Env, env 0 = some (.ref a) → env 1 = some (.word i) → ∃ env₂ : Env,
      execAll w (callFunction w fuel) head (env, mem) = some (env₂, mem) ∧
        (∀ j : Nat, 7 ≤ j → env₂ j = env j) ∧ env₂ 0 = some (.ref a) ∧ env₂ 4 = some parent ∧
        env₂ 5 = some (.code g) ∧ env₂ idVar.id = some (.word edge)) :
    callFunction w (fuel + 1) fn (xs ++ [.ref a, .word i]) mem =
      callFunction w fuel g (stored ++ xs ++ [parent, .word edge]) mem := by
  obtain ⟨env, hbind, h₀, h₁, hargs⟩ := bindParams_accum 7 (by decide) (.ref a) i hxs
  obtain ⟨env₂, hexec, hhigh, h₀', h₄, h₅, hidVar⟩ := hhead env h₀ h₁
  have hstoredLen : stored.length = (List.replicate storedTys.length IrType.i64).length := by
    simpa using hlen
  have hargsLen : xs.length = (List.replicate n IrType.i64).length := by simpa using hxs
  obtain ⟨env₃, hloads, hvals, hsame⟩ := execAll_loads (w := w) (callFunction w fuel)
    ⟨0, .objPtr⟩ 4 (7 + n) base h₀' hobj hstored hstoredLen (by simp)
  have hlow : ∀ j : Nat, j < 7 → env₃ j = env₂ j := fun j hj => hsame j (Or.inl (by omega))
  have hargs₃ : Holds env₃ 7 xs := by
    intro j u hu
    have hj : j < xs.length := (List.getElem?_eq_some_iff.mp hu).1
    rw [hsame (7 + j) (Or.inl (by omega)), hhigh (7 + j) (by omega)]
    exact hargs j u hu
  have hlast : ([(⟨4, .objPtr⟩ : Var), idVar].map argOf).mapM
      (fun a => evalOperand w env₃ a.operand) = some [parent, .word edge] := by
    simp [argOf, evalOperand, hlow 4 (by decide), h₄, hlow idVar.id hid, hidVar]
  refine callFunction_tail hf hblocks hentry (hparams ▸ hbind) ?_ ?_
    (mapM_append_args (mapM_append_args (mapM_freshVars _ hvals hstoredLen)
      (mapM_freshVars _ hargs₃ hargsLen)) hlast)
  · rw [execAll_append, hexec]
    exact hloads
  · simp [targetOf, hlow 5 (by decide), h₅]

theorem callFunction_partial (fuel : Nat) (i : BitVec 64)
    (hf : w.functions f = some (buildPartialClosureAccum storedTys n retTy))
    (hobj : mem.objects a = some (c :: parent :: stored))
    (hparent : fieldOf mem 0 parent = some (.code g)) (hlen : stored.length = storedTys.length)
    (hxs : xs.length = n) :
    callFunction w (fuel + 1) f (xs ++ [.ref a, .word i]) mem =
      callFunction w fuel g (stored ++ xs ++ [parent, .word i]) mem := by
  refine callFunction_accum hf rfl rfl rfl hxs hobj ?_ hlen (by decide) ?_
  · intro j u hu
    rwa [show 2 + j = j + 2 by omega]
  · intro env h₀ h₁
    refine ⟨Function.update (Function.update env 4 (some parent)) 5 (some (.code g)), ?_, ?_⟩
    · have hself : Function.update env 4 (some parent) 4 = some parent := Function.update_self ..
      have hfield : fieldOf mem 1 (.ref a) = some parent := by simp [fieldOf, hobj]
      rw [execAll_cons, exec_load h₀ hfield, Option.bind_some, execAll_cons,
        exec_load hself hparent]
      rfl
    · refine ⟨fun j hj => ?_, ?_, ?_, ?_, ?_⟩
      · have h₄ : j ≠ 4 := by omega
        have h₅ : j ≠ 5 := by omega
        rw [Function.update_of_ne h₅, Function.update_of_ne h₄]
      all_goals simp [h₀, h₁]

theorem callFunction_partialDispatch (fuel : Nat) (i : BitVec 64)
    (hf : w.functions f = some (buildPartialClosureAccumDispatch storedTys n retTy))
    (hobj : mem.objects a = some (c :: .word edge :: parent :: stored))
    (hparent : fieldOf mem 0 parent = some (.code g)) (hlen : stored.length = storedTys.length)
    (hxs : xs.length = n) :
    callFunction w (fuel + 1) f (xs ++ [.ref a, .word i]) mem =
      callFunction w fuel g (stored ++ xs ++ [parent, .word (i + edge)]) mem := by
  refine callFunction_accum hf rfl rfl rfl hxs hobj ?_ hlen (by decide) ?_
  · intro j u hu
    rwa [show 3 + j = j + 3 by omega]
  · intro env h₀ h₁
    let env₁ := Function.update (Function.update env 2 (some (.word edge))) 3
      (some (.word (i + edge)))
    refine ⟨Function.update (Function.update env₁ 4 (some parent)) 5 (some (.code g)), ?_, ?_⟩
    · have hedge : fieldOf mem 1 (.ref a) = some (.word edge) := by simp [fieldOf, hobj]
      have hfield : fieldOf mem 2 (.ref a) = some parent := by simp [fieldOf, hobj]
      have hadd : exec w (callFunction w fuel)
          (Function.update env 2 (some (.word edge)), mem)
          ⟨1, .assign ⟨3, .i64⟩ (.binOp .add (.var ⟨1, .i64⟩) (.var ⟨2, .i64⟩))⟩ =
          some (env₁, mem) := by
        simp [exec, evalRvalue, evalOperand, addWords, h₁, env₁]
      have hself : Function.update env₁ 4 (some parent) 4 = some parent := Function.update_self ..
      have hclos : env₁ 0 = some (.ref a) := by simp [env₁, h₀]
      rw [execAll_cons, exec_load h₀ hedge, Option.bind_some, execAll_cons, hadd,
        Option.bind_some, execAll_cons, exec_load hclos hfield, Option.bind_some, execAll_cons,
        exec_load hself hparent]
      rfl
    · refine ⟨fun j hj => ?_, ?_, ?_, ?_, ?_⟩
      · have h₂ : j ≠ 2 := by omega
        have h₃ : j ≠ 3 := by omega
        have h₄ : j ≠ 4 := by omega
        have h₅ : j ≠ 5 := by omega
        simp only [env₁, Function.update_of_ne h₅, Function.update_of_ne h₄,
          Function.update_of_ne h₃, Function.update_of_ne h₂]
      all_goals simp [env₁, h₀]

/-- The accumulator at the start of a closure reads what it stored. -/
theorem execAll_storedSlots (call : String → List Val → Mem → Option (Val × Mem))
    (hobj : mem.objects a = some (c :: stored))
    (hlen : stored.length = storedTys.length) (hxs : xs.length = n)
    (h₀ : env 0 = some (.ref a)) (hargs : Holds env 3 xs) :
    ∃ env', execAll w call (storedSlotLoads (3 + n) ⟨0, .objPtr⟩ 1 storedTys).2 (env, mem) =
        some (env', mem) ∧ env' 1 = env 1 ∧
      (((storedSlotLoads (3 + n) ⟨0, .objPtr⟩ 1 storedTys).1 ++ argParams 3 n).map argOf).mapM
        (fun a => evalOperand w env' a.operand) = some (stored ++ xs) := by
  have hstoredLen : stored.length = (storedTys.map slotTy).length := by simpa using hlen
  have hargsLen : xs.length = (List.replicate n IrType.i64).length := by simpa using hxs
  obtain ⟨env', hloads, hvals, hsame⟩ := execAll_loads (w := w) call ⟨0, .objPtr⟩ 0 (3 + n) 1
    h₀ hobj (fun j u hu => by rwa [show 1 + j = j + 1 by omega]) hstoredLen (by simp)
  refine ⟨env', hloads, hsame 1 (Or.inl (by omega)), ?_⟩
  refine mapM_append_args (mapM_freshVars _ hvals hstoredLen) (mapM_freshVars _ ?_ hargsLen)
  intro j u hu
  have hj : j < xs.length := (List.getElem?_eq_some_iff.mp hu).1
  rw [hsame (3 + j) (Or.inl (by omega))]
  exact hargs j u hu

theorem callFunction_single {fnName : String} {paramTys : List Ty}
    (hf : w.functions f = some (buildMakeClosureAccum fnName storedTys n paramTys retTy))
    (hobj : mem.objects a = some (c :: stored)) (hlen : stored.length = storedTys.length)
    (hxs : xs.length = n) :
    callFunction w (fuel + 1) f (xs ++ [.ref a, .word i]) mem =
      callFunction w fuel (applyWrapperName fnName paramTys retTy none) (stored ++ xs) mem := by
  obtain ⟨env, hbind, h₀, -, hargs⟩ := bindParams_accum 3 (by decide) (.ref a) i hxs
  obtain ⟨env', hloads, -, hvals⟩ :=
    execAll_storedSlots (w := w) (callFunction w fuel) hobj hlen hxs h₀ hargs
  exact callFunction_tail hf rfl rfl hbind hloads rfl hvals

theorem find_caseBlocks_none (vars : List Var) (base : Nat) {dsts : List Var}
    {specializations : List Specialization} (p : Int → Bool)
    (hfind : specializations.find? (fun s => p s.tagId) = none) :
    ((specializations.map (·.tagId)).zip
      ((caseBlocks retTy vars base dsts specializations).map (·.id))).find? (fun e => p e.1) =
      none := by
  rw [List.find?_eq_none] at hfind ⊢
  intro e he
  obtain ⟨s, hs, htag⟩ := List.mem_map.mp (List.of_mem_zip he).1
  rw [← htag]
  exact hfind s hs

/-- The switch on the dispatch number finds the block of the specialisation with that number. -/
theorem find_caseBlocks_some (retTy : Ty) (vars : List Var) (base : Nat) {dsts : List Var}
    {specializations : List Specialization} {s : Specialization} (p : Int → Bool)
    (hlen : dsts.length = specializations.length)
    (hfind : specializations.find? (fun s => p s.tagId) = some s) :
    ∃ (k : Nat) (dst : Var), base ≤ k ∧
      ((specializations.map (·.tagId)).zip
        ((caseBlocks retTy vars base dsts specializations).map (·.id))).find? (fun e => p e.1) =
          some (s.tagId, k) ∧
      (caseBlocks retTy vars base dsts specializations).find? (·.id == k) =
        some (returnBlock k [callFn 0 dst (.direct (wrapperOf retTy s)) vars] dst) := by
  induction specializations generalizing base dsts with
  | nil => cases hfind
  | cons t ss ih =>
    cases dsts with
    | nil => cases hlen
    | cons dst dsts =>
      rw [List.find?_cons] at hfind
      cases hp : p t.tagId with
      | true =>
        simp only [hp, Option.some.injEq] at hfind
        subst hfind
        refine ⟨base, dst, le_rfl, ?_, ?_⟩
        · simp [caseBlocks, returnBlock, hp]
        · simp [caseBlocks, returnBlock]
      | false =>
        simp only [hp] at hfind
        obtain ⟨k, dst', hk, hzip, hblock⟩ := ih (base + 1) (Nat.succ.inj hlen) hfind
        refine ⟨k, dst', by omega, ?_, ?_⟩
        · simpa [caseBlocks, returnBlock, hp] using hzip
        · have hne : (base == k) = false := by
            rw [beq_eq_false_iff_ne]
            omega
          simpa [caseBlocks, returnBlock, hne] using hblock

theorem callFunction_dispatch {specializations : List Specialization}
    (hf : w.functions f =
      some (buildMakeClosureAccumDispatch storedTys n specializations retTy))
    (hobj : mem.objects a = some (c :: stored)) (hlen : stored.length = storedTys.length)
    (hxs : xs.length = n) :
    callFunction w (fuel + 1) f (xs ++ [.ref a, .word i]) mem =
      ((Root.dispatch storedTys n specializations retTy).select i).bind fun wrapper =>
        callFunction w fuel wrapper (stored ++ xs) mem := by
  obtain ⟨env, hbind, h₀, h₁, hargs⟩ := bindParams_accum 3 (by decide) (.ref a) i hxs
  obtain ⟨env', hloads, hid, hvals⟩ :=
    execAll_storedSlots (w := w) (callFunction w fuel) hobj hlen hxs h₀ hargs
  let vars := (storedSlotLoads (3 + n) ⟨0, .objPtr⟩ 1 storedTys).1 ++ argParams 3 n
  let dsts := freshVars (3 + n + storedTys.length)
    (List.replicate specializations.length retTy.irType)
  have hdsts : dsts.length = specializations.length := by simp [dsts, length_freshVars]
  have hcall : callFunction w (fuel + 1) f (xs ++ [.ref a, .word i]) mem =
      (nextBlock env' (.switch ⟨1, .i64⟩ ((specializations.map (·.tagId)).zip
        ((caseBlocks retTy vars 1 dsts specializations).map (·.id))) none)).bind fun k =>
          runBlocks w (callFunction w fuel)
            (buildMakeClosureAccumDispatch storedTys n specializations retTy)
            (caseBlocks retTy vars 1 dsts specializations).length k (env', mem) := by
    conv_lhs => unfold callFunction
    rw [hf]
    change (bindParams (argParams 3 n ++ [⟨0, .objPtr⟩, ⟨1, .i64⟩]) _ _).bind _ = _
    rw [hbind]
    change (execAll w (callFunction w fuel)
      (storedSlotLoads (3 + n) ⟨0, .objPtr⟩ 1 storedTys).2 (env, mem)).bind _ = _
    rw [hloads]
    rfl
  have hnext : nextBlock env' (.switch ⟨1, .i64⟩ ((specializations.map (·.tagId)).zip
      ((caseBlocks retTy vars 1 dsts specializations).map (·.id))) none) =
      (((specializations.map (·.tagId)).zip
        ((caseBlocks retTy vars 1 dsts specializations).map (·.id))).find?
          fun e => BitVec.ofInt 64 e.1 == i).map Prod.snd := by
    simp [nextBlock, hid, h₁, wordOf]
  rw [hcall, hnext, Root.select]
  cases hfind : specializations.find? fun s => BitVec.ofInt 64 s.tagId == i with
  | none =>
    rw [find_caseBlocks_none vars 1 (fun t => BitVec.ofInt 64 t == i) hfind]
    rfl
  | some s =>
    obtain ⟨k, dst, hk, hzip, hblock⟩ :=
      find_caseBlocks_some retTy vars 1 (fun t => BitVec.ofInt 64 t == i) hdsts hfind
    rw [hzip]
    obtain ⟨m, hm⟩ : ∃ m, (caseBlocks retTy vars 1 dsts specializations).length = m + 1 :=
      Nat.exists_eq_succ_of_ne_zero
        (Nat.ne_of_gt (List.length_pos_of_mem (List.mem_of_find?_eq_some hblock)))
    have hne : ((0 : Nat) == k) = false := by
      rw [beq_eq_false_iff_ne]
      omega
    have hfound : (buildMakeClosureAccumDispatch storedTys n specializations retTy).blocks.find?
        (·.id == k) =
        some (returnBlock k ([] ++ [callFn 0 dst (.direct (wrapperOf retTy s)) vars]) dst) := by
      change List.find? _ (_ :: caseBlocks retTy vars 1 dsts specializations) = _
      rw [List.find?_cons]
      simp only [hne]
      exact hblock
    change runBlocks w (callFunction w fuel) _
      (caseBlocks retTy vars 1 dsts specializations).length k (env', mem) =
        callFunction w fuel (wrapperOf retTy s) (stored ++ xs) mem
    rw [hm]
    exact runBlocks_call hfound rfl rfl hvals

theorem callFunction_root (hf : w.functions f = some root.build)
    (hobj : mem.objects a = some (c :: stored)) (hlen : stored.length = root.storedTys.length)
    (hxs : xs.length = root.argsSize) :
    callFunction w (fuel + 1) f (xs ++ [.ref a, .word i]) mem =
      (root.select i).bind fun wrapper => callFunction w fuel wrapper (stored ++ xs) mem := by
  cases root with
  | single fnName storedTys argsSize paramTys retTy => exact callFunction_single hf hobj hlen hxs
  | dispatch storedTys argsSize specializations retTy =>
    exact callFunction_dispatch hf hobj hlen hxs

/-- Through any number of partial applications, the arguments arrive in the order in which they
were given, and the numbers on the edges add up. -/
theorem Chain.accumulate {id : BitVec 64} (h : Chain w mem root depth n c stored id)
    (hxs : xs.length = n) : ∃ f, fieldOf mem 0 c = some (.code f) ∧ ∀ (fuel : Nat) (i : BitVec 64),
      callFunction w (fuel + depth + 1) f (xs ++ [c, .word i]) mem =
        (root.select (i + id)).bind fun wrapper =>
          callFunction w fuel wrapper (stored ++ xs) mem := by
  induction h generalizing xs with
  | @make a f stored hobj hf hlen =>
    refine ⟨f, by simp [fieldOf, hobj], fun fuel i => ?_⟩
    have hid : i + (0 : BitVec 64) = i := BitVec.add_zero i
    rw [hid]
    exact callFunction_root hf hobj hlen hxs
  | @apply a depth n f parent stored args id tys retTy hparent hobj hf hlen ih =>
    have hlen' : (args ++ xs).length = args.length + n := by rw [List.length_append, hxs]
    obtain ⟨g, hg, hcall⟩ := ih hlen'
    refine ⟨f, by simp [fieldOf, hobj], fun fuel i => ?_⟩
    have hstep := callFunction_partial (fuel + depth + 1) i hf hobj hg hlen hxs
    rw [show fuel + (depth + 1) + 1 = fuel + depth + 1 + 1 by omega, hstep, hcall fuel i,
      List.append_assoc]
  | @applyDispatch a depth n f parent stored args id edge tys retTy hparent hobj hf hlen ih =>
    have hlen' : (args ++ xs).length = args.length + n := by rw [List.length_append, hxs]
    obtain ⟨g, hg, hcall⟩ := ih hlen'
    refine ⟨f, by simp [fieldOf, hobj], fun fuel i => ?_⟩
    have hstep := callFunction_partialDispatch (fuel + depth + 1) i hf hobj hg hlen hxs
    have hid : i + edge + id = i + (id + edge) := by
      rw [BitVec.add_assoc, BitVec.add_comm edge id]
    rw [show fuel + (depth + 1) + 1 = fuel + depth + 1 + 1 by omega, hstep, hcall fuel (i + edge),
      List.append_assoc, hid]

end Accumulators

section Wrappers

variable {paramTys ptys : List Ty} {retTy : Ty} {callee wrapper : String} {castFrom : Option Ty}
  {nLoads : Nat} {xs : List Val}

/-- The arguments at the types of the parameters. -/
def carried (w : World) : List IrType → List Ty → List Val → List Val
  | t :: ts, p :: ps, v :: vs =>
    (if t = p.irType then v else w.cast t p.irType v) :: carried w ts ps vs
  | _, _, _ => []

def carriedResult (w : World) (castFrom : Option Ty) (retTy : Ty) (v : Val) : Val :=
  match castFrom with
  | none => v
  | some c => w.cast c.irType retTy.irType v

theorem length_inputTys (nLoads : Nat) : (inputTys nLoads ptys).length = ptys.length := by
  induction ptys generalizing nLoads with
  | nil => cases nLoads <;> rfl
  | cons p ps ih => cases nLoads <;> simp [inputTys, ih]

theorem prepareArgs_cons (n : Id) (v : Var) (vs : List Var) (pty : Ty) (ptys : List Ty) :
    prepareArgs n (v :: vs) (pty :: ptys) =
      if v.ty = pty.irType then
        (v :: (prepareArgs (n + 1) vs ptys).1, (prepareArgs (n + 1) vs ptys).2)
      else
        (⟨n, pty.irType⟩ :: (prepareArgs (n + 1) vs ptys).1,
          ⟨n, .assign ⟨n, pty.irType⟩ (.cast (.var v) pty.irType .unknown)⟩ ::
            (prepareArgs (n + 1) vs ptys).2) := rfl

theorem mapM_cons_arg {x : Var} {vars : List Var} (hx : env x.id = some v)
    (h : (vars.map argOf).mapM (fun a => evalOperand w env a.operand) = some vals) :
    ((x :: vars).map argOf).mapM (fun a => evalOperand w env a.operand) = some (v :: vals) := by
  rw [List.map_cons, List.mapM_cons, h]
  simp [argOf, evalOperand, hx]

/-- The casts of a wrapper leave each argument at the type of its parameter. -/
theorem execAll_prepareArgs (call : String → List Val → Mem → Option (Val × Mem)) (mem : Mem)
    (n m : Nat) (htys : tys.length = ptys.length)
    (hlen : vals.length = tys.length) (hholds : Holds env m vals) (hm : m + vals.length ≤ n) :
    ∃ env', execAll w call (prepareArgs n (freshVars m tys) ptys).2 (env, mem) =
        some (env', mem) ∧ (∀ j : Nat, j < n → env' j = env j) ∧
      ((prepareArgs n (freshVars m tys) ptys).1.map argOf).mapM
        (fun a => evalOperand w env' a.operand) = some (carried w tys ptys vals) := by
  induction tys generalizing n m ptys vals env with
  | nil => exact ⟨env, rfl, fun _ _ => rfl, rfl⟩
  | cons t ts ih =>
    cases ptys with
    | nil => cases htys
    | cons p ps =>
      cases vals with
      | nil => cases hlen
      | cons v vals =>
        have hhead : env m = some v := hholds 0 v rfl
        have hlen' : (v :: vals).length = vals.length + 1 := rfl
        rw [freshVars, prepareArgs_cons, carried]
        by_cases ht : t = p.irType
        · obtain ⟨env', hexec, hsame, hvals⟩ := ih (n + 1) (m + 1) (Nat.succ.inj htys)
            (Nat.succ.inj hlen) hholds.tail (by omega)
          rw [if_pos ht, if_pos ht]
          exact ⟨env', hexec, fun j hj => hsame j (by omega),
            mapM_cons_arg ((hsame m (by omega)).trans hhead) hvals⟩
        · have hcast : exec w call (env, mem)
              ⟨n, .assign ⟨n, p.irType⟩ (.cast (.var ⟨m, t⟩) p.irType .unknown)⟩ =
              some (Function.update env n (some (w.cast t p.irType v)), mem) := by
            simp [exec, evalRvalue, evalOperand, operandTy, hhead]
          have hsame₁ : SameOutside env (Function.update env n (some (w.cast t p.irType v))) n 1 :=
            fun j hj => by
              have hne : j ≠ n := by omega
              rw [Function.update_of_ne hne]
          obtain ⟨env', hexec, hsame, hvals⟩ := ih (n + 1) (m + 1) (Nat.succ.inj htys)
            (Nat.succ.inj hlen) (hholds.tail.of_sameOutside hsame₁ (by omega)) (by omega)
          rw [if_neg ht, if_neg ht]
          refine ⟨env', ?_, fun j hj => ?_, mapM_cons_arg ?_ hvals⟩
          · rw [execAll_cons, hcast]
            exact hexec
          · rw [hsame j (by omega), hsame₁ j (Or.inl hj)]
          · rw [hsame n (by omega), Function.update_self]

/-- A wrapper calls the function with the arguments at its parameters' types, and returns the
result at the type of the closure. -/
theorem callFunction_wrapper
    (hf : w.functions wrapper = some (buildApplyWrapper paramTys retTy callee castFrom nLoads))
    (hxs : xs.length = paramTys.length) :
    callFunction w (fuel + 1) wrapper xs mem =
      (callFunction w fuel callee (carried w (inputTys nLoads paramTys) paramTys xs) mem).map
        fun r => (carriedResult w castFrom retTy r.1, r.2) := by
  let inputs := freshVars 2 (inputTys nLoads paramTys)
  let prepared := prepareArgs (2 + paramTys.length) inputs paramTys
  have hlen : xs.length = (inputTys nLoads paramTys).length := by rw [length_inputTys, hxs]
  obtain ⟨env, hbind, hholds, -⟩ := bindParams_freshVars 2 (fun _ => none) hlen
  obtain ⟨env', hcasts, -, hvals⟩ := execAll_prepareArgs (w := w) (callFunction w fuel) mem
    (2 + paramTys.length) 2 (length_inputTys nLoads) hlen hholds (by omega)
  cases castFrom with
  | none =>
    have hblocks : (buildApplyWrapper paramTys retTy callee none nLoads).blocks =
        [returnBlock 0 (prepared.2 ++ [callFn 0 ⟨0, retTy.irType⟩ (.direct callee) prepared.1])
          ⟨0, retTy.irType⟩] := by
      simp [buildApplyWrapper, wrapperInputParams, prepared, inputs]
    have hcall := callFunction_tail hf hblocks rfl hbind hcasts rfl hvals
    rw [hcall]
    cases callFunction w fuel callee _ mem <;> rfl
  | some c =>
    rw [callFunction_block hf rfl rfl hbind]
    change (execAll w (callFunction w fuel)
      (prepared.2 ++ [callFn 0 ⟨0, c.irType⟩ (.direct callee) prepared.1] ++
        [⟨1, .assign ⟨1, retTy.irType⟩ (.cast (.var ⟨0, c.irType⟩) retTy.irType .unknown)⟩])
      (env, mem)).bind _ = _
    rw [execAll_append, execAll_append, hcasts, Option.bind_some, execAll_cons,
      exec_call rfl hvals]
    cases callFunction w fuel callee _ mem with
    | none => rfl
    | some r => simp [execAll, exec, evalRvalue, evalOperand, operandTy, carriedResult]

end Wrappers

section Application

variable {root : Root} {depth : Nat} {c : Val} {stored : List Val} {number : BitVec 64}
  {paramTys : List Ty} {retTy : Ty} {callee wrapper : String} {castFrom : Option Ty} {nLoads : Nat}

theorem Chain.length_eq (h : Chain w mem root depth n c stored number) :
    stored.length + n = root.storedTys.length + root.argsSize := by
  induction h with
  | make _ _ hlen => rw [hlen]
  | apply _ _ _ _ ih | applyDispatch _ _ _ _ ih => rw [← ih, List.length_append, Nat.add_assoc]

end Application

section Example

def i64 : Ty := .base .i64

/-- A closure for one of two functions, made with one argument; `q` gives it another one. -/
def twoFunctions : Root := .dispatch [i64] 2
  [⟨0, "f", [i64, i64, i64], i64⟩, ⟨1, "g", [i64, i64, i64], i64⟩] i64

def exampleWorld : World where
  functions fn :=
    if fn = "m" then some twoFunctions.build
    else if fn = "q" then some (buildPartialClosureAccumDispatch [i64] 1 i64)
    else if fn = "__wrapper.g.i64_i64_i64_ret_i64" then
      some (buildApplyWrapper [i64, i64, i64] i64 "g" none 1)
    else none
  literal
    | .intLit s => s.toInt?.map fun n => .word (BitVec.ofInt 64 n)
    | _ => none
  literal_int n := by simp
  cast _ _ v := v
  external _ args mem := args.head?.map fun v => (v, mem)

def exampleMem : Mem where
  objects
    | 0 => some [.code "m", .word 5]
    | 1 => some [.code "q", .word 1, .ref 0, .word 6]
    | _ => none
  next := 2

theorem exampleChain :
    Chain exampleWorld exampleMem twoFunctions 1 1 (.ref 1) [.word 5, .word 6] 1 :=
  have hmake : Chain exampleWorld exampleMem twoFunctions 0 2 (.ref 0) [.word 5] 0 :=
    .make (f := "m") rfl rfl rfl
  @Chain.applyDispatch _ _ _ 1 0 1 "q" (.ref 0) [.word 5] [.word 6] 0 1 [i64] i64 hmake rfl rfl rfl

end Example

end Syli.Compiler.GenClosure
