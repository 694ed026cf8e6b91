import Tase.Translator.Runs
import Tase.Cpp.Arith

/-! What the code of each emitter does to the registers and the memory, as a function
of the machine alone: no temporary, counter or earlier code takes part. -/

namespace Tase

open Cpp

namespace Instruction

def arg (i : Instruction) (k : Nat) : Operand := (i.operands[k]?).getD (.imm 0)

def bits1 (i : Instruction) : Size := i.size1.getD .q

def bits2 (i : Instruction) : Size := (i.size2 <|> i.size1).getD .q

end Instruction

namespace Emit.Runs

variable {ub : Undef} {n : Nat} {st : CState}

theorem operand {i : Instruction} {k : Nat} {Q : Operand → Nat → CState → Prop}
    (post : Q (i.arg k) n st) : Runs ub (i.operand k) n st Q := by
  refine lift fun o found => ?_
  unfold Instruction.arg at post
  split at found
  · rename_i present
    cases found
    simpa [present] using post
  · simp at found

theorem operandOr {i : Instruction} {o : Option Operand} {k : Nat}
    {Q : Operand → Nat → CState → Prop} (post : Q (o.getD (i.arg k)) n st) :
    Runs ub (i.operandOr o k) n st Q := by
  cases o with
  | none => exact operand post
  | some o => exact pure post

theorem needSize {size : Option Size} {Q : Size → Nat → CState → Prop}
    (post : Q (size.getD .q) n st) : Runs ub (Instruction.needSize size) n st Q := by
  refine lift fun found present => ?_
  cases size with
  | none => simp at present
  | some size =>
      cases present
      exact post

theorem needSize1 {i : Instruction} {Q : Size → Nat → CState → Prop} (post : Q i.bits1 n st) :
    Runs ub (Instruction.needSize i.size1) n st Q :=
  needSize post

theorem when {condition : Bool} {body : Emit Unit} {Q : Unit → Nat → CState → Prop}
    (yes : condition = true → Runs ub body n st Q) (no : condition = false → Q () n st) :
    Runs ub (Emit.when condition body) n st Q := by
  cases condition with
  | true => exact yes rfl
  | false => exact pure (no rfl)

theorem emitStoreVar {o : Operand} {v : Temp} {size : Size} {Q : Unit → Nat → CState → Prop}
    (post : Q () n (st.withMachine (o.write ub size (st.vars v) st.machine))) :
    Runs ub (o.emitStore (.var v) size) n st Q :=
  emitStore (fun _ => rfl) post

end Emit.Runs

/-- What an emitter leaves behind: the new machine and the older temporaries. -/
structure Effect (n : Nat) (st : CState) (m : Mach) (n' : Nat) (st' : CState) : Prop where
  machine : st'.machine = m
  older : ∀ t : Temp, t.index < n → st'.vars t = st.vars t
  count : n ≤ n'

theorem Effect.trans {n n' n'' : Nat} {st st' st'' : CState} {m m' : Mach}
    (first : Effect n st m n' st') (second : Effect n' st' m' n'' st'') :
    Effect n st m' n'' st'' where
  machine := second.machine
  older t earlier := by
    have kept := second.older t (by have := first.count; omega)
    rw [kept, first.older t earlier]
  count := Nat.le_trans first.count second.count

/-! Flags. -/

def flagVal (ub : Undef) (mask : Nat) (m : Mach) : Val :=
  (Val.arith ub .and ((⟨.uint 64, m.regs .efl⟩ : Val).cast (.uint 16)) (.lit .hex mask)).cast
    (.uint 16)

def setFlag (ub : Undef) (mask : Nat) (value : Val) (cleanClobberFlags : Bool) (m : Mach) : Mach :=
  m.setReg .efl ((if cleanClobberFlags then value
    else Val.arith ub .or
      (Val.arith ub .and ⟨.uint 64, m.regs .efl⟩ (Val.un ub .not (.lit .hex mask))) value).conv
    (.uint 64))

def orInto (ub : Undef) (efl value : Val) : Val := (Val.arith ub .or efl value).cast efl.ty

def flagZero : Val := (Val.lit .dec 0).cast (.uint 16)

def zpsVal (ub : Undef) (size : Size) (efl res : Val) : Val :=
  let parity := Val.shift ub .left
    (Val.arith ub .and
      (Val.shift ub .right (.lit .hex 0x6996)
        (Val.arith ub .and (Val.arith ub .xor (Val.shift ub .right res (.lit .dec 4)) res)
          (.lit .hex 0xf)))
      (.lit .dec 1))
    (.lit .dec flagPF)
  let zero := Val.shift ub .left (Val.cmp .eq res (.lit .dec 0)) (.lit .dec flagZF)
  let sign := Val.arith ub .and (Val.shift ub .right res (.lit .dec (size.bits - flagSF - 1)))
    (.lit .hex (2 ^ flagSF))
  orInto ub (orInto ub (orInto ub efl parity) zero) sign

namespace Emit.Runs

variable {ub : Undef} {n : Nat} {st : CState}

theorem orSet {v : Temp} {e : Exp} {Q : Unit → Nat → CState → Prop}
    (post : Q () n (st.bind v (orInto ub (st.vars v) (eval ub st e)))) :
    Runs ub (Emit.write (.orSet v e)) n st Q :=
  write rfl post

theorem emitGetFlag {mask : Nat} {v : Temp} {Q : Unit → Nat → CState → Prop}
    (post : Q () n (st.bind v (flagVal ub mask st.machine))) :
    Runs ub (Tase.emitGetFlag mask v) n st Q :=
  write rfl post

theorem emitSetFlag {mask : Nat} {value : Exp} {clobber : Bool} {Q : Unit → Nat → CState → Prop}
    (post : Q () n (st.withMachine (setFlag ub mask (eval ub st value) clobber st.machine))) :
    Runs ub (Tase.emitSetFlag mask value clobber) n st Q := by
  refine bind (regExpL fun r found => ?_)
  cases found
  cases clobber with
  | true => exact write rfl post
  | false => exact write rfl post

theorem emitZps {i : Instruction} {vEfl vRes : Temp} {Q : Unit → Nat → CState → Prop}
    (different : vRes ≠ vEfl)
    (post : Q () n (st.bind vEfl (zpsVal ub i.bits1 (st.vars vEfl) (st.vars vRes)))) :
    Runs ub (Tase.emitZps i vEfl vRes) n st Q := by
  refine bind (needSize ?_)
  refine bind (write rfl ?_)
  refine bind (write rfl ?_)
  refine write rfl ?_
  have collapse : ∀ x y : Val, (st.bind vEfl x).bind vEfl y = st.bind vEfl y := by
    intro x y
    simp [State.bind]
  simpa [eval, dec, different, collapse, zpsVal, orInto, Instruction.bits1] using post

end Emit.Runs

/-! Moves and the stack. -/

def denoteXchg (ub : Undef) (i : Instruction) (m : Mach) : Mach :=
  let vSrc := (i.arg 0).fetch ub i.bits1 false m
  let vDest := (i.arg 1).fetch ub i.bits1 false m
  (i.arg 1).write ub i.bits1 vSrc ((i.arg 0).write ub i.bits1 vDest m)

def denoteMov (ub : Undef) (signed : Bool) (src dest : Operand) (size1 size2 : Size) (m : Mach) :
    Mach :=
  let vIn := src.fetch ub size1 signed m
  dest.write ub size2 (if size1 = size2 then vIn else vIn.cast ⟨size2.bits, signed⟩) m

def MemRef.addressVal (ub : Undef) (mem : MemRef) (m : Mach) : Val :=
  match mem.addr with
  | .ok e => evalOn ub m e
  | .error _ => default

def denoteLea (ub : Undef) (src dest : Operand) (size : Size) (m : Mach) : Mach :=
  match src with
  | .mem mem => dest.store ub size (fun m => (mem.addressVal ub m).cast size.uint) m
  | _ => m

def denotePush (ub : Undef) (signed : Bool) (src : Operand) (size : Size) (m : Mach) : Mach :=
  denoteMov ub signed src (rspMem 0) size size
    (denoteLea ub (rspMem (-size.bytes)) rspOperand .q m)

def denotePop (ub : Undef) (signed : Bool) (dest : Operand) (size : Size) (m : Mach) : Mach :=
  denoteLea ub (rspMem size.bytes) rspOperand .q
    (denoteMov ub signed (rspMem 0) dest size size m)

def enterAlloc (i : Instruction) : Nat :=
  match i.arg 0 with
  | .imm alloc => alloc
  | _ => 0

def denoteEnter (ub : Undef) (i : Instruction) (m : Mach) : Mach :=
  denoteLea ub (rspMem (-enterAlloc i)) rspOperand .q
    (denoteMov ub i.signExt rspOperand rbpOperand .q .q
      (denotePush ub i.signExt rbpOperand .q m))

def denoteLeave (ub : Undef) (i : Instruction) (m : Mach) : Mach :=
  denotePop ub i.signExt rbpOperand .q (denoteMov ub i.signExt rbpOperand rspOperand .q .q m)

def denoteCall (ub : Undef) (i : Instruction) (m : Mach) : Mach :=
  ripOperand.write ub .q ((i.arg 0).fetch ub .q false m)
    (denotePush ub i.signExt ripOperand .q m)

namespace Emit.Runs

variable {ub : Undef} {n : Nat} {st : CState} {i : Instruction}

theorem emitXchg :
    Runs ub (Tase.emitXchg i) n st fun _ n' st' =>
      Effect n st (denoteXchg ub i st.machine) n' st' := by
  refine bind (operand ?_)
  refine bind (operand ?_)
  refine bind (needSize ?_)
  refine bind (emitFetch ?_)
  refine bind (emitFetch ?_)
  refine bind (emitStoreVar ?_)
  refine emitStoreVar ⟨?_, ?_, by omega⟩
  · simp [denoteXchg, Instruction.bits1]
  · intro t earlier
    have first : t ≠ ⟨"src", n⟩ := by rintro rfl; simp at earlier
    have second : t ≠ ⟨"dest", n + 1⟩ := by rintro rfl; simp only at earlier; omega
    simp [first, second]

theorem emitMov {src dest : Option Operand} {size : Option Size} :
    Runs ub (Tase.emitMov i src dest size) n st fun _ n' st' =>
      Effect n st (denoteMov ub i.signExt (src.getD (i.arg 0)) (dest.getD (i.arg 1))
        ((size <|> i.size1).getD .q) ((size <|> i.size2 <|> i.size1).getD .q) st.machine) n' st' := by
  refine bind (operandOr ?_)
  refine bind (operandOr ?_)
  refine bind (needSize ?_)
  refine bind (needSize ?_)
  refine bind (emitFetch ?_)
  generalize (size <|> i.size1).getD .q = size1
  generalize (size <|> i.size2 <|> i.size1).getD .q = size2
  have older : ∀ t : Temp, t.index < n → t ≠ ⟨"in", n⟩ ∧ t ≠ ⟨"converted", n + 1⟩ := by
    intro t earlier
    constructor
    · rintro rfl; simp at earlier
    · rintro rfl; simp only at earlier; omega
  unfold emitConverted
  split
  · rename_i same
    refine bind (pure (emitStoreVar ⟨?_, ?_, by omega⟩))
    · simp [denoteMov, same]
    · intro t earlier
      simp [older t earlier]
  · rename_i different
    refine bind (emitVarDecl (emitStoreVar ⟨?_, ?_, by omega⟩))
    · simp [denoteMov, different, eval]
    · intro t earlier
      simp [older t earlier]

theorem emitLea {src dest : Option Operand} {size : Option Size} :
    Runs ub (Tase.emitLea i src dest size) n st fun _ n' st' =>
      Effect n st (denoteLea ub (src.getD (i.arg 0)) (dest.getD (i.arg 1))
        ((size <|> i.size1).getD .q) st.machine) n' st' := by
  refine bind (operandOr ?_)
  refine bind (operandOr ?_)
  refine bind (needSize ?_)
  refine bind (lift fun mem isMem => ?_)
  refine bind (lift fun addr found => ?_)
  split at isMem
  · rename_i target same
    cases isMem
    have closed := (MemRef.addr_over found).vars
    have value : ∀ m, eval ub (st.withMachine m) (.cast ((size <|> i.size1).getD .q).uint addr) =
        (mem.addressVal ub m).cast ((size <|> i.size1).getD .q).uint := by
      intro m
      simp [eval, eval_eq_evalOn closed, MemRef.addressVal, found]
    refine emitStore value ⟨?_, fun _ _ => rfl, Nat.le_refl _⟩
    simp [denoteLea, same]
  · simp at isMem

theorem emitPush {src : Option Operand} {size : Option Size} :
    Runs ub (Tase.emitPush i src size) n st fun _ n' st' =>
      Effect n st (denotePush ub i.signExt (src.getD (i.arg 0)) ((size <|> i.size1).getD .q)
        st.machine) n' st' := by
  refine bind (operandOr ?_)
  refine bind (needSize ?_)
  refine bind (emitLea.mono fun _ n' st' first => ?_)
  refine emitMov.mono fun _ n'' st'' second => ?_
  have whole := first.trans second
  rw [first.machine] at whole
  exact whole

theorem emitPop {dest : Option Operand} {size : Option Size} :
    Runs ub (Tase.emitPop i dest size) n st fun _ n' st' =>
      Effect n st (denotePop ub i.signExt (dest.getD (i.arg 0)) ((size <|> i.size1).getD .q)
        st.machine) n' st' := by
  refine bind (operandOr ?_)
  refine bind (needSize ?_)
  refine bind (emitMov.mono fun _ n' st' first => ?_)
  refine emitLea.mono fun _ n'' st'' second => ?_
  have whole := first.trans second
  rw [first.machine] at whole
  exact whole

theorem emitEnter :
    Runs ub (Tase.emitEnter i) n st fun _ n' st' =>
      Effect n st (denoteEnter ub i st.machine) n' st' := by
  refine bind (lift fun alloc found => ?_)
  have argument : enterAlloc i = alloc := by
    split at found
    · rename_i given
      cases found
      simp [enterAlloc, Instruction.arg, given]
    all_goals simp at found
  refine bind (emitPush.mono fun _ n₁ st₁ first => ?_)
  refine bind (emitMov.mono fun _ n₂ st₂ second => ?_)
  refine emitLea.mono fun _ n₃ st₃ third => ?_
  have whole := first.trans (second.trans third)
  rw [second.machine, first.machine, ← argument] at whole
  exact whole

theorem emitLeave :
    Runs ub (Tase.emitLeave i) n st fun _ n' st' =>
      Effect n st (denoteLeave ub i st.machine) n' st' := by
  refine bind (emitMov.mono fun _ n' st' first => ?_)
  refine emitPop.mono fun _ n'' st'' second => ?_
  have whole := first.trans second
  rw [first.machine] at whole
  exact whole

theorem emitCall :
    Runs ub (Tase.emitCall i) n st fun _ _ st' => st'.machine = denoteCall ub i st.machine := by
  refine bind (lift fun _ _ => ?_)
  refine bind (operand ?_)
  refine bind (emitFetch ?_)
  refine bind (emitPush.mono fun _ n' st' pushed => ?_)
  refine emitStoreVar ?_
  have target := pushed.older ⟨"target", n⟩ (by simp)
  rw [State.withMachine_machine, target, pushed.machine]
  simp [denoteCall]

theorem emitRet :
    Runs ub (Tase.emitRet i) n st fun _ _ st' =>
      st'.machine = denotePop ub i.signExt ripOperand .q st.machine := by
  refine bind (lift fun _ _ => ?_)
  exact emitPop.mono fun _ n' st' popped => popped.machine

end Emit.Runs

/-! Conditions. -/

def flagTest (ub : Undef) (bit : Nat) (efl : Val) : Val :=
  Val.arith ub .and efl (.lit .hex (2 ^ bit))

def condVal (ub : Undef) (code : Cond) (efl : Val) : Val :=
  match code with
  | .c => flagTest ub flagCF efl
  | .z => flagTest ub flagZF efl
  | .o => flagTest ub flagOF efl
  | .p => flagTest ub flagPF efl
  | .s => flagTest ub flagSF efl
  | .l => Val.arith ub .and
      (Val.arith ub .xor (Val.shift ub .right efl (.lit .dec flagSF))
        (Val.shift ub .right efl (.lit .dec flagOF)))
      (.lit .hex 1)

def eqVal (ub : Undef) (code : Cond) (cEq : Bool) (efl : Val) : Val :=
  if cEq && code ≠ .z then Val.lor (flagTest ub flagZF efl) (condVal ub code efl)
  else condVal ub code efl

def condTaken (ub : Undef) (i : Instruction) (m : Mach) : Bool :=
  match i.cond with
  | none => true
  | some code => (eqVal ub code i.cEq (flagVal ub 0xffff m)).truthy != i.cNeg

theorem failureExp_truthy (ub : Undef) (st : CState) (code : Cond) (cNeg cEq : Bool) (v : Temp) :
    (eval ub st (failureExp code cNeg cEq v)).truthy =
      ((eqVal ub code cEq (st.vars v)).truthy == cNeg) := by
  have condition : eval ub st (condExp code v) = condVal ub code (st.vars v) := by
    cases code <;> rfl
  have equality : eval ub st (eqExp code cEq v) = eqVal ub code cEq (st.vars v) := by
    unfold eqExp eqVal
    split
    · simp only [eval, condition]
      rfl
    · exact condition
  have negated (b : Bool) : (Val.ofBool b).truthy = b := by
    cases b <;> rfl
  cases cNeg <;> simp [failureExp, eval, Val.un, equality, negated]

namespace Emit.Runs

variable {ub : Undef} {n : Nat} {st : CState} {i : Instruction}

theorem emitUnderCond {body : Emit Unit} {f : Mach → Mach}
    (runs : ∀ n st, Runs ub body n st fun _ _ st' => st'.machine = f st.machine) :
    Runs ub (do let failure ← emitReturnForCond i; emitElse failure body) n st
      fun _ _ st' => st'.machine = if condTaken ub i st.machine then f st.machine
        else st.machine := by
  unfold emitReturnForCond condTaken
  cases i.cond with
  | none => exact bind (pure (by simpa [emitElse] using runs n st))
  | some code =>
      refine bind (bind (makeVar (bind (emitGetFlag (pure ?_)))))
      refine elseBlock (fun failed n' => ?_) fun passed => ?_
      · simp only [failureExp_truthy, State.bind_vars_self, beq_iff_eq] at failed
        simp [failed]
      · simp only [failureExp_truthy, State.bind_vars_self, beq_eq_false_iff_ne] at passed
        refine (runs _ _).mono fun _ _ st' done => ?_
        simpa [passed] using done

end Emit.Runs

def denoteJump (ub : Undef) (i : Instruction) (m : Mach) : Mach :=
  if condTaken ub i m then denoteMov ub i.signExt (i.arg 0) ripOperand i.bits1 i.bits2 m else m

def denoteSet (ub : Undef) (i : Instruction) (m : Mach) : Mach :=
  let cleared := (i.arg 0).write ub .b (.lit .dec 0) m
  if condTaken ub i cleared then (i.arg 0).write ub .b (.lit .dec 1) cleared else cleared

def denoteCmov (ub : Undef) (i : Instruction) (m : Mach) : Mach :=
  let truncated := denoteMov ub i.signExt (i.arg 1) (i.arg 1) i.bits1 i.bits2 m
  if condTaken ub i truncated then
    denoteMov ub i.signExt (i.arg 0) (i.arg 1) i.bits1 i.bits2 truncated
  else truncated

namespace Emit.Runs

variable {ub : Undef} {n : Nat} {st : CState} {i : Instruction}

theorem emitJump :
    Runs ub (Tase.emitJump i) n st fun _ _ st' => st'.machine = denoteJump ub i st.machine := by
  exact emitUnderCond fun n st => emitMov.mono fun _ _ _ done => done.machine

theorem emitSet :
    Runs ub (Tase.emitSet i) n st fun _ _ st' => st'.machine = denoteSet ub i st.machine := by
  refine bind (operand ?_)
  refine bind (emitStore (fun _ => rfl) ?_)
  refine emitUnderCond fun n st => emitStore (fun _ => rfl) ?_
  rfl

theorem emitCmov :
    Runs ub (Tase.emitCmov i) n st fun _ _ st' => st'.machine = denoteCmov ub i st.machine := by
  refine bind (operand ?_)
  refine bind (emitMov.mono fun _ n' st' first => ?_)
  refine (emitUnderCond fun n st => emitMov.mono fun _ _ _ done => done.machine).mono
    fun _ _ st'' done => ?_
  rw [done, first.machine]
  rfl

end Emit.Runs

/-! Arithmetic. -/

namespace AddMode

def sumVal (ub : Undef) (mode : AddMode) (size : Size) (aug add cf : Val) : Val :=
  let two := Val.arith ub mode.op aug add
  (if mode.carry then Val.arith ub mode.op two cf else two).cast size.uint

def overflowVal (ub : Undef) (mode : AddMode) (size : Size) (res aug add : Val) : Val :=
  Val.shift ub .left
    (Val.shift ub .right
      (Val.arith ub .and (Val.arith ub .xor res aug)
        (Val.arith ub .xor (if mode.sub then aug else res) add))
      (.lit .dec (size.bits - 1)))
    (.lit .dec flagOF)

def carryVal (mode : AddMode) (res aug cf : Val) : Val :=
  let plain := Val.cmp (if mode.sub then .gt else .lt) res aug
  if mode.carry then Val.cond cf (Val.cmp (if mode.sub then .ge else .le) res aug) plain else plain

def flagsVal (ub : Undef) (mode : AddMode) (size : Size) (res aug add cf : Val) : Val :=
  let overflow := orInto ub flagZero (mode.overflowVal ub size res aug add)
  zpsVal ub size (if mode.setCarry then orInto ub overflow (mode.carryVal res aug cf) else overflow) res

theorem eval_overflowExp (ub : Undef) (mode : AddMode) (size : Size) (st : CState)
    (vRes vAug vAdd : Temp) :
    eval ub st (mode.overflowExp vRes vAug vAdd size) =
      mode.overflowVal ub size (st.vars vRes) (st.vars vAug) (st.vars vAdd) := by
  unfold overflowExp overflowVal
  cases mode.sub <;> rfl

theorem eval_sumExp (ub : Undef) (mode : AddMode) (size : Size) (st : CState)
    (vAug vAdd : Temp) (vCf : Option Temp) (given : vCf.isSome = mode.carry) (cf : Val)
    (carried : ∀ v, vCf = some v → st.vars v = cf) :
    (eval ub st (mode.sumExp vCf vAug vAdd)).cast size.uint =
      mode.sumVal ub size (st.vars vAug) (st.vars vAdd) cf := by
  cases vCf with
  | none => simp [sumExp, sumVal, eval, ← given]
  | some v => simp [sumExp, sumVal, eval, ← given, carried v rfl]

theorem eval_carryExp (ub : Undef) (mode : AddMode) (st : CState) (vRes vAug : Temp)
    (vCf : Option Temp) (given : vCf.isSome = mode.carry) (cf : Val)
    (carried : ∀ v, vCf = some v → st.vars v = cf) :
    eval ub st (mode.carryExp vCf vRes vAug) =
      mode.carryVal (st.vars vRes) (st.vars vAug) cf := by
  cases vCf with
  | none => simp [carryExp, carryVal, eval, ← given]
  | some v => simp [carryExp, carryVal, eval, ← given, carried v rfl]

def target (mode : AddMode) (left right : Operand) (m : Mach) (write : Operand → Mach → Mach) :
    Mach :=
  match mode.targetL with
  | some true => write left m
  | some false => write right m
  | none => m

end AddMode

def denoteAdd (ub : Undef) (i : Instruction) (left right : Option Operand) (mode : AddMode)
    (m : Mach) : Mach :=
  let argR := right.getD (i.arg 0)
  let argL := left.getD (i.arg 1)
  let aug := argL.fetch ub i.bits1 false m
  let add := argR.fetch ub i.bits1 false m
  let cf := flagVal ub (2 ^ flagCF) m
  let res := mode.sumVal ub i.bits1 aug add cf
  setFlag ub cozpsMask (mode.flagsVal ub i.bits1 res aug add cf) mode.cleanClobberFlags
    (mode.target argL argR m fun o m => o.write ub i.bits1 res m)

namespace Emit.Runs

variable {ub : Undef} {n : Nat} {st : CState} {i : Instruction}

theorem emitAddTarget {mode : AddMode} {left right : Operand} {v : Temp} {size : Size}
    {Q : Unit → Nat → CState → Prop}
    (post : Q () n (st.withMachine
      (mode.target left right st.machine fun o m => o.write ub size (st.vars v) m))) :
    Runs ub (Tase.emitAddTarget mode left right v size) n st Q := by
  unfold Tase.emitAddTarget
  unfold AddMode.target at post
  split
  · rename_i toLeft
    exact emitStoreVar (by simpa [toLeft] using post)
  · rename_i toRight
    exact emitStoreVar (by simpa [toRight] using post)
  · rename_i nowhere
    exact pure (by simpa [nowhere] using post)

theorem emitAddCarryIn {mode : AddMode} {Q : Option Temp → Nat → CState → Prop}
    (post : ∀ vCf n' st', vCf.isSome = mode.carry → n ≤ n' → st'.machine = st.machine →
      (∀ t : Temp, t.index < n → st'.vars t = st.vars t) →
      (∀ v, vCf = some v → v.index < n' ∧ st'.vars v = flagVal ub (2 ^ flagCF) st.machine) →
      Q vCf n' st') :
    Runs ub (Tase.emitAddCarryIn mode) n st Q := by
  -- With or without a carry in, the emitter goes on with `v_cf` bound to it.
  unfold Tase.emitAddCarryIn
  split
  · rename_i carry
    refine bind (makeVar ?_)
    refine bind (emitGetFlag (pure ?_))
    refine post _ _ _ (by simp [carry]) (by omega) rfl ?_ ?_
    · intro t earlier
      have fresh : t ≠ ⟨"cf", n⟩ := by rintro rfl; simp at earlier
      simp [fresh]
    · intro v same
      cases same
      simp
  · rename_i carry
    exact pure (post none n st (by simpa using carry) (Nat.le_refl _) rfl (fun _ _ => rfl) (by simp))

theorem emitAdd {left right : Option Operand} {mode : AddMode} :
    Runs ub (Tase.emitAdd i left right mode) n st fun _ _ st' =>
      st'.machine = denoteAdd ub i left right mode st.machine := by
  refine bind (operandOr ?_)
  refine bind (operandOr ?_)
  refine bind (needSize1 ?_)
  refine bind (emitFetch ?_)
  refine bind (emitFetch ?_)
  refine bind (emitAddCarryIn fun vCf k st₁ given later machine older carried => ?_)
  have aug := older ⟨"augend", n⟩ (by simp only; omega)
  have add := older ⟨"addend", n + 1⟩ (by simp)
  simp only [State.bind_machine] at machine carried
  simp only [State.bind_machine, State.bind_vars_self, ne_eq, Temp.mk.injEq, String.reduceEq,
    false_and, not_false_eq_true, State.bind_vars_ne] at aug add
  have sum := AddMode.eval_sumExp ub mode i.bits1 st₁ ⟨"augend", n⟩ ⟨"addend", n + 1⟩ vCf given
    _ fun v isCf => (carried v isCf).2
  rw [aug, add] at sum
  have carries : ∀ st₂ : CState, (∀ t : Temp, t.index < k → st₂.vars t = st₁.vars t) →
      eval ub st₂ (mode.carryExp vCf ⟨"sum", k⟩ ⟨"augend", n⟩) =
        mode.carryVal (st₂.vars ⟨"sum", k⟩) (st₂.vars ⟨"augend", n⟩)
          (flagVal ub (2 ^ flagCF) st.machine) := by
    intro st₂ same
    refine AddMode.eval_carryExp ub mode st₂ _ _ vCf given _ fun v isCf => ?_
    rw [same v (carried v isCf).1, (carried v isCf).2]
  refine bind (emitVarDecl ?_)
  refine bind (emitVarDecl ?_)
  refine bind (emitAddTarget ?_)
  refine bind (write rfl ?_)
  refine bind (when (fun setCarry => write rfl ?_) fun setCarry => ?_)
  · refine bind (emitZps (by simp) (emitSetFlag ?_))
    rw [carries]
    · simp [denoteAdd, setCarry, sum, AddMode.eval_overflowExp, AddMode.flagsVal, orInto, aug, add,
        machine, eval, flagZero, dec]
    · intro t earlier
      have notSum : t ≠ ⟨"sum", k⟩ := by rintro rfl; simp at earlier
      have notEfl : t ≠ ⟨"efl", k + 1⟩ := by rintro rfl; simp only at earlier; omega
      simp [notSum, notEfl]
  · refine bind (emitZps (by simp) (emitSetFlag ?_))
    simp [denoteAdd, setCarry, sum, AddMode.eval_overflowExp, AddMode.flagsVal, orInto, aug, add,
      machine, eval, flagZero, dec]

end Emit.Runs

def denoteXadd (ub : Undef) (i : Instruction) (m : Mach) : Mach :=
  denoteAdd ub i none none ⟨false, false, some true, true, false⟩ (denoteXchg ub i m)

def mulFlagVal (ub : Undef) (signed : Bool) (lo hi : Val) (size : Size) : Val :=
  if signed then
    Val.cond (Val.cmp .eq
        (Val.shift ub .right (lo.cast ⟨size.bits, true⟩) (.lit .dec (size.bits - 1)))
        (hi.cast ⟨size.bits, true⟩))
      (.lit .dec 0) (.lit .hex mulMask)
  else Val.cond (Val.cmp .eq hi (.lit .dec 0)) (.lit .dec 0) (.lit .hex mulMask)

def storeHi (ub : Undef) (destHi : Option Operand) (size : Size) (hi : Val) (m : Mach) : Mach :=
  match destHi with
  | some dest => dest.write ub size hi m
  | none => m

def denoteMul (ub : Undef) (i : Instruction) (m : Mach) : Mach :=
  match mulOperands i i.bits1 with
  | .error _ => m
  | .ok (multiplier, multiplicand, destLo, destHi) =>
      let wide : Ty := ⟨i.bits1.bits * 2, i.signExt⟩
      let product := (Val.arith ub .mul ((multiplicand.fetch ub i.bits1 false m).cast wide)
        ((multiplier.fetch ub i.bits1 false m).cast wide)).cast wide
      let lo := product.cast i.bits1.uint
      let hi := (Val.shift ub .right product (.lit .dec i.bits1.bits)).cast i.bits1.uint
      setFlag ub mulMask (mulFlagVal ub i.signExt lo hi i.bits1) false
        (storeHi ub destHi i.bits1 hi (destLo.write ub i.bits1 lo m))

def divDividend (ub : Undef) (size : Size) (signed : Bool) (m : Mach) : Val :=
  let wide : Ty := ⟨size.bits * 2, signed⟩
  (Val.arith ub .or ((regOperand .rax size).fetch ub size false m)
    (Val.shift ub .left (((divHigh size).fetch ub size false m).cast wide)
      (.lit .dec size.bits))).cast wide

def divPart (ub : Undef) (op : ArithOp) (i : Instruction) (m : Mach) : Val :=
  (Val.arith ub op (divDividend ub i.bits1 i.signExt m)
    ((i.arg 0).fetch ub i.bits1 i.signExt m)).cast ⟨i.bits1.bits, i.signExt⟩

def denoteDiv (ub : Undef) (i : Instruction) (m : Mach) : Mach :=
  (divHigh i.bits1).write ub i.bits1 (divPart ub .rem i m)
    ((regOperand .rax i.bits1).write ub i.bits1 (divPart ub .div i m) m)

def logicalVal (ub : Undef) (i : Instruction) (op : ArithOp) (m : Mach) : Val :=
  (Val.arith ub op ((i.arg 1).fetch ub i.bits1 false m)
    ((i.arg 0).fetch ub i.bits1 false m)).cast i.bits1.uint

def denoteLogical (ub : Undef) (i : Instruction) (op : ArithOp) (writeTarget : Bool) (m : Mach) :
    Mach :=
  setFlag ub cozpsMask (zpsVal ub i.bits1 flagZero (logicalVal ub i op m)) true
    (if writeTarget then (i.arg 1).write ub i.bits1 (logicalVal ub i op m) m else m)

def denoteNot (ub : Undef) (i : Instruction) (m : Mach) : Mach :=
  (i.arg 0).write ub i.bits1 (Val.un ub .not ((i.arg 0).fetch ub i.bits1 false m)) m

namespace Emit.Runs

variable {ub : Undef} {n : Nat} {st : CState} {i : Instruction}

theorem emitXadd :
    Runs ub (Tase.emitXadd i) n st fun _ _ st' => st'.machine = denoteXadd ub i st.machine := by
  refine bind (emitXchg.mono fun _ n' st' exchanged => ?_)
  refine emitAdd.mono fun _ _ st'' added => ?_
  rw [added, exchanged.machine]
  rfl

theorem emitStoreHi {destHi : Option Operand} {v : Temp} {size : Size}
    {Q : Unit → Nat → CState → Prop}
    (post : Q () n (st.withMachine (storeHi ub destHi size (st.vars v) st.machine))) :
    Runs ub (Tase.emitStoreHi destHi v size) n st Q := by
  cases destHi with
  | none => exact pure post
  | some dest => exact emitStoreVar post

theorem emitMul :
    Runs ub (Tase.emitMul i) n st fun _ _ st' => st'.machine = denoteMul ub i st.machine := by
  refine bind (needSize1 ?_)
  refine bind (lift fun operands found => ?_)
  obtain ⟨multiplier, multiplicand, destLo, destHi⟩ := operands
  refine bind (emitFetch ?_)
  refine bind (emitFetch ?_)
  refine bind (emitVarDecl ?_)
  refine bind (emitVarDecl ?_)
  refine bind (emitStoreVar ?_)
  refine bind (emitVarDecl ?_)
  refine bind (emitStoreHi (emitSetFlag ?_))
  have flags : ∀ (st : CState) (vLo vHi : Temp),
      eval ub st (mulFlagExp i.signExt vLo vHi i.bits1) =
        mulFlagVal ub i.signExt (st.vars vLo) (st.vars vHi) i.bits1 := by
    intro st vLo vHi
    unfold mulFlagExp mulFlagVal
    split <;> rfl
  simp [flags, denoteMul, found, eval, dec]

theorem emitDiv :
    Runs ub (Tase.emitDiv i) n st fun _ _ st' => st'.machine = denoteDiv ub i st.machine := by
  refine bind (lift fun _ _ => ?_)
  refine bind (needSize1 ?_)
  refine bind (operand ?_)
  refine bind (emitFetch ?_)
  refine bind (emitFetch ?_)
  refine bind (emitVarDecl ?_)
  refine bind (emitFetch ?_)
  refine bind (emitVarDecl ?_)
  refine bind (emitVarDecl ?_)
  refine bind (emitStoreVar (emitStoreVar ?_))
  simp [denoteDiv, divPart, divDividend, eval, dec]

theorem emitLogical {op : ArithOp} {writeTarget : Bool} :
    Runs ub (Tase.emitLogical i op writeTarget) n st fun _ _ st' =>
      st'.machine = denoteLogical ub i op writeTarget st.machine := by
  refine bind (operand ?_)
  refine bind (operand ?_)
  refine bind (needSize1 ?_)
  refine bind (emitFetch ?_)
  refine bind (emitFetch ?_)
  refine bind (emitVarDecl ?_)
  refine bind (when (fun written => emitStoreVar ?_) fun unwritten => ?_)
  · refine bind (emitVarDecl (bind (emitZps (by simp) (emitSetFlag ?_))))
    simp [denoteLogical, logicalVal, written, eval, dec, flagZero]
  · refine bind (emitVarDecl (bind (emitZps (by simp) (emitSetFlag ?_))))
    simp [denoteLogical, logicalVal, unwritten, eval, dec, flagZero]

theorem emitNot :
    Runs ub (Tase.emitNot i) n st fun _ _ st' => st'.machine = denoteNot ub i st.machine := by
  refine bind (operand ?_)
  refine bind (needSize1 ?_)
  refine bind (emitFetch (emitStore (fun _ => rfl) ?_))
  simp [denoteNot, Operand.write, eval]

end Emit.Runs


/-! Bits, shifts and the remaining conversions. -/

def TestBit.modifyVal (ub : Undef) (bit : TestBit) (orig offset : Val) : Val :=
  let mask := Val.shift ub .left (.lit .hexUll 1) offset
  match bit with
  | .c => Val.arith ub .xor orig mask
  | .r => Val.arith ub .and orig (Val.un ub .not mask)
  | .s => Val.arith ub .or orig mask

def denoteBittest (ub : Undef) (i : Instruction) (m : Mach) : Mach :=
  let offset := (Val.arith ub .and ((i.arg 0).fetch ub i.bits1 false m)
    (.lit .hex (i.bits1.bits - 1))).cast i.bits1.uint
  let orig := (i.arg 1).fetch ub i.bits1 false m
  let bit := (Val.arith ub .and orig (Val.shift ub .left (.lit .hexUll 1) offset)).cast i.bits1.uint
  let tested := setFlag ub (2 ^ flagCF)
    (Val.shift ub .left (Val.shift ub .right bit offset) (.lit .dec flagCF)) false m
  match i.testBit with
  | none => tested
  | some bit =>
      (i.arg 1).write ub i.bits1 ((bit.modifyVal ub orig offset).cast i.bits1.uint) tested

def denoteFlag (ub : Undef) (i : Instruction) (clear : Bool) (m : Mach) : Mach :=
  let assign (bit : Nat) : Mach :=
    setFlag ub (2 ^ bit) (if clear then .lit .dec 0 else .lit .hex (2 ^ bit)) false m
  match i.flagBit with
  | some .c => assign flagCF
  | some .d => assign flagDF
  | some .i | none => m

def denoteCmc (ub : Undef) (m : Mach) : Mach :=
  setFlag ub (2 ^ flagCF)
    (Val.arith ub .xor (flagVal ub (2 ^ flagCF) m) (.lit .hex (2 ^ flagCF))) false m

def shiftFillBits (ub : Undef) (i : Instruction) (size : Size) (bits cf : Val) : Val :=
  if i.op = .rc then
    (Val.arith ub .or (Val.shift ub (shiftOp (!i.cLeft)) bits (.lit .dec 1))
      (Val.shift ub .left (Val.shift ub .right cf (.lit .dec flagCF))
        (.lit .dec (if i.cLeft then size.bits - 1 else 0)))).cast bits.ty
  else bits

def shiftFilled (ub : Undef) (i : Instruction) (dest : Operand) (size : Size) (amt shift : Val)
    (m : Mach) : Val :=
  if i.op = .rc || i.op = .ro || i.op = .shd then
    let origin := if i.op = .shd then i.arg 1 else dest
    let bits := shiftFillBits ub i size (origin.fetch ub size false m) (flagVal ub (2 ^ flagCF) m)
    orInto ub shift (Val.shift ub (shiftOp (!i.cLeft)) bits
      (Val.arith ub .sub (.lit .dec size.bits) amt))
  else shift

def shiftOverflowVal (ub : Undef) (src shift : Val) (size : Size) : Val :=
  Val.shift ub .left
    (Val.arith ub .and
      (Val.shift ub .right (Val.arith ub .xor shift src) (.lit .dec (size.bits - 1)))
      (.lit .hex 1))
    (.lit .dec flagOF)

def shiftCarryVal (ub : Undef) (cLeft : Bool) (amt src : Val) (size : Size) : Val :=
  Val.shift ub .left
    (Val.arith ub .and
      (Val.shift ub .right src
        (if cLeft then Val.arith ub .sub (.lit .dec size.bits) amt
          else Val.arith ub .sub amt (.lit .dec 1)))
      (.lit .hex 1))
    (.lit .dec flagCF)

def shiftFlagsVal (ub : Undef) (i : Instruction) (amt src shift : Val) (size : Size) : Val :=
  orInto ub (orInto ub (zpsVal ub i.bits1 flagZero shift) (shiftOverflowVal ub src shift size))
    (shiftCarryVal ub i.cLeft amt src size)

theorem eval_shiftOverflowExp (ub : Undef) (st : CState) (vSrc vShift : Temp) (size : Size) :
    eval ub st (shiftOverflowExp vSrc vShift size) =
      shiftOverflowVal ub (st.vars vSrc) (st.vars vShift) size := rfl

theorem eval_shiftCarryExp (ub : Undef) (st : CState) (cLeft : Bool) (vAmt vSrc : Temp)
    (size : Size) :
    eval ub st (shiftCarryExp cLeft vAmt vSrc size) =
      shiftCarryVal ub cLeft (st.vars vAmt) (st.vars vSrc) size := by
  cases cLeft <;> rfl

def shiftAmount (ub : Undef) (i : Instruction) (size1 size2 : Size) (m : Mach) : Val :=
  (Val.arith ub .and ((i.arg 0).fetch ub size1 false m)
    (.lit .hex (if size2 = .q then 63 else 31))).cast size1.uint

def shiftVal (ub : Undef) (i : Instruction) (dest src : Operand) (size1 size2 : Size) (m : Mach) :
    Val :=
  shiftFilled ub i dest size2 (shiftAmount ub i size1 size2 m)
    ((Val.shift ub (shiftOp i.cLeft) (src.fetch ub size2 i.signExt m)
      (shiftAmount ub i size1 size2 m)).cast ⟨size2.bits, i.signExt⟩) m

def denoteShift (ub : Undef) (i : Instruction) (m : Mach) : Mach :=
  match shiftOperands i with
  | .error _ => m
  | .ok (dest, src) =>
      let size2 := i.size2.getD .q
      let amt := shiftAmount ub i i.bits1 size2 m
      let result := shiftVal ub i dest src i.bits1 size2 m
      let shifted := dest.write ub size2 result m
      if i.cNoflag || (Val.cmp .eq amt (.lit .dec 0)).truthy then shifted
      else setFlag ub cozpsMask
        (shiftFlagsVal ub i amt (src.fetch ub size2 i.signExt m) result size2) false shifted

def denoteCtd (ub : Undef) (i : Instruction) (m : Mach) : Mach :=
  let size2 := i.size2.getD .q
  (i.arg 1).write ub size2
    ((Val.shift ub .right ((i.arg 0).fetch ub i.bits1 true m) (.lit .dec (i.bits1.bits - 1))).cast
      ⟨size2.bits, true⟩) m

def bswapTermVals (ub : Undef) (x : Val) (bytes k : Nat) : List Val :=
  let amount := (bytes - 2 * k - 1) * 8
  [Val.arith ub .and (Val.shift ub .right x (.lit .dec amount)) (.lit .hex (byteMask k)),
    Val.shift ub .left (Val.arith ub .and x (.lit .hex (byteMask k))) (.lit .dec amount)]

def bswapVal (ub : Undef) (x : Val) (bytes : Nat) : Val :=
  match (List.range (bytes / 2)).flatMap (bswapTermVals ub x bytes) with
  | [] => .lit .dec 0
  | first :: rest => rest.foldl (Val.arith ub .or) first

def denoteBswap (ub : Undef) (i : Instruction) (m : Mach) : Mach :=
  let size := (i.arg 0).regSize
  (i.arg 0).write ub size
    ((bswapVal ub ((i.arg 0).fetch ub size false m) size.bytes).cast size.uint) m

namespace Emit.Runs

variable {ub : Undef} {n : Nat} {st : CState} {i : Instruction}

theorem emitBittest :
    Runs ub (Tase.emitBittest i) n st fun _ _ st' =>
      st'.machine = denoteBittest ub i st.machine := by
  refine bind (operand ?_)
  refine bind (operand ?_)
  refine bind (needSize1 ?_)
  refine bind (lift fun _ _ => ?_)
  refine bind (emitFetch ?_)
  refine bind (emitVarDecl ?_)
  refine bind (emitFetch ?_)
  refine bind (emitVarDecl ?_)
  refine bind (emitSetFlag ?_)
  have mask : ∀ st : CState, eval ub st (hex (i.bits1.bits - 1)) =
      .lit .hex (i.bits1.bits - 1) := by
    intro st
    cases i.bits1 <;> rfl
  unfold emitBittestModify
  cases found : i.testBit with
  | none =>
      refine pure ?_
      simp [denoteBittest, found, eval, mask, dec]
  | some bit =>
      refine bind (emitVarDecl (emitStoreVar ?_))
      cases bit <;>
        simp [denoteBittest, found, eval, mask, dec, TestBit.modify, TestBit.modifyVal]

theorem emitFlag {clear : Bool} :
    Runs ub (Tase.emitFlag i clear) n st fun _ _ st' =>
      st'.machine = denoteFlag ub i clear st.machine := by
  refine bind (lift fun bit found => emitSetFlag ?_)
  have value : ∀ bit : Nat, eval ub st (if clear then dec 0 else .lit .hex (2 ^ bit)) =
      if clear then .lit .dec 0 else .lit .hex (2 ^ bit) := by
    intro bit
    cases clear <;> rfl
  rw [value]
  split at found
  · rename_i isC
    cases found
    simp [denoteFlag, isC]
  · rename_i isD
    cases found
    simp [denoteFlag, isD]
  · simp at found
  · simp at found

theorem emitCmc :
    Runs ub Tase.emitCmc n st fun _ _ st' => st'.machine = denoteCmc ub st.machine := by
  refine bind (emitVarDecl ?_)
  refine bind (emitGetFlag (emitSetFlag ?_))
  simp [denoteCmc, eval]

theorem emitShiftCarryIn {v : Temp} {size : Size} {Q : Unit → Nat → CState → Prop}
    (earlier : v.index < n)
    (post : ∀ n' st', n ≤ n' → st'.machine = st.machine →
      st'.vars v = shiftFillBits ub i size (st.vars v) (flagVal ub (2 ^ flagCF) st.machine) →
      (∀ t : Temp, t.index < n → t ≠ v → st'.vars t = st.vars t) → Q () n' st') :
    Runs ub (Tase.emitShiftCarryIn i v size) n st Q := by
  have fresh : v ≠ ⟨"cf", n⟩ := by rintro rfl; simp at earlier
  refine when (fun isRc => ?_) fun notRc => ?_
  · simp only [decide_eq_true_eq] at isRc
    refine bind (makeVar (bind (emitGetFlag (write rfl ?_))))
    refine post _ _ (by omega) rfl ?_ fun t before different => ?_
    · simp [shiftFillBits, isRc, eval, dec, fresh]
    · have notCf : t ≠ ⟨"cf", n⟩ := by rintro rfl; simp at before
      simp [different, notCf]
  · simp only [decide_eq_false_iff_not] at notRc
    exact post n st (Nat.le_refl _) rfl (by simp [shiftFillBits, notRc]) fun _ _ _ => rfl

theorem emitShiftFill {dest : Operand} {vAmt vShift : Temp} {size : Size}
    {Q : Unit → Nat → CState → Prop}
    (amtEarlier : vAmt.index < n) (shiftEarlier : vShift.index < n)
    (post : ∀ n' st', n ≤ n' → st'.machine = st.machine →
      st'.vars vShift = shiftFilled ub i dest size (st.vars vAmt) (st.vars vShift) st.machine →
      (∀ t : Temp, t.index < n → t ≠ vShift → st'.vars t = st.vars t) → Q () n' st') :
    Runs ub (Tase.emitShiftFill i dest vAmt vShift size) n st Q := by
  refine when (fun fills => ?_) fun plain => ?_
  · refine bind (operandOr ?_)
    refine bind (emitFetch ?_)
    have amtFresh : vAmt ≠ ⟨"bit_exp", n⟩ := by rintro rfl; simp at amtEarlier
    have shiftFresh : vShift ≠ ⟨"bit_exp", n⟩ := by rintro rfl; simp at shiftEarlier
    refine bind (emitShiftCarryIn (by simp) fun k st₁ later machine bits older => ?_)
    refine write rfl (post _ _ (by omega) (by simpa using machine) ?_ ?_)
    · have amt := older vAmt (by omega) amtFresh
      have shift := older vShift (by omega) shiftFresh
      have origin : (if i.op = .shd then none else some dest).getD (i.arg 1) =
          if i.op = .shd then i.arg 1 else dest := by
        split <;> rfl
      simp only [State.bind_vars_self, State.bind_machine] at bits
      simp [shiftFilled, fills, orInto, eval, dec, bits, amt, shift, amtFresh, shiftFresh, origin]
    · intro t before different
      have notBits : t ≠ ⟨"bit_exp", n⟩ := by rintro rfl; simp at before
      simp [different, older t (by omega) notBits, notBits]
  · exact post n st (Nat.le_refl _) rfl (by simp [shiftFilled, plain]) fun _ _ _ => rfl

theorem emitShiftFlags {vAmt vSrc vShift : Temp} {size : Size} {Q : Unit → Nat → CState → Prop}
    (amtEarlier : vAmt.index < n) (srcEarlier : vSrc.index < n) (shiftEarlier : vShift.index < n)
    (post : ∀ n' st', st'.machine = setFlag ub cozpsMask
      (shiftFlagsVal ub i (st.vars vAmt) (st.vars vSrc) (st.vars vShift) size) false st.machine →
      Q () n' st') :
    Runs ub (Tase.emitShiftFlags i vAmt vSrc vShift size) n st Q := by
  have amtFresh : vAmt ≠ ⟨"efl", n⟩ := by rintro rfl; simp at amtEarlier
  have srcFresh : vSrc ≠ ⟨"efl", n⟩ := by rintro rfl; simp at srcEarlier
  have shiftFresh : vShift ≠ ⟨"efl", n⟩ := by rintro rfl; simp at shiftEarlier
  refine bind (emitVarDecl ?_)
  refine bind (emitZps shiftFresh ?_)
  refine bind (orSet ?_)
  refine bind (orSet (emitSetFlag (post _ _ ?_)))
  rw [eval_shiftOverflowExp, eval_shiftCarryExp]
  simp only [eval, dec, State.withMachine_machine,
    State.bind_machine, State.bind_vars_self, State.bind_vars_ne _ _ _ _ amtFresh,
    State.bind_vars_ne _ _ _ _ srcFresh, State.bind_vars_ne _ _ _ _ shiftFresh]
  simp only [shiftFlagsVal, flagZero]

theorem emitShift :
    Runs ub (Tase.emitShift i) n st fun _ _ st' =>
      st'.machine = denoteShift ub i st.machine := by
  refine bind (lift fun operands found => ?_)
  obtain ⟨dest, src⟩ := operands
  refine bind (operand ?_)
  refine bind (needSize1 ?_)
  refine bind (needSize ?_)
  refine bind (emitFetch ?_)
  refine bind (emitVarDecl ?_)
  refine bind (emitFetch ?_)
  refine bind (emitVarDecl ?_)
  refine bind (emitShiftFill (by simp) (by simp) fun k st₁ later machine filled older => ?_)
  have amt := older ⟨"amt", n + 1⟩ (by simp) (by simp)
  have source := older ⟨"src", n + 1 + 1⟩ (by simp) (by simp)
  simp only [eval, State.bind_vars_self, State.bind_machine, ne_eq, Temp.mk.injEq, String.reduceEq,
    false_and, not_false_eq_true, State.bind_vars_ne] at filled amt source machine
  refine bind (emitStoreVar ?_)
  have shifted : st₁.vars ⟨"shift", n + 1 + 1 + 1⟩ =
      shiftVal ub i dest src i.bits1 (i.size2.getD .q) st.machine := filled
  have amount : st₁.vars ⟨"amt", n + 1⟩ = shiftAmount ub i i.bits1 (i.size2.getD .q) st.machine := amt
  refine when (fun flags => elseBlock (fun zero _ => ?_) fun nonzero => ?_) fun noflag => ?_
  · simp only [eval, dec, State.withMachine_vars, amount] at zero
    simp [denoteShift, found, zero, shifted, machine]
  · simp only [eval, dec, State.withMachine_vars, amount] at nonzero
    refine emitShiftFlags (by simp only; omega) (by simp only; omega) (by simp only; omega) fun _ st' flagged => ?_
    simp only [Bool.not_eq_true'] at flags
    rw [flagged]
    simp [denoteShift, found, nonzero, flags, shifted, machine, amount, source]
  · simp only [Bool.not_eq_false'] at noflag
    simp [denoteShift, found, noflag, shifted, machine]

theorem emitCtd :
    Runs ub (Tase.emitCtd i) n st fun _ _ st' => st'.machine = denoteCtd ub i st.machine := by
  refine bind (operand ?_)
  refine bind (operand ?_)
  refine bind (needSize1 ?_)
  refine bind (needSize ?_)
  refine bind (emitFetch ?_)
  refine bind (emitVarDecl (emitStoreVar ?_))
  simp [denoteCtd, eval, dec]

theorem emitBswap :
    Runs ub (Tase.emitBswap i) n st fun _ _ st' => st'.machine = denoteBswap ub i st.machine := by
  refine bind (operand ?_)
  refine bind (lift fun _ wide => ?_)
  refine bind (emitFetch ?_)
  refine bind (emitVarDecl (emitStoreVar ?_))
  have swapped : ∀ (st : CState) (v : Temp),
      eval ub st (bswapExp v (i.arg 0).regSize.bytes) =
        bswapVal ub (st.vars v) (i.arg 0).regSize.bytes := by
    intro st v
    cases (i.arg 0).regSize <;> rfl
  simp [denoteBswap, swapped]

end Emit.Runs


/-- The dispatch of `emit_function`. `loop` may return early and has no meaning here. -/
def denoteOp (ub : Undef) (i : Instruction) (m : Mach) : Mach :=
  match i.op with
  | .nop | .loop | .other _ => m
  | .xchg => denoteXchg ub i m
  | .xadd => denoteXadd ub i m
  | .lea => denoteLea ub (i.arg 0) (i.arg 1) i.bits1 m
  | .mov => denoteMov ub i.signExt (i.arg 0) (i.arg 1) i.bits1 i.bits2 m
  | .cmov => denoteCmov ub i m
  | .ctd => denoteCtd ub i m
  | .push => denotePush ub i.signExt (i.arg 0) i.bits1 m
  | .pop => denotePop ub i.signExt (i.arg 0) i.bits1 m
  | .enter => denoteEnter ub i m
  | .leave => denoteLeave ub i m
  | .add => denoteAdd ub i none none ⟨false, false, some true, true, false⟩ m
  | .sub => denoteAdd ub i none none ⟨false, true, some true, true, false⟩ m
  | .adc => denoteAdd ub i none none ⟨true, false, some true, true, false⟩ m
  | .sbb => denoteAdd ub i none none ⟨true, true, some true, true, false⟩ m
  | .cmp => denoteAdd ub i none none ⟨false, true, none, true, true⟩ m
  | .neg => denoteAdd ub i (some (.imm 0)) none ⟨false, true, some false, true, false⟩ m
  | .inc => denoteAdd ub i (some (i.arg 0)) (some (.imm 1)) ⟨false, false, some true, false, false⟩ m
  | .dec => denoteAdd ub i (some (i.arg 0)) (some (.imm 1)) ⟨false, true, some true, false, false⟩ m
  | .mul => denoteMul ub i m
  | .div => denoteDiv ub i m
  | .and => denoteLogical ub i .and true m
  | .or => denoteLogical ub i .or true m
  | .xor => denoteLogical ub i .xor true m
  | .not => denoteNot ub i m
  | .rc | .ro | .sa | .sh | .shd => denoteShift ub i m
  | .call => denoteCall ub i m
  | .ret => denotePop ub i.signExt ripOperand .q m
  | .j => denoteJump ub i m
  | .set => denoteSet ub i m
  | .bt => denoteBittest ub i m
  | .test => denoteLogical ub i .and false m
  | .bswap => denoteBswap ub i m
  | .pushf => denotePush ub i.signExt eflTextOperand i.bits1 m
  | .popf => denotePop ub i.signExt eflTextOperand i.bits1 m
  | .cl => denoteFlag ub i true m
  | .st => denoteFlag ub i false m
  | .cmc => denoteCmc ub m

def stepRip (i : Instruction) (m : Mach) : Mach :=
  m.setReg .rip (m.regs .rip + BitVec.ofNat 64 i.length)

theorem stepRip_regs {i : Instruction} {m : Mach} {r : Reg} (other : r ≠ .rip) :
    (stepRip i m).regs r = m.regs r := by
  rw [stepRip, Machine.setReg_regs, if_neg other]

def denote (ub : Undef) (i : Instruction) (m : Mach) : Mach :=
  if i.nothingToDo then stepRip i m else denoteOp ub i (stepRip i m)

namespace Emit.Runs

variable {ub : Undef} {n : Nat} {st : CState} {i : Instruction}

theorem emitOp (notLoop : i.op ≠ .loop) :
    Runs ub (Tase.emitOp i) n st fun _ _ st' => st'.machine = denoteOp ub i st.machine := by
  unfold Tase.emitOp denoteOp
  cases found : i.op with
  | loop => exact absurd found notLoop
  | nop => exact pure rfl
  | other name => exact raise
  | xchg => exact emitXchg.mono fun _ _ _ done => done.machine
  | lea => exact emitLea.mono fun _ _ _ done => done.machine
  | mov => exact emitMov.mono fun _ _ _ done => done.machine
  | push | pushf => exact emitPush.mono fun _ _ _ done => done.machine
  | pop | popf => exact emitPop.mono fun _ _ _ done => done.machine
  | enter => exact emitEnter.mono fun _ _ _ done => done.machine
  | leave => exact emitLeave.mono fun _ _ _ done => done.machine
  | add | sub | adc | sbb | cmp | neg => exact emitAdd
  | inc | dec => exact bind (operand emitAdd)
  | and | or | xor | test => exact emitLogical
  | rc | ro | sa | sh | shd => exact emitShift
  | cl | st => exact emitFlag
  | xadd => exact emitXadd
  | cmov => exact emitCmov
  | ctd => exact emitCtd
  | mul => exact emitMul
  | div => exact emitDiv
  | not => exact emitNot
  | call => exact emitCall
  | ret => exact emitRet
  | j => exact emitJump
  | set => exact emitSet
  | bt => exact emitBittest
  | bswap => exact emitBswap
  | cmc => exact emitCmc

theorem stepRip {Q : Unit → Nat → CState → Prop}
    (post : Q () n (st.withMachine (Tase.stepRip i st.machine))) :
    Runs ub (Emit.write (.setReg .rip (.arith .add (.reg .rip) (dec i.length)))) n st Q := by
  refine write rfl ?_
  have sum := Val.arith_unsigned ub .add
    (Ty.common_uint64_left (Radix.dec.ty i.length) (Radix.ty_width .dec i.length)) rfl
    (l := ⟨.uint 64, st.machine.regs .rip⟩) (r := .lit .dec i.length)
  simp only [eval, dec]
  rw [sum, Val.lit_conv _ _ _ (Nat.le_refl 64)]
  simpa [ArithOp.compute, Tase.stepRip] using post

theorem emitBody (notLoop : i.op ≠ .loop) :
    Runs ub (Tase.emitBody i) n st fun _ _ st' => st'.machine = denote ub i st.machine := by
  refine bind (stepRip ?_)
  unfold denote
  refine when (fun handled => ?_) fun skipped => ?_
  · simp only [Bool.not_eq_true'] at handled
    refine (emitOp notLoop).mono fun _ _ st' done => ?_
    simpa [handled] using done
  · simp only [Bool.not_eq_false'] at skipped
    simp [skipped]

end Emit.Runs


end Tase
