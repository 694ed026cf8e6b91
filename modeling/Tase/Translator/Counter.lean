import Tase.Cpp.Trace
import Tase.Translator.Moves
import Tase.Translator.Terminators

/-! The program counter inside a cartridge. `rip_tmp` is a running sum of lengths, and while the
code of an instruction reads it, it is the address of the next instruction. -/

namespace Tase

open Cpp

def MemRef.RipRelative (t : MemRef) : Prop :=
  t.base = some (.q .rip) ∧ t.index = none ∧ -2 ^ 31 < t.offset

def Instruction.next (i : Instruction) : BitVec 64 :=
  BitVec.ofNat 64 i.vaddr + BitVec.ofNat 64 i.length

def CountsOperands (ub : Undef) (i : Instruction) (code : List Code) (st : CState) : Prop :=
  ∀ p ∈ evaluated ub (block code) st, ∀ (t : MemRef) (addr : Exp), t.RipRelative →
    t.addr = .ok addr → addr ∈ p.2.parts →
      (eval ub p.1 addr).conv (.uint 64) = i.next + BitVec.ofInt 64 t.offset

section

variable {ub : Undef} {t : MemRef} {addr : Exp}

theorem ripRelative_addr (relative : t.RipRelative) (found : t.addr = .ok addr) :
    addr = .cast (.uint 64) (.reg .rip) ∨
      ∃ e, addr = .arith .add e (.cast (.uint 64) (.reg .rip)) := by
  obtain ⟨seg, offset, base, index, scale⟩ := t
  obtain ⟨rfl, rfl, _⟩ := relative
  have shape : addr = MemRef.sum (MemRef.offsetTerm ⟨seg, offset, some (.q .rip), none, scale⟩ .q ++
      [.cast (.uint 64) (.reg .rip)] ++ []) := by
    cases found
    rfl
  rw [shape, MemRef.offsetTerm]
  split
  · exact .inl rfl
  · exact .inr ⟨_, rfl⟩

theorem ripRelative_regs (relative : t.RipRelative) (found : t.addr = .ok addr) :
    .rip ∈ addr.regs := by
  rcases ripRelative_addr relative found with rfl | ⟨e, rfl⟩ <;> simp [Expr.regs]

theorem ripRelative_eval (relative : t.RipRelative) (found : t.addr = .ok addr) (st : CState) :
    (eval ub st addr).conv (.uint 64) = st.machine.regs .rip + BitVec.ofInt 64 t.offset := by
  have value : (eval ub st addr).conv (.uint 64) = t.address ub st.machine := by
    rw [MemRef.address, found, eval_eq_evalOn (MemRef.addr_over found).vars]
  rw [value]
  obtain ⟨seg, offset, base, index, scale⟩ := t
  obtain ⟨rfl, rfl, reach⟩ := relative
  exact MemRef.address_based seg .rip scale reach

end

namespace Emit

def Late {α : Type} (m : Emit α) : Prop :=
  ∀ s a out s', m s = .ok (a, out, s') → (block out).Late .rip

def Quiet {α : Type} (m : Emit α) : Prop :=
  ∀ s a out s', m s = .ok (a, out, s') → .rip ∉ assigned out

def Unread {α : Type} (m : Emit α) : Prop :=
  ∀ s a out s', m s = .ok (a, out, s') → .rip ∉ out.flatMap Stmt.mentions

section

variable {α β : Type} {i : Instruction}

theorem Records.quiet {Q : α → Prop} {m : Emit α} (records : Records (fun r => r ≠ .rip) m Q) :
    Quiet m := by
  intro s a out s' emitted here
  exact ((records s a out s' emitted).2.1 .rip here).2 rfl

theorem Quiet.late {m : Emit α} (quiet : Quiet m) : Late m := by
  intro s a out s' emitted
  exact Stmt.late_of_unassigned _ (by rw [block_assigned]; exact quiet s a out s' emitted)

theorem Quiet.lift {x : Except Error α} : Quiet (Emit.lift x) := by
  intro s a out s' emitted
  obtain ⟨_, rfl, _⟩ := lift_ok emitted
  simp [assigned]

theorem Quiet.thenWith {Q : α → Prop} {m : Emit α} {f : α → Emit β} (first : Quiet m)
    (returns : Ensures m Q) (rest : ∀ a, Q a → Late (f a)) : Late (m >>= f) := by
  intro s b out s' emitted
  obtain ⟨a, code, middle, code', found, found', rfl⟩ := bind_ok emitted
  have quiet := first s a code middle found
  exact late_append (first.late s a code middle found)
    (rest a (returns s a code middle found) middle b code' s' found') fun here => absurd here quiet

theorem Quiet.bind {Q : α → Prop} {m : Emit α} {f : α → Emit β} (first : Quiet m)
    (returns : Ensures m Q) (rest : ∀ a, Q a → Quiet (f a)) : Quiet (m >>= f) := by
  intro s b out s' emitted
  obtain ⟨a, code, middle, code', found, found', rfl⟩ := bind_ok emitted
  rw [assigned, List.flatMap_append, List.mem_append, not_or]
  exact ⟨first s a code middle found, rest a (returns s a code middle found) middle b code' s' found'⟩

theorem Quiet.then {m : Emit α} {f : α → Emit β} (first : Quiet m) (rest : ∀ a, Late (f a)) :
    Late (m >>= f) :=
  first.thenWith Ensures.any fun a _ => rest a

theorem Late.then {m : Emit α} {f : α → Emit β} (first : Late m)
    (rest : ∀ a, Late (f a) ∧ Unread (f a)) : Late (m >>= f) := by
  intro s b out s' emitted
  obtain ⟨a, code, middle, code', found, found', rfl⟩ := bind_ok emitted
  exact late_append (first s a code middle found) ((rest a).1 middle b code' s' found')
    fun _ => (rest a).2 middle b code' s' found'

theorem Late.elseBlock {c : Exp} {body : Emit Unit} (late : Late body) :
    Late (Emit.elseBlock c body) := by
  intro s a out s' emitted
  unfold Emit.elseBlock at emitted
  split at emitted
  · cases emitted
  · rename_i inner code last found
    simp only [Except.ok.injEq, Prod.mk.injEq] at emitted
    obtain ⟨_, rfl, _⟩ := emitted
    exact ⟨⟨trivial, late s inner code last found⟩, trivial, fun _ => List.not_mem_nil⟩

theorem Late.write {stmt : Code} (late : stmt.Late .rip) : Late (Emit.write stmt) := by
  intro s a out s' emitted
  simp only [Emit.write, Except.ok.injEq, Prod.mk.injEq] at emitted
  obtain ⟨_, rfl, _⟩ := emitted
  exact ⟨late, trivial, fun _ => List.not_mem_nil⟩

theorem Quiet.regExpL {reg : RegName} : Quiet (Tase.regExpL reg) := by
  intro s a out s' emitted
  obtain ⟨_, rfl, _⟩ := Records.regExpL_ok emitted
  simp [assigned]

theorem Late.emitStore_rip {e : Exp} {size : Size} : Late (ripOperand.emitStore e size) := by
  cases size with
  | q => exact Quiet.lift.then fun _ => Quiet.regExpL.then fun _ => Late.write trivial
  | b | w | l =>
      intro s a out s' emitted
      cases emitted

theorem Quiet.operandOr {o : Option Operand} {k : Nat} : Quiet (i.operandOr o k) := by
  cases o with
  | none => exact Quiet.lift
  | some o => exact (Records.pure (Q := fun _ => True) trivial).quiet

theorem Quiet.emitConverted {v : Temp} {size1 size2 : Size} {signed : Bool} :
    Quiet (Tase.emitConverted v size1 size2 signed) := by
  unfold Tase.emitConverted
  split
  · exact (Records.pure (Q := fun _ => True) trivial).quiet
  · exact Records.emitVarDecl.quiet

theorem Late.emitMov_rip {src : Option Operand} {size : Option Size} :
    Late (Tase.emitMov i src (some ripOperand) size) := by
  refine Quiet.operandOr.then fun src => ?_
  refine Quiet.operandOr.thenWith Ensures.operandOr fun dest same => ?_
  obtain rfl : dest = ripOperand := same
  refine Quiet.lift.then fun size2 => ?_
  refine Quiet.lift.then fun size1 => ?_
  refine Records.emitFetch.quiet.then fun vIn => ?_
  exact Quiet.emitConverted.then fun _ => Late.emitStore_rip

theorem Late.emitJump : Late (Tase.emitJump i) := by
  refine Records.emitReturnForCond.quiet.then fun failure => ?_
  unfold emitElse
  split
  · exact Late.emitMov_rip
  · exact Late.emitMov_rip.elseBlock

theorem Quiet.emitMov {src : Option Operand} {dest : Operand} {size : Option Size}
    (other : dest.target ≠ some .rip) : Quiet (Tase.emitMov i src (some dest) size) := by
  refine Quiet.operandOr.bind Ensures.any fun src _ => ?_
  refine Quiet.operandOr.bind Ensures.operandOr fun dest' same => ?_
  obtain rfl : dest' = dest := same
  refine Quiet.lift.bind Ensures.any fun size2 _ => ?_
  refine Quiet.lift.bind Ensures.any fun size1 _ => ?_
  refine Records.emitFetch.quiet.bind Ensures.any fun vIn _ => ?_
  refine Quiet.emitConverted.bind Ensures.any fun _ _ => Records.quiet (Records.emitStore ?_)
  intro r named same
  exact other (by rw [named, same])

theorem Quiet.emitLea_rsp {n : Int} :
    Quiet (Tase.emitLea i (some (rspMem n)) (some rspOperand) (some .q)) := by
  refine Quiet.operandOr.bind Ensures.any fun src _ => ?_
  refine Quiet.operandOr.bind Ensures.operandOr fun dest same => ?_
  obtain rfl : dest = rspOperand := same
  refine Quiet.lift.bind Ensures.any fun size _ => ?_
  refine Quiet.lift.bind Ensures.any fun target _ => ?_
  refine Quiet.lift.bind Ensures.any fun addr _ => Records.quiet (Records.emitStore ?_)
  rintro r named rfl
  cases named

theorem Late.emitCall : Late (Tase.emitCall i) := by
  refine Quiet.lift.then fun _ => ?_
  refine Quiet.lift.then fun target => ?_
  refine Records.emitFetch.quiet.then fun vTarget => ?_
  refine Quiet.then ?_ fun _ => Late.emitStore_rip
  refine Quiet.operandOr.bind Ensures.any fun src _ => ?_
  refine Quiet.lift.bind Ensures.any fun size _ => ?_
  exact Quiet.emitLea_rsp.bind Ensures.any fun _ _ => Quiet.emitMov (by simp [rspMem, Operand.target])

theorem Unread.emitLea_rsp {n : Int} :
    Unread (Tase.emitLea i (some (rspMem n)) (some rspOperand) (some .q)) := by
  -- The step of `rsp_tmp` reads nothing else.
  intro s a out s' emitted
  have shape : ∃ addr, MemRef.addr ⟨none, n, some (.q (.gpr .rsp)), none, .one⟩ = .ok addr ∧
      out = [.setReg (.gpr .rsp) (.cast (.uint 64) addr)] := by
    cases emitted
    exact ⟨_, rfl, rfl⟩
  obtain ⟨addr, found, rfl⟩ := shape
  intro named
  have member : Reg.rip ∈ addr.regs := by simpa [Stmt.mentions, Expr.regs] using named
  have inside := (MemRef.addr_over found).regs_subset member
  simp [MemRef.registers, baseReg] at inside

theorem Late.emitRet : Late (Tase.emitRet i) := by
  refine Quiet.lift.then fun _ => ?_
  refine Quiet.operandOr.thenWith Ensures.operandOr fun dest same => ?_
  obtain rfl : dest = ripOperand := same
  refine Quiet.lift.then fun size => ?_
  exact Late.emitMov_rip.then fun _ => ⟨Quiet.emitLea_rsp.late, Unread.emitLea_rsp⟩

theorem Late.emitOp (notLoop : i.op ≠ .loop) (plain : ∀ o ∈ i.operands, o.target ≠ some .rip) :
    Late (Tase.emitOp i) := by
  by_cases transfer : i.op = .call ∨ i.op = .ret ∨ i.op = .j
  · unfold Tase.emitOp
    rcases transfer with op | op | op <;> simp only [op]
    · exact Late.emitCall
    · exact Late.emitRet
    · exact Late.emitJump
  · simp only [not_or] at transfer
    refine (Records.emitOp (fun r different => different) ?_ ?_).quiet.late
    · intro o member r named same
      exact plain o member (by rw [named, same])
    · rintro (op | op | op | op)
      · exact absurd op transfer.1
      · exact absurd op transfer.2.1
      · exact absurd op notLoop
      · exact absurd op transfer.2.2

end

end Emit

section

variable {ub : Undef} {i : Instruction}

theorem countsOperands_of_emitBody (notLoop : i.op ≠ .loop)
    (plain : ∀ o ∈ i.operands, o.target ≠ some .rip) {s s' : EmitState} {code : List Code}
    (found : emitBody i s = .ok ((), code, s')) {st : CState}
    (here : st.machine.regs .rip = BitVec.ofNat 64 i.vaddr) : CountsOperands ub i code st := by
  obtain ⟨_, step, middle, rest, stepped, emitted, rfl⟩ := Emit.bind_ok found
  simp only [Emit.write, Except.ok.injEq, Prod.mk.injEq] at stepped
  obtain ⟨_, rfl, _⟩ := stepped
  have late : (block rest).Late .rip := by
    cases handled : i.nothingToDo with
    | true =>
        rw [handled] at emitted
        cases emitted
        trivial
    | false =>
        rw [handled] at emitted
        exact Emit.Late.emitOp notLoop plain middle () rest s' emitted
  intro p member t addr relative address part
  rw [ripRelative_eval relative address]
  rcases List.mem_append.mp member with inStep | inRest
  · -- The step itself adds the length to the bare register, which is no address.
    simp only [evaluated, List.mem_singleton] at inStep
    subst inStep
    rcases ripRelative_addr relative address with rfl | ⟨e, rfl⟩ <;>
      simp [Expr.parts, dec] at part
  · have named := Expr.regs_of_mem_parts part (ripRelative_regs relative address)
    have kept := evaluated_late ub (block rest) _ late inRest named
    rw [kept, State.withMachine_machine, Machine.setReg_regs_self]
    change (Val.arith ub .add ⟨.uint 64, st.machine.regs .rip⟩ (.lit .dec i.length)).conv (.uint 64) +
      BitVec.ofInt 64 t.offset = _
    rw [Val.arith_add_u64 _ _ _ (Radix.ty_width _ _), Val.conv_unsigned, BitVec.setWidth_eq,
      Val.lit_conv _ _ _ (by decide), here]
    rfl

def Translates (i : Instruction) (code : List Code) : Prop :=
  ∃ s s', emitBody i s = .ok ((), code, s')

theorem emitBodies_parts {instrs : List Instruction} {s s' : EmitState} {out : List Code}
    (found : emitBodies instrs s = .ok ((), out, s')) :
    ∃ parts : List (Instruction × List Code), parts.map (·.1) = instrs ∧
      out = parts.flatMap (·.2) ∧ ∀ p ∈ parts, Translates p.1 p.2 := by
  induction instrs generalizing s out with
  | nil =>
      cases found
      exact ⟨[], rfl, rfl, by simp⟩
  | cons first rest ih =>
      obtain ⟨_, code, middle, code', head, tail, rfl⟩ := Emit.bind_ok found
      obtain ⟨parts, rfl, rfl, translated⟩ := ih tail
      refine ⟨(first, code) :: parts, rfl, rfl, ?_⟩
      exact List.forall_mem_cons.mpr ⟨⟨s, middle, head⟩, translated⟩

theorem parts_run {parts : List (Instruction × List Code)}
    (translated : ∀ p ∈ parts, Translates p.1 p.2) (noLoop : ∀ p ∈ parts, p.1.op ≠ .loop)
    (st : CState) :
    ∃ st', run ub (parts.flatMap (·.2)) st = .ok st' ∧
      st'.machine = stepAll ub (parts.map (·.1)) st.machine := by
  induction parts generalizing st with
  | nil => exact ⟨st, rfl, rfl⟩
  | cons p rest ih =>
      obtain ⟨⟨s, s', found⟩, later⟩ := List.forall_mem_cons.mp translated
      obtain ⟨notLoop, noLoopLater⟩ := List.forall_mem_cons.mp noLoop
      obtain ⟨middle, ran, done⟩ := emitBody_run ub notLoop found st
      obtain ⟨last, ran', done'⟩ := ih later noLoopLater middle
      refine ⟨last, ?_, ?_⟩
      · rw [List.flatMap_cons, run_append, ran]
        exact ran'
      · rw [done', done, List.map_cons, stepAll_cons]

end

/-- The program counter throughout a call of the function of a cartridge. -/
structure KeepsCounter (ub : Undef) (instrs : List Instruction) (f : Function) (m : Mach) :
    Prop where
  operands : ∃ parts : List (Instruction × List Code), parts.map (·.1) = instrs ∧
    f.body = parts.flatMap (·.2) ∧ (∀ p ∈ parts, Translates p.1 p.2) ∧
    ∀ done i code later, parts = done ++ (i, code) :: later →
      ∃ st, run ub (done.flatMap (·.2)) ⟨m, fun _ => default⟩ = .ok st ∧ CountsOperands ub i code st
  pushed : ∀ before i, instrs = before ++ [i] → i.op = .call → i.ignored = false →
    (∀ o ∈ i.operands, o.isInstrumentation = false) →
      (f.call ub m).regs (.gpr .rsp) = (stepAll ub before m).regs (.gpr .rsp) - 8 ∧
        (f.call ub m).mem.load ((f.call ub m).regs (.gpr .rsp)) 64 = i.next
  untaken : ∀ before i, instrs = before ++ [i] → i.op = .j →
    taken ub i (stepAll ub before m) = false → (f.call ub m).regs .rip = i.next
  straight : ∀ before i, instrs = before ++ [i] → i.transfersControl = false →
    (f.call ub m).regs .rip = i.next

section

variable {ub : Undef} {i : Instruction}

theorem denote_call (call : i.op = .call) (handled : i.nothingToDo = false) (m : Mach) :
    (denote ub i m).regs (.gpr .rsp) = m.regs (.gpr .rsp) - 8 ∧
      (denote ub i m).mem.load (m.regs (.gpr .rsp) - 8) 64 =
        m.regs .rip + BitVec.ofNat 64 i.length := by
  have read : ripOperand.value ub .q ((stepRip i m).setReg (.gpr .rsp) (m.regs (.gpr .rsp) - 8)) =
      m.regs .rip + BitVec.ofNat 64 i.length := by
    have base : baseReg (.q .rip) = some .rip := rfl
    have width : Size.q = regSize (.q .rip) := rfl
    rw [ripOperand, Operand.value_reg base width]
    simp [RegName.field, Machine.setReg_regs, stepRip]
  have top : (stepRip i m).regs (.gpr .rsp) = m.regs (.gpr .rsp) := by
    simp [stepRip, Machine.setReg_regs]
  have ran : denote ub i m = (denotePush ub i.signExt ripOperand .q (stepRip i m)).setReg .rip
      (((i.arg 0).fetch ub .q false (stepRip i m)).conv (.uint 64)) := by
    simp only [denote, handled, denoteOp, call, denoteCall]
    rfl
  rw [ran, denotePush_eq]
  simp only [top, Size.bytes, Machine.setReg_mem, Machine.store_mem, Machine.setReg_regs_self]
  refine ⟨by simp [Machine.setReg_regs], ?_⟩
  exact (Mem.load_store_same _ _ _ (by decide) (by decide)).trans read

end

theorem cartridge_keepsCounter {ub : Undef} {instrs : List Instruction} {f : Function}
    (emitted : EmittedCartridge instrs f) (contiguous : Contiguous instrs)
    (noLoop : ∀ i ∈ instrs, i.op ≠ .loop)
    (straight : ∀ i ∈ instrs.dropLast, i.transfersControl = false)
    (plain : ∀ i ∈ instrs, ∀ o ∈ i.operands, o.target ≠ some .rip)
    (guardless : ∀ i ∈ instrs, i.op = .call → i.stackguard = false) {m : Mach}
    (atHead : ∀ i ∈ instrs.head?, m.regs .rip = BitVec.ofNat 64 i.vaddr) :
    KeepsCounter ub instrs f m := by
  have called : f.call ub m = stepAll ub instrs m := emitted.call noLoop ub m
  have arrives (before : List Instruction) (i : Instruction) (after : List Instruction)
      (split : instrs = before ++ i :: after) :
      (stepAll ub before m).regs .rip = BitVec.ofNat 64 i.vaddr := by
    subst split
    refine stepAll_rip ub before (i :: after) (fun j member => emitted.emitted j (by simp [member]))
      (fun j member => noLoop j (by simp [member])) (fun j member => straight j ?_) contiguous m
      atHead i (by simp)
    rw [List.dropLast_append_cons]
    exact List.mem_append_left _ member
  refine ⟨?_, ?_, ?_, ?_⟩
  · obtain ⟨s, s₁, found, _⟩ := emitted.bodies
    obtain ⟨parts, rfl, body, translated⟩ := emitBodies_parts found
    refine ⟨parts, rfl, body, translated, ?_⟩
    rintro done i code later rfl
    obtain ⟨st, ran, machine⟩ := @parts_run ub _
      (fun p member => translated p (List.mem_append_left _ member))
      (fun p member => noLoop p.1 (List.mem_map_of_mem (List.mem_append_left _ member)))
      ⟨m, fun _ => default⟩
    refine ⟨st, ran, ?_⟩
    obtain ⟨s, s', code'⟩ := translated (i, code) (by simp)
    refine countsOperands_of_emitBody (noLoop i (by simp)) (plain i (by simp)) code' ?_
    rw [machine]
    exact arrives (done.map (·.1)) i (later.map (·.1)) (by simp)
  · intro before i split call active free
    have handled : i.nothingToDo = false := by
      have guard := guardless i (by simp [split]) call
      have unreserved : i.operands.any Operand.isInstrumentation = false := by simpa using free
      simp [Instruction.nothingToDo, Instruction.isInstrumentation, active, call, unreserved, guard]
    obtain ⟨lowered, saved⟩ := @denote_call ub i call handled (stepAll ub before m)
    rw [arrives before i [] split] at saved
    rw [called, split, stepAll_append, stepAll_cons]
    refine ⟨lowered, ?_⟩
    change (denote ub i (stepAll ub before m)).mem.load
      ((denote ub i (stepAll ub before m)).regs (.gpr .rsp)) 64 = i.next
    rw [lowered]
    exact saved
  · intro before i split jump no
    have leads := IsJump.denote ⟨jump, emitted.emitted i (by simp [split])⟩ ub (stepAll ub before m)
    rw [called, split, stepAll_append, stepAll_cons]
    change (denote ub i (stepAll ub before m)).regs .rip = i.next
    rw [leads, Machine.setReg_regs_self, untaken_leadsTo no, arrives before i [] split]
    rfl
  · intro before i split quiet
    rw [called, split, stepAll_append, stepAll_cons]
    change (denote ub i (stepAll ub before m)).regs .rip = i.next
    rw [denote_rip ub (emitted.emitted i (by simp [split])) (noLoop i (by simp [split])) quiet,
      arrives before i [] split]
    rfl

def loadGlobal : Instruction :=
  { original := "mov    0x10(%rip),%rax", vaddr := 0x1000, length := 7, op := .mov, size1 := some .q,
    operands := [.mem ⟨none, 0x10, some (.q .rip), none, .one⟩, .reg (.q (.gpr .rax))] }

def callNear : Instruction :=
  { original := "callq  2000 <f>", vaddr := 0x1007, length := 5, op := .call, size1 := some .q,
    operands := [.addr 0x2000 "f"] }

theorem cartridge_keepsCounter_loadThenCall :
    ∃ f, EmittedCartridge [loadGlobal, callNear] f ∧
      KeepsCounter default [loadGlobal, callNear] f (atJumps 0) := by
  have emitted : EmittedCartridge [loadGlobal, callNear]
      ((printed (emitCartridge [loadGlobal, callNear])).get rfl) := ⟨.initial, _, rfl⟩
  refine ⟨_, emitted, cartridge_keepsCounter emitted ?_ ?_ ?_ ?_ ?_ ?_⟩
  · simp [Contiguous, loadGlobal, callNear]
  · decide
  · decide
  · decide
  · decide
  · simp [atJumps, loadGlobal]

def callGuard : Instruction :=
  { original := "callq  *%fs:0x28", vaddr := 0x1000, length := 8, op := .call, size1 := some .q,
    operands := [.mem ⟨some "fs", 0x28, none, none, .one⟩] }

theorem guard_call_pushes_nothing :
    ∃ f, EmittedCartridge [callGuard] f ∧ Contiguous [callGuard] ∧
      (∀ i ∈ [callGuard], i.op ≠ .loop) ∧ (atJumps 0).regs .rip = BitVec.ofNat 64 callGuard.vaddr ∧
      ¬ KeepsCounter default [callGuard] f (atJumps 0) := by
  refine ⟨(printed (emitCartridge [callGuard])).get rfl, ⟨.initial, _, rfl⟩, ?_, ?_, rfl, ?_⟩
  · simp [Contiguous]
  · decide
  · intro keeps
    have lowered := (keeps.pushed [] callGuard rfl rfl rfl (by decide)).1
    revert lowered
    decide

end Tase
