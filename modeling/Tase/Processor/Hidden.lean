import Tase.Processor.Products
import Tase.Processor.Shifts

/-! What the program does not see makes no difference to what the processor does. -/

namespace Tase

open Cpp

def Action.withReg (a : Action) (r : Reg) (x : BitVec 64) : Action := { a with after := a.after.setReg r x }

theorem Reg.hidden_ne {r s : Reg} (hidden : r.hidden = true) (visible : s.hidden = false) : s ≠ r := by
  rintro rfl
  rw [hidden] at visible
  cases visible

theorem Operand.Own.apart {o : Operand} {r : Reg} (own : o.Own) (hidden : r.hidden = true) : r ∉ o.reads :=
  fun member => Reg.hidden_ne hidden (own.visible r member) rfl

section

variable {size : Size} {o o' : Operand} {m : Mach} {r : Reg} {x : BitVec 64}

theorem afterPush_setReg (apart : r ∉ o.reads) (other : .gpr .rsp ≠ r) :
    afterPush size o (m.setReg r x) = (afterPush size o m).setReg r x := by
  unfold afterPush stackDown
  rw [Operand.read_setReg apart, Machine.setReg_regs, if_neg other, Machine.setReg_comm _ _ _ _ _ other.symm]
  rfl

theorem afterPop_setReg (apart : r ∉ o.reads) (other : .gpr .rsp ≠ r) :
    afterPop size o (m.setReg r x) = (afterPop size o m).setReg r x := by
  have up : stackUp size (m.setReg r x) = (stackUp size m).setReg r x := by
    rw [stackUp, Machine.setReg_regs, if_neg other, Machine.setReg_comm _ _ _ _ _ other.symm]
    rfl
  have top : stackTop size (m.setReg r x) = stackTop size m := by
    rw [stackTop, Machine.setReg_regs, if_neg other]
    rfl
  rw [afterPop, up, top, Operand.writeAt_setReg apart]
  rfl

theorem exchange_setReg {op : Op} (apart : r ∉ o.reads) (apart' : r ∉ o'.reads) :
    exchange op size o o' (m.setReg r x) = (exchange op size o o' m).setReg r x := by
  unfold exchange
  rw [Operand.read_setReg apart, Operand.read_setReg apart', Operand.writeAt_setReg apart,
    Operand.writeAt_setReg apart']

theorem deliver_setReg {dest : Option Operand} {v : BitVec size.bits} (apart : ∀ o, dest = some o → r ∉ o.reads) :
    deliver dest size v (m.setReg r x) = (deliver dest size v m).setReg r x := by
  cases dest with
  | none => rfl
  | some o => exact Operand.writeAt_setReg (apart o rfl)

end

section

variable {size : Size} {r : Reg} (hidden : r.hidden = true)

include hidden

theorem accumulator_hidden : r ∉ (regOperand .rax size).reads := by
  have other : Reg.gpr .rax ≠ r := Reg.hidden_ne hidden rfl
  cases size <;> simpa [regOperand, sizedName, Operand.reads, baseReg] using other.symm

theorem divHigh_hidden : r ∉ (divHigh size).reads := by
  have other : Reg.gpr .rax ≠ r ∧ Reg.gpr .rdx ≠ r := ⟨Reg.hidden_ne hidden rfl, Reg.hidden_ne hidden rfl⟩
  cases size with
  | b => simpa [divHigh, Operand.reads, baseReg] using other.1.symm
  | w | l | q => simpa [divHigh, regOperand, sizedName, Operand.reads, baseReg] using other.2.symm

end

namespace Instruction

variable {i : Instruction} {m : Mach} {r : Reg} {x : BitVec 64}

theorem condition_congr {m' : Mach} {code : Cond} (conditional : i.cond = some code)
    (same : ∀ f ∈ code.needs ++ (if i.cEq then [.zf] else []), eflBit m' f.bit = eflBit m f.bit) :
    i.condition (eflBit m') = i.condition (eflBit m) := by
  have tested : code.test (eflBit m') = code.test (eflBit m) := by
    have needed (f : Status) (member : f ∈ code.needs) := same f (List.mem_append_left _ member)
    cases code with
    | c => exact needed .cf (by simp [Cond.needs])
    | z => exact needed .zf (by simp [Cond.needs])
    | o => exact needed .of (by simp [Cond.needs])
    | p => exact needed .pf (by simp [Cond.needs])
    | s => exact needed .sf (by simp [Cond.needs])
    | l =>
        have sign := needed .sf (by simp [Cond.needs])
        have overflow := needed .of (by simp [Cond.needs])
        simp only [Status.bit] at sign overflow
        simp only [Cond.test, sign, overflow]
  simp only [condition, conditional, tested]
  cases equal : i.cEq with
  | false => simp
  | true =>
      have zero := same .zf (by simp [equal])
      simp only [Status.bit] at zero
      rw [zero]

section

variable (own : ∀ o ∈ i.operands, o.Own) (hidden : r.hidden = true)
  (flags : ∀ f ∈ i.flagsRead, eflBit (m.setReg r x) f.bit = eflBit m f.bit)

include own hidden

theorem arg_apart_hidden (k : Nat) : r ∉ (i.arg k).reads := by
  unfold arg
  cases found : i.operands[k]? with
  | none => simp [Operand.reads]
  | some o => exact (own o (List.mem_of_getElem? found)).apart hidden

theorem read_hidden (k : Nat) (size : Size) : (i.arg k).read size (m.setReg r x) = (i.arg k).read size m :=
  Operand.read_setReg (arg_apart_hidden own hidden k)

theorem write_hidden (k : Nat) (size : Size) (v : BitVec size.bits) :
    (i.arg k).writeAt size (m.setReg r x) v (m.setReg r x) = ((i.arg k).writeAt size m v m).setReg r x :=
  Operand.writeAt_setReg (arg_apart_hidden own hidden k)

theorem computes_hidden (o : Outcome i.bits1.bits) :
    i.computes (m.setReg r x) o = (i.computes m o).withReg r x := by
  unfold computes
  rw [deliver_setReg fun o isDest => ?_]
  · rfl
  · have arg : ∃ k, o = i.arg k := by
      unfold destination at isDest
      split at isDest
      · cases isDest
      · cases isDest
      · exact ⟨0, (Option.some.inj isDest).symm⟩
      · exact ⟨1, (Option.some.inj isDest).symm⟩
    obtain ⟨k, rfl⟩ := arg
    exact arg_apart_hidden own hidden k

theorem multiplies_hidden : i.multiplies (m.setReg r x) = (i.multiplies m).withReg r x := by
  have accumulator := @accumulator_hidden i.bits1 r hidden
  have high := @divHigh_hidden i.bits1 r hidden
  have factor : r ∉ i.multiplicand.reads := by
    unfold multiplicand
    split
    · rename_i operands
      exact (own _ (by simp [operands])).apart hidden
    · rename_i operands
      exact (own _ (by simp [operands])).apart hidden
    · exact accumulator
  have product : r ∉ i.productTo.reads := by
    unfold productTo
    split
    · exact accumulator
    · cases last : i.operands.getLast? with
      | none => simp [Operand.reads]
      | some o => exact (own o (List.mem_of_getLast? last)).apart hidden
  unfold multiplies
  simp only [Operand.read_setReg factor, read_hidden own hidden, Operand.writeAt_setReg product,
    Operand.writeAt_setReg accumulator, Operand.writeAt_setReg high]
  split <;> rfl

theorem divides_hidden : i.divides (m.setReg r x) = (i.divides m).map (·.withReg r x) := by
  have accumulator := @accumulator_hidden i.bits1 r hidden
  have high := @divHigh_hidden i.bits1 r hidden
  have dividend : i.dividend (m.setReg r x) = i.dividend m := by
    rw [Instruction.dividend, Operand.read_setReg accumulator, Operand.read_setReg high, Instruction.dividend]
  have divisor : i.divisor (m.setReg r x) = i.divisor m := by
    rw [Instruction.divisor, read_hidden own hidden, Instruction.divisor]
  unfold divides
  simp only [dividend, divisor, Operand.writeAt_setReg accumulator, Operand.writeAt_setReg high]
  split <;> rfl

theorem shifts_hidden : i.shifts (m.setReg r x) = (i.shifts m).withReg r x := by
  have count : i.shiftCount (m.setReg r x) = i.shiftCount m := by
    rw [shiftCount, read_hidden own hidden, shiftCount]
  unfold shifts shifted
  simp only [count, read_hidden own hidden, write_hidden own hidden]
  rfl

theorem testsBit_hidden : i.testsBit (m.setReg r x) = (i.testsBit m).withReg r x := by
  unfold testsBit
  simp only [read_hidden own hidden, write_hidden own hidden]
  cases i.testBit <;> rfl

include flags

theorem action_hidden : i.action (m.setReg r x) = (i.action m).map (·.withReg r x) := by
  have read := @read_hidden i m r x own hidden
  have write := @write_hidden i m r x own hidden
  have apart := arg_apart_hidden own hidden
  have stack : .gpr .rsp ≠ r := Reg.hidden_ne hidden rfl
  have frame : .gpr .rbp ≠ r := Reg.hidden_ne hidden rfl
  have counter : .rip ≠ r := Reg.hidden_ne hidden rfl
  have condition (reads : i.op = .j ∨ i.op = .set ∨ i.op = .cmov) :
      i.condition (eflBit (m.setReg r x)) = i.condition (eflBit m) := by
    cases conditional : i.cond with
    | none => simp only [Instruction.condition, conditional]
    | some code =>
        refine condition_congr conditional fun f member => flags f ?_
        rcases reads with op | op | op <;> simpa [flagsRead, op, conditional] using member
  have carry (reads : i.op = .adc ∨ i.op = .sbb ∨ i.op = .cmc) :
      eflBit (m.setReg r x) flagCF = eflBit m flagCF :=
    flags .cf (by rcases reads with op | op | op <;> simp [flagsRead, op])
  unfold action
  cases op : i.op with
  | nop | enter | rc | ro | sa | shd | loop | bswap | pushf | popf | other name => rfl
  | mov =>
      simp only [extended, read, write]
      rfl
  | lea =>
      cases source : i.arg 0 with
      | reg name | imm n | addr n symbol => rfl
      | mem target =>
          have outside : r ∉ target.registers := by simpa [source, Operand.reads] using apart 0
          simp only [MemRef.effective_setReg outside, write]
          rfl
  | xchg =>
      simp only [exchange_setReg (apart 0) (apart 1)]
      rfl
  | xadd =>
      simp only [exchange_setReg (apart 0) (apart 1), read]
      rfl
  | cmov =>
      simp only [condition (.inr (.inr op)), read, write]
      rfl
  | ctd =>
      simp only [read, write]
      rfl
  | push =>
      simp only [afterPush_setReg (apart 0) stack]
      rfl
  | pop =>
      simp only [afterPop_setReg (apart 0) stack]
      rfl
  | leave =>
      have outside : r ∉ rbpOperand.reads := by simpa [rbpOperand, Operand.reads, baseReg] using frame.symm
      simp only [Machine.setReg_regs, if_neg frame, Machine.setReg_comm _ _ _ _ _ stack.symm,
        afterPop_setReg outside stack]
      rfl
  | call =>
      have outside : r ∉ ripOperand.reads := by simpa [ripOperand, Operand.reads, baseReg] using counter.symm
      simp only [read, afterPush_setReg outside stack, Machine.setReg_comm _ _ _ _ _ counter.symm]
      rfl
  | ret =>
      have outside : r ∉ ripOperand.reads := by simpa [ripOperand, Operand.reads, baseReg] using counter.symm
      simp only [afterPop_setReg outside stack]
      rfl
  | j =>
      simp only [condition (.inl op), read, Machine.setReg_comm _ _ _ _ _ counter.symm]
      split <;> rfl
  | set =>
      simp only [condition (.inr (.inl op)), write]
      rfl
  | not =>
      simp only [read, write]
      rfl
  | inc | dec =>
      simp only [Instruction.counts, read, write]
      rfl
  | mul =>
      simp only [multiplies_hidden own hidden]
      rfl
  | div => exact divides_hidden own hidden
  | sh =>
      simp only [shifts_hidden own hidden]
      split <;> rfl
  | bt =>
      simp only [testsBit_hidden own hidden]
      rfl
  | cl | st =>
      simp only
      split <;> rfl
  | cmc =>
      simp only [carry (.inr (.inr op))]
      rfl
  | adc | sbb =>
      simp only [Op.outcome, carry (by simp [op]), read, Option.map_some, computes_hidden own hidden]
  | add | sub | cmp | neg | and | or | xor | test =>
      simp only [Op.outcome, read, Option.map_some, computes_hidden own hidden]

end

end Instruction

end Tase
