import Tase.Processor.Computing

/-! Multiplication and division. -/

namespace Tase

open Cpp

section

variable {size : Size} {before before' m : Mach} {v : BitVec size.bits}

theorem divHigh_writeAt :
    (divHigh size).writeAt size before v m = (divHigh size).writeAt size before' v m := by
  cases size <;> rfl

theorem accumulator_reach : (regOperand .rax size).InReach := by
  simp [Operand.InReach, regOperand]

theorem divHigh_reach : (divHigh size).InReach := by
  cases size <;> simp [Operand.InReach, divHigh, regOperand]

end

namespace Instruction

variable {ub : Undef} {i : Instruction} {m : Mach}

theorem fits_holds {q : Int} : i.fits q = true ↔ (⟨i.bits1.bits, i.signExt⟩ : Ty).Holds q := by
  have positive := i.bits1.bits_pos
  unfold fits Ty.Holds
  cases i.signExt with
  | true => simp [outOfRange, positive]
  | false => simp

namespace Ready

variable (ready : i.Ready)

include ready

theorem mul (op : i.op = .mul) (wraps : ub.MulWraps) :
    i.Realizes (i.multiplies m) m (denoteOp ub i m) := by
  have shape : denoteOp ub i m = denoteMul ub i m := by simp only [denoteOp, op]
  obtain ⟨s, out, s', emitted⟩ := ready.emitted
  obtain ⟨multiplier, multiplicand, destLo, destHi, found, storable⟩ :=
    emitBody_mul emitted ready.handled op
  have both : i.fetches = [(multiplier, i.bits1), (multiplicand, i.bits1)] := by
    simp only [Instruction.fetches, op, found]
  obtain ⟨parts, two⟩ := mulOperands_ok found
  cases parts
  have isA : i.multiplicand.value ub i.bits1 m = i.multiplicand.read i.bits1 m :=
    Operand.value_read (ready.fetches (by simp [both])) (i.multiplicand_plain ready.plain).reach
  have isB : (i.arg 0).value ub i.bits1 m = (i.arg 0).read i.bits1 m :=
    Operand.value_read (ready.fetches (by simp [both])) (ready.arg 0).reach
  have state := denoteMul_eq found isA isB (.inl wraps)
  have flag {k : Nat} (which : k = flagCF ∨ k = flagOF) := denoteMul_flags found isA isB (.inl wraps) which
  have low (a b : BitVec i.bits1.bits) : BitVec.ofNat i.bits1.bits (a.toNat * b.toNat) = a * b := by
    apply BitVec.eq_of_toNat_eq
    simp [BitVec.toNat_mul]
  rw [shape]
  cases signed : i.signExt with
  | true =>
      have many : i.operands.length ≠ 1 := by simpa [Instruction.suits, op, signed] using ready.suits
      have high : i.productHigh = none := if_neg many
      refine ⟨?_, fun f exact => ?_, fun f kept => ?_⟩
      · rw [state, high, storeHi, low, multiplies, signed, Operand.write_unsigned storable
          (i.productTo_plain ready.plain).reach]
        exact ⟨_, rfl⟩
      · simp [Instruction.exact, op, signed] at exact
      · simp [Instruction.carries, op] at kept
  | false =>
      have one : i.operands.length = 1 := by
        by_contra many
        rw [two many] at signed
        cases signed
      have target : i.productTo = regOperand .rax i.bits1 := if_pos one
      have high : i.productHigh = some (divHigh i.bits1) := if_pos one
      refine ⟨?_, fun f exact => ?_, fun f kept => ?_⟩
      · rw [state, high, target, storeHi, low, multiplies, signed,
          Operand.write_unsigned (divHighStorable _) divHigh_reach,
          Operand.write_unsigned (regOperandStorable ..) accumulator_reach, divHigh_writeAt]
        exact ⟨_, rfl⟩
      · have which : f = .cf ∨ f = .of := by simpa [Instruction.exact, op, signed] using exact
        refine ⟨decide (BitVec.ofNat i.bits1.bits ((i.multiplicand.read i.bits1 m).toNat *
          ((i.arg 0).read i.bits1 m).toNat / 2 ^ i.bits1.bits) ≠ 0), ?_, ?_⟩
        · simp only [multiplies, signed, Bool.false_eq_true, if_false, if_pos which]
        · rw [flag (by rcases which with rfl | rfl <;> simp [Status.bit]), signed, if_neg (by simp),
            decide_eq_decide, Ne, product_high_eq_zero_iff, Nat.not_lt]
      · simp [Instruction.carries, op] at kept

theorem div {a : Action} (op : i.op = .div) (known : i.divides m = some a) :
    i.Realizes a m (denoteOp ub i m) := by
  have shape : denoteOp ub i m = denoteDiv ub i m := by simp only [denoteOp, op]
  have fetched : (i.arg 0).Fetchable i.bits1 := ready.fetches (by simp [Instruction.fetches, op])
  have value := @Operand.value_read ub _ _ m fetched (ready.arg 0).reach
  unfold divides at known
  simp only [Option.ite_none_right_eq_some, Option.some.injEq] at known
  obtain ⟨⟨nonzero, fits⟩, rfl⟩ := known
  obtain ⟨quotient, remainder⟩ := divPart_toInt value nonzero (fits_holds.mp fits)
  have narrow (op : ArithOp) : (divPart ub op i m).ty.width ≤ 64 := (size_cases i.bits1).2
  have stored (op : ArithOp) : (divPart ub op i m).conv i.bits1.uint = BitVec.ofInt i.bits1.bits
      (Val.arith ub op (divDividend ub i.bits1 i.signExt m) ((i.arg 0).fetch ub i.bits1 i.signExt m)).toInt := by
    rw [divPart, Val.cast_conv_of_le _ ⟨i.bits1.bits, i.signExt⟩ i.bits1.uint (Nat.le_refl i.bits1.bits),
      Val.conv_eq_ofInt]
  have inRange (op' : ArithOp) {o : Operand} (storable : o.Storable i.bits1)
      (wide : i.bits1 = .l ∨ i.bits1 = .q → o.isLow = false) (r : RegName) (same : o = .reg r) :
      r.Fits ((divPart ub op' i m).conv (.uint 64)) := by
    subst same
    cases signed : i.signExt with
    | false =>
        obtain ⟨width, _⟩ := storable
        refine RegName.fits_unsigned ?_
        rw [← width]
        exact congrArg (Ty.mk i.bits1.bits) signed
    | true =>
        refine RegName.fits_of_not_low _ (wide ?_)
        simpa [Instruction.suits, op, signed] using ready.suits
  rw [shape, denoteDiv, Operand.write_writeAt (divHighStorable _) divHigh_reach (narrow .rem)
      (inRange .rem (divHighStorable _) ?_), Operand.write_writeAt (regOperandStorable ..) accumulator_reach
      (narrow .div) (inRange .div (regOperandStorable ..) ?_), stored, stored, quotient, remainder,
      divHigh_writeAt]
  · refine ⟨?_, fun f exact => ?_, fun f kept => ?_⟩
    · exact ⟨_, (Machine.setReg_self ..).symm⟩
    · simp [Instruction.exact, op] at exact
    · simp [Instruction.carries, op] at kept
  · rintro (size | size) <;> rw [size] <;> rfl
  · rintro (size | size) <;> rw [size] <;> rfl

end Ready

end Instruction

end Tase
