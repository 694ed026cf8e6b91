import Tase.Cpp.Double
import Tase.Translator.Arithmetic

/-! Multiplication: what `_emit_mul` leaves in the pair of the accumulator and the high register, and
in the destination of the two- and three-operand forms. -/

namespace Tase

open Cpp

theorem divHigh_apart (size : Size) : .efl ∉ (divHigh size).reads := by
  cases size <;> decide

theorem accumulator_apart (size : Size) : .efl ∉ (regOperand .rax size).reads := by
  cases size <;> decide

theorem divHigh_read (ub : Undef) (size : Size) (m : Mach) :
    (divHigh size).value ub size m = (divHigh size).read size m := by
  cases size <;> exact Operand.value_read ⟨_, rfl⟩ (by simp [Operand.InReach, divHigh, regOperand])

theorem accumulator_read (ub : Undef) (size : Size) (m : Mach) :
    (regOperand .rax size).value ub size m = (regOperand .rax size).read size m := by
  cases size <;> exact Operand.value_read ⟨_, rfl⟩ (by simp [Operand.InReach, regOperand])

theorem accumulator_divHigh {ub : Undef} {size : Size} {x : Val} {m : Mach} (narrow : x.ty.width ≤ 64) :
    (regOperand .rax size).value ub size ((divHigh size).write ub size x m) =
      (regOperand .rax size).value ub size m := by
  -- The high register does not overlap the accumulator, also where both are halves of `%ax`.
  cases size with
  | b =>
      have low (m : Mach) : (regOperand .rax .b).value ub .b m = (m.regs (.gpr .rax)).setWidth 8 :=
        Operand.value_reg rfl rfl
      rw [low, low]
      have high : (divHigh .b).write ub .b x m = m.setReg (.gpr .rax) _ :=
        Operand.write_reg rfl rfl narrow
      rw [high, Machine.setReg_regs_self]
      apply BitVec.eq_of_getLsbD_eq
      intro k inside
      have outside : (RegName.h .rax).holds k = false := by
        simp [RegName.holds]
        omega
      rw [BitVec.getLsbD_setWidth, BitVec.getLsbD_setWidth,
        RegName.insert_outside (.h .rax) _ _ trivial k (by omega) outside]
  | w | l | q =>
      refine Operand.value_congr (fun r member => ?_) fun a occupied => occupied.elim
      cases List.mem_singleton.mp member
      exact Operand.write_regs_of_ne (by decide)

namespace Instruction

def multiplicand (i : Instruction) : Operand :=
  match i.operands with
  | [_, x] | [_, x, _] => x
  | _ => regOperand .rax i.bits1

def productTo (i : Instruction) : Operand :=
  if i.operands.length = 1 then regOperand .rax i.bits1 else i.operands.getLast?.getD (.imm 0)

def productHigh (i : Instruction) : Option Operand :=
  if i.operands.length = 1 then some (divHigh i.bits1) else none

end Instruction

section

variable {ub : Undef} {i : Instruction} {m : Mach}

theorem mulOperands_ok {parts : Operand × Operand × Operand × Option Operand}
    (found : mulOperands i i.bits1 = .ok parts) :
    parts = (i.arg 0, i.multiplicand, i.productTo, i.productHigh) ∧
      (i.operands.length ≠ 1 → i.signExt = true) := by
  unfold mulOperands at found
  split at found
  · rename_i signed operands
    cases found
    simp [Instruction.arg, Instruction.multiplicand, Instruction.productTo, Instruction.productHigh,
      operands, signed]
  · rename_i signed operands
    cases found
    simp [Instruction.arg, Instruction.multiplicand, Instruction.productTo, Instruction.productHigh,
      operands, signed]
  · rename_i operands
    cases found
    simp [Instruction.arg, Instruction.multiplicand, Instruction.productTo, Instruction.productHigh,
      operands, divHigh]
  · cases found

theorem mulFlagVal_bit {signed : Bool} {size : Size} (lo hi : BitVec size.bits) {k : Nat}
    (flag : k = flagCF ∨ k = flagOF) :
    (mulFlagVal ub signed ⟨size.uint, lo⟩ ⟨size.uint, hi⟩ size).bit k =
      if signed then !decide (hi = if lo.msb then BitVec.allOnes size.bits else 0)
      else !decide (hi = 0) := by
  obtain ⟨wide, small⟩ := size_cases size
  have masked : mulMask.testBit k = true := by rcases flag with rfl | rfl <;> decide
  have inside : k < 32 := by rcases flag with rfl | rfl <;> decide
  have picked (b : Bool) : (if b = true then (Val.lit .dec 0).bit k else (Val.lit .hex mulMask).bit k) =
      !b := by
    rw [Val.lit_bit _ _ (by omega), Val.lit_bit _ _ (by omega), masked, Nat.zero_testBit]
    cases b <;> rfl
  unfold mulFlagVal
  cases signed with
  | true =>
      simp only [if_true]
      rw [Val.cond_bit _ _ _ inside, picked, sign_cmp (by omega) ub small]
  | false =>
      simp only [Bool.false_eq_true, if_false]
      rw [Val.cond_bit _ _ _ inside, picked, Val.cmp_zero _ small, Val.ofBool_truthy]

section

variable {a b : BitVec i.bits1.bits} {parts : Operand × Operand × Operand × Option Operand}
  (found : mulOperands i i.bits1 = .ok parts) (isA : i.multiplicand.value ub i.bits1 m = a)
  (isB : (i.arg 0).value ub i.bits1 m = b)
  (defined : ub.MulWraps ∨ (i.signExt = true → ProductFits a b))

include found isA isB defined

theorem denoteMul_eq :
    let lo : Val := ⟨i.bits1.uint, BitVec.ofNat i.bits1.bits (a.toNat * b.toNat)⟩
    let hi : Val := ⟨i.bits1.uint, BitVec.ofNat i.bits1.bits (a.toNat * b.toNat / 2 ^ i.bits1.bits)⟩
    denoteMul ub i m = setFlag ub mulMask (mulFlagVal ub i.signExt lo hi i.bits1) false
      (storeHi ub i.productHigh i.bits1 hi (i.productTo.write ub i.bits1 lo m)) := by
  obtain ⟨wide, small⟩ := size_cases i.bits1
  obtain ⟨rfl, _⟩ := mulOperands_ok found
  have product := @product_val _ (by omega) ub i.signExt a b defined
  have whole : (BitVec.ofNat (i.bits1.bits * 2) (a.toNat * b.toNat)).toNat = a.toNat * b.toNat := by
    rw [BitVec.toNat_ofNat, Nat.mod_eq_of_lt (product_lt a b)]
  have low := low_val (by omega) i.signExt (BitVec.ofNat (i.bits1.bits * 2) (a.toNat * b.toNat))
  have high := high_val (by omega) ub small i.signExt
    (BitVec.ofNat (i.bits1.bits * 2) (a.toNat * b.toNat))
  rw [whole] at low high
  subst isA isB
  simp only [denoteMul, found]
  rw [← low, ← high, ← product]
  rfl

theorem denoteMul_flags {k : Nat} (flag : k = flagCF ∨ k = flagOF) :
    eflBit (denoteMul ub i m) k =
      if i.signExt then decide (2 ^ (i.bits1.bits - 1) ≤ a.toNat * b.toNat)
      else decide (2 ^ i.bits1.bits ≤ a.toNat * b.toNat) := by
  obtain ⟨wide, _⟩ := size_cases i.bits1
  have masked : mulMask.testBit k = true := by rcases flag with rfl | rfl <;> decide
  have inside : k < 32 := by rcases flag with rfl | rfl <;> decide
  have small := product_extends_iff (by omega) a b
  rw [denoteMul_eq found isA isB defined, eflBit_setFlag ub inside masked, mulFlagVal_bit _ _ flag]
  cases i.signExt with
  | true =>
      simp only [if_true, small]
      rw [← decide_not, decide_eq_decide, Nat.not_lt]
  | false =>
      simp only [Bool.false_eq_true, if_false]
      rw [← decide_not, decide_eq_decide, product_high_eq_zero_iff, Nat.not_lt]

theorem denoteMul_pair (one : i.operands.length = 1) :
    (regOperand .rax i.bits1).value ub i.bits1 (denoteMul ub i m) =
        BitVec.ofNat i.bits1.bits (a.toNat * b.toNat) ∧
      (divHigh i.bits1).value ub i.bits1 (denoteMul ub i m) =
        BitVec.ofNat i.bits1.bits (a.toNat * b.toNat / 2 ^ i.bits1.bits) := by
  have narrow : i.bits1.uint.width ≤ 64 := (size_cases i.bits1).2
  have low : i.productTo = regOperand .rax i.bits1 := if_pos one
  have high : i.productHigh = some (divHigh i.bits1) := if_pos one
  rw [denoteMul_eq found isA isB defined, low, high]
  constructor
  · refine (Operand.value_setEfl (accumulator_apart _)).trans ?_
    rw [storeHi, accumulator_divHigh narrow, Operand.value_write (regOperandStorable ..) narrow]
    simp
  · refine (Operand.value_setEfl (divHigh_apart _)).trans ?_
    rw [storeHi, Operand.value_write (divHighStorable _) narrow]
    simp

theorem denoteMul_low (many : i.operands.length ≠ 1) (apart : .efl ∉ i.productTo.reads)
    (storable : i.productTo.Storable i.bits1) :
    i.productTo.value ub i.bits1 (denoteMul ub i m) = a * b := by
  have narrow : i.bits1.uint.width ≤ 64 := (size_cases i.bits1).2
  have high : i.productHigh = none := if_neg many
  rw [denoteMul_eq found isA isB defined, high]
  refine (Operand.value_setEfl apart).trans ?_
  rw [storeHi, Operand.value_write storable narrow]
  apply BitVec.eq_of_toNat_eq
  simp [BitVec.toNat_mul]

end

end

/-! The signed product. The operands are fetched without their signs, so it is only right where the
signs do not matter. -/

theorem productFlag_iff {n : Nat} (a b : BitVec n) :
    decide (2 ^ (n - 1) ≤ a.toNat * b.toNat) = outOfRange n (a.toInt * b.toInt) ↔
      (a.msb = false ∧ b.msb = false) ∨ a = 0 ∨ b = 0 ∨ outOfRange n (a.toInt * b.toInt) = true := by
  have power : (2 ^ (n - 1) : Int) = (2 ^ (n - 1) : Nat) := by norm_cast
  have halfPositive := Nat.two_pow_pos (n - 1)
  by_cases zero : a = 0 ∨ b = 0
  · have product : a.toNat * b.toNat = 0 ∧ a.toInt * b.toInt = 0 := by
      rcases zero with rfl | rfl <;> simp
    have inRange : outOfRange n 0 = false := by
      simp only [outOfRange, power, decide_eq_false_iff_not]
      omega
    have small : ¬2 ^ (n - 1) ≤ 0 := by omega
    rw [product.1, product.2, inRange, decide_eq_false small]
    refine iff_of_true rfl ?_
    rcases zero with rfl | rfl <;> simp
  · by_cases signs : a.msb = false ∧ b.msb = false
    · have product : a.toInt * b.toInt = (a.toNat * b.toNat : Nat) := by
        rw [BitVec.toInt_eq_toNat_of_msb signs.1, BitVec.toInt_eq_toNat_of_msb signs.2, Int.natCast_mul]
      refine iff_of_true ?_ (.inl signs)
      rw [outOfRange, decide_eq_decide, product, power]
      omega
    · obtain ⟨nonzeroA, nonzeroB⟩ := not_or.mp zero
      have factor {x : BitVec n} (nonzero : x ≠ 0) : 0 < x.toNat := by
        rw [Nat.pos_iff_ne_zero]
        exact fun same => nonzero (BitVec.eq_of_toNat_eq (same.trans (by simp)))
      have large : 2 ^ (n - 1) ≤ a.toNat * b.toNat := by
        rw [BitVec.msb_eq_decide, BitVec.msb_eq_decide, decide_eq_false_iff_not,
          decide_eq_false_iff_not] at signs
        by_cases left : 2 ^ (n - 1) ≤ a.toNat
        · exact Nat.le_trans left (Nat.le_mul_of_pos_right _ (factor nonzeroB))
        · have right : 2 ^ (n - 1) ≤ b.toNat := by
            by_contra below
            exact signs ⟨left, below⟩
          exact Nat.le_trans right (Nat.le_mul_of_pos_left _ (factor nonzeroA))
      rw [decide_eq_true large]
      constructor
      · intro same
        exact .inr (.inr (.inr same.symm))
      · rintro (nonneg | nil | nil | out)
        · exact absurd nonneg signs
        · exact absurd nil nonzeroA
        · exact absurd nil nonzeroB
        · exact out.symm

theorem sameProduct_flag {n : Nat} (positive : 0 < n) {a b : BitVec n} (same : SameProduct a b) :
    decide (2 ^ (n - 1) ≤ a.toNat * b.toNat) = outOfRange n (a.toInt * b.toInt) := by
  rw [productFlag_iff]
  rcases same with signs | nil | nil | ⟨rfl, rfl⟩
  · exact .inl signs
  · exact .inr (.inl nil)
  · exact .inr (.inr (.inl nil))
  · refine .inr (.inr (.inr ?_))
    have power : (2 ^ (n - 1) : Int) = (2 ^ (n - 1) : Nat) := by norm_cast
    have minimum : (BitVec.intMin n).toInt = -(2 ^ (n - 1) : Nat) := by
      rw [BitVec.toInt_intMin_of_pos positive, power]
    have grows := Nat.le_mul_self (2 ^ (n - 1))
    rw [outOfRange, decide_eq_true_iff, minimum, Int.neg_mul_neg, ← Int.natCast_mul, power]
    omega

namespace Instruction

def signedProduct (i : Instruction) (m : Mach) : Int :=
  (i.multiplicand.read i.bits1 (stepRip i m)).toInt * ((i.arg 0).read i.bits1 (stepRip i m)).toInt

def productOverflows (ub : Undef) (i : Instruction) (m : Mach) : Bool :=
  let wide : Ty := ⟨i.bits1.bits * 2, i.signExt⟩
  let l := (i.multiplicand.fetch ub i.bits1 false (stepRip i m)).cast wide
  let r := ((i.arg 0).fetch ub i.bits1 false (stepRip i m)).cast wide
  ArithOp.mul.undefined (Ty.common l.ty r.ty) (l.conv _) (r.conv _)

structure MultipliesSigned (ub : Undef) (i : Instruction) (m m' : Mach) : Prop where
  defined : i.nothingToDo = false → i.productOverflows ub m = false
  pair : i.operands.length = 1 →
    join ((divHigh i.bits1).read i.bits1 m') ((regOperand .rax i.bits1).read i.bits1 m') =
      BitVec.ofInt (i.bits1.bits * 2) (i.signedProduct m)
  carry : eflBit m' flagCF = outOfRange i.bits1.bits (i.signedProduct m)
  overflow : eflBit m' flagOF = outOfRange i.bits1.bits (i.signedProduct m)

/-- The factors for which the signs do not matter. Where only the flags are at stake, a product that
is out of range does not need the signs either, unless it overflows. -/
def SignsIdle {n : Nat} (i : Instruction) (a b : BitVec n) : Prop :=
  SameProduct a b ∨
    (i.operands.length ≠ 1 ∧ outOfRange n (a.toInt * b.toInt) = true ∧ ProductFits a b)

theorem productOverflows_iff {ub : Undef} {i : Instruction} {m : Mach} :
    i.productOverflows ub m = true ↔ i.signExt = true ∧
      ¬ProductFits (i.multiplicand.value ub i.bits1 (stepRip i m))
        ((i.arg 0).value ub i.bits1 (stepRip i m)) := by
  have positive := i.bits1.bits_pos
  have undefined := product_undefined positive i.signExt (i.multiplicand.value ub i.bits1 (stepRip i m))
    ((i.arg 0).value ub i.bits1 (stepRip i m))
  rw [← Ty.common_self] at undefined
  exact undefined

end Instruction

section

variable {ub : Undef} {i : Instruction} {m m' : Mach}

namespace Instruction

variable (plain : ∀ o ∈ i.operands, o.Plain)
include plain

theorem multiplicand_plain : i.multiplicand.Plain := by
  unfold multiplicand
  split
  · rename_i operands
    exact plain _ (by simp [operands])
  · rename_i operands
    exact plain _ (by simp [operands])
  · exact (Operand.plain_other (by simp [regOperand])).mpr (accumulator_apart _)

theorem productTo_plain : i.productTo.Plain := by
  unfold productTo
  split
  · exact (Operand.plain_other (by simp [regOperand])).mpr (accumulator_apart _)
  · cases last : i.operands.getLast? with
    | none => exact (Operand.plain_other (by simp)).mpr (by simp [Operand.reads])
    | some o => exact plain o (List.mem_of_getLast? last)

end Instruction

theorem product_parts (mul : i.op = .mul) (handled : i.nothingToDo = false)
    (plain : ∀ o ∈ i.operands, o.Plain) (executed : Executes ub [i] m m') :
    ∃ parts, mulOperands i i.bits1 = .ok parts ∧ i.productTo.Storable i.bits1 ∧
      i.multiplicand.value ub i.bits1 (stepRip i m) = i.multiplicand.read i.bits1 (stepRip i m) ∧
      (i.arg 0).value ub i.bits1 (stepRip i m) = (i.arg 0).read i.bits1 (stepRip i m) := by
  obtain ⟨s, out, s', emitted⟩ := executed.emitted i (by simp)
  obtain ⟨multiplier, multiplicand, destLo, destHi, found, storable⟩ := emitBody_mul emitted handled mul
  have fetches := emitBody_fetches emitted handled
  have both : i.fetches = [(multiplier, i.bits1), (multiplicand, i.bits1)] := by
    simp only [Instruction.fetches, mul, found]
  rw [both] at fetches
  obtain ⟨parts, _⟩ := mulOperands_ok found
  cases parts
  exact ⟨_, found, storable,
    Operand.value_read (fetches (i.multiplicand, i.bits1) (by simp)) (i.multiplicand_plain plain).reach,
    Operand.value_read (fetches (i.arg 0, i.bits1) (by simp)) (i.arg_plain plain 0).reach⟩

theorem multiplied (mul : i.op = .mul) (handled : i.nothingToDo = false) (executed : Executes ub [i] m m') :
    m' = denoteMul ub i (stepRip i m) := by
  have acted := executed.single (by simp [mul]) handled
  simpa only [denoteOp, mul] using acted

theorem multipliesSigned_coded (mul : i.op = .mul) (signed : i.signExt = true)
    (plain : ∀ o ∈ i.operands, o.Plain) (executed : Executes ub [i] m m')
    (handled : i.nothingToDo = false) :
    i.MultipliesSigned ub m m' ↔
      i.SignsIdle (i.multiplicand.read i.bits1 (stepRip i m)) ((i.arg 0).read i.bits1 (stepRip i m)) := by
  have positive := i.bits1.bits_pos
  obtain ⟨parts, found, _, isA, isB⟩ := product_parts mul handled plain executed
  obtain rfl := multiplied mul handled executed
  have overflows := @Instruction.productOverflows_iff ub i m
  rw [isA, isB] at overflows
  generalize readA : i.multiplicand.read i.bits1 (stepRip i m) = a at *
  generalize readB : (i.arg 0).read i.bits1 (stepRip i m) = b at *
  have product : i.signedProduct m = a.toInt * b.toInt := by rw [Instruction.signedProduct, readA, readB]
  have flag (fits : ProductFits a b) {k : Nat} (which : k = flagCF ∨ k = flagOF) :
      eflBit (denoteMul ub i (stepRip i m)) k = decide (2 ^ (i.bits1.bits - 1) ≤ a.toNat * b.toNat) := by
    rw [denoteMul_flags found isA isB (.inr fun _ => fits) which, if_pos signed]
  have halves (fits : ProductFits a b) (one : i.operands.length = 1) :
      join ((divHigh i.bits1).read i.bits1 (denoteMul ub i (stepRip i m)))
        ((regOperand .rax i.bits1).read i.bits1 (denoteMul ub i (stepRip i m))) =
      BitVec.ofNat (i.bits1.bits * 2) (a.toNat * b.toNat) := by
    obtain ⟨low, high⟩ := denoteMul_pair found isA isB (.inr fun _ => fits) one
    have whole := join_halves (BitVec.ofNat (i.bits1.bits * 2) (a.toNat * b.toNat))
    rw [BitVec.toNat_ofNat, Nat.mod_eq_of_lt (product_lt a b)] at whole
    rw [← divHigh_read ub, ← accumulator_read ub, low, high, whole]
  constructor
  · intro right
    have fits : ProductFits a b := by
      by_contra large
      have defined := right.defined handled
      rw [overflows.mpr ⟨signed, large⟩] at defined
      cases defined
    by_cases one : i.operands.length = 1
    · have pair := right.pair one
      rw [halves fits one, product, product_signed_iff positive] at pair
      exact .inl pair
    · have carry := right.carry
      rw [flag fits (.inl rfl), product] at carry
      rcases (productFlag_iff a b).mp carry with signs | nil | nil | outside
      · exact .inl (.inl signs)
      · exact .inl (.inr (.inl nil))
      · exact .inl (.inr (.inr (.inl nil)))
      · exact .inr ⟨one, outside, fits⟩
  · intro idle
    have fits : ProductFits a b := by
      rcases idle with same | ⟨_, _, fits⟩
      · exact same.fits positive
      · exact fits
    have agree : decide (2 ^ (i.bits1.bits - 1) ≤ a.toNat * b.toNat) =
        outOfRange i.bits1.bits (i.signedProduct m) := by
      rw [product]
      rcases idle with same | ⟨_, outside, _⟩
      · exact sameProduct_flag positive same
      · exact (productFlag_iff a b).mpr (.inr (.inr (.inr outside)))
    refine ⟨?_, fun one => ?_, (flag fits (.inl rfl)).trans agree, (flag fits (.inr rfl)).trans agree⟩
    · intro _
      rw [Bool.eq_false_iff]
      exact fun large => (overflows.mp large).2 fits
    · rw [halves fits one, product, product_signed_iff positive]
      rcases idle with same | ⟨many, _, _⟩
      · exact same
      · exact absurd one many

end

/-- A signed product is right where the signs do not matter. -/
theorem multipliesSigned_iff {ub : Undef} {i : Instruction} {m m' : Mach} (mul : i.op = .mul)
    (signed : i.signExt = true) (plain : ∀ o ∈ i.operands, o.Plain) (executed : Executes ub [i] m m') :
    i.MultipliesSigned ub m m' ↔
      (i.nothingToDo = false ∧
        i.SignsIdle (i.multiplicand.read i.bits1 (stepRip i m)) ((i.arg 0).read i.bits1 (stepRip i m))) ∨
      i.Idle (i.MultipliesSigned ub m) m :=
  executed.required_iff (by simp [mul]) (multipliesSigned_coded mul signed plain executed)

def imulOne : Instruction :=
  { original := "imul   %ecx", vaddr := 0x1000, length := 2, op := .mul, signExt := true,
    size1 := some .l, operands := [.reg (.d .rcx)] }

theorem imulOne_emitted : EmittedAlone imulOne ((printed (emitFunction .alone imulOne)).get rfl) :=
  ⟨.initial, _, rfl⟩

theorem multipliesSigned_iff_ones :
    ∃ m', Executes default [imulOne] onesInRegisters m' ∧
      imulOne.MultipliesSigned default onesInRegisters m' := by
  have executed : Executes default [imulOne] onesInRegisters _ := .alone imulOne_emitted .done
  exact ⟨_, executed, (multipliesSigned_iff rfl rfl (by decide) executed).mpr
    (.inl ⟨by decide, .inl (.inl (by decide))⟩)⟩

theorem imul_ignores_sign :
    ∃ m', Executes default [imulOne] (onesInRegisters.setReg (.gpr .rax) 0xffffffff) m' ∧
      imulOne.signedProduct (onesInRegisters.setReg (.gpr .rax) 0xffffffff) = -1 ∧
      m'.regs (.gpr .rdx) = 0 ∧
      ¬ imulOne.MultipliesSigned default (onesInRegisters.setReg (.gpr .rax) 0xffffffff) m' := by
  -- With -1 in `%eax` the product with 1 is -1, but `%edx` gets the high half of 4294967295.
  refine ⟨_, .alone imulOne_emitted .done, by decide, by decide, fun right => ?_⟩
  have pair := right.pair rfl
  revert pair
  decide

/-! The unsigned product, and the low half of either. -/

namespace Instruction

structure Multiplies (i : Instruction) (m m' : Mach) : Prop where
  pair : i.signExt = false →
    ((divHigh i.bits1).read i.bits1 m').toNat * 2 ^ i.bits1.bits +
      ((regOperand .rax i.bits1).read i.bits1 m').toNat =
    (i.multiplicand.read i.bits1 (stepRip i m)).toNat * ((i.arg 0).read i.bits1 (stepRip i m)).toNat
  carry : i.signExt = false →
    eflBit m' flagCF = decide ((divHigh i.bits1).read i.bits1 m' ≠ 0)
  overflow : i.signExt = false →
    eflBit m' flagOF = decide ((divHigh i.bits1).read i.bits1 m' ≠ 0)
  low : i.operands.length ≠ 1 → i.productTo.read i.bits1 m' =
    i.multiplicand.read i.bits1 (stepRip i m) * (i.arg 0).read i.bits1 (stepRip i m)

end Instruction

theorem executes_product {ub : Undef} {i : Instruction} {m m' : Mach} (active : i.ignored = false)
    (free : ∀ o ∈ i.operands, o.isInstrumentation = false) (spelled : i.Spelled)
    (plain : ∀ o ∈ i.operands, o.Plain) (mul : i.op = .mul)
    (wraps : i.signExt = true → ub.MulWraps) (executed : Executes ub [i] m m') :
    i.Multiplies m m' := by
  have handled := Instruction.handled active (by simp [mul]) free (spelled.guardless plain)
  obtain ⟨parts, found, storable, isA, isB⟩ := product_parts mul handled plain executed
  obtain rfl := multiplied mul handled executed
  obtain ⟨_, two⟩ := mulOperands_ok found
  have defined (a b : BitVec i.bits1.bits) : ub.MulWraps ∨ (i.signExt = true → ProductFits a b) := by
    cases signed : i.signExt with
    | true => exact .inl (wraps signed)
    | false => exact .inr (by simp)
  generalize readA : i.multiplicand.read i.bits1 (stepRip i m) = a at isA
  generalize readB : (i.arg 0).read i.bits1 (stepRip i m) = b at isB
  have halves (unsigned : i.signExt = false) :
      (divHigh i.bits1).read i.bits1 (denoteMul ub i (stepRip i m)) =
          BitVec.ofNat i.bits1.bits (a.toNat * b.toNat / 2 ^ i.bits1.bits) ∧
        (regOperand .rax i.bits1).read i.bits1 (denoteMul ub i (stepRip i m)) =
          BitVec.ofNat i.bits1.bits (a.toNat * b.toNat) := by
    have one : i.operands.length = 1 := by
      by_contra many
      rw [two many] at unsigned
      cases unsigned
    obtain ⟨low, high⟩ := denoteMul_pair found isA isB (defined a b) one
    exact ⟨(divHigh_read ub _ _).symm.trans high, (accumulator_read ub _ _).symm.trans low⟩
  have flag (unsigned : i.signExt = false) {k : Nat} (which : k = flagCF ∨ k = flagOF) :
      eflBit (denoteMul ub i (stepRip i m)) k =
        decide ((divHigh i.bits1).read i.bits1 (denoteMul ub i (stepRip i m)) ≠ 0) := by
    rw [denoteMul_flags found isA isB (defined a b) which, (halves unsigned).1, unsigned,
      if_neg (by simp), decide_eq_decide, Ne, product_high_eq_zero_iff, Nat.not_lt]
  refine ⟨fun unsigned => ?_, fun unsigned => flag unsigned (.inl rfl),
    fun unsigned => flag unsigned (.inr rfl), fun many => ?_⟩
  · rw [(halves unsigned).1, (halves unsigned).2, product_high, BitVec.toNat_ofNat, readA, readB,
      Nat.mul_comm (_ / _), Nat.div_add_mod]
  · have apart := (i.productTo_plain plain).flags
    rw [← Operand.value_read storable.fetchable (i.productTo_plain plain).reach,
      denoteMul_low found isA isB (defined a b) many apart storable, readA, readB]

def mulByte : Instruction :=
  { original := "mul    %cl", vaddr := 0x1000, length := 2, op := .mul, size1 := some .b,
    operands := [.reg (.l .rcx)] }

def imulMemory : Instruction :=
  { original := "imul   0x4(%rax),%eax", vaddr := 0x1000, length := 4, op := .mul, signExt := true,
    size1 := some .l,
    operands := [.mem ⟨none, 4, some (.q (.gpr .rax)), none, .one⟩, .reg (.d .rax)] }

def wrapping : Undef := ⟨fun _ l r => l.toInt * r.toInt, fun _ _ _ => 0, fun _ _ => 0⟩

theorem executes_product_both :
    (∃ m', Executes wrapping [mulByte] onesInRegisters m' ∧ mulByte.Multiplies onesInRegisters m') ∧
      ∃ m', Executes wrapping [imulMemory] onesInRegisters m' ∧
        imulMemory.Multiplies onesInRegisters m' := by
  have wraps : wrapping.MulWraps := fun _ _ => rfl
  constructor
  · have emitted : EmittedAlone mulByte ((printed (emitFunction .alone mulByte)).get rfl) :=
      ⟨.initial, _, rfl⟩
    have executed : Executes wrapping [mulByte] onesInRegisters _ := .alone emitted .done
    have spelled : mulByte.Spelled := fun guard => absurd guard (by decide)
    exact ⟨_, executed, executes_product rfl (by decide) spelled (by decide) rfl (fun _ => wraps) executed⟩
  · have emitted : EmittedAlone imulMemory ((printed (emitFunction .alone imulMemory)).get rfl) :=
      ⟨.initial, _, rfl⟩
    have executed : Executes wrapping [imulMemory] onesInRegisters _ := .alone emitted .done
    have spelled : imulMemory.Spelled := fun guard => absurd guard (by decide)
    exact ⟨_, executed, executes_product rfl (by decide) spelled (by decide) rfl (fun _ => wraps) executed⟩

def mulReserved : Instruction :=
  { original := "mul    %r14", vaddr := 0x1000, length := 3, op := .mul, size1 := some .q,
    operands := [.reg (.q (.gpr .r14))] }

theorem reserved_factor_dropped :
    ∃ m', Executes default [mulReserved] onesInRegisters m' ∧
      ¬ mulReserved.Multiplies onesInRegisters m' := by
  have emitted : EmittedAlone mulReserved ((printed (emitFunction .alone mulReserved)).get rfl) :=
    ⟨.initial, _, rfl⟩
  refine ⟨_, .alone emitted .done, fun right => ?_⟩
  have pair := right.pair rfl
  revert pair
  decide

end Tase
