import Tase.Translator.Arithmetic
import Tase.Translator.Writing

/-! Testing one bit of a register, and changing it. -/

namespace Tase

open Cpp

section

variable {ub : Undef} {size : Size} {n : Nat}

def bitOffset (ub : Undef) (a : BitVec size.bits) : Val :=
  (Val.arith ub .and ⟨size.uint, a⟩ (.lit .hex (size.bits - 1))).cast size.uint

theorem bitOffset_toInt (a : BitVec size.bits) :
    (bitOffset ub a).toInt = ((a.toNat % size.bits : Nat) : Int) := by
  unfold bitOffset
  cases size with
  | b => exact @masked_toInt ub .b a 3 (by decide)
  | w => exact @masked_toInt ub .w a 4 (by decide)
  | l => exact @masked_toInt ub .l a 5 (by decide)
  | q => exact @masked_toInt ub .q a 6 (by decide)

def bitMask (ub : Undef) (offset : Val) : Val := Val.shift ub .left (.lit .hexUll 1) offset

theorem bitMask_bit {offset : Val} (place : offset.toInt = n) (small : n < 64) {k : Nat}
    (inside : k < 64) : (bitMask ub offset).bit k = decide (k = n) := by
  have one := Nat.testBit_two_pow (n := 0) (m := k - n)
  rw [show (2 : Nat) ^ 0 = 1 from rfl] at one
  rw [bitMask, Val.shift_left_bit ub _ place (by exact small) (by exact inside), Val.lit_bit _ _ (by omega),
    one, Bool.eq_iff_iff]
  simp only [Bool.and_eq_true, decide_eq_true_eq]
  omega

variable {offset : Val} (x : BitVec size.bits)

def testedBit (ub : Undef) (x : BitVec size.bits) (offset : Val) : Val :=
  (Val.arith ub .and ⟨size.uint, x⟩ (bitMask ub offset)).cast size.uint

theorem masked_wide {k : Nat} (inside : k < size.bits) (other : Val) :
    k < (Ty.common size.uint other.ty).width := by
  have := Ty.le_promote_width size.uint
  rw [Ty.common_width]
  simp only at this
  omega

theorem testedBit_bit (place : offset.toInt = n) (small : n < size.bits) (k : Nat) :
    (testedBit ub x offset).bit k = (decide (k = n) && x.getLsbD n) := by
  have bounds := size_cases size
  by_cases inside : k < size.bits
  · rw [testedBit, Val.cast_bit _ _ (by exact inside), Val.arith_bit ub rfl _ _ (masked_wide inside _),
      bitMask_bit place (by omega) (by omega), Val.bit_uint]
    by_cases here : k = n
    · simp [here]
    · simp [here]
  · have away : k ≠ n := by omega
    rw [Val.bit_of_unsigned rfl (by exact Nat.not_lt.mp inside), decide_eq_false away, Bool.false_and]

theorem carried_bit (place : offset.toInt = n) (small : n < size.bits) (k : Nat) :
    (Val.shift ub .left (Val.shift ub .right (testedBit ub x offset) offset) (.lit .dec flagCF)).bit k =
      (decide (k = flagCF) && x.getLsbD n) := by
  have wide := Ty.le_promote_width size.uint
  simp only at wide
  have once := Ty.promote_width size.uint
  have down (j : Nat) : (Val.shift ub .right (testedBit ub x offset) offset).bit j =
      (decide (j = 0) && x.getLsbD n) := by
    rw [Val.shift_right_bit ub _ place (by exact Nat.lt_of_lt_of_le small wide),
      testedBit_bit x place small]
    simp
  have low {j : Nat} (inside : j < size.uint.promote.promote.width) :
      (Val.shift ub .left (Val.shift ub .right (testedBit ub x offset) offset) (.lit .dec flagCF)).bit j =
        (decide (j = flagCF) && x.getLsbD n) := by
    have twice := Ty.promote_width size.uint.promote
    rw [Val.shift_left_bit ub _ (Val.lit_toInt .dec flagCF (by decide))
      (by exact Nat.lt_of_lt_of_le (by decide) twice) (by exact inside), down, flagCF]
    simp
  by_cases inside : k < size.uint.promote.promote.width
  · exact low inside
  · have twice := Ty.promote_width size.uint.promote
    have away : k ≠ flagCF := by
      change k ≠ 0
      omega
    have top : size.uint.promote.promote.width - 1 ≠ flagCF := by
      change _ ≠ 0
      omega
    rw [Val.bit_beyond (by exact Nat.not_lt.mp inside) (by exact Nat.lt_of_lt_of_le (by decide) twice)]
    change (_ && Val.bit _ (size.uint.promote.promote.width - 1)) = _
    rw [low (by omega), decide_eq_false away, decide_eq_false top]
    simp

def TestBit.apply : TestBit → Bool → Bool
  | .c, old => !old
  | .r, _ => false
  | .s, _ => true

theorem modifyVal_bit (bit : TestBit) (place : offset.toInt = n) (small : n < size.bits) {k : Nat}
    (inside : k < size.bits) :
    (bit.modifyVal ub ⟨size.uint, x⟩ offset).bit k =
      if k = n then bit.apply (x.getLsbD k) else x.getLsbD k := by
  have bounds := size_cases size
  have mask := @bitMask_bit ub n offset place (by omega) k (by omega)
  rw [bitMask] at mask
  cases bit with
  | c =>
      rw [TestBit.modifyVal, Val.arith_bit ub rfl _ _ (masked_wide inside _), mask, Val.bit_uint]
      by_cases here : k = n <;> simp [here, TestBit.apply]
  | r =>
      rw [TestBit.modifyVal, Val.arith_bit ub rfl _ _ (masked_wide inside _),
        Val.un_not_bit_wide ub _ (by exact Nat.lt_of_lt_of_le inside bounds.2), mask, Val.bit_uint]
      by_cases here : k = n <;> simp [here, TestBit.apply]
  | s =>
      rw [TestBit.modifyVal, Val.arith_bit ub rfl _ _ (masked_wide inside _), mask, Val.bit_uint]
      by_cases here : k = n <;> simp [here, TestBit.apply]

end

/-- What the manual says of `bt`, `bts`, `btr` and `btc` on the bit at `place`. -/
structure TestsBit (change : Option TestBit) (dest : RegName) (size : Size) (place : Nat) (m m' : Mach) :
    Prop where
  carry : eflBit m' flagCF = (dest.read size m).getLsbD place
  others : ∀ k < 64, k ≠ flagCF → eflBit m' k = eflBit m k
  changed : ∀ bit, change = some bit → ∀ k < size.bits, (dest.read size m').getLsbD k =
    if k = place then bit.apply ((dest.read size m).getLsbD k) else (dest.read size m).getLsbD k
  untouched : change = none → ∀ r, r ≠ .rip → r ≠ .efl → m'.regs r = m.regs r

def Operand.Immediate (o : Operand) : Prop :=
  (∃ n, o = .imm n) ∨ ∃ r g, o = .reg r ∧ baseReg r = some (.gpr g)

structure Instruction.IsBitTest (i : Instruction) (size : Size) (offset : Operand) (dest : RegName) :
    Prop where
  op : i.op = .bt
  sized : i.size1 = some size
  operands : i.operands = [offset, .reg dest]
  selects : offset.Immediate
  general : ∃ g, baseReg dest = some (.gpr g)

section

variable {ub : Undef} {i : Instruction} {size : Size} {offset : Operand} {dest : RegName} {g : Gpr}
  {m m' : Mach}

def afterTest (ub : Undef) (x : BitVec size.bits) (offset : Val) (m : Mach) : Mach :=
  setFlag ub (2 ^ flagCF)
    (Val.shift ub .left (Val.shift ub .right (testedBit ub x offset) offset) (.lit .dec flagCF)) false m

theorem denoteBittest_eq :
    denoteBittest ub i m =
      let x := (i.arg 1).value ub i.bits1 m
      let place := bitOffset ub ((i.arg 0).value ub i.bits1 m)
      match i.testBit with
      | none => afterTest ub x place m
      | some bit => (i.arg 1).write ub i.bits1
          ((bit.modifyVal ub ⟨i.bits1.uint, x⟩ place).cast i.bits1.uint) (afterTest ub x place m) := rfl

section

variable {x : BitVec size.bits} {selected : Val} {n : Nat}
    (place : selected.toInt = n) (small : n < size.bits)
include place small

theorem afterTest_bit {k : Nat} (inside : k < 64) :
    eflBit (afterTest ub x selected m) k = if k = flagCF then x.getLsbD n else eflBit m k := by
  rw [afterTest, eflBit_setFlag_all ub inside (by decide), carried_bit _ place small, Nat.testBit_two_pow]
  by_cases carry : k = flagCF
  · simp [carry]
  · simp [carry, Ne.symm carry]

end

theorem afterTest_regs {x : BitVec size.bits} {place : Val} {r : Reg} (other : r ≠ .efl) :
    (afterTest ub x place m).regs r = m.regs r := by
  rw [afterTest, setFlag, Machine.setReg_regs, if_neg other]

theorem denoteBittest_tests (sized : i.bits1 = size) (first : i.arg 0 = offset) (second : i.arg 1 = .reg dest)
    (base : baseReg dest = some (.gpr g)) (width : size = regSize dest) :
    TestsBit i.testBit dest size ((offset.value ub size m).toNat % size.bits) m (denoteBittest ub i m) := by
  subst sized first
  have place := @bitOffset_toInt ub i.bits1 ((i.arg 0).value ub i.bits1 m)
  have small : ((i.arg 0).value ub i.bits1 m).toNat % i.bits1.bits < i.bits1.bits :=
    Nat.mod_lt _ i.bits1.bits_pos
  have content : (i.arg 1).value ub i.bits1 m = dest.read i.bits1 m := by
    rw [second, Operand.value_reg base width, RegName.read, base]
  rw [denoteBittest_eq]
  simp only [content]
  generalize bitOffset ub ((i.arg 0).value ub i.bits1 m) = selected at place
  generalize ((i.arg 0).value ub i.bits1 m).toNat % i.bits1.bits = n at place small
  have carry := @afterTest_bit ub i.bits1 m (dest.read i.bits1 m) selected n place small flagCF (by decide)
  have others (k : Nat) (inside : k < 64) (other : k ≠ flagCF) :
      eflBit (afterTest ub (dest.read i.bits1 m) selected m) k = eflBit m k := by
    rw [afterTest_bit place small inside, if_neg other]
  rw [if_pos rfl] at carry
  cases i.testBit with
  | none => exact ⟨carry, others, by simp, fun _ r _ other => afterTest_regs other⟩
  | some bit =>
      rw [second]
      simp only [Val.cast]
      rw [Operand.write_put base width]
      refine ⟨carry, others, fun bit' found k inside => ?_, by simp⟩
      cases found
      rw [RegName.read_put width width base, if_pos rfl, Val.conv_getLsbD,
        modifyVal_bit _ bit place small inside]
      simp [inside]

end

theorem Operand.Immediate.plain {o : Operand} (immediate : o.Immediate) : o.Plain := by
  obtain ⟨n, rfl⟩ | ⟨r, g, rfl, base⟩ := immediate
  · exact ⟨by simp, by simp [InReach], by simp [reads]⟩
  · exact ⟨by simp, by simp [InReach], by simp [reads, base]⟩

theorem Operand.Immediate.read_step {o : Operand} {i : Instruction} {size : Size} {m : Mach}
    (immediate : o.Immediate) : o.read size (stepRip i m) = o.read size m := by
  obtain ⟨n, rfl⟩ | ⟨r, g, rfl, base⟩ := immediate
  · rfl
  · exact RegName.read_stepRip base

/-- The emitted code of `bt`, `bts`, `btr` and `btc` does what the manual says. -/
theorem executes_testsBit {ub : Undef} {i : Instruction} {size : Size} {offset : Operand} {dest : RegName}
    {m m' : Mach} (form : i.IsBitTest size offset dest) (active : i.ignored = false)
    (free : ∀ o ∈ i.operands, o.isInstrumentation = false) (spelled : i.Spelled)
    (executed : Executes ub [i] m m') :
    TestsBit i.testBit dest size ((offset.read size m).toNat % size.bits) m m' := by
  obtain ⟨g, base⟩ := form.general
  have sized : i.bits1 = size := by rw [Instruction.bits1, form.sized, Option.getD_some]
  have first : i.arg 0 = offset := by simp [Instruction.arg, form.operands]
  have second : i.arg 1 = .reg dest := by simp [Instruction.arg, form.operands]
  have plain : ∀ o ∈ i.operands, o.Plain := by
    have register : (Operand.reg dest).Immediate := .inr ⟨dest, g, rfl, base⟩
    rw [form.operands]
    simpa using And.intro form.selects.plain register.plain
  have handled := Instruction.handled active (by simp [form.op]) free (spelled.guardless plain)
  obtain ⟨s, out, s', found⟩ := executed.emitted i (by simp)
  obtain ⟨fetched, tested⟩ := emitBody_bittest found handled form.op
  rw [first, sized] at fetched
  rw [second, sized] at tested
  have ran := executed.single (by simp [form.op]) handled
  rw [denoteOp, form.op] at ran
  subst ran
  have tests := @denoteBittest_tests ub i size offset dest g (stepRip i m) sized first second base tested.width
  rw [Operand.value_read fetched form.selects.plain.reach, form.selects.read_step] at tests
  have old : dest.read size (stepRip i m) = dest.read size m := RegName.read_stepRip base
  refine ⟨old ▸ tests.carry, tests.others, old ▸ tests.changed, fun unchanged r notRip notEfl => ?_⟩
  rw [tests.untouched unchanged r notRip notEfl, stepRip_regs notRip]

def btrItself : Instruction :=
  { original := "btr    %ax,%ax", vaddr := 0x1000, length := 4, op := .bt, testBit := some .r,
    size1 := some .w, operands := [.reg (.w .rax), .reg (.w .rax)] }

theorem executes_testsBit_btrItself :
    ∃ m', Executes default [btrItself] onesInRegisters m' ∧
      TestsBit (some .r) (.w .rax) .w 1 onesInRegisters m' := by
  have emitted : EmittedAlone btrItself ((printed (emitFunction .alone btrItself)).get rfl) :=
    ⟨.initial, _, rfl⟩
  have executed : Executes default [btrItself] onesInRegisters _ := .alone emitted .done
  have form : btrItself.IsBitTest .w (.reg (.w .rax)) (.w .rax) :=
    ⟨rfl, rfl, rfl, .inr ⟨_, .rax, rfl, rfl⟩, .rax, rfl⟩
  exact ⟨_, executed, executes_testsBit form rfl (by decide) (fun guard => absurd guard (by decide)) executed⟩

def btsReserved : Instruction :=
  { original := "bts    $0x3,%r14", vaddr := 0x1000, length := 5, op := .bt, testBit := some .s,
    size1 := some .q, operands := [.imm 3, .reg (.q (.gpr .r14))] }

theorem reserved_bittest_dropped :
    ∃ m', Executes default [btsReserved] onesInRegisters m' ∧
      ¬ TestsBit (some .s) (.q (.gpr .r14)) .q 3 onesInRegisters m' := by
  have emitted : EmittedAlone btsReserved ((printed (emitFunction .alone btsReserved)).get rfl) :=
    ⟨.initial, _, rfl⟩
  refine ⟨_, .alone emitted .done, fun tests => ?_⟩
  have changed := tests.changed .s rfl 3
  revert changed
  decide

end Tase
