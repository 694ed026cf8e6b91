import Tase.Translator.Multiply

/-! Division of the double word in the high register and the accumulator. -/

namespace Tase

open Cpp

namespace Instruction

def number {width : Nat} (i : Instruction) (x : BitVec width) : Int :=
  if i.signExt then x.toInt else x.toNat

def dividend (i : Instruction) (m : Mach) : Int :=
  i.number (join ((divHigh i.bits1).read i.bits1 m) ((regOperand .rax i.bits1).read i.bits1 m))

def divisor (i : Instruction) (m : Mach) : Int := i.number ((i.arg 0).read i.bits1 m)

def quotient (i : Instruction) (m : Mach) : Int := i.number ((regOperand .rax i.bits1).read i.bits1 m)

def remainder (i : Instruction) (m : Mach) : Int := i.number ((divHigh i.bits1).read i.bits1 m)

structure Divides (i : Instruction) (m m' : Mach) : Prop where
  identity : i.dividend (stepRip i m) = i.quotient m' * i.divisor (stepRip i m) + i.remainder m'
  smaller : (i.remainder m').natAbs < (i.divisor (stepRip i m)).natAbs
  truncated : i.quotient m' = (i.dividend (stepRip i m)).tdiv (i.divisor (stepRip i m))
  sign : (0 ≤ i.dividend (stepRip i m) → 0 ≤ i.remainder m') ∧
    (i.dividend (stepRip i m) ≤ 0 → i.remainder m' ≤ 0)

end Instruction

section

variable {ub : Undef} {i : Instruction} {m : Mach}

theorem common_holds {size : Size} {signed : Bool} {n : Int}
    (holds : (⟨size.bits * 2, signed⟩ : Ty).Holds n) :
    (Ty.common ⟨size.bits * 2, signed⟩ ⟨size.bits, signed⟩).Holds n := by
  cases size with
  | b =>
      cases signed with
      | true => exact holds.widen (by decide)
      | false =>
          have bounds : 0 ≤ n ∧ n < 2 ^ 16 := holds
          have result : 0 < 32 ∧ -2 ^ 31 ≤ n ∧ n < 2 ^ 31 := by omega
          exact result
  | w | l | q => cases signed <;> exact holds

theorem divDividend_join (size : Size) (signed : Bool) :
    divDividend ub size signed m = ⟨⟨size.bits * 2, signed⟩,
      join ((divHigh size).read size m) ((regOperand .rax size).read size m)⟩ := by
  rw [← divHigh_read ub, ← accumulator_read ub]
  exact join_val ub size.bits_pos (size_cases size).2 signed _ _

section

variable (known : (i.arg 0).value ub i.bits1 m = (i.arg 0).read i.bits1 m)
  (nonzero : i.divisor m ≠ 0)
  (fits : (⟨i.bits1.bits, i.signExt⟩ : Ty).Holds ((i.dividend m).tdiv (i.divisor m)))

include known nonzero fits

theorem divPart_toInt :
    (Val.arith ub .div (divDividend ub i.bits1 i.signExt m) ((i.arg 0).fetch ub i.bits1 i.signExt m)).toInt =
        (i.dividend m).tdiv (i.divisor m) ∧
      (Val.arith ub .rem (divDividend ub i.bits1 i.signExt m) ((i.arg 0).fetch ub i.bits1 i.signExt m)).toInt =
        (i.dividend m).tmod (i.divisor m) := by
  have positive := i.bits1.bits_pos
  have wide : i.bits1.bits ≤ i.bits1.bits * 2 := by omega
  have left : (⟨i.bits1.bits * 2, i.signExt⟩ : Ty).Holds (i.dividend m) :=
    Val.holds ⟨⟨i.bits1.bits * 2, i.signExt⟩, _⟩ (Nat.lt_of_lt_of_le positive wide)
  have right : (⟨i.bits1.bits, i.signExt⟩ : Ty).Holds (i.divisor m) :=
    Val.holds ⟨⟨i.bits1.bits, i.signExt⟩, _⟩ positive
  rw [divDividend_join, Operand.fetch, known]
  exact Val.arith_div ub (common_holds left) (common_holds (right.widen wide)) nonzero
    (common_holds (fits.widen wide))

omit known fits in
theorem remainder_lt :
    ((i.dividend m).tmod (i.divisor m)).natAbs < (i.divisor m).natAbs := by
  rw [Int.natAbs_tmod]
  exact Nat.mod_lt _ (Int.natAbs_pos.mpr nonzero)

omit known fits in
theorem remainder_holds :
    (⟨i.bits1.bits, i.signExt⟩ : Ty).Holds ((i.dividend m).tmod (i.divisor m)) := by
  have right : (⟨i.bits1.bits, i.signExt⟩ : Ty).Holds (i.divisor m) :=
    Val.holds ⟨⟨i.bits1.bits, i.signExt⟩, _⟩ i.bits1.bits_pos
  have less := remainder_lt nonzero
  unfold Ty.Holds at *
  simp only at *
  split
  · rename_i signed
    rw [if_pos signed] at right
    omega
  · rename_i unsigned
    have natural : 0 ≤ i.dividend m := by
      rw [Instruction.dividend, Instruction.number, if_neg unsigned]
      exact Int.natCast_nonneg _
    have lower := Int.tmod_nonneg (i.divisor m) natural
    rw [if_neg unsigned] at right
    omega

theorem denoteDiv_parts :
    i.quotient (denoteDiv ub i m) = (i.dividend m).tdiv (i.divisor m) ∧
      i.remainder (denoteDiv ub i m) = (i.dividend m).tmod (i.divisor m) := by
  have narrow (op : ArithOp) : (divPart ub op i m).ty.width ≤ 64 := (size_cases i.bits1).2
  have stored (op : ArithOp) : (divPart ub op i m).conv i.bits1.uint = BitVec.ofInt i.bits1.bits
      (Val.arith ub op (divDividend ub i.bits1 i.signExt m) ((i.arg 0).fetch ub i.bits1 i.signExt m)).toInt := by
    have same : i.bits1.uint.width ≤ (⟨i.bits1.bits, i.signExt⟩ : Ty).width := Nat.le_refl _
    rw [divPart, Val.cast_conv_of_le _ _ _ same, Val.conv_eq_ofInt]
  obtain ⟨quotient, remainder⟩ := divPart_toInt known nonzero fits
  constructor
  · rw [Instruction.quotient, ← accumulator_read ub, denoteDiv, accumulator_divHigh (narrow .rem),
      Operand.value_write (regOperandStorable ..) (narrow .div), stored, quotient]
    exact fits.ofInt
  · rw [Instruction.remainder, ← divHigh_read ub, denoteDiv,
      Operand.value_write (divHighStorable _) (narrow .rem), stored, remainder]
    exact (remainder_holds nonzero).ofInt

end

theorem denote_divides (emitted : i.Emitted) (handled : i.nothingToDo = false)
    (plain : ∀ o ∈ i.operands, o.Plain) (div : i.op = .div) (nonzero : i.divisor (stepRip i m) ≠ 0)
    (fits : (⟨i.bits1.bits, i.signExt⟩ : Ty).Holds
      ((i.dividend (stepRip i m)).tdiv (i.divisor (stepRip i m)))) :
    i.Divides m (denote ub i m) := by
  obtain ⟨s, out, s', found⟩ := emitted
  have fetched := emitBody_fetches found handled (i.arg 0, i.bits1) (by simp [Instruction.fetches, div])
  have known := @Operand.value_read ub _ _ (stepRip i m) fetched (i.arg_plain plain 0).reach
  have acts : denote ub i m = denoteDiv ub i (stepRip i m) := by
    rw [denote, handled, if_neg (by simp)]
    simp only [denoteOp, div]
  obtain ⟨quotient, remainder⟩ := denoteDiv_parts known nonzero fits
  rw [acts]
  refine ⟨?_, ?_, quotient, ?_⟩
  · rw [quotient, remainder, Int.mul_comm, Int.add_comm, Int.tmod_add_mul_tdiv]
  · rw [remainder]
    exact remainder_lt nonzero
  · rw [remainder]
    refine ⟨Int.tmod_nonneg _, fun negative => ?_⟩
    have opposite := Int.tmod_nonneg (i.divisor (stepRip i m)) (Int.neg_nonneg_of_nonpos negative)
    rw [Int.neg_tmod] at opposite
    omega

end

structure Instruction.SignExtends (i : Instruction) (size : Size) : Prop where
  op : i.op = .ctd
  size1 : i.size1 = some size
  size2 : i.size2 = some size
  operands : i.operands = [regOperand .rax size, regOperand .rdx size]
  wide : size ≠ .b

section

variable {ub : Undef} {i : Instruction} {m : Mach} {size : Size}

theorem divHigh_stepRip : (divHigh size).read size (stepRip i m) = (divHigh size).read size m := by
  cases size <;> rfl

theorem accumulator_stepRip :
    (regOperand .rax size).read size (stepRip i m) = (regOperand .rax size).read size m := by
  cases size <;> rfl

theorem signExtended (extending : i.SignExtends size) (handled : i.nothingToDo = false) :
    (regOperand .rax size).read size (denote ub i m) = (regOperand .rax size).read size m ∧
      (divHigh size).read size (denote ub i m) =
        if ((regOperand .rax size).read size m).msb then BitVec.allOnes size.bits else 0 := by
  obtain ⟨op, size1, size2, operands, wide⟩ := extending
  have high : divHigh size = regOperand .rdx size := if_neg wide
  have before : (regOperand .rax size).value ub size (stepRip i m) = (regOperand .rax size).read size m := by
    rw [accumulator_read, accumulator_stepRip]
  have acts : denote ub i m = (divHigh size).write ub size
      ((Val.shift ub .right ⟨⟨size.bits, true⟩, (regOperand .rax size).read size m⟩
        (.lit .dec (size.bits - 1))).cast ⟨size.bits, true⟩) (stepRip i m) := by
    have source : i.arg 0 = regOperand .rax size := by simp [Instruction.arg, operands]
    have target : i.arg 1 = regOperand .rdx size := by simp [Instruction.arg, operands]
    have from1 : i.bits1 = size := by simp [Instruction.bits1, size1]
    have from2 : i.size2.getD .q = size := by simp [size2]
    rw [denote, handled, if_neg (by simp), high, ← before]
    simp only [denoteOp, op, denoteCtd, source, target, from2, Operand.fetch]
    subst from1
    rfl
  have narrow : ((Val.shift ub .right ⟨⟨size.bits, true⟩, (regOperand .rax size).read size m⟩
      (.lit .dec (size.bits - 1))).cast ⟨size.bits, true⟩).ty.width ≤ 64 := (size_cases size).2
  rw [acts, ← accumulator_read ub, ← divHigh_read ub]
  constructor
  · rw [accumulator_divHigh narrow, before]
  · rw [Operand.value_write (divHighStorable size) narrow]
    apply BitVec.eq_of_getLsbD_eq
    intro k inside
    have inside' : k < (⟨size.bits, true⟩ : Ty).width := inside
    rw [Val.conv_getLsbD, Val.cast_bit _ _ inside', sign_shift size.bits_pos ub (size_cases size).2,
      filled_getLsbD]

end

theorem Instruction.SignExtends.handled {i : Instruction} {size : Size} (extending : i.SignExtends size)
    (active : i.ignored = false) (spelled : i.Spelled) : i.nothingToDo = false := by
  refine Instruction.handled active (by simp [extending.op]) ?_ ?_
  · rw [extending.operands]
    cases size <;> decide
  · rw [Bool.eq_false_iff]
    intro guard
    obtain ⟨target, member, _⟩ := spelled guard
    simp [extending.operands, regOperand] at member

theorem quotient_holds {size : Size} {x y : Int} (left : (⟨size.bits, true⟩ : Ty).Holds x)
    (nonzero : y ≠ 0) (apart : ¬(x = -2 ^ (size.bits - 1) ∧ y = -1)) :
    (⟨size.bits, true⟩ : Ty).Holds (x.tdiv y) := by
  obtain ⟨positive, lower, upper⟩ : 0 < size.bits ∧ -2 ^ (size.bits - 1) ≤ x ∧
    x < 2 ^ (size.bits - 1) := left
  have power : (0 : Int) < 2 ^ (size.bits - 1) := Int.pow_pos (by decide)
  refine ⟨positive, ?_⟩
  change -2 ^ (size.bits - 1) ≤ x.tdiv y ∧ x.tdiv y < 2 ^ (size.bits - 1)
  by_cases minimum : x = -2 ^ (size.bits - 1)
  · by_cases one : y = 1
    · rw [one, Int.tdiv_one]
      omega
    · -- a divisor that is larger makes the quotient half as large
      have large : 2 ≤ y.natAbs := by
        have other : y ≠ -1 := fun same => apart ⟨minimum, same⟩
        omega
      have half : (x.tdiv y).natAbs ≤ x.natAbs / 2 := by
        rw [Int.natAbs_tdiv]
        exact Nat.div_le_div_left large (by decide)
      omega
  · have smaller := Int.natAbs_tdiv_le_natAbs x y
    omega

/-- The emitted code divides as the manual says, and behind a sign extension it divides the
accumulator. -/
theorem executes_division {ub : Undef} {i : Instruction} {m m' : Mach} (active : i.ignored = false)
    (free : ∀ o ∈ i.operands, o.isInstrumentation = false) (spelled : i.Spelled)
    (plain : ∀ o ∈ i.operands, o.Plain) (div : i.op = .div) :
    (Executes ub [i] m m' → i.divisor (stepRip i m) ≠ 0 →
      (⟨i.bits1.bits, i.signExt⟩ : Ty).Holds
        ((i.dividend (stepRip i m)).tdiv (i.divisor (stepRip i m))) → i.Divides m m') ∧
    ∀ {extending : Instruction}, extending.SignExtends i.bits1 → extending.ignored = false →
      extending.Spelled → i.signExt = true → Executes ub [extending, i] m m' →
      let x := ((regOperand .rax i.bits1).read i.bits1 m).toInt
      let y := i.divisor (stepRip i (denote ub extending m))
      y ≠ 0 → ¬(x = -2 ^ (i.bits1.bits - 1) ∧ y = -1) →
        i.quotient m' = x.tdiv y ∧ i.remainder m' = x.tmod y := by
  have handled := Instruction.handled active (by simp [div]) free (spelled.guardless plain)
  constructor
  · intro executed nonzero fits
    have ran : m' = denote ub i m := executed.eq_stepAll (by simp [div])
    subst ran
    exact denote_divides (executed.emitted i (by simp)) handled plain div nonzero fits
  · intro extending extended activeFirst spelledFirst signed executed x y nonzero apart
    have ran : m' = denote ub i (denote ub extending m) :=
      executed.eq_stepAll (by simp [div, extended.op])
    have kept := extended.handled activeFirst spelledFirst
    obtain ⟨low, high⟩ := @signExtended ub extending m i.bits1 extended kept
    have word : i.dividend (stepRip i (denote ub extending m)) = x := by
      rw [Instruction.dividend, Instruction.number, if_pos signed, divHigh_stepRip, accumulator_stepRip,
        low, high, join_sign i.bits1.bits_pos]
    have left : (⟨i.bits1.bits, true⟩ : Ty).Holds x :=
      Val.holds ⟨⟨i.bits1.bits, true⟩, (regOperand .rax i.bits1).read i.bits1 m⟩ i.bits1.bits_pos
    have divides := @denote_divides ub i (denote ub extending m) (executed.emitted i (by simp)) handled
      plain div nonzero (by rw [word, signed]; exact quotient_holds left nonzero apart)
    rw [← ran] at divides
    have truncated := divides.truncated
    have identity := divides.identity
    rw [word] at truncated identity
    change x = i.quotient m' * y + i.remainder m' at identity
    refine ⟨truncated, ?_⟩
    rw [Int.tmod_def, ← truncated, Int.mul_comm]
    omega

def idivRegister : Instruction :=
  { original := "idiv   %ecx", vaddr := 0x1001, length := 2, op := .div, signExt := true,
    size1 := some .l, operands := [.reg (.d .rcx)] }

def extendRegister : Instruction :=
  { original := "cltd", vaddr := 0x1000, length := 1, op := .ctd, signExt := true, size1 := some .l,
    size2 := some .l, operands := [.reg (.d .rax), .reg (.d .rdx)] }

def smallDividend : Mach := onesInRegisters.setReg (.gpr .rdx) 0

theorem executes_division_small :
    (∃ m', Executes default [idivRegister] smallDividend m' ∧ idivRegister.Divides smallDividend m') ∧
      ∃ m', Executes default [extendRegister, idivRegister] smallDividend m' ∧
        idivRegister.quotient m' = 1 ∧ idivRegister.remainder m' = 0 := by
  have spelled : idivRegister.Spelled := fun guard => absurd guard (by decide)
  have spelledFirst : extendRegister.Spelled := fun guard => absurd guard (by decide)
  have plain : ∀ o ∈ idivRegister.operands, o.Plain :=
    List.forall_mem_singleton.mpr ⟨by simp, by simp [Operand.InReach], by decide⟩
  have alone : EmittedAlone idivRegister ((printed (emitFunction .alone idivRegister)).get rfl) :=
    ⟨.initial, _, rfl⟩
  have together : EmittedCartridge [extendRegister, idivRegister]
      ((printed (emitCartridge [extendRegister, idivRegister])).get rfl) := ⟨.initial, _, rfl⟩
  have first : Executes default [idivRegister] smallDividend _ := .alone alone .done
  have second : Executes default [extendRegister, idivRegister] smallDividend _ :=
    .cartridge together .done
  refine ⟨⟨_, first, ?_⟩, ⟨_, second, ?_⟩⟩
  · exact (executes_division rfl (by decide) spelled plain rfl).1 first (by decide)
      ⟨by decide, by decide, by decide⟩
  · exact (executes_division rfl (by decide) spelled plain rfl).2 ⟨rfl, rfl, rfl, rfl, by decide⟩ rfl
      spelledFirst rfl second (by decide) (by decide)

def divReserved : Instruction :=
  { original := "div    %r14", vaddr := 0x1000, length := 3, op := .div, size1 := some .q,
    operands := [.reg (.q (.gpr .r14))] }

theorem reserved_divisor_dropped :
    divReserved.divisor (stepRip divReserved (smallDividend.setReg (.gpr .r14) 2)) = 2 ∧
      divReserved.dividend (stepRip divReserved (smallDividend.setReg (.gpr .r14) 2)) = 1 ∧
      ∃ m', Executes default [divReserved] (smallDividend.setReg (.gpr .r14) 2) m' ∧
        ¬ divReserved.Divides (smallDividend.setReg (.gpr .r14) 2) m' := by
  have emitted : EmittedAlone divReserved ((printed (emitFunction .alone divReserved)).get rfl) :=
    ⟨.initial, _, rfl⟩
  refine ⟨by decide, by decide, _, .alone emitted .done, fun divides => ?_⟩
  have truncated := divides.truncated
  revert truncated
  decide

end Tase
