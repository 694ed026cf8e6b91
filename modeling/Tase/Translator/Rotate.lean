import Tase.Translator.Shift

/-! Rotations, with and without the carry, and double shifts. -/

namespace Tase

open Cpp

structure Instruction.Ordinary (i : Instruction) : Prop where
  active : i.ignored = false
  free : ∀ o ∈ i.operands, o.isInstrumentation = false
  spelled : i.Spelled
  plain : ∀ o ∈ i.operands, o.Plain

def rotateOverflow {n : Nat} (op : Op) (left : Bool) (x y : BitVec n) : Bool :=
  if op = .shd then x.msb ^^ y.msb
  else if left then y.msb ^^ lastOut left x 1
  else y.msb ^^ y.getLsbD (n - 2)

structure Rotates (op : Op) (left : Bool) (dest : Operand) (size : Size) (x y : BitVec size.bits)
    (c : Nat) (m' : Mach) : Prop where
  result : dest.read size m' =
    if op = .shd then if left then funnelLeft x y c else funnelRight x y c
    else if left then x.rotateLeft c else x.rotateRight c
  carry : eflBit m' flagCF = lastOut left x c
  overflow : c = 1 → eflBit m' flagOF = rotateOverflow op left x (dest.read size m')

section

variable {ub : Undef} {i : Instruction} {size : Size} {count filler : Option Operand} {dest : Operand}
  {m m' : Mach}

theorem shiftVal_rotated (form : i.IsShift size count filler dest) (rotation : i.op = .ro)
    (moves : 0 < maskedCount size ((count.getD (.imm 1)).value ub .b m))
    (within : maskedCount size ((count.getD (.imm 1)).value ub .b m) < size.bits) :
    (shiftVal ub i.fixupShift dest dest .b size m).conv size.uint =
      let x := dest.value ub size m
      let c := maskedCount size ((count.getD (.imm 1)).value ub .b m)
      if i.cLeft then x.rotateLeft c else x.rotateRight c := by
  have fixed : i.fixupShift.op = .ro := by simp [Instruction.fixupShift, rotation]
  have filled : shiftFillWord ub i.fixupShift dest size m = dest.value ub size m := by
    simp [shiftFillWord, shiftFillBits, fixed, Operand.fetch]
  rw [← form.fixup_arg] at moves within ⊢
  rw [shiftVal_filled (by simp [fixed]) rfl moves (Nat.le_of_lt within), filled]
  simp only [rotateLeft_funnel _ within, rotateRight_funnel _ within]
  rfl

theorem rotateRight_second (x : BitVec size.bits) : (x.rotateRight 1).getLsbD (size.bits - 2) = x.msb := by
  have bounds := size_cases size
  rw [rotateRight_funnel _ (by omega), funnelRight_bit _ _ (by omega) (by omega), if_pos (by omega),
    BitVec.msb_eq_getLsbD_last]
  congr 1
  omega

theorem rotates (form : i.IsShift size count filler dest) (kind : i.op = .ro ∨ i.op = .shd)
    (ordinary : i.Ordinary) (executed : Executes ub [i.fixupShift] m m')
    (moves : 0 < maskedCount size ((count.getD (.imm 1)).read .b (stepRip i m)))
    (within : maskedCount size ((count.getD (.imm 1)).read .b (stepRip i m)) < size.bits) :
    Rotates i.op i.cLeft dest size (dest.read size (stepRip i m))
      ((filler.getD (.imm 0)).read size (stepRip i m))
      (maskedCount size ((count.getD (.imm 1)).read .b (stepRip i m))) m' := by
  have handled := fixup_handled form ordinary.active ordinary.free ordinary.spelled ordinary.plain
  obtain ⟨readDest, readCount⟩ := shift_fetches form handled ordinary.plain executed (stepRip i m)
  have after := (shift_fetches form handled ordinary.plain executed m').1
  have effect := shiftEffect form handled (ordinary.plain dest form.dest_mem).flags executed
  have moves' : 0 < maskedCount size ((count.getD (.imm 1)).value ub .b (stepRip i m)) :=
    readCount ▸ moves
  have within' : maskedCount size ((count.getD (.imm 1)).value ub .b (stepRip i m)) < size.bits :=
    readCount ▸ within
  rcases kind with rotation | double
  · have notDouble : i.op ≠ .shd := by simp [rotation]
    rw [shiftVal_rotated form rotation moves' within', readDest, readCount] at effect
    refine ⟨?_, effect.carry moves (Nat.le_of_lt within), fun one => ?_⟩
    · rw [← after, effect.result, if_neg notDouble]
    · rw [effect.overflow moves, ← after, effect.result, one]
      simp only [rotateOverflow, if_neg notDouble]
      cases i.cLeft with
      | true =>
          simp only [if_true, lastOut]
          rw [BitVec.msb_eq_getLsbD_last (dest.read size (stepRip i m))]
      | false =>
          simp only [Bool.false_eq_true, if_false]
          rw [rotateRight_second]
  · rw [shiftVal_result form (by simp [double]) fun _ => moves', readDest, readCount,
      filler_read form double handled ordinary.plain executed] at effect
    simp only [shiftResult, double, if_true, if_pos (Nat.le_of_lt within)] at effect
    refine ⟨?_, effect.carry moves (Nat.le_of_lt within), fun one => ?_⟩
    · rw [← after, effect.result, if_pos double]
    · rw [effect.overflow moves, ← after, effect.result, rotateOverflow, if_pos double]
      exact Bool.xor_comm ..

end

/-- The emitted rotations and double shifts do what the manual says, and opposite rotations of one word
undo each other. -/
theorem executes_rotates {ub : Undef} {i : Instruction} {size : Size} {count filler : Option Operand}
    {dest : Operand} {m m' : Mach} {c : Nat} (kind : i.op = .ro ∨ i.op = .shd)
    (form : i.IsShift size count filler dest) (ordinary : i.Ordinary)
    (executed : Executes ub [i.fixupShift] m m')
    (amount : maskedCount size ((count.getD (.imm 1)).read .b (stepRip i m)) = c) (moves : 1 ≤ c)
    (within : c < size.bits) :
    Rotates i.op i.cLeft dest size (dest.read size (stepRip i m))
      ((filler.getD (.imm 0)).read size (stepRip i m)) c m' ∧
    (i.op = .ro → ∀ {j : Instruction} {count' filler' : Option Operand} {dest' : Operand} {m'' : Mach},
      j.op = .ro → j.cLeft = !i.cLeft → j.IsShift size count' filler' dest' → j.Ordinary →
      maskedCount size ((count'.getD (.imm 1)).read .b (stepRip j m')) = c →
      dest'.read size (stepRip j m') = dest.read size m' →
      Executes ub [i.fixupShift, j.fixupShift] m m'' →
      dest'.read size m'' = dest.read size (stepRip i m)) := by
  subst amount
  have first := rotates form kind ordinary executed moves within
  refine ⟨first, fun rotation j count' filler' dest' m'' op opposite form' ordinary' again same both => ?_⟩
  have second := rotates form' (.inl op) ordinary'
    (executed.after both ⟨form.notLoop, form'.notLoop⟩) (again ▸ moves) (again ▸ within)
  have turned := first.result
  have back := second.result
  simp only [rotation, reduceCtorEq, if_false] at turned
  simp only [op, reduceCtorEq, if_false, opposite, again, same, turned] at back
  rw [back]
  cases i.cLeft with
  | true => exact rotateRight_rotateLeft _ within
  | false => exact rotateLeft_rotateRight _ within

def rolMemory : Instruction :=
  { original := "rolw   $0x3,0x8(%rdx)", vaddr := 0x1000, length := 5, op := .ro, cLeft := true,
    size1 := some .w, operands := [.imm 3, .mem ⟨none, 8, some (.q (.gpr .rdx)), none, .one⟩] }

def rorMemory : Instruction :=
  { original := "rorw   $0x3,0x8(%rdx)", vaddr := 0x1005, length := 5, op := .ro,
    size1 := some .w, operands := [.imm 3, .mem ⟨none, 8, some (.q (.gpr .rdx)), none, .one⟩] }

theorem rolMemory_form : rolMemory.IsShift .w (some (.imm 3)) none
    (.mem ⟨none, 8, some (.q (.gpr .rdx)), none, .one⟩) :=
  ⟨by decide, rfl, rfl, rfl, rfl⟩

theorem rorMemory_form : rorMemory.IsShift .w (some (.imm 3)) none
    (.mem ⟨none, 8, some (.q (.gpr .rdx)), none, .one⟩) :=
  ⟨by decide, rfl, rfl, rfl, rfl⟩

theorem executes_rotates_thereAndBack :
    ∃ m' m'', Executes default [rolMemory.fixupShift] negativeWord m' ∧
      Executes default [rolMemory.fixupShift, rorMemory.fixupShift] negativeWord m'' ∧
      Rotates .ro true (.mem ⟨none, 8, some (.q (.gpr .rdx)), none, .one⟩) .w 0x8005 0 3 m' ∧
      (Operand.mem ⟨none, 8, some (.q (.gpr .rdx)), none, .one⟩).read .w m' = 0x2c ∧
      (Operand.mem ⟨none, 8, some (.q (.gpr .rdx)), none, .one⟩).read .w m'' = 0x8005 := by
  have emitted : EmittedAlone rolMemory.fixupShift
      ((printed (emitFunction .alone rolMemory.fixupShift)).get rfl) := ⟨.initial, _, rfl⟩
  have together : EmittedCartridge [rolMemory.fixupShift, rorMemory.fixupShift]
      ((printed (emitCartridge [rolMemory.fixupShift, rorMemory.fixupShift])).get rfl) :=
    ⟨.initial, _, rfl⟩
  have executed : Executes default [rolMemory.fixupShift] negativeWord _ := .alone emitted .done
  have both : Executes default [rolMemory.fixupShift, rorMemory.fixupShift] negativeWord _ :=
    .cartridge together .done
  have first : rolMemory.Ordinary := ⟨rfl, by decide, fun guard => absurd guard (by decide), by decide⟩
  have second : rorMemory.Ordinary := ⟨rfl, by decide, fun guard => absurd guard (by decide), by decide⟩
  have result := executes_rotates (c := 3) (.inl rfl) rolMemory_form first executed (by decide) (by decide)
    (by decide)
  exact ⟨_, _, executed, both, result.1, result.1.result.trans (by decide),
    result.2 rfl rfl rfl rorMemory_form second (by decide) rfl both⟩

def rotateReserved : Instruction :=
  { original := "rolq   %r14", vaddr := 0x1000, length := 3, op := .ro, cLeft := true, size1 := some .q,
    operands := [.reg (.q (.gpr .r14))] }

theorem reserved_rotate_dropped :
    ∃ m', Executes default [rotateReserved.fixupShift] onesInRegisters m' ∧
      ¬ Rotates .ro true (.reg (.q (.gpr .r14))) .q 1 0 1 m' := by
  have emitted : EmittedAlone rotateReserved.fixupShift
      ((printed (emitFunction .alone rotateReserved.fixupShift)).get rfl) := ⟨.initial, _, rfl⟩
  refine ⟨_, .alone emitted .done, fun rotates => ?_⟩
  have result := rotates.result
  revert result
  decide

/-! Rotation through the carry. -/

section

variable {ub : Undef} {i : Instruction} {m : Mach} {size : Size} {dest : Operand}

def movedCarry (ub : Undef) (m : Mach) : Val :=
  Val.shift ub .right (flagVal ub (2 ^ flagCF) m) (.lit .dec flagCF)

theorem movedCarry_bit (k : Nat) : (movedCarry ub m).bit k = (decide (k = 0) && eflBit m flagCF) := by
  have small : flagCF < (flagVal ub (2 ^ flagCF) m).ty.promote.width := by
    change 0 < 32
    decide
  rw [movedCarry, Val.shift_right_lit_bit ub _ _ small (by decide), flagCF, Nat.add_zero]
  by_cases inside : k < 16
  · rw [flagVal_bit ub _ _ inside, Nat.testBit_two_pow, Bool.and_comm]
    by_cases first : k = 0
    · simp [first]
    · simp [first, Ne.symm first]
  · have above : k ≠ 0 := by omega
    rw [Val.bit_of_unsigned rfl (by exact Nat.not_lt.mp inside)]
    simp [above]

theorem placedCarry_bit {place : Nat} (small : place < 32) {k : Nat} (inside : k < 32) :
    (Val.shift ub .left (movedCarry ub m) (.lit .dec place)).bit k =
      (decide (k = place) && eflBit m flagCF) := by
  -- The carry in its place, for the places that an `int` has.
  rw [Val.shift_left_lit_bit ub _ _ small inside, movedCarry_bit, ← Bool.and_assoc]
  congr 1
  rw [Bool.eq_iff_iff]
  simp only [Bool.and_eq_true, decide_eq_true_eq]
  omega

theorem lowestCarry_bit (k : Nat) :
    (Val.shift ub .left (movedCarry ub m) (.lit .dec 0)).bit k = (decide (k = 0) && eflBit m flagCF) := by
  by_cases inside : k < 32
  · exact placedCarry_bit (by decide) inside
  · have sign : (Val.shift ub .left (movedCarry ub m) (.lit .dec 0)).bit k =
        (Val.shift ub .left (movedCarry ub m) (.lit .dec 0)).bit 31 := by
      unfold Val.bit
      rw [if_neg (by exact inside), if_pos (by exact (by decide : 31 < 32)), BitVec.msb_eq_getLsbD_last]
      rfl
    have above : k ≠ 0 := by omega
    rw [sign, placedCarry_bit (by decide) (by decide)]
    simp [above]

theorem shiftFillWord_bit (rc : i.op = .rc) {k : Nat} (inside : k < size.bits) :
    (shiftFillWord ub i dest size m).getLsbD k =
      ((if i.cLeft then (dest.value ub size m).getLsbD (k + 1)
        else decide (1 ≤ k) && (dest.value ub size m).getLsbD (k - 1)) ||
      (Val.shift ub .left (movedCarry ub m) (.lit .dec (if i.cLeft then size.bits - 1 else 0))).bit k) := by
  have bounds := size_cases size
  have wide := Ty.le_promote_width size.uint
  simp only at wide
  have small : 1 < size.uint.promote.width := by omega
  have common := Ty.common_width size.uint.promote .int
  have promoted := Ty.le_promote_width size.uint.promote
  rw [shiftFillWord, Val.conv_getLsbD, shiftFillBits, if_pos rc, if_neg (by simp [rc]),
    Val.cast_bit _ _ (by exact inside), Val.arith_bit ub rfl _ _ ?_]
  · simp only [inside, decide_true, Bool.true_and]
    congr 1
    cases i.cLeft with
    | true =>
        simp only [Bool.not_true, shiftOp, Bool.false_eq_true, if_false, if_true]
        rw [Val.shift_right_lit_bit ub _ _ (by exact small) (by decide), Operand.fetch, Val.bit_uint]
    | false =>
        simp only [Bool.not_false, shiftOp, Bool.false_eq_true, if_false, if_true]
        rw [Val.shift_left_bit ub _ (Val.lit_toInt .dec 1 (by decide)) (by exact small)
          (by exact Nat.lt_of_lt_of_le inside wide), Operand.fetch, Val.bit_uint]
  · exact (by omega : k < (Ty.common size.uint.promote .int).width)

theorem shiftFillWord_carry (rc : i.op = .rc) (defined : ¬(i.cLeft = true ∧ size = .q)) :
    shiftFillWord ub i dest size m =
      if i.cLeft then carryAbove (eflBit m flagCF) (dest.value ub size m)
      else carryBelow (eflBit m flagCF) (dest.value ub size m) := by
  -- What moves in when the carry takes part, unless its place lies beyond an `int`.
  apply BitVec.eq_of_getLsbD_eq
  intro k inside
  have inside : k < size.bits := inside
  rw [shiftFillWord_bit rc inside]
  cases left : i.cLeft with
  | true =>
      have narrow : size.bits ≤ 32 := by
        cases size with
        | b | w | l => decide
        | q => exact absurd ⟨left, rfl⟩ defined
      simp only [if_true]
      rw [carryAbove_bit _ _ inside, placedCarry_bit (by omega) (by omega)]
      by_cases top : k + 1 = size.bits
      · have place : k = size.bits - 1 := by omega
        have beyond : (dest.value ub size m).getLsbD (k + 1) = false := BitVec.getLsbD_of_ge _ _ (by omega)
        rw [if_pos top, beyond]
        simp [place]
      · have other : k ≠ size.bits - 1 := by omega
        rw [if_neg top]
        simp [other]
  | false =>
      simp only [Bool.false_eq_true, if_false]
      rw [carryBelow_bit _ _ inside, lowestCarry_bit]
      by_cases bottom : k = 0
      · simp [bottom]
      · have above : 1 ≤ k := by omega
        simp [bottom, above]

end

def carryRotation {n : Nat} (left cf : Bool) (x : BitVec n) (c : Nat) : BitVec (n + 1) :=
  if left then (BitVec.cons cf x).rotateLeft c else (BitVec.cons cf x).rotateRight c

/-- What the manual says of `rcl` and `rcr` by `c`, and that `rcr` undoes `rcl`. -/
structure RotatesCarry (ub : Undef) (i : Instruction) (dest : Operand) (size : Size)
    (x : BitVec size.bits) (c : Nat) (m m' : Mach) : Prop where
  rotated : BitVec.cons (eflBit m' flagCF) (dest.read size m') =
    carryRotation i.cLeft (eflBit m flagCF) x c
  restored : i.cLeft = true →
    ∀ {j : Instruction} {count' filler' : Option Operand} {dest' : Operand} {m'' : Mach},
      j.op = .rc → j.cLeft = false → j.IsShift size count' filler' dest' →
      j.fixupShift.nothingToDo = false → (∀ o ∈ j.operands, o.Plain) →
      maskedCount size ((count'.getD (.imm 1)).read .b (stepRip j m')) = c →
      dest'.read size (stepRip j m') = dest.read size m' →
      Executes ub [i.fixupShift, j.fixupShift] m m'' →
      dest'.read size m'' = x ∧ eflBit m'' flagCF = eflBit m flagCF

theorem cons_eq_iff {n : Nat} {a b : Bool} {x y : BitVec n} :
    BitVec.cons a x = BitVec.cons b y ↔ a = b ∧ x = y := by
  constructor
  · intro same
    have top := congrArg BitVec.msb same
    have rest := congrArg (BitVec.setWidth n) same
    rw [BitVec.msb_cons, BitVec.msb_cons] at top
    rw [BitVec.setWidth_cons, BitVec.setWidth_cons] at rest
    exact ⟨top, rest⟩
  · rintro ⟨rfl, rfl⟩
    rfl

section

variable {ub : Undef} {i : Instruction} {size : Size} {count filler : Option Operand} {dest : Operand}
  {m m' : Mach}

theorem carry_effect (rc : i.op = .rc) (form : i.IsShift size count filler dest)
    (handled : i.fixupShift.nothingToDo = false) (plain : ∀ o ∈ i.operands, o.Plain)
    (executed : Executes ub [i.fixupShift] m m')
    (moves : 0 < maskedCount size ((count.getD (.imm 1)).read .b (stepRip i m)))
    (within : maskedCount size ((count.getD (.imm 1)).read .b (stepRip i m)) ≤ size.bits) :
    let x := dest.read size (stepRip i m)
    let c := maskedCount size ((count.getD (.imm 1)).read .b (stepRip i m))
    let y := shiftFillWord ub i.fixupShift dest size (stepRip i m)
    dest.read size m' = (if i.cLeft then funnelLeft x y c else funnelRight x y c) ∧
      eflBit m' flagCF = lastOut i.cLeft x c := by
  -- The word and the carry that `rcl` and `rcr` leave.
  have fixed : i.fixupShift.op = .rc := by simp [Instruction.fixupShift, rc]
  obtain ⟨readDest, readCount⟩ := shift_fetches form handled plain executed (stepRip i m)
  have after := (shift_fetches form handled plain executed m').1
  have effect := shiftEffect form handled (plain dest form.dest_mem).flags executed
  rw [← readCount] at moves within ⊢
  rw [← readDest, ← after]
  have carry := effect.carry moves within
  rw [← form.fixup_arg] at moves within ⊢
  refine ⟨?_, form.fixup_arg ▸ carry⟩
  rw [effect.result, shiftVal_filled (by simp [fixed]) rfl moves within]
  rfl

theorem rotated_carry (rc : i.op = .rc) (form : i.IsShift size count filler dest)
    (handled : i.fixupShift.nothingToDo = false) (plain : ∀ o ∈ i.operands, o.Plain)
    (defined : ¬(i.cLeft = true ∧ size = .q)) (executed : Executes ub [i.fixupShift] m m')
    (moves : 0 < maskedCount size ((count.getD (.imm 1)).read .b (stepRip i m)))
    (within : maskedCount size ((count.getD (.imm 1)).read .b (stepRip i m)) < size.bits) :
    BitVec.cons (eflBit m' flagCF) (dest.read size m') =
      carryRotation i.cLeft (eflBit m flagCF) (dest.read size (stepRip i m))
        (maskedCount size ((count.getD (.imm 1)).read .b (stepRip i m))) := by
  have fixed : i.fixupShift.op = .rc := by simp [Instruction.fixupShift, rc]
  have small := Nat.le_of_lt within
  obtain ⟨word, carry⟩ := carry_effect rc form handled plain executed moves small
  rw [shiftFillWord_carry fixed defined, (shift_fetches form handled plain executed (stepRip i m)).1] at word
  change _ = if i.cLeft then funnelLeft _ (if i.cLeft then carryAbove (eflBit m flagCF) _ else _) _
    else funnelRight _ (if i.cLeft then _ else carryBelow (eflBit m flagCF) _) _ at word
  rw [word, carry]
  unfold carryRotation lastOut
  cases i.cLeft with
  | true => exact (rotateLeft_cons _ _ moves small).symm
  | false => exact (rotateRight_cons _ _ moves small).symm

end

/-- The compiler may take any value for the shift of an `int` by 63; this one is never the carry. -/
def adverse (m : Mach) : Undef :=
  { (default : Undef) with shift := fun _ _ _ => if eflBit m flagCF then 0 else -1 }

theorem adverse_fill {i : Instruction} {dest : Operand} {m : Mach} (rc : i.op = .rc)
    (left : i.cLeft = true) :
    (shiftFillWord (adverse m) i dest .q m).getLsbD 63 = !eflBit m flagCF := by
  have outside : ¬(0 ≤ (Val.lit .dec 63).toInt ∧
      (Val.lit .dec 63).toInt < (movedCarry (adverse m) m).ty.promote.width) := by
    rw [Val.lit_toInt .dec 63 (by decide)]
    change ¬(0 ≤ ((63 : Nat) : Int) ∧ ((63 : Nat) : Int) < ((32 : Nat) : Int))
    decide
  rw [shiftFillWord_bit rc (by decide), left]
  simp only [if_true]
  rw [BitVec.getLsbD_of_ge _ _ (by decide), Bool.false_or]
  change (Val.shift (adverse m) .left (movedCarry (adverse m) m) (.lit .dec 63)).bit 63 = _
  rw [Val.shift_undefined (adverse m) outside]
  change (BitVec.ofInt 32 (if eflBit m flagCF then 0 else -1)).msb = _
  cases eflBit m flagCF <;> decide

theorem rotatesCarry_coded {i : Instruction} {size : Size} {count filler : Option Operand}
    {dest : Operand} {m : Mach} {c : Nat} (rc : i.op = .rc) (form : i.IsShift size count filler dest)
    (plain : ∀ o ∈ i.operands, o.Plain) (emitted : i.fixupShift.Emitted)
    (amount : maskedCount size ((count.getD (.imm 1)).read .b (stepRip i m)) = c)
    (moves : 1 ≤ c) (within : c < size.bits) (handled : i.fixupShift.nothingToDo = false) :
    (∀ ub m', Executes ub [i.fixupShift] m m' →
      RotatesCarry ub i dest size (dest.read size (stepRip i m)) c m m') ↔
      ¬(i.cLeft = true ∧ size = .q) := by
  constructor
  · rintro right ⟨left, rfl⟩
    -- the oracle is chosen such that the carry is not what is shifted in
    obtain ⟨m', executed⟩ := @Executes.each (adverse m) [i.fixupShift] m (by simpa using emitted)
    have rotated := (right _ m' executed).rotated
    obtain ⟨word, _⟩ := carry_effect rc form handled plain executed (by omega) (by omega)
    have fixed : i.fixupShift.op = .rc := by simp [Instruction.fixupShift, rc]
    rw [carryRotation, left, if_pos rfl, rotateLeft_cons _ _ moves (Nat.le_of_lt within), cons_eq_iff] at rotated
    rw [amount, left, if_pos rfl, rotated.2] at word
    have bit := congrArg (BitVec.getLsbD · (c - 1)) word
    have top : Size.bits .q + (c - 1) - c = 63 := by
      change 64 + (c - 1) - c = 63
      omega
    rw [funnelLeft_bit _ _ (Nat.le_of_lt within) (by omega), if_neg (by omega),
      funnelLeft_bit _ _ (Nat.le_of_lt within) (by omega), if_neg (by omega), top,
      carryAbove_bit _ _ (by decide), if_pos rfl] at bit
    have wrong := @adverse_fill i.fixupShift dest (stepRip i m) fixed left
    change (shiftFillWord (adverse m) i.fixupShift dest .q (stepRip i m)).getLsbD 63 = !eflBit m flagCF at wrong
    rw [wrong] at bit
    exact (Bool.eq_not_self _).mp bit
  · intro defined ub m' executed
    have first := rotated_carry rc form handled plain defined executed (by omega) (by omega)
    rw [amount] at first
    refine ⟨first, fun left j count' filler' dest' m'' rc' right form' handled' plain' again same both => ?_⟩
    have second := rotated_carry rc' form' handled' plain' (by simp [right])
      (executed.after both ⟨form.notLoop, form'.notLoop⟩) (by omega) (by omega)
    rw [again, same, carryRotation, right, if_neg (by simp), first, carryRotation, left, if_pos rfl,
      rotateRight_rotateLeft _ (by omega), cons_eq_iff] at second
    exact ⟨second.2, second.1⟩

/-- Rotating through the carry is right except for `rcl` at 64 bits, where the place of the carry lies
beyond the `int` that it is shifted in. -/
theorem rotatesCarry_iff {i : Instruction} {size : Size} {count filler : Option Operand}
    {dest : Operand} {m : Mach} {c : Nat} (rc : i.op = .rc) (form : i.IsShift size count filler dest)
    (plain : ∀ o ∈ i.operands, o.Plain) (emitted : i.fixupShift.Emitted)
    (amount : maskedCount size ((count.getD (.imm 1)).read .b (stepRip i m)) = c)
    (moves : 1 ≤ c) (within : c < size.bits) :
    (∀ ub m', Executes ub [i.fixupShift] m m' →
      RotatesCarry ub i dest size (dest.read size (stepRip i m)) c m m') ↔
      (i.fixupShift.nothingToDo = false ∧ ¬(i.cLeft = true ∧ size = .q)) ∨
      i.fixupShift.Idle (fun m' => ∀ ub, RotatesCarry ub i dest size (dest.read size (stepRip i m)) c m m') m :=
  emitted.required_iff form.notLoop (rotatesCarry_coded rc form plain emitted amount moves within)

def rclNarrow : Instruction :=
  { original := "rcll   %eax", vaddr := 0x1000, length := 2, op := .rc, cLeft := true, size1 := some .l,
    operands := [.reg (.d .rax)] }

theorem rclNarrow_form : rclNarrow.IsShift .l none none (.reg (.d .rax)) :=
  ⟨by decide, rfl, rfl, rfl, rfl⟩

theorem rclNarrow_emitted : EmittedAlone rclNarrow.fixupShift
    ((printed (emitFunction .alone rclNarrow.fixupShift)).get rfl) := ⟨.initial, _, rfl⟩

theorem rotatesCarry_iff_rclNarrow :
    ∃ m', Executes default [rclNarrow.fixupShift] onesInRegisters m' ∧
      RotatesCarry default rclNarrow (.reg (.d .rax)) .l 1 1 onesInRegisters m' := by
  have executed : Executes default [rclNarrow.fixupShift] onesInRegisters _ :=
    .alone rclNarrow_emitted .done
  exact ⟨_, executed, (rotatesCarry_iff rfl rclNarrow_form (by decide)
    rclNarrow_emitted.emitted rfl (by decide) (by decide)).mpr (.inl (by decide)) default _ executed⟩

def rclWide : Instruction :=
  { original := "rclq   %rax", vaddr := 0x1000, length := 3, op := .rc, cLeft := true, size1 := some .q,
    operands := [.reg (.q (.gpr .rax))] }

theorem rcl_loses_carry :
    eflBit onesInRegisters flagCF = true ∧
      ∃ m', Executes default [rclWide.fixupShift] onesInRegisters m' ∧
        (Operand.reg (.q (.gpr .rax))).read .q m' = 2 ∧
        ¬ RotatesCarry default rclWide (.reg (.q (.gpr .rax))) .q 1 1 onesInRegisters m' := by
  -- With the carry set, `rcl` of 1 has to give 3; what the compiler makes of the shift by 63 decides.
  have emitted : EmittedAlone rclWide.fixupShift
      ((printed (emitFunction .alone rclWide.fixupShift)).get rfl) := ⟨.initial, _, rfl⟩
  refine ⟨by decide, _, .alone emitted .done, by decide, fun rotates => ?_⟩
  have rotated := rotates.rotated
  revert rotated
  decide

end Tase
