import Tase.Cpp.Funnel
import Tase.Translator.Flags
import Tase.Translator.Footprint

/-! The words and the flags that `_emit_shift` computes. -/

namespace Tase

open Cpp

/-- Six bits of the count for 64-bit operands, five for the others. -/
def maskedCount {n : Nat} (size : Size) (a : BitVec n) : Nat := a.toNat % (if size = .q then 64 else 32)

theorem maskedCount_lt {n : Nat} (size : Size) (a : BitVec n) (signed : Bool) :
    maskedCount size a < (Ty.promote ⟨size.bits, signed⟩).width := by
  unfold maskedCount
  cases size <;> exact Nat.mod_lt _ (by decide)

theorem maskedCount_bound {n : Nat} (size : Size) (a : BitVec n) : maskedCount size a < 64 := by
  unfold maskedCount
  split <;> omega

section

variable {ub : Undef} {i : Instruction} {m : Mach} {size1 size2 : Size}

theorem shiftAmount_toInt :
    (shiftAmount ub i size1 size2 m).toInt = maskedCount size2 ((i.arg 0).value ub size1 m) := by
  have bounds := size_cases size1
  unfold shiftAmount maskedCount
  by_cases wide : size2 = .q
  · simp only [if_pos wide]
    exact masked_toInt ub _ (p := 6) (by omega)
  · simp only [if_neg wide]
    exact masked_toInt ub _ (p := 5) (by omega)

theorem maskedCount_byte (a : BitVec (Size.bits .b)) : maskedCount size2 a < 2 ^ 8 := by
  have := maskedCount_bound size2 a
  omega

theorem complement_toInt (within : maskedCount size2 ((i.arg 0).value ub .b m) ≤ size2.bits) :
    (Val.arith ub .sub (.lit .dec size2.bits) (shiftAmount ub i .b size2 m)).toInt =
      ((size2.bits - maskedCount size2 ((i.arg 0).value ub .b m) : Nat) : Int) := by
  have bounds := size_cases size2
  have small := @maskedCount_byte size2 ((i.arg 0).value ub .b m)
  have literal := Val.lit_toInt .dec size2.bits (by omega)
  have count := @shiftAmount_toInt ub i m .b size2
  rw [Val.sub_small ub (.inl (by cases size2 <;> rfl)) (.inr rfl) (by rw [literal]; omega)
    (by rw [count]; omega), literal, count]
  omega

theorem pred_toInt (moves : 0 < maskedCount size2 ((i.arg 0).value ub .b m)) :
    (Val.arith ub .sub (shiftAmount ub i .b size2 m) (.lit .dec 1)).toInt =
      ((maskedCount size2 ((i.arg 0).value ub .b m) - 1 : Nat) : Int) := by
  have small := @maskedCount_byte size2 ((i.arg 0).value ub .b m)
  have literal := Val.lit_toInt .dec 1 (by omega)
  have count := @shiftAmount_toInt ub i m .b size2
  rw [Val.sub_small ub (.inr rfl) (.inl rfl) (by rw [count]; omega) (by rw [literal]; omega), literal,
    count]
  omega

theorem shifted_word {src : Operand} :
    ((Val.shift ub (shiftOp i.cLeft) (src.fetch ub size2 i.signExt m)
      (shiftAmount ub i size1 size2 m)).cast ⟨size2.bits, i.signExt⟩).conv size2.uint =
      let x := src.value ub size2 m
      let c := maskedCount size2 ((i.arg 0).value ub size1 m)
      if i.cLeft then x <<< c else if i.signExt then x.sshiftRight c else x >>> c := by
  have small := maskedCount_lt size2 ((i.arg 0).value ub size1 m) i.signExt
  rw [Val.cast_conv_of_le _ ⟨size2.bits, i.signExt⟩ size2.uint (Nat.le_refl _)]
  cases i.cLeft with
  | true => exact Val.shift_left_word ub shiftAmount_toInt small
  | false => exact Val.shift_right_word ub shiftAmount_toInt small

def shiftFillWord (ub : Undef) (i : Instruction) (dest : Operand) (size : Size) (m : Mach) :
    BitVec size.bits :=
  (shiftFillBits ub i size ((if i.op = .shd then i.arg 1 else dest).fetch ub size false m)
    (flagVal ub (2 ^ flagCF) m)).conv size.uint

theorem shiftFillBits_eq {dest : Operand} :
    shiftFillBits ub i size2 ((if i.op = .shd then i.arg 1 else dest).fetch ub size2 false m)
      (flagVal ub (2 ^ flagCF) m) = ⟨size2.uint, shiftFillWord ub i dest size2 m⟩ := by
  unfold shiftFillWord shiftFillBits
  split <;> simp [Operand.fetch, Val.cast]

theorem shiftVal_plain {dest src : Operand} (plain : i.op ≠ .rc ∧ i.op ≠ .ro ∧ i.op ≠ .shd) :
    (shiftVal ub i dest src size1 size2 m).conv size2.uint =
      let x := src.value ub size2 m
      let c := maskedCount size2 ((i.arg 0).value ub size1 m)
      if i.cLeft then x <<< c else if i.signExt then x.sshiftRight c else x >>> c := by
  rw [← shifted_word]
  unfold shiftVal shiftFilled
  rw [if_neg (by simp [plain])]

theorem shiftVal_filled {dest src : Operand} (fills : i.op = .rc ∨ i.op = .ro ∨ i.op = .shd)
    (narrow : size1 = .b) (moves : 0 < maskedCount size2 ((i.arg 0).value ub size1 m))
    (within : maskedCount size2 ((i.arg 0).value ub size1 m) ≤ size2.bits) :
    (shiftVal ub i dest src size1 size2 m).conv size2.uint =
      let x := src.value ub size2 m
      let y := shiftFillWord ub i dest size2 m
      let c := maskedCount size2 ((i.arg 0).value ub size1 m)
      if i.cLeft then funnelLeft x y c else funnelRight x y c := by
  subst narrow
  have unsigned : i.signExt = false :=
    Instruction.signExt_eq_false (by rcases fills with op | op | op <;> simp [op])
  have word := @shifted_word ub i m .b size2 src
  have bounds := size_cases size2
  have wide := Ty.le_promote_width size2.uint
  simp only at wide
  have amount := @complement_toInt ub i m size2 within
  simp only [unsigned, Bool.false_eq_true, if_false] at word
  unfold shiftVal shiftFilled
  rw [if_pos (by simpa [or_assoc] using fills)]
  simp only [shiftFillBits_eq, unsigned]
  refine (Val.or_word ub).trans ?_
  simp only [Val.cast_ty]
  rw [word]
  cases i.cLeft with
  | true =>
      simp only [shiftOp, Bool.not_true, Bool.false_eq_true, if_false, if_true]
      rw [Val.shift_right_word ub amount (Nat.lt_of_lt_of_le (by omega) wide)]
      rfl
  | false =>
      simp only [shiftOp, Bool.not_false, Bool.false_eq_true, if_false, if_true]
      rw [Val.shift_left_word ub amount (Nat.lt_of_lt_of_le (by omega) wide)]
      rfl

theorem shiftVal_beyond {dest src : Operand} (double : i.op = .shd)
    (beyond : size2.bits < maskedCount size2 ((i.arg 0).value ub .b m)) :
    (shiftVal ub i dest src .b size2 m).conv size2.uint =
      let y := (i.arg 1).value ub size2 m
      let c := maskedCount size2 ((i.arg 0).value ub .b m)
      BitVec.ofInt size2.bits
        (ub.shift (shiftOp (!i.cLeft)) ⟨size2.uint, y⟩ ⟨.int, BitVec.ofInt 32 (size2.bits - c)⟩) := by
  have bounds := size_cases size2
  have small := @maskedCount_byte size2 ((i.arg 0).value ub .b m)
  have unsigned : i.signExt = false := Instruction.signExt_eq_false (by simp [double])
  have word := @shifted_word ub i m .b size2 src
  have nothing : (if i.cLeft then
      src.value ub size2 m <<< maskedCount size2 ((i.arg 0).value ub .b m)
      else src.value ub size2 m >>> maskedCount size2 ((i.arg 0).value ub .b m)) = BitVec.ofNat size2.bits 0 := by
    cases i.cLeft with
    | true => exact BitVec.shiftLeft_eq_zero (Nat.le_of_lt beyond)
    | false => exact BitVec.ushiftRight_eq_zero (Nat.le_of_lt beyond)
  have literal := Val.lit_toInt .dec size2.bits (by omega)
  have count := @shiftAmount_toInt ub i m .b size2
  have distance := Val.sub_small ub (l := .lit .dec size2.bits) (r := shiftAmount ub i .b size2 m)
    (.inl (by cases size2 <;> rfl)) (.inr rfl) (by rw [literal]; omega) (by rw [count]; omega)
  have amount : Val.arith ub .sub (.lit .dec size2.bits) (shiftAmount ub i .b size2 m) =
      ⟨.int, BitVec.ofInt 32 (size2.bits - maskedCount size2 ((i.arg 0).value ub .b m))⟩ := by
    rw [← literal, ← count, ← distance]
    exact Val.eq_int (by cases size2 <;> rfl)
  have below : ¬(0 ≤ (Val.arith ub .sub (.lit .dec size2.bits) (shiftAmount ub i .b size2 m)).toInt) := by
    rw [distance, literal, count]
    omega
  simp only [unsigned, Bool.false_eq_true, if_false] at word
  unfold shiftVal shiftFilled
  rw [if_pos (by simp [double])]
  simp only [double, if_true, shiftFillBits, reduceCtorEq, if_false, unsigned]
  refine (Val.or_word ub).trans ?_
  simp only [Val.cast_ty]
  rw [word, nothing]
  refine BitVec.zero_or.trans ?_
  rw [Val.shift_undefined ub (fun range => below range.1),
    Val.conv_of_le _ _ (Ty.le_promote_width size2.uint), amount]
  exact setWidth_ofInt _ (Ty.le_promote_width size2.uint)

theorem shiftVal_ty {dest src : Operand} :
    (shiftVal ub i dest src size1 size2 m).ty = ⟨size2.bits, i.signExt⟩ := by
  unfold shiftVal shiftFilled
  split <;> rfl

theorem conv_same {size : Size} {signed : Bool} (x : BitVec size.bits) :
    (⟨⟨size.bits, signed⟩, x⟩ : Val).conv size.uint = x := by
  apply BitVec.eq_of_getLsbD_eq
  intro k bound
  have bound : k < size.bits := bound
  rw [Val.conv_getLsbD, Val.bit_of_lt (by exact bound)]
  simp [bound]

theorem shiftVal_eq {dest src : Operand} :
    shiftVal ub i dest src size1 size2 m =
      ⟨⟨size2.bits, i.signExt⟩, (shiftVal ub i dest src size1 size2 m).conv size2.uint⟩ := by
  have type := @shiftVal_ty ub i m size1 size2 dest src
  generalize shiftVal ub i dest src size1 size2 m = v at *
  obtain ⟨ty, bits⟩ := v
  cases type
  rw [conv_same]

/-! The flags. -/

theorem shiftOverflowVal_bit {signed : Bool} (src shift : BitVec size2.bits) {k : Nat} (inside : k < 16) :
    (shiftOverflowVal ub ⟨⟨size2.bits, signed⟩, src⟩ ⟨⟨size2.bits, signed⟩, shift⟩ size2).bit k =
      (decide (flagOF = k) && (shift.msb ^^ src.msb)) := by
  have bounds := size_cases size2
  have top : size2.bits - 1 < size2.bits := by omega
  have wide := Ty.le_promote_width ⟨size2.bits, signed⟩
  have common := Ty.common_width ⟨size2.bits, signed⟩ ⟨size2.bits, signed⟩
  have promoted := Ty.le_promote_width (Ty.common ⟨size2.bits, signed⟩ ⟨size2.bits, signed⟩)
  simp only at wide
  have shifted : size2.bits - 1 <
      (Ty.common ⟨size2.bits, signed⟩ ⟨size2.bits, signed⟩).promote.width := by omega
  have differ : (Val.arith ub .xor ⟨⟨size2.bits, signed⟩, shift⟩ ⟨⟨size2.bits, signed⟩, src⟩).bit
      (size2.bits - 1) = (shift.msb ^^ src.msb) := by
    rw [Val.arith_bit ub rfl _ _ (by simp only; omega), Val.bit_of_lt top, Val.bit_of_lt top,
      BitVec.msb_eq_getLsbD_last, BitVec.msb_eq_getLsbD_last]
  unfold shiftOverflowVal
  rw [placed_bit ub _ (fun j => and_one_bit ub _) (by decide) inside,
    Val.arith_bit_low ub rfl _ _ (by decide), Val.lit_bit _ _ (by decide),
    Val.shift_right_lit_bit ub _ _ (by rw [Val.arith_ty]; exact shifted) (by omega), Nat.zero_add, differ]
  exact congrArg _ (Bool.and_true _)

theorem shiftCarryVal_bit {amt : Val} {signed : Bool} (cLeft : Bool) (src : BitVec size2.bits) {n : Nat}
    (amount : (if cLeft then Val.arith ub .sub (.lit .dec size2.bits) amt
      else Val.arith ub .sub amt (.lit .dec 1)).toInt = n) (within : n < size2.bits) {k : Nat}
    (inside : k < 16) :
    (shiftCarryVal ub cLeft amt ⟨⟨size2.bits, signed⟩, src⟩ size2).bit k =
      (decide (flagCF = k) && src.getLsbD n) := by
  have wide := Ty.le_promote_width ⟨size2.bits, signed⟩
  simp only at wide
  unfold shiftCarryVal
  rw [placed_bit ub _ (fun j => and_one_bit ub _) (by decide) inside,
    Val.arith_bit_low ub rfl _ _ (by decide), Val.lit_bit _ _ (by decide),
    Val.shift_right_bit ub _ amount (by simp only; omega), Nat.zero_add, Val.bit_of_lt within]
  exact congrArg _ (Bool.and_true _)

theorem shiftCarryVal_other {cLeft : Bool} {amt v : Val} {k : Nat} (other : flagCF ≠ k)
    (inside : k < 16) : (shiftCarryVal ub cLeft amt v size2).bit k = false := by
  unfold shiftCarryVal
  rw [placed_bit ub _ (fun j => and_one_bit ub _) (by decide) inside, decide_eq_false other,
    Bool.false_and]

theorem shiftFlagsVal_bit (byte : i.bits1 = .b) {amt : Val} (x y : BitVec size2.bits) {k : Nat}
    (inside : k < 12) (parity : k ≠ flagPF) :
    (shiftFlagsVal ub i amt ⟨⟨size2.bits, i.signExt⟩, x⟩ ⟨⟨size2.bits, i.signExt⟩, y⟩ size2).bit k =
      ((decide (flagZF = k) && decide (y = 0)) || (decide (flagSF = k) && y.getLsbD 7) ||
        (decide (flagOF = k) && (y.msb ^^ x.msb)) ||
        (shiftCarryVal ub i.cLeft amt ⟨⟨size2.bits, i.signExt⟩, x⟩ size2).bit k) := by
  have bounds := size_cases size2
  have wide := Ty.le_promote_width ⟨size2.bits, i.signExt⟩
  simp only at wide
  have covers : Size.bits .b ≤ (Ty.promote ⟨size2.bits, i.signExt⟩).width := by
    change 8 ≤ _
    omega
  have seventh : Size.bits .b - 1 < size2.bits := by
    change 7 < _
    omega
  unfold shiftFlagsVal
  rw [orInto_bit ub rfl _ (by omega), orInto_bit ub rfl _ (by omega), byte,
    zpsVal_bits ub rfl bounds.2 covers (by omega) parity, flagZero_bit (by omega), Bool.false_or,
    shiftOverflowVal_bit _ _ (by omega), Val.bit_of_lt seventh]
  rfl

def lastOut {n : Nat} (left : Bool) (x : BitVec n) (c : Nat) : Bool :=
  if left then x.getLsbD (n - c) else x.getLsbD (c - 1)

theorem shiftCarryVal_last {signed : Bool} (src : BitVec size2.bits)
    (moves : 0 < maskedCount size2 ((i.arg 0).value ub .b m))
    (within : maskedCount size2 ((i.arg 0).value ub .b m) ≤ size2.bits) {k : Nat} (inside : k < 16) :
    (shiftCarryVal ub i.cLeft (shiftAmount ub i .b size2 m) ⟨⟨size2.bits, signed⟩, src⟩ size2).bit k =
      (decide (flagCF = k) && lastOut i.cLeft src (maskedCount size2 ((i.arg 0).value ub .b m))) := by
  unfold lastOut
  cases i.cLeft with
  | true => exact shiftCarryVal_bit true src (complement_toInt within) (by omega) inside
  | false => exact shiftCarryVal_bit false src (pred_toInt moves) (by omega) inside

end

section

variable {ub : Undef} {i : Instruction} {m : Mach} {dest src : Operand}

theorem amount_zero {size1 size2 : Size} :
    (shiftAmount ub i size1 size2 m).bits = 0 ↔ maskedCount size2 ((i.arg 0).value ub size1 m) = 0 := by
  have count := @shiftAmount_toInt ub i m size1 size2
  change ((shiftAmount ub i size1 size2 m).bits.toNat : Int) = _ at count
  rw [← BitVec.toNat_inj, BitVec.ofNat_eq_ofNat, BitVec.toNat_zero]
  omega

theorem amount_truthy {size1 size2 : Size} :
    (Val.cmp .eq (shiftAmount ub i size1 size2 m) (.lit .dec 0)).truthy =
      decide (maskedCount size2 ((i.arg 0).value ub size1 m) = 0) := by
  rw [Val.cmp_zero _ (size_cases size1).2, Val.ofBool_truthy, decide_eq_decide]
  exact amount_zero

theorem denoteShift_still (found : shiftOperands i = .ok (dest, src))
    (still : maskedCount (i.size2.getD .q) ((i.arg 0).value ub i.bits1 m) = 0) :
    denoteShift ub i m = dest.write ub (i.size2.getD .q)
      (shiftVal ub i dest src i.bits1 (i.size2.getD .q) m) m := by
  simp only [denoteShift, found, amount_truthy, still, decide_true, Bool.or_true, if_true]

theorem denoteShift_moved (found : shiftOperands i = .ok (dest, src)) (flagged : i.cNoflag = false)
    (moves : 0 < maskedCount (i.size2.getD .q) ((i.arg 0).value ub i.bits1 m)) :
    denoteShift ub i m = setFlag ub cozpsMask
      (shiftFlagsVal ub i (shiftAmount ub i i.bits1 (i.size2.getD .q) m)
        (src.fetch ub (i.size2.getD .q) i.signExt m)
        (shiftVal ub i dest src i.bits1 (i.size2.getD .q) m) (i.size2.getD .q)) false
      (dest.write ub (i.size2.getD .q) (shiftVal ub i dest src i.bits1 (i.size2.getD .q) m) m) := by
  simp only [denoteShift, found, flagged, amount_truthy, decide_eq_false moves.ne', Bool.or_self,
    Bool.false_eq_true, if_false]

theorem value_denoteShift (found : shiftOperands i = .ok (dest, src)) (flagged : i.cNoflag = false)
    (apart : .efl ∉ dest.reads) (storable : dest.Storable (i.size2.getD .q)) :
    dest.value ub (i.size2.getD .q) (denoteShift ub i m) =
      (shiftVal ub i dest src i.bits1 (i.size2.getD .q) m).conv (i.size2.getD .q).uint := by
  have narrow : (shiftVal ub i dest src i.bits1 (i.size2.getD .q) m).ty.width ≤ 64 := by
    rw [shiftVal_ty]
    exact (size_cases _).2
  rcases Nat.eq_zero_or_pos (maskedCount (i.size2.getD .q) ((i.arg 0).value ub i.bits1 m)) with
    still | moves
  · rw [denoteShift_still found still]
    exact Operand.value_write storable narrow
  · rw [denoteShift_moved found flagged moves]
    exact (Operand.value_setEfl apart).trans (Operand.value_write storable narrow)

theorem denoteShift_flags (found : shiftOperands i = .ok (dest, src)) (flagged : i.cNoflag = false)
    (byte : i.bits1 = .b) (moves : 0 < maskedCount (i.size2.getD .q) ((i.arg 0).value ub .b m)) :
    let size := i.size2.getD .q
    let x := src.value ub size m
    let y := (shiftVal ub i dest src .b size m).conv size.uint
    let c := maskedCount size ((i.arg 0).value ub .b m)
    let m' := denoteShift ub i m
    eflBit m' flagZF = decide (y = 0) ∧ eflBit m' flagSF = y.getLsbD 7 ∧
      eflBit m' flagOF = (y.msb ^^ x.msb) ∧ (c ≤ size.bits → eflBit m' flagCF = lastOut i.cLeft x c) := by
  -- The flags of a shift that moves. SF is bit 7 whatever the size: `size1` describes the amount.
  have run := denoteShift_moved found flagged (byte ▸ moves)
  simp only [run, byte]
  rw [shiftVal_eq, conv_same]
  generalize (shiftVal ub i dest src .b (i.size2.getD .q) m).conv (i.size2.getD .q).uint = y
  refine ⟨?_, ?_, ?_, fun within => ?_⟩
  · rw [eflBit_setFlag ub (by decide) (by decide), Operand.fetch,
      shiftFlagsVal_bit byte _ _ (by decide) (by decide), shiftCarryVal_other (by decide) (by decide)]
    simp [flagZF, flagSF, flagOF]
  · rw [eflBit_setFlag ub (by decide) (by decide), Operand.fetch,
      shiftFlagsVal_bit byte _ _ (by decide) (by decide), shiftCarryVal_other (by decide) (by decide)]
    simp [flagZF, flagSF, flagOF]
  · rw [eflBit_setFlag ub (by decide) (by decide), Operand.fetch,
      shiftFlagsVal_bit byte _ _ (by decide) (by decide), shiftCarryVal_other (by decide) (by decide)]
    simp [flagZF, flagSF, flagOF]
  · rw [eflBit_setFlag ub (by decide) (by decide), Operand.fetch,
      shiftFlagsVal_bit byte _ _ (by decide) (by decide), shiftCarryVal_last _ moves within (by decide)]
    simp [flagCF, flagZF, flagSF, flagOF]

end

end Tase
