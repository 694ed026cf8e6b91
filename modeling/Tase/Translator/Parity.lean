import Tase.Translator.Arithmetic
import Tase.Translator.ShiftWord

/-! The parity flag. The table in `_emit_zps` has a one for an odd number of ones, PF stands for an
even one. -/

namespace Tase

open Cpp

theorem table_parity (y : BitVec 8) :
    Nat.testBit 0x6996 ((y >>> 4 ^^^ y) &&& 0xf#8).toNat = !evenParity y := by
  revert y
  decide +kernel

section

variable (ub : Undef)

theorem common_width_le {s t : Ty} (left : s.width ≤ 64) (right : t.width ≤ 64) :
    (Ty.common s t).width ≤ 64 := by
  have promoted {u : Ty} (narrow : u.width ≤ 64) : u.promote.width ≤ 64 := by
    unfold Ty.promote
    split
    · decide
    · exact narrow
  have first := promoted left
  have second := promoted right
  rw [Ty.common_width]
  omega

theorem toInt_of_bits {v : Val} {n : Nat} (small : n < 16) (wide : 32 ≤ v.ty.width)
    (bits : ∀ k < v.ty.width, v.bit k = n.testBit k) : v.toInt = n := by
  have value : v.bits = BitVec.ofNat v.ty.width n := by
    apply BitVec.eq_of_getLsbD_eq
    intro k bound
    rw [← Val.bit_of_lt bound, bits k bound, BitVec.getLsbD_ofNat, decide_eq_true bound, Bool.true_and]
  have power : 2 ^ 32 ≤ 2 ^ v.ty.width := Nat.pow_le_pow_right (by decide) wide
  have back : (BitVec.ofNat v.ty.width n).toNat = n := by
    rw [BitVec.toNat_ofNat, Nat.mod_eq_of_lt (by omega)]
  unfold Val.toInt
  rw [value]
  split
  · rw [BitVec.toInt_eq_toNat_of_lt (by rw [back]; omega), back]
  · rw [back]

theorem nibble_toInt {v : Val} (narrow : v.ty.width ≤ 64) :
    (Val.arith ub .and (Val.arith ub .xor (Val.shift ub .right v (.lit .dec 4)) v)
      (.lit .hex 0xf)).toInt =
      (((v.conv (.uint 8) >>> 4 ^^^ v.conv (.uint 8)) &&& 0xf#8).toNat : Int) := by
  have promoted : v.ty.promote.width ≤ 64 := by
    unfold Ty.promote
    split
    · decide
    · exact narrow
  have small : ((v.conv (.uint 8) >>> 4 ^^^ v.conv (.uint 8)) &&& 0xf#8).toNat < 16 := by
    rw [BitVec.toNat_and]
    exact Nat.lt_of_le_of_lt Nat.and_le_right (by decide)
  have inner : (Ty.common v.ty.promote v.ty).width ≤ 64 := common_width_le promoted narrow
  have outer : (Ty.common (Ty.common v.ty.promote v.ty) .int).width ≤ 64 :=
    common_width_le inner (by decide)
  have wide : 32 ≤ (Ty.common (Ty.common v.ty.promote v.ty) .int).width := by
    have := Ty.promote_width (Ty.common v.ty.promote v.ty)
    rw [Ty.common_width]
    omega
  refine toInt_of_bits small wide fun k bound => ?_
  have inside : k < 64 := Nat.lt_of_lt_of_le bound outer
  have masked := @Val.arith_bit ub .and _ rfl
    (Val.arith ub .xor (Val.shift ub .right v (.lit .dec 4)) v) (.lit .hex 0xf) k bound
  have index : ((v.conv (.uint 8) >>> 4 ^^^ v.conv (.uint 8)) &&& 0xf#8).toNat.testBit k =
      ((v.conv (.uint 8) >>> 4 ^^^ v.conv (.uint 8)) &&& 0xf#8).getLsbD k := rfl
  rw [masked, Val.lit_bit _ _ inside, index, BitVec.getLsbD_and, BitVec.getLsbD_xor,
    BitVec.getLsbD_ushiftRight]
  by_cases low : k < 4
  · have first : 4 + k < 8 := by omega
    have within : k < 32 := by omega
    have size : 4 < v.ty.promote.width := by
      have := Ty.promote_width v.ty
      omega
    rw [Val.arith_bit_low ub rfl _ _ within, Val.shift_right_lit_bit ub _ _ size (by decide),
      Val.conv_getLsbD, Val.conv_getLsbD, Nat.add_comm k 4]
    have eight : k < 8 := by omega
    simp [first, eight, BitVec.getLsbD]
  · have high : Nat.testBit 0xf k = false :=
      Nat.testBit_lt_two_pow (Nat.lt_of_lt_of_le (by decide : 0xf < 2 ^ 4)
        (Nat.pow_le_pow_right (by decide) (by omega)))
    have above : (0xf#8).getLsbD k = false := high
    rw [high, above, Bool.and_false, Bool.and_false]

theorem zpsVal_parity {size : Size} {efl res : Val} (short : efl.ty = .uint 16)
    (narrow : res.ty.width ≤ 64) :
    (zpsVal ub size efl res).bit flagPF = (efl.bit flagPF || !evenParity (res.conv (.uint 8))) := by
  -- What `_emit_zps` makes of the parity.
  have inside : flagPF < 16 := by decide
  have sign (v : Val) : (Val.arith ub .and v (.lit .hex (2 ^ flagSF))).bit flagPF = false := by
    have clear : Nat.testBit (2 ^ flagSF) flagPF = false := by decide
    rw [Val.arith_bit_low ub rfl _ _ (by decide), Val.lit_bit _ _ (by decide), clear, Bool.and_false]
  have zero : (Val.shift ub .left (Val.cmp .eq res (.lit .dec 0)) (.lit .dec flagZF)).bit flagPF =
      false := by
    rw [Val.shift_left_lit_bit ub _ _ (by decide) (by decide)]
    simp [flagZF, flagPF]
  have index := nibble_toInt ub narrow
  have small : ((res.conv (.uint 8) >>> 4 ^^^ res.conv (.uint 8)) &&& 0xf#8).toNat < 32 := by
    rw [BitVec.toNat_and]
    exact Nat.lt_of_le_of_lt Nat.and_le_right (by decide)
  have entry := Val.shift_right_bit ub (.lit .hex 0x6996) index small 0
  unfold zpsVal
  simp only
  rw [orInto_bit ub (by rw [orInto_ty, orInto_ty, short]) _ inside,
    orInto_bit ub (by rw [orInto_ty, short]) _ inside, orInto_bit ub short _ inside, sign, zero,
    placed_bit ub _ (fun j => and_one_bit ub _) (by decide) inside,
    Val.arith_bit_low ub rfl _ _ (by decide), entry, Val.lit_bit _ _ (by omega),
    Val.lit_bit _ _ (by decide), Nat.zero_add, table_parity]
  simp

theorem AddMode.flagsVal_parity {size : Size} (mode : AddMode) (a b : BitVec size.bits) {cf : Val}
    {c : Bool} (set : cf.truthy = c) :
    (mode.flagsVal ub size ⟨size.uint, mode.total a b c⟩ ⟨size.uint, a⟩ ⟨size.uint, b⟩ cf).bit flagPF =
      !evenParity ((mode.total a b c).setWidth 8) := by
  have narrow : size.uint.width ≤ 64 := (size_cases size).2
  have overflow : (orInto ub flagZero (mode.overflowVal ub size ⟨size.uint, mode.total a b c⟩
      ⟨size.uint, a⟩ ⟨size.uint, b⟩)).bit flagPF = false := by
    rw [orInto_bit ub rfl _ (by decide), flagZero_bit (by decide),
      overflowVal_bit ub _ _ _ _ (by decide)]
    rfl
  unfold flagsVal
  simp only
  cases mode.setCarry with
  | true =>
      simp only [if_true]
      rw [zpsVal_parity ub rfl narrow, orInto_bit ub rfl _ (by decide), overflow,
        carryVal_eq mode a b set, Val.ofBool_bit]
      simp [flagPF]
  | false =>
      simp only [Bool.false_eq_true, if_false]
      rw [zpsVal_parity ub rfl narrow, overflow]
      simp

theorem eflBit_parity {value : Val} {clobber : Bool} {m : Mach} :
    eflBit (setFlag ub cozpsMask value clobber m) flagPF = value.bit flagPF :=
  eflBit_setFlag ub (by decide) (by decide)

variable {i : Instruction} {m : Mach}

theorem denoteAdd_parity {left right : Option Operand} {mode : AddMode} :
    eflBit (denoteAdd ub i left right mode m) flagPF =
      !evenParity ((mode.total ((left.getD (i.arg 1)).value ub i.bits1 m)
        ((right.getD (i.arg 0)).value ub i.bits1 m) (eflBit m flagCF)).setWidth 8) := by
  have sum := sumVal_eq ub mode ((left.getD (i.arg 1)).value ub i.bits1 m)
    ((right.getD (i.arg 0)).value ub i.bits1 m) rfl (flagVal_toInt ub m)
  unfold denoteAdd
  simp only
  rw [eflBit_parity]
  simp only [Operand.fetch]
  rw [sum]
  exact mode.flagsVal_parity ub _ _ (flagVal_truthy ub m)

theorem denoteLogical_parity {op : ArithOp} {f : Bool → Bool → Bool} (bitwise : op.onBits = some f)
    {writeTarget : Bool} :
    eflBit (denoteLogical ub i op writeTarget m) flagPF =
      !evenParity ((op.compute i.bits1.uint ((i.arg 1).value ub i.bits1 m)
        ((i.arg 0).value ub i.bits1 m)).setWidth 8) := by
  unfold denoteLogical
  rw [eflBit_parity, logicalVal_eq ub bitwise, zpsVal_parity ub rfl (size_cases i.bits1).2,
    flagZero_bit (by decide)]
  rfl

theorem shiftFlagsVal_parity {amt src result : Val} {size : Size} (narrow : result.ty.width ≤ 64) :
    (shiftFlagsVal ub i amt src result size).bit flagPF = !evenParity (result.conv (.uint 8)) := by
  have one {v : Val} {n : Nat} (place : n < 16) (other : n ≠ flagPF) :
      (Val.shift ub .left (Val.arith ub .and v (.lit .hex 1)) (.lit .dec n)).bit flagPF = false := by
    rw [placed_bit ub _ (fun j => and_one_bit ub _) place (by decide), decide_eq_false other,
      Bool.false_and]
  unfold shiftFlagsVal shiftOverflowVal shiftCarryVal
  rw [orInto_bit ub rfl _ (by decide), orInto_bit ub rfl _ (by decide), zpsVal_parity ub rfl narrow,
    flagZero_bit (by decide), one (by decide) (by decide), one (by decide) (by decide)]
  simp

end

/-- The instructions whose flags come from `_emit_zps`. A shift sets none when it is told not to or
when the amount is zero. -/
def Instruction.Routed (ub : Undef) (i : Instruction) (m : Mach) : Prop :=
  match i.op with
  | .add | .sub | .adc | .sbb | .cmp | .neg | .inc | .dec | .xadd | .and | .or | .xor | .test => True
  | .rc | .ro | .sa | .sh | .shd => i.cNoflag = false ∧
      (shiftAmount ub i i.bits1 (i.size2.getD .q) (stepRip i m)).bits ≠ 0
  | _ => False

def Instruction.resultByte (ub : Undef) (i : Instruction) (m m' : Mach) : BitVec 8 :=
  match i.op with
  | .cmp => ((i.arg 1).value ub i.bits1 (stepRip i m) - (i.arg 0).value ub i.bits1 (stepRip i m)).setWidth 8
  | .test => ((i.arg 1).value ub i.bits1 (stepRip i m) &&& (i.arg 0).value ub i.bits1 (stepRip i m)).setWidth 8
  | .neg | .inc | .dec => ((i.arg 0).value ub i.bits1 m').setWidth 8
  | .rc | .ro | .sa | .sh | .shd =>
      ((i.operands.getLast?.getD (.imm 0)).value ub (i.size2.getD .q) m').setWidth 8
  | _ => ((i.arg 1).value ub i.bits1 m').setWidth 8

section

variable {ub : Undef} {i : Instruction} {m : Mach}

theorem shiftOperands_last {dest src : Operand} (found : shiftOperands i = .ok (dest, src)) :
    i.operands.getLast? = some dest := by
  unfold shiftOperands at found
  split at found
  · split at found
    · rename_i operands
      cases found
      rw [operands]
      rfl
    · cases found
  · split at found
    · rename_i last
      cases found
      exact last
    · cases found

theorem value_denoteLogical {op : ArithOp} {f : Bool → Bool → Bool} (bitwise : op.onBits = some f)
    (apart : .efl ∉ (i.arg 1).reads) (storable : (i.arg 1).Storable i.bits1) :
    (i.arg 1).value ub i.bits1 (denoteLogical ub i op true m) =
      op.compute i.bits1.uint ((i.arg 1).value ub i.bits1 m) ((i.arg 0).value ub i.bits1 m) := by
  have narrow : i.bits1.uint.width ≤ 64 := (size_cases i.bits1).2
  unfold denoteLogical
  rw [logicalVal_eq ub bitwise]
  refine (Operand.value_setEfl apart).trans ?_
  simp only [if_true]
  rw [Operand.value_write storable narrow]
  simp

theorem denoteShift_parity {dest src : Operand} (found : shiftOperands i = .ok (dest, src))
    (flagged : i.cNoflag = false)
    (moves : (shiftAmount ub i i.bits1 (i.size2.getD .q) m).bits ≠ 0) (apart : .efl ∉ dest.reads)
    (storable : dest.Storable (i.size2.getD .q)) :
    eflBit (denoteShift ub i m) flagPF =
      !evenParity ((dest.value ub (i.size2.getD .q) (denoteShift ub i m)).setWidth 8) := by
  have narrow : (shiftVal ub i dest src i.bits1 (i.size2.getD .q) m).ty.width ≤ 64 := by
    rw [shiftVal_ty]
    exact (size_cases _).2
  have run := denoteShift_moved found flagged (Nat.pos_of_ne_zero (amount_zero.not.mp moves))
  rw [value_denoteShift found flagged apart storable, run, eflBit_parity, shiftFlagsVal_parity ub narrow,
    Val.conv_setWidth _ _ _ (size_cases (i.size2.getD .q)).1]

end

/-- PF is never what the manual says. -/
theorem parity_inverted {ub : Undef} {i : Instruction} {m m' : Mach} (handled : i.nothingToDo = false)
    (routed : i.Routed ub m) (apart : ∀ o ∈ i.operands, .efl ∉ o.reads)
    (executed : Executes ub [i] m m') :
    eflBit m' flagPF ≠ evenParity (i.resultByte ub m m') := by
  have notLoop : i.op ≠ .loop := by
    intro op
    simp [Instruction.Routed, op] at routed
  have ran := executed.single notLoop handled
  have stores := executed.stores handled
  obtain ⟨s, out, s', found⟩ := executed.emitted i (by simp)
  suffices inverted : eflBit m' flagPF = !evenParity (i.resultByte ub m m') by
    rw [inverted]
    exact Bool.not_ne_self _
  rw [ran]
  unfold Instruction.resultByte Instruction.Routed at *
  cases op : i.op with
  | add | sub | adc | sbb =>
      have storable := stores (i.arg 1, i.bits1) (by simp [Instruction.stores, op])
      simp only [denoteOp, op]
      rw [denoteAdd_parity, value_denoteAdd rfl (i.arg_apart apart 1) storable]
  | xadd =>
      have storable := stores (i.arg 1, i.bits1) (by simp [Instruction.stores, op])
      simp only [denoteOp, op, denoteXadd]
      rw [denoteAdd_parity, value_denoteAdd rfl (i.arg_apart apart 1) storable]
  | neg | inc | dec =>
      have storable := stores (i.arg 0, i.bits1) (by simp [Instruction.stores, op])
      simp only [denoteOp, op]
      rw [denoteAdd_parity, value_denoteAdd rfl (i.arg_apart apart 0) storable]
  | cmp =>
      simp only [denoteOp, op]
      rw [denoteAdd_parity]
      simp [AddMode.total, AddMode.carryIn]
  | and | or | xor =>
      have storable := stores (i.arg 1, i.bits1) (by simp [Instruction.stores, op])
      simp only [denoteOp, op]
      rw [denoteLogical_parity ub rfl, value_denoteLogical rfl (i.arg_apart apart 1) storable]
  | test =>
      simp only [denoteOp, op]
      rw [denoteLogical_parity ub rfl]
      rfl
  | rc | ro | sa | sh | shd =>
      simp only [op] at routed
      obtain ⟨dest, src, operands, storable⟩ := emitBody_shift found handled (by simp [op])
      have last := shiftOperands_last operands
      simp only [denoteOp, op, last, Option.getD_some]
      exact denoteShift_parity operands routed.1 routed.2 (apart dest (List.mem_of_getLast? last)) storable
  | _ =>
      simp only [op] at routed

def xorSelf : Instruction :=
  { original := "xor    %eax,%eax", vaddr := 0x1000, length := 2, op := .xor, size1 := some .l,
    operands := [.reg (.d .rax), .reg (.d .rax)] }

theorem xorSelf_emitted :
    EmittedAlone xorSelf ((printed (emitFunction .alone xorSelf)).get rfl) :=
  ⟨.initial, _, rfl⟩

theorem parity_inverted_xorSelf :
    ∃ m', Executes default [xorSelf] onesInRegisters m' ∧
      eflBit m' flagPF ≠ evenParity (xorSelf.resultByte default onesInRegisters m') := by
  have executed : Executes default [xorSelf] onesInRegisters _ := .alone xorSelf_emitted .done
  exact ⟨_, executed, parity_inverted (by decide) trivial (by decide) executed⟩

theorem zero_not_even :
    ∃ m', Executes default [xorSelf] onesInRegisters m' ∧
      xorSelf.resultByte default onesInRegisters m' = 0 ∧ evenParity 0 = true ∧
      eflBit m' flagPF = false :=
  ⟨_, .alone xorSelf_emitted .done, by decide, by decide, by decide⟩

end Tase
