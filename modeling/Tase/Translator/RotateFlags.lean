import Tase.Translator.Parity
import Tase.Translator.Rotate

/-! The status flags that a rotation has no business with. -/

namespace Tase

open Cpp

def statusFlags : List Nat := [flagCF, flagPF, 4, flagZF, flagSF, flagOF]

def KeepsStatus (m m' : Mach) : Prop :=
  ∀ k ∈ statusFlags, k ≠ flagCF → k ≠ flagOF → eflBit m' k = eflBit m k

structure AlreadySet {n : Nat} (y : BitVec n) (m : Mach) : Prop where
  zero : eflBit m flagZF = decide (y = 0)
  seventh : eflBit m flagSF = y.getLsbD 7
  parity : eflBit m flagPF = !evenParity (y.setWidth 8)

/-- The word that a rotation or a shift leaves of its operands, as they are before it. Rotations by counts
from the width on, which only 8- and 16-bit operands have, and `rcl` at 64 bits shift beyond a type of C++;
there it is the word that the expression makes of what the compiler chooses. -/
def movedWord (ub : Undef) (i : Instruction) (size : Size) (count filler : Option Operand) (dest : Operand)
    (m : Mach) : BitVec size.bits :=
  let x := dest.read size m
  let c := maskedCount size ((count.getD (.imm 1)).read .b m)
  if i.op = .ro ∧ c < size.bits then if i.cLeft then x.rotateLeft c else x.rotateRight c
  else if i.op = .rc ∧ c < size.bits ∧ ¬(i.cLeft = true ∧ size = .q) then
    (carryRotation i.cLeft (eflBit m flagCF) x c).setWidth size.bits
  else if i.op = .ro ∨ i.op = .rc then (shiftVal ub i.fixupShift dest dest .b size m).conv size.uint
  else shiftedWord ub i size count filler dest m

section

variable {ub : Undef} {i : Instruction} {size : Size} {count filler : Option Operand} {dest src : Operand}
  {m m' : Mach}

theorem denoteShift_adjust (found : shiftOperands i = .ok (dest, src)) (flagged : i.cNoflag = false)
    (byte : i.bits1 = .b) (apart : .efl ∉ dest.reads)
    (moves : 0 < maskedCount (i.size2.getD .q) ((i.arg 0).value ub .b m)) :
    eflBit (denoteShift ub i m) 4 = eflBit m 4 := by
  have written : eflBit (dest.write ub (i.size2.getD .q)
      (shiftVal ub i dest src i.bits1 (i.size2.getD .q) m) m) 4 = eflBit m 4 :=
    congrArg (·.getLsbD 4) (Operand.write_regs_of_ne (Operand.target_of_reads apart))
  rw [denoteShift_moved found flagged (byte ▸ moves), eflBit_setFlag_all ub (by decide) (by decide), written,
    shiftVal_eq, Operand.fetch, shiftFlagsVal_bit byte _ _ (by decide) (by decide),
    shiftCarryVal_other (by decide) (by decide)]
  have clear : cozpsMask.testBit 4 = false := by decide
  simp [flagZF, flagSF, flagOF, clear]

theorem shiftVal_movedWord (form : i.IsShift size count filler dest)
    (handled : i.fixupShift.nothingToDo = false) (plain : ∀ o ∈ i.operands, o.Plain)
    (moves : 0 < maskedCount size ((count.getD (.imm 1)).read .b (stepRip i m)))
    (executed : Executes ub [i.fixupShift] m m') :
    (shiftVal ub i.fixupShift dest dest .b size (stepRip i m)).conv size.uint =
      movedWord ub i size count filler dest (stepRip i m) := by
  obtain ⟨readDest, readCount⟩ := shift_fetches form handled plain executed (stepRip i m)
  by_cases around : i.op = .ro ∧ maskedCount size ((count.getD (.imm 1)).read .b (stepRip i m)) < size.bits
  · simp only [movedWord, if_pos around]
    rw [shiftVal_rotated form around.1 (readCount ▸ moves) (readCount ▸ around.2), readDest, readCount]
  by_cases through : i.op = .rc ∧ maskedCount size ((count.getD (.imm 1)).read .b (stepRip i m)) < size.bits ∧
      ¬(i.cLeft = true ∧ size = .q)
  · simp only [movedWord, if_neg around, if_pos through]
    have after := (shift_fetches form handled plain executed m').1
    have effect := shiftEffect form handled (plain dest form.dest_mem).flags executed
    have rotated := rotated_carry through.1 form handled plain through.2.2 executed moves through.2.1
    have word := congrArg (BitVec.setWidth size.bits) rotated
    rw [BitVec.setWidth_cons] at word
    rw [← effect.result, after, word]
    rfl
  simp only [movedWord, if_neg around, if_neg through]
  split
  · rfl
  · rename_i shift
    have kind : i.op ∈ [Op.sh, .sa, .shd] := by
      have listed := form.op
      simp only [List.mem_cons, List.not_mem_nil, or_false] at listed ⊢
      tauto
    exact shiftVal_shiftedWord kind form plain moves executed handled

theorem keepsStatus_moved (form : i.IsShift size count filler dest)
    (handled : i.fixupShift.nothingToDo = false) (plain : ∀ o ∈ i.operands, o.Plain)
    (moves : 0 < maskedCount size ((count.getD (.imm 1)).read .b (stepRip i m)))
    (executed : Executes ub [i.fixupShift] m m') :
    KeepsStatus m m' ↔ AlreadySet (movedWord ub i size count filler dest (stepRip i m)) m := by
  have apart := (plain dest form.dest_mem).flags
  have effect := shiftEffect form handled apart executed
  have word := shiftVal_movedWord form handled plain moves executed
  obtain ⟨ran, storable⟩ := shift_ran form handled executed
  rw [← (shift_fetches form handled plain executed (stepRip i m)).2] at moves
  have zero := effect.zero moves
  have seventh := effect.seventh moves
  have result := effect.result
  rw [word] at zero seventh result
  obtain rfl := form.fixup_size2
  rw [← form.fixup_arg] at moves
  have moved : (shiftAmount ub i.fixupShift i.fixupShift.bits1 (i.fixupShift.size2.getD .q)
      (stepRip i m)).bits ≠ 0 := by
    rw [form.fixup_bits1]
    exact amount_zero.not.mpr moves.ne'
  have parity := denoteShift_parity form.shiftOperands_eq form.flagged moved apart storable
  rw [← ran, result] at parity
  have adjust : eflBit m' 4 = eflBit m 4 := by
    rw [ran]
    exact denoteShift_adjust form.shiftOperands_eq form.flagged form.fixup_bits1 apart moves
  constructor
  · intro keeps
    refine ⟨?_, ?_, ?_⟩
    · rw [← keeps flagZF (by decide) (by decide) (by decide), zero]
    · rw [← keeps flagSF (by decide) (by decide) (by decide), seventh]
    · rw [← keeps flagPF (by decide) (by decide) (by decide), parity]
  · intro already k status notCarry notOverflow
    simp only [statusFlags, List.mem_cons, List.not_mem_nil, or_false] at status
    rcases status with rfl | rfl | rfl | rfl | rfl | rfl
    · exact absurd rfl notCarry
    · rw [parity, already.parity]
    · exact adjust
    · rw [zero, already.zero]
    · rw [seventh, already.seventh]
    · exact absurd rfl notOverflow

end

/-- Rotations, like all that `_emit_shift` emits, compute ZF, SF and PF, so they keep them only where they
stand as computed already or where nothing moves. -/
theorem rotate_keepsStatus_iff {ub : Undef} {i : Instruction} {size : Size} {count filler : Option Operand}
    {dest : Operand} {m m' : Mach} (form : i.IsShift size count filler dest) (plain : ∀ o ∈ i.operands, o.Plain)
    (executed : Executes ub [i.fixupShift] m m') :
    KeepsStatus m m' ↔ i.fixupShift.nothingToDo = true ∨
      maskedCount size ((count.getD (.imm 1)).read .b (stepRip i m)) = 0 ∨
      AlreadySet (movedWord ub i size count filler dest (stepRip i m)) m := by
  cases handled : i.fixupShift.nothingToDo with
  | true =>
      obtain rfl := executed.dropped form.notLoop handled
      simp only [true_or, iff_true]
      exact fun k _ _ _ => rfl
  | false =>
      rcases Nat.eq_zero_or_pos (maskedCount size ((count.getD (.imm 1)).read .b (stepRip i m))) with
        still | moves
      · have readCount := (shift_fetches form handled plain executed (stepRip i m)).2
        have same := (shiftEffect form handled (plain dest form.dest_mem).flags executed).still (readCount ▸ still)
        simp only [still, true_or, or_true, iff_true]
        intro k _ _ _
        rw [eflBit, same, eflBit]
      · rw [keepsStatus_moved form handled plain moves executed]
        simp [moves.ne']

def oddFlags : Mach := onesInRegisters.setReg .efl (2 ^ flagPF)

theorem rotate_keepsStatus_iff_oddFlags :
    ∃ m', Executes default [rclNarrow.fixupShift] oddFlags m' ∧ KeepsStatus oddFlags m' := by
  have executed : Executes default [rclNarrow.fixupShift] oddFlags _ := .alone rclNarrow_emitted .done
  refine ⟨_, executed, (rotate_keepsStatus_iff rclNarrow_form (by decide) executed).mpr ?_⟩
  exact .inr (.inr ⟨by decide, by decide, by decide⟩)

theorem rotate_loses_equal :
    eflBit (onesInRegisters.setReg .efl (2 ^ flagZF)) flagZF = true ∧
      ∃ m', Executes default [rclNarrow.fixupShift] (onesInRegisters.setReg .efl (2 ^ flagZF)) m' ∧
        eflBit m' flagZF = false ∧ ¬ KeepsStatus (onesInRegisters.setReg .efl (2 ^ flagZF)) m' := by
  have cleared : eflBit (((printed (emitFunction .alone rclNarrow.fixupShift)).get rfl).call default
      (onesInRegisters.setReg .efl (2 ^ flagZF))) flagZF = false := by decide
  refine ⟨by decide, _, .alone rclNarrow_emitted .done, cleared, fun keeps => ?_⟩
  have zero := keeps flagZF (by decide) (by decide) (by decide)
  rw [cleared] at zero
  revert zero
  decide

end Tase
