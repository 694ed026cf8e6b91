import Tase.Translator.Rotate
import Tase.Translator.Writing

/-! The shifts with three operands that leave the flags alone: `shlx`, `shrx`, `sarx` and `rorx`. -/

namespace Tase

open Cpp

/-- A flagless shift as it is parsed. Only `shlx` goes to the left. -/
structure Instruction.IsFlagless (i : Instruction) (size : Size) (count src : Operand) (dest : RegName) :
    Prop where
  op : i.op = .sh ∨ (i.op = .sa ∨ i.op = .ro) ∧ i.cLeft = false
  wide : size = .l ∨ size = .q
  sized : i.size1 = some size
  flagless : i.cNoflag = true
  operands : i.operands = [count, src, .reg dest]
  general : ∃ g, baseReg dest = some (.gpr g)

def Instruction.amountSize (i : Instruction) (size : Size) : Size := if i.op = .ro then .b else size

def flaglessResult (op : Op) (left : Bool) {n : Nat} (x : BitVec n) (c : Nat) : BitVec n :=
  if op = .ro then x.rotateRight c
  else if left then x <<< c
  else if op = .sa then x.sshiftRight c
  else x >>> c

structure ShiftsOnly (i : Instruction) (dest : RegName) (size : Size) (x : BitVec size.bits) (c : Nat)
    (m m' : Mach) : Prop where
  result : dest.read size m' = flaglessResult i.op i.cLeft x c
  memory : m'.mem = m.mem
  others : ∀ r, r ≠ .rip → baseReg dest ≠ some r → m'.regs r = m.regs r

namespace Instruction.IsFlagless

variable {i : Instruction} {size : Size} {count src : Operand} {dest : RegName}
  (form : i.IsFlagless size count src dest)
include form

theorem fixup_op : i.fixupShift.op = if i.op = .ro then .ro else .sh := by
  rcases form.op with op | ⟨op | op, _⟩ <;> simp [fixupShift, op]

theorem fixup_operands : i.fixupShift.operands = [count, src, .reg dest] := by
  have op := form.op
  simp only [fixupShift, form.operands]
  rcases op with op | ⟨op | op, _⟩ <;> simp [op]

theorem fixup_arg : i.fixupShift.arg 0 = count := by
  simp [arg, form.fixup_operands]

theorem fixup_bits1 : i.fixupShift.bits1 = i.amountSize size := by
  rcases form.op with op | ⟨op | op, _⟩ <;> simp [bits1, fixupShift, amountSize, op, form.flagless, form.sized]

theorem fixup_size2 : i.fixupShift.size2.getD .q = size := by
  simp [fixupShift, form.sized]

theorem shiftOperands_eq : shiftOperands i.fixupShift = .ok (.reg dest, src) := by
  have single : i.fixupShift.op ≠ .shd := by
    rw [form.fixup_op]
    split <;> simp
  unfold shiftOperands
  rw [if_neg single, form.fixup_operands]
  rfl

theorem notLoop : i.fixupShift.op ≠ .loop := by
  rw [form.fixup_op]
  split <;> simp

theorem count_lt {n : Nat} (a : BitVec n) : maskedCount size a < size.bits := by
  have small := maskedCount_lt size a false
  rcases form.wide with rfl | rfl <;> exact small

end Instruction.IsFlagless

section

variable {ub : Undef} {i : Instruction} {size : Size} {count src : Operand} {dest : RegName} {m m' : Mach}

theorem flagless_effect (form : i.IsFlagless size count src dest)
    (handled : i.fixupShift.nothingToDo = false) (executed : Executes ub [i.fixupShift] m m') :
    dest.read size m' = (shiftVal ub i.fixupShift (.reg dest) src (i.amountSize size) size
      (stepRip i m)).conv size.uint ∧ m'.mem = m.mem ∧
    ∀ r, r ≠ .rip → baseReg dest ≠ some r → m'.regs r = m.regs r := by
  obtain ⟨g, base⟩ := form.general
  have op : i.fixupShift.op ∈ [Op.rc, .ro, .sa, .sh, .shd] := by
    rw [form.fixup_op]
    split <;> simp
  obtain ⟨s, out, s', found⟩ := executed.emitted i.fixupShift (by simp)
  obtain ⟨dest', src', shape, storable⟩ := emitBody_shift found handled op
  cases form.shiftOperands_eq.symm.trans shape
  have ran : m' = denoteShift ub i.fixupShift (stepRip i m) := by
    refine (executed.single form.notLoop handled).trans ?_
    simp only [List.mem_cons, List.not_mem_nil, or_false] at op
    rcases op with op | op | op | op | op <;> simp only [denoteOp, op] <;> rfl
  have noflag : i.fixupShift.cNoflag = true := form.flagless
  have narrow : (shiftVal ub i.fixupShift (.reg dest) src i.fixupShift.bits1
      (i.fixupShift.size2.getD .q) (stepRip i m)).ty.width ≤ 64 := by
    rw [shiftVal_ty]
    exact (size_cases _).2
  simp only [denoteShift, shape, noflag, Bool.true_or, if_true] at ran
  rw [form.fixup_bits1] at ran narrow
  obtain rfl := form.fixup_size2
  have written : (Operand.reg dest).value ub _ ((Operand.reg dest).write ub _ _ (stepRip i m)) = _ :=
    Operand.value_write storable narrow
  rw [← ran, Operand.value_reg base storable.1] at written
  refine ⟨?_, ?_, fun r notRip other => ?_⟩
  · rw [RegName.read, base]
    exact written
  · rw [ran, Operand.write_reg base storable.1 narrow]
    rfl
  · rw [ran]
    exact (Operand.write_regs_of_ne (o := .reg dest) other).trans (stepRip_regs notRip)

theorem shiftVal_flagless (form : i.IsFlagless size count src dest) (shift : i.op ≠ .ro) :
    (shiftVal ub i.fixupShift (.reg dest) src (i.amountSize size) size m).conv size.uint =
      flaglessResult i.op i.cLeft (src.value ub size m)
        (maskedCount size (count.value ub (i.amountSize size) m)) := by
  rw [shiftVal_plain (by simp [form.fixup_op, shift]), form.fixup_arg, flaglessResult, if_neg shift]
  simp [Instruction.fixupShift]

theorem fill_rorx (form : i.IsFlagless size count src dest) (rotation : i.op = .ro) :
    shiftFillWord ub i.fixupShift (.reg dest) size m = (Operand.reg dest).value ub size m := by
  have fixed : i.fixupShift.op = .ro := by rw [form.fixup_op, if_pos rotation]
  simp [shiftFillWord, shiftFillBits, fixed, Operand.fetch]

theorem shiftVal_rorx (form : i.IsFlagless size count src dest) (rotation : i.op = .ro)
    (moves : 0 < maskedCount size (count.value ub .b m)) :
    (shiftVal ub i.fixupShift (.reg dest) src .b size m).conv size.uint =
      funnelRight (src.value ub size m) ((Operand.reg dest).value ub size m)
        (maskedCount size (count.value ub .b m)) := by
  have fixed : i.fixupShift.op = .ro := by rw [form.fixup_op, if_pos rotation]
  have right : i.fixupShift.cLeft = false := by
    rcases form.op with op | ⟨_, right⟩
    · simp [op] at rotation
    · exact right
  have within := Nat.le_of_lt (form.count_lt (count.value ub .b m))
  rw [← form.fixup_arg] at moves within ⊢
  rw [shiftVal_filled (.inr (.inl fixed)) rfl moves within, fill_rorx form rotation]
  simp only [right, Bool.false_eq_true, if_false]

theorem shiftVal_rorx_still (form : i.IsFlagless size count src dest) (rotation : i.op = .ro)
    (still : maskedCount size (count.value ub .b m) = 0) :
    (shiftVal ub i.fixupShift (.reg dest) src .b size m).conv size.uint =
      src.value ub size m ||| BitVec.ofInt size.bits (ub.shift .left
        ⟨size.uint, (Operand.reg dest).value ub size m⟩
        (Val.arith ub .sub (.lit .dec size.bits) (shiftAmount ub i.fixupShift .b size m))) := by
  have fixed : i.fixupShift.op = .ro := by rw [form.fixup_op, if_pos rotation]
  have right : i.fixupShift.cLeft = false := by
    rcases form.op with op | ⟨_, right⟩
    · simp [op] at rotation
    · exact right
  have unsigned : i.fixupShift.signExt = false := Instruction.signExt_eq_false (by simp [fixed])
  have promoted : size.uint.promote = size.uint := by rcases form.wide with rfl | rfl <;> rfl
  rw [← form.fixup_arg] at still
  have word := @shifted_word ub i.fixupShift m .b size src
  have distance := @complement_toInt ub i.fixupShift m size (by omega)
  simp only [unsigned, right, still, shiftOp, Bool.false_eq_true, if_false, BitVec.ushiftRight_zero] at word
  rw [still, Nat.sub_zero] at distance
  unfold shiftVal shiftFilled
  rw [if_pos (by simp [fixed])]
  simp only [shiftFillBits_eq, unsigned, right, Bool.not_false, shiftOp, Bool.false_eq_true, if_false, if_true,
    fill_rorx form rotation]
  refine (Val.or_word ub).trans ?_
  simp only [Val.cast_ty]
  have outside : ¬(0 ≤ (Val.arith ub .sub (.lit .dec size.bits) (shiftAmount ub i.fixupShift .b size m)).toInt ∧
      (Val.arith ub .sub (.lit .dec size.bits) (shiftAmount ub i.fixupShift .b size m)).toInt <
        (size.uint.promote.width : Int)) := by
    rw [distance, promoted]
    simp
  rw [word, Val.shift_undefined ub (v := ⟨size.uint, _⟩) outside,
    Val.conv_of_le _ _ (Ty.le_promote_width size.uint), setWidth_ofInt _ (Ty.le_promote_width size.uint)]
  rfl

end

theorem funnelRight_eq_rotateRight_iff {n : Nat} {x y : BitVec n} {c : Nat} (small : c < n) :
    funnelRight x y c = x.rotateRight c ↔ ∀ k < c, y.getLsbD k = x.getLsbD k := by
  rw [rotateRight_funnel x small]
  constructor
  · intro same k below
    have bit := congrArg (BitVec.getLsbD · (n - c + k)) same
    have back : n - c + k + c - n = k := by omega
    rw [funnelRight_bit _ _ (Nat.le_of_lt small) (by omega), funnelRight_bit _ _ (Nat.le_of_lt small) (by omega),
      if_neg (by omega), if_neg (by omega), back] at bit
    exact bit
  · intro agree
    apply BitVec.eq_of_getLsbD_eq
    intro k inside
    rw [funnelRight_bit _ _ (Nat.le_of_lt small) inside, funnelRight_bit _ _ (Nat.le_of_lt small) inside]
    split
    · rfl
    · exact agree _ (by omega)

theorem rotateRight_nothing {n : Nat} {x : BitVec n} (positive : 0 < n) : x.rotateRight 0 = x := by
  rw [rotateRight_funnel x positive, funnelRight]
  simp

theorem or_eq_self_iff_ones {n : Nat} {x : BitVec n} : x ||| BitVec.ofInt n (-1) = x ↔ x = BitVec.allOnes n := by
  have ones : BitVec.ofInt n (-1) = BitVec.allOnes n := by
    rw [BitVec.ofInt_neg, ← BitVec.neg_one_eq_allOnes]
    rfl
  rw [ones, BitVec.or_allOnes]
  exact eq_comm

def onesShifted : Undef := { (default : Undef) with shift := fun _ _ _ => -1 }

/-- The source holds the bits of the destination that `rorx` moves in their place. -/
def RorxAgrees {n : Nat} (x old : BitVec n) (c : Nat) : Prop :=
  if c = 0 then x = BitVec.allOnes n else ∀ k < c, old.getLsbD k = x.getLsbD k

section

variable {i : Instruction} {size : Size} {count src : Operand} {dest : RegName}

theorem flagless_fetches {m : Mach} (form : i.IsFlagless size count src dest)
    (handled : i.fixupShift.nothingToDo = false) (plain : ∀ o ∈ i.operands, o.Plain)
    (emitted : i.fixupShift.Emitted) (ub : Undef) :
    src.value ub size m = src.read size m ∧
      count.value ub (i.amountSize size) m = count.read (i.amountSize size) m := by
  obtain ⟨s, out, s', found⟩ := emitted
  have fetches := emitBody_fetches found handled
  have pair : i.fixupShift.fetches = [(count, i.amountSize size), (src, size)] := by
    rw [← form.fixup_arg, ← form.fixup_bits1]
    obtain rfl := form.fixup_size2
    unfold Instruction.fetches
    rw [form.fixup_op, form.shiftOperands_eq]
    by_cases rotation : i.op = .ro <;> simp [rotation]
  rw [pair] at fetches
  exact ⟨Operand.value_read (fetches (src, size) (by simp)) (plain src (by simp [form.operands])).reach,
    Operand.value_read (fetches (count, i.amountSize size) (by simp))
      (plain count (by simp [form.operands])).reach⟩

theorem flagless_coded {m : Mach} (form : i.IsFlagless size count src dest)
    (plain : ∀ o ∈ i.operands, o.Plain) (emitted : i.fixupShift.Emitted)
    (handled : i.fixupShift.nothingToDo = false) :
    (∀ ub m', Executes ub [i.fixupShift] m m' →
      ShiftsOnly i dest size (src.read size (stepRip i m))
        (maskedCount size (count.read (i.amountSize size) (stepRip i m))) m m') ↔
      (i.op = .ro → RorxAgrees (src.read size (stepRip i m)) (dest.read size m)
        (maskedCount size (count.read .b (stepRip i m)))) := by
  obtain ⟨g, base⟩ := form.general
  have width : size = regSize dest := by
    obtain ⟨s, out, s', found⟩ := emitted
    obtain ⟨dest', src', shape, storable⟩ := emitBody_shift found handled (by
      rw [form.fixup_op]
      split <;> simp)
    cases form.shiftOperands_eq.symm.trans shape
    exact form.fixup_size2.symm.trans storable.1
  have old (ub : Undef) : (Operand.reg dest).value ub size (stepRip i m) = dest.read size m := by
    rw [Operand.value_reg base width, ← RegName.read_stepRip base (i := i), RegName.read, base]
  constructor
  · intro right rotation
    have byte : i.amountSize size = .b := if_pos rotation
    obtain ⟨m', executed⟩ := @Executes.each onesShifted [i.fixupShift] m (by simpa using emitted)
    obtain ⟨readSrc, readCount⟩ := @flagless_fetches _ _ _ _ _ (stepRip i m) form handled plain emitted onesShifted
    have shifted := (right _ m' executed).result
    rw [(flagless_effect form handled executed).1, byte, flaglessResult, if_pos rotation] at shifted
    rw [byte] at readCount
    rw [← readSrc, ← readCount] at shifted ⊢
    rw [RorxAgrees]
    split
    · rename_i still
      rw [shiftVal_rorx_still form rotation still, still, rotateRight_nothing size.bits_pos] at shifted
      exact or_eq_self_iff_ones.mp shifted
    · rename_i moves
      rw [shiftVal_rorx form rotation (Nat.pos_of_ne_zero moves), old] at shifted
      exact (funnelRight_eq_rotateRight_iff (form.count_lt _)).mp shifted
  · intro agrees ub m' executed
    obtain ⟨result, memory, others⟩ := flagless_effect form handled executed
    obtain ⟨readSrc, readCount⟩ := @flagless_fetches _ _ _ _ _ (stepRip i m) form handled plain emitted ub
    refine ⟨result.trans ?_, memory, others⟩
    by_cases rotation : i.op = .ro
    · have byte : i.amountSize size = .b := if_pos rotation
      have agree := agrees rotation
      rw [byte] at readCount ⊢
      rw [← readSrc, ← readCount] at agree ⊢
      rw [RorxAgrees] at agree
      rw [flaglessResult, if_pos rotation]
      split at agree
      · rename_i still
        rw [shiftVal_rorx_still form rotation still, still, rotateRight_nothing size.bits_pos, agree,
          BitVec.allOnes_or]
      · rename_i moves
        rw [shiftVal_rorx form rotation (Nat.pos_of_ne_zero moves), old]
        exact (funnelRight_eq_rotateRight_iff (form.count_lt _)).mpr agree
    · rw [← readSrc, ← readCount]
      exact shiftVal_flagless form rotation

end

/-- The flagless shifts are right; `rorx` takes what it moves to the top from the destination in place of the
source, and is right only where the two agree there. -/
theorem flagless_iff {i : Instruction} {size : Size} {count src : Operand} {dest : RegName} {m : Mach}
    (form : i.IsFlagless size count src dest) (plain : ∀ o ∈ i.operands, o.Plain)
    (emitted : i.fixupShift.Emitted) :
    let shifts := ShiftsOnly i dest size (src.read size (stepRip i m))
      (maskedCount size (count.read (i.amountSize size) (stepRip i m))) m
    (∀ ub m', Executes ub [i.fixupShift] m m' → shifts m') ↔
      (i.fixupShift.nothingToDo = false ∧
        (i.op = .ro → RorxAgrees (src.read size (stepRip i m)) (dest.read size m)
          (maskedCount size (count.read .b (stepRip i m))))) ∨
      i.fixupShift.Idle shifts m := by
  have settled := emitted.required_iff form.notLoop (flagless_coded (m := m) form plain emitted)
  simpa only [forall_const] using settled

def shlxMemory : Instruction :=
  { original := "shlxl  %ecx,0x8(%rdx),%eax", vaddr := 0x1000, length := 6, op := .sh, cLeft := true,
    cNoflag := true, size1 := some .l,
    operands := [.reg (.d .rcx), .mem ⟨none, 8, some (.q (.gpr .rdx)), none, .one⟩, .reg (.d .rax)] }

theorem flagless_iff_shlxMemory :
    ∃ m', Executes default [shlxMemory.fixupShift] negativeWord m' ∧
      ShiftsOnly shlxMemory (.d .rax) .l 0x8005 1 negativeWord m' ∧ m'.regs (.gpr .rax) = 0x1000a := by
  have form : shlxMemory.IsFlagless .l (.reg (.d .rcx)) (.mem ⟨none, 8, some (.q (.gpr .rdx)), none, .one⟩)
      (.d .rax) := ⟨.inl rfl, .inl rfl, rfl, rfl, rfl, .rax, rfl⟩
  have emitted : EmittedAlone shlxMemory.fixupShift
      ((printed (emitFunction .alone shlxMemory.fixupShift)).get rfl) := ⟨.initial, _, rfl⟩
  have executed : Executes default [shlxMemory.fixupShift] negativeWord _ := .alone emitted .done
  refine ⟨_, executed, (flagless_iff form (by decide) emitted.emitted).mpr (.inl ⟨by decide, fun rotation => ?_⟩)
    default _ executed, by decide⟩
  cases rotation

def rorxRegister : Instruction :=
  { original := "rorxl  $0x4,%ecx,%eax", vaddr := 0x1000, length := 6, op := .ro, cNoflag := true,
    size1 := some .l, operands := [.imm 4, .reg (.d .rcx), .reg (.d .rax)] }

theorem rorx_fills_from_destination :
    ∃ m', Executes default [rorxRegister.fixupShift]
        ((onesInRegisters.setReg (.gpr .rcx) 0xf).setReg (.gpr .rax) 0) m' ∧
      m'.regs (.gpr .rax) = 0 ∧
      ¬ ShiftsOnly rorxRegister (.d .rax) .l 0xf 4
        ((onesInRegisters.setReg (.gpr .rcx) 0xf).setReg (.gpr .rax) 0) m' := by
  have emitted : EmittedAlone rorxRegister.fixupShift
      ((printed (emitFunction .alone rorxRegister.fixupShift)).get rfl) := ⟨.initial, _, rfl⟩
  refine ⟨_, .alone emitted .done, by decide, fun shifts => ?_⟩
  have result := shifts.result
  revert result
  decide

end Tase
