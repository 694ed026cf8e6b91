import Tase.Translator.Arithmetic
import Tase.Translator.ShiftWord

/-! Shifts from the fix-up to the flags. -/

namespace Tase

open Cpp

theorem shift_sign_ext {op : Op} (signed : decide (op = .sa) = true) :
    (if op = .sa then Op.sh else op) ∈ [Op.mov, .test, .ctd, .mul, .div, .sh] := by
  simp [of_decide_eq_true signed]

namespace Instruction

/-- `_fixup_instructions` on a shift. The suffix is the size of the destination, the amount is a byte
unless the instruction is one of those that leave the flags alone. -/
def fixupShift (i : Instruction) : Instruction :=
  let op := if i.op = .sa then .sh else i.op
  { i with
    op := op
    signExt := decide (i.op = .sa)
    operands :=
      if i.operands.length = (if op = .shd then 2 else 1) then .imm 1 :: i.operands else i.operands
    size2 := i.size1
    size1 := if op = .sh ∧ i.cNoflag then i.size1 else some .b
    signExtOps := shift_sign_ext }

structure IsShift (i : Instruction) (size : Size) (count filler : Option Operand) (dest : Operand) :
    Prop where
  op : i.op ∈ [Op.rc, .ro, .sa, .sh, .shd]
  sized : i.size1 = some size
  flagged : i.cNoflag = false
  double : filler.isSome = decide (i.op = .shd)
  operands : i.operands = count.toList ++ filler.toList ++ [dest]

namespace IsShift

variable {i : Instruction} {size : Size} {count filler : Option Operand} {dest : Operand}
  (form : i.IsShift size count filler dest)
include form

theorem double_iff : i.fixupShift.op = .shd ↔ filler.isSome := by
  rw [form.double, decide_eq_true_iff]
  change (if i.op = .sa then Op.sh else i.op) = .shd ↔ _
  split
  · rename_i arithmetic
    simp [arithmetic]
  · exact Iff.rfl

theorem fixup_operands :
    i.fixupShift.operands = count.getD (.imm 1) :: (filler.toList ++ [dest]) := by
  have double := form.double_iff
  simp only [fixupShift, form.operands] at double ⊢
  cases filler with
  | none =>
      have single : ¬(if i.op = .sa then Op.sh else i.op) = .shd := by simpa using double
      cases count <;> simp [single]
  | some o =>
      have pair : (if i.op = .sa then Op.sh else i.op) = .shd := by simpa using double
      cases count <;> simp [pair]

theorem fixup_arg : i.fixupShift.arg 0 = count.getD (.imm 1) := by
  simp [arg, form.fixup_operands]

theorem fixup_bits1 : i.fixupShift.bits1 = .b := by
  simp [bits1, fixupShift, form.flagged]

theorem fixup_size2 : i.fixupShift.size2.getD .q = size := by
  simp [fixupShift, form.sized]

theorem shiftOperands_eq : shiftOperands i.fixupShift = .ok (dest, dest) := by
  have double := form.double_iff
  unfold shiftOperands
  rw [form.fixup_operands]
  cases filler with
  | none =>
      have single : ¬i.fixupShift.op = .shd := by simpa using double
      simp [single]
  | some o =>
      have pair : i.fixupShift.op = .shd := by simpa using double
      simp [pair]

theorem fixup_op : i.fixupShift.op ∈ [Op.rc, .ro, .sa, .sh, .shd] := by
  have op := form.op
  change (if i.op = .sa then Op.sh else i.op) ∈ _
  split
  · simp
  · exact op

theorem notLoop : i.fixupShift.op ≠ .loop := by
  have op := form.fixup_op
  intro loop
  simp [loop] at op

theorem dest_mem : dest ∈ i.operands := by simp [form.operands]

end IsShift

end Instruction

/-- What is left of `x` after a shift by `c`. A double shift takes its new bits from `y`; beyond the width
it has no meaning, and the emitted one is left to the compiler. -/
def shiftResult (ub : Undef) (op : Op) (left : Bool) {size : Size} (x y : BitVec size.bits) (c : Nat) :
    BitVec size.bits :=
  if op = .shd then
    if c ≤ size.bits then if left then funnelLeft x y c else funnelRight x y c
    else BitVec.ofInt size.bits
      (ub.shift (shiftOp (!left)) ⟨size.uint, y⟩ ⟨.int, BitVec.ofInt 32 (size.bits - c)⟩)
  else if left then x <<< c
  else if op = .sa then x.sshiftRight c
  else x >>> c

/-- What the emitted code does with a shift by `c` from `x` to `y`. SF is bit 7 whatever the size, since
`size1` describes the amount. -/
structure ShiftEffect (ub : Undef) (left : Bool) (dest : Operand) (size : Size) (x y : BitVec size.bits)
    (c : Nat) (m m' : Mach) : Prop where
  result : dest.value ub size m' = y
  still : c = 0 → m'.regs .efl = m.regs .efl
  zero : 0 < c → eflBit m' flagZF = decide (y = 0)
  seventh : 0 < c → eflBit m' flagSF = y.getLsbD 7
  overflow : 0 < c → eflBit m' flagOF = (y.msb ^^ x.msb)
  carry : 0 < c → c ≤ size.bits → eflBit m' flagCF = lastOut left x c

section

variable {ub : Undef} {i : Instruction} {size : Size} {count filler : Option Operand} {dest : Operand}
  {m m' : Mach}

theorem shift_ran (form : i.IsShift size count filler dest) (handled : i.fixupShift.nothingToDo = false)
    (executed : Executes ub [i.fixupShift] m m') :
    m' = denoteShift ub i.fixupShift (stepRip i m) ∧ dest.Storable (i.fixupShift.size2.getD .q) := by
  have op := form.fixup_op
  obtain ⟨s, out, s', found⟩ := executed.emitted i.fixupShift (by simp)
  obtain ⟨dest', src, shape, storable⟩ := emitBody_shift found handled op
  cases form.shiftOperands_eq.symm.trans shape
  refine ⟨(executed.single form.notLoop handled).trans ?_, storable⟩
  simp only [List.mem_cons, List.not_mem_nil, or_false] at op
  rcases op with op | op | op | op | op <;> simp only [denoteOp, op] <;> rfl

theorem shiftEffect (form : i.IsShift size count filler dest)
    (handled : i.fixupShift.nothingToDo = false) (apart : .efl ∉ dest.reads)
    (executed : Executes ub [i.fixupShift] m m') :
    ShiftEffect ub i.cLeft dest size (dest.value ub size (stepRip i m))
      ((shiftVal ub i.fixupShift dest dest .b size (stepRip i m)).conv size.uint)
      (maskedCount size ((count.getD (.imm 1)).value ub .b (stepRip i m))) m m' := by
  obtain ⟨ran, storable⟩ := shift_ran form handled executed
  have shape := form.shiftOperands_eq
  obtain rfl := form.fixup_size2
  have byte := form.fixup_bits1
  rw [ran, ← form.fixup_arg]
  have result := @value_denoteShift ub i.fixupShift (stepRip i m) _ _ shape form.flagged apart storable
  rw [byte] at result
  have flags := @denoteShift_flags ub i.fixupShift (stepRip i m) _ _ shape form.flagged byte
  refine ⟨result, fun still => ?_, fun moves => (flags moves).1, fun moves => (flags moves).2.1,
    fun moves => (flags moves).2.2.1, fun moves => (flags moves).2.2.2⟩
  rw [denoteShift_still shape (by rw [byte]; exact still)]
  exact Operand.write_regs_of_ne (Operand.target_of_reads apart)

theorem shiftVal_result (form : i.IsShift size count filler dest) (kind : i.op ∈ [Op.sh, .sa, .shd])
    (moves : i.op = .shd → 0 < maskedCount size ((count.getD (.imm 1)).value ub .b m)) :
    (shiftVal ub i.fixupShift dest dest .b size m).conv size.uint =
      shiftResult ub i.op i.cLeft (dest.value ub size m) ((filler.getD (.imm 0)).value ub size m)
        (maskedCount size ((count.getD (.imm 1)).value ub .b m)) := by
  have amount := form.fixup_arg
  rw [← amount] at moves ⊢
  unfold shiftResult
  by_cases double : i.op = .shd
  · have fixed : i.fixupShift.op = .shd := by simp [Instruction.fixupShift, double]
    have second : i.fixupShift.arg 1 = filler.getD (.imm 0) := by
      obtain ⟨o, rfl⟩ := Option.isSome_iff_exists.mp (form.double_iff.mp fixed)
      simp [Instruction.arg, form.fixup_operands]
    rw [if_pos double]
    split
    · rename_i within
      rw [shiftVal_filled (by simp [fixed]) rfl (moves double) within]
      have filled : shiftFillWord ub i.fixupShift dest size m = (filler.getD (.imm 0)).value ub size m := by
        simp [shiftFillWord, shiftFillBits, fixed, second, Operand.fetch]
      rw [filled]
      rfl
    · rename_i beyond
      rw [shiftVal_beyond fixed (Nat.not_le.mp beyond), second]
      rfl
  · have fixed : i.fixupShift.op = .sh := by
      simp only [List.mem_cons, List.not_mem_nil, or_false, double] at kind
      rcases kind with op | op <;> simp [Instruction.fixupShift, op]
    rw [if_neg double, shiftVal_plain (by simp [fixed])]
    simp [Instruction.fixupShift]

theorem fixup_handled (form : i.IsShift size count filler dest) (active : i.ignored = false)
    (free : ∀ o ∈ i.operands, o.isInstrumentation = false) (spelled : i.Spelled)
    (plain : ∀ o ∈ i.operands, o.Plain) : i.fixupShift.nothingToDo = false := by
  have op := form.fixup_op
  have notNop : i.fixupShift.op ≠ .nop := by
    intro nop
    simp [nop] at op
  refine Instruction.handled active notNop (fun o member => ?_) (spelled.guardless plain)
  rw [form.fixup_operands] at member
  rw [form.operands] at free
  cases count with
  | none =>
      rcases List.mem_cons.mp member with rfl | member
      · rfl
      · exact free o (by simpa using member)
  | some amount => exact free o (by simpa using member)

theorem count_plain (form : i.IsShift size count filler dest) (plain : ∀ o ∈ i.operands, o.Plain) :
    (count.getD (.imm 1)).Plain := by
  rw [form.operands] at plain
  cases count with
  | none => exact (Operand.plain_other (by simp)).mpr (by simp [Operand.reads])
  | some amount => exact plain amount (by simp)

theorem shift_fetches (form : i.IsShift size count filler dest)
    (handled : i.fixupShift.nothingToDo = false) (plain : ∀ o ∈ i.operands, o.Plain)
    (executed : Executes ub [i.fixupShift] m m') (m'' : Mach) :
    dest.value ub size m'' = dest.read size m'' ∧
      (count.getD (.imm 1)).value ub .b m'' = (count.getD (.imm 1)).read .b m'' := by
  have op := form.fixup_op
  have fetches := executed.fetches handled
  have pair : i.fixupShift.fetches = [(count.getD (.imm 1), .b), (dest, size)] := by
    rw [← form.fixup_arg, ← form.fixup_bits1]
    obtain rfl := form.fixup_size2
    simp only [List.mem_cons, List.not_mem_nil, or_false] at op
    rcases op with op | op | op | op | op <;>
      simp only [Instruction.fetches, op, form.shiftOperands_eq]
  rw [pair] at fetches
  exact ⟨Operand.value_read (fetches (dest, size) (by simp)) (plain dest form.dest_mem).reach,
    Operand.value_read (fetches (count.getD (.imm 1), .b) (by simp)) (count_plain form plain).reach⟩

theorem filler_read (form : i.IsShift size count filler dest) (double : i.op = .shd)
    (handled : i.fixupShift.nothingToDo = false) (plain : ∀ o ∈ i.operands, o.Plain)
    (executed : Executes ub [i.fixupShift] m m') (m'' : Mach) :
    (filler.getD (.imm 0)).value ub size m'' = (filler.getD (.imm 0)).read size m'' := by
  have fixed : i.fixupShift.op = .shd := by simp [Instruction.fixupShift, double]
  obtain ⟨o, rfl⟩ := Option.isSome_iff_exists.mp (form.double_iff.mp fixed)
  obtain ⟨s, out, s', found⟩ := executed.emitted i.fixupShift (by simp)
  have fetched := emitBody_double found handled fixed
  have second : i.fixupShift.arg 1 = o := by simp [Instruction.arg, form.fixup_operands]
  rw [second, form.fixup_size2] at fetched
  exact Operand.value_read fetched (plain o (by simp [form.operands])).reach

end

structure Shifts (op : Op) (left : Bool) (dest : Operand) (size : Size) (x : BitVec size.bits) (c : Nat)
    (m m' : Mach) : Prop where
  result : dest.read size m' =
    if left then x <<< c else if op = .sa then x.sshiftRight c else x >>> c
  still : c = 0 → m'.regs .efl = m.regs .efl
  zero : 0 < c → eflBit m' flagZF = decide (dest.read size m' = 0)
  carry : 0 < c → c ≤ size.bits → eflBit m' flagCF = lastOut left x c
  overflow : c = 1 → eflBit m' flagOF =
    if left then x.msb ^^ (x <<< 1).msb else if op = .sa then false else x.msb

theorem executes_shifts {ub : Undef} {i : Instruction} {size : Size} {count : Option Operand}
    {dest : Operand} {m m' : Mach} (single : i.op = .sh ∨ i.op = .sa)
    (form : i.IsShift size count none dest) (active : i.ignored = false)
    (free : ∀ o ∈ i.operands, o.isInstrumentation = false) (spelled : i.Spelled)
    (plain : ∀ o ∈ i.operands, o.Plain) (executed : Executes ub [i.fixupShift] m m') :
    Shifts i.op i.cLeft dest size (dest.read size (stepRip i m))
      (maskedCount size ((count.getD (.imm 1)).read .b (stepRip i m))) m m' := by
  have handled := fixup_handled form active free spelled plain
  have kind : i.op ∈ [Op.sh, .sa, .shd] := by rcases single with op | op <;> simp [op]
  have notDouble : i.op ≠ .shd := by rcases single with op | op <;> simp [op]
  obtain ⟨readDest, readCount⟩ := shift_fetches form handled plain executed (stepRip i m)
  have effect := shiftEffect form handled (plain dest form.dest_mem).flags executed
  rw [shiftVal_result form kind (absurd · notDouble), readDest, readCount] at effect
  simp only [shiftResult, if_neg notDouble] at effect
  have after := (shift_fetches form handled plain executed m').1
  refine ⟨after ▸ effect.result, effect.still, fun moves => ?_, effect.carry, fun one => ?_⟩
  · rw [← after, effect.result]
    exact effect.zero moves
  · rw [effect.overflow (by omega), one]
    cases i.cLeft with
    | true => exact Bool.xor_comm ..
    | false =>
        by_cases arithmetic : i.op = .sa
        · simp [arithmetic, BitVec.msb_sshiftRight]
        · simp [arithmetic, BitVec.msb_ushiftRight]

def sarMemory : Instruction :=
  { original := "sarw   %cl,0x8(%rdx)", vaddr := 0x1000, length := 4, op := .sa, size1 := some .w,
    operands := [.reg (.l .rcx), .mem ⟨none, 8, some (.q (.gpr .rdx)), none, .one⟩] }

theorem sarMemory_form : sarMemory.IsShift .w (some (.reg (.l .rcx))) none
    (.mem ⟨none, 8, some (.q (.gpr .rdx)), none, .one⟩) :=
  ⟨by decide, rfl, rfl, rfl, rfl⟩

def negativeWord : Mach := onesInRegisters.store 9 (0x8005 : BitVec 16)

theorem executes_shifts_sarMemory :
    ∃ m', Executes default [sarMemory.fixupShift] negativeWord m' ∧
      Shifts .sa false (.mem ⟨none, 8, some (.q (.gpr .rdx)), none, .one⟩) .w 0x8005 1 negativeWord m' ∧
      (Operand.mem ⟨none, 8, some (.q (.gpr .rdx)), none, .one⟩).read .w m' = 0xc002 := by
  have emitted : EmittedAlone sarMemory.fixupShift
      ((printed (emitFunction .alone sarMemory.fixupShift)).get rfl) := ⟨.initial, _, rfl⟩
  have executed : Executes default [sarMemory.fixupShift] negativeWord _ := .alone emitted .done
  have spelled : sarMemory.Spelled := fun guard => absurd guard (by decide)
  have shifts := executes_shifts (.inr rfl) sarMemory_form rfl (by decide) spelled (by decide) executed
  exact ⟨_, executed, shifts, shifts.result.trans (by decide)⟩

def shiftReserved : Instruction :=
  { original := "shlq   %r14", vaddr := 0x1000, length := 3, op := .sh, cLeft := true, size1 := some .q,
    operands := [.reg (.q (.gpr .r14))] }

theorem reserved_shift_dropped :
    ∃ m', Executes default [shiftReserved.fixupShift] onesInRegisters m' ∧
      ¬ Shifts .sh true (.reg (.q (.gpr .r14))) .q 1 1 onesInRegisters m' := by
  have emitted : EmittedAlone shiftReserved.fixupShift
      ((printed (emitFunction .alone shiftReserved.fixupShift)).get rfl) := ⟨.initial, _, rfl⟩
  refine ⟨_, .alone emitted .done, fun shifts => ?_⟩
  have result := shifts.result
  revert result
  decide

/-! The sign flag. -/

structure ShiftSign (dest : Operand) (size : Size) (shifted : BitVec size.bits) (m' : Mach) : Prop where
  result : dest.read size m' = shifted
  sign : eflBit m' flagSF = shifted.msb

def shiftedWord (ub : Undef) (i : Instruction) (size : Size) (count filler : Option Operand) (dest : Operand)
    (m : Mach) : BitVec size.bits :=
  shiftResult ub i.op i.cLeft (dest.read size m) ((filler.getD (.imm 0)).read size m)
    (maskedCount size ((count.getD (.imm 1)).read .b m))

theorem shiftVal_shiftedWord {ub : Undef} {i : Instruction} {size : Size} {count filler : Option Operand}
    {dest : Operand} {m m' : Mach} (kind : i.op ∈ [Op.sh, .sa, .shd])
    (form : i.IsShift size count filler dest) (plain : ∀ o ∈ i.operands, o.Plain)
    (moves : 0 < maskedCount size ((count.getD (.imm 1)).read .b (stepRip i m)))
    (executed : Executes ub [i.fixupShift] m m') (handled : i.fixupShift.nothingToDo = false) :
    (shiftVal ub i.fixupShift dest dest .b size (stepRip i m)).conv size.uint =
      shiftedWord ub i size count filler dest (stepRip i m) := by
  obtain ⟨readDest, readCount⟩ := shift_fetches form handled plain executed (stepRip i m)
  rw [shiftVal_result form kind fun _ => readCount ▸ moves, readDest, readCount, shiftedWord]
  by_cases double : i.op = .shd
  · rw [filler_read form double handled plain executed]
  · simp only [shiftResult, if_neg double]

theorem shift_sign_coded {ub : Undef} {i : Instruction} {size : Size} {count filler : Option Operand}
    {dest : Operand} {m m' : Mach} (kind : i.op ∈ [Op.sh, .sa, .shd])
    (form : i.IsShift size count filler dest) (plain : ∀ o ∈ i.operands, o.Plain)
    (moves : 0 < maskedCount size ((count.getD (.imm 1)).read .b (stepRip i m)))
    (executed : Executes ub [i.fixupShift] m m') (handled : i.fixupShift.nothingToDo = false) :
    ShiftSign dest size (shiftedWord ub i size count filler dest (stepRip i m)) m' ↔
      size = .b ∨ (shiftedWord ub i size count filler dest (stepRip i m)).getLsbD 7 =
        (shiftedWord ub i size count filler dest (stepRip i m)).msb := by
  have readCount := (shift_fetches form handled plain executed (stepRip i m)).2
  have after := (shift_fetches form handled plain executed m').1
  have effect := shiftEffect form handled (plain dest form.dest_mem).flags executed
  rw [shiftVal_shiftedWord kind form plain moves executed handled, readCount] at effect
  constructor
  · intro right
    exact .inr ((effect.seventh moves).symm.trans right.sign)
  · intro top
    refine ⟨after ▸ effect.result, (effect.seventh moves).trans ?_⟩
    rcases top with rfl | same
    · exact (BitVec.msb_eq_getLsbD_last _).symm
    · exact same

/-- SF is the top bit only where bit 7 is. -/
theorem shift_sign_iff {ub : Undef} {i : Instruction} {size : Size} {count filler : Option Operand}
    {dest : Operand} {m m' : Mach} (kind : i.op ∈ [Op.sh, .sa, .shd])
    (form : i.IsShift size count filler dest) (plain : ∀ o ∈ i.operands, o.Plain)
    (moves : 0 < maskedCount size ((count.getD (.imm 1)).read .b (stepRip i m)))
    (executed : Executes ub [i.fixupShift] m m') :
    let shifted := shiftedWord ub i size count filler dest (stepRip i m)
    ShiftSign dest size shifted m' ↔
      (i.fixupShift.nothingToDo = false ∧ (size = .b ∨ shifted.getLsbD 7 = shifted.msb)) ∨
      i.fixupShift.Idle (ShiftSign dest size shifted) m :=
  executed.required_iff form.notLoop (shift_sign_coded kind form plain moves executed)

def shlOnce : Instruction :=
  { original := "shll   %eax", vaddr := 0x1000, length := 2, op := .sh, cLeft := true, size1 := some .l,
    operands := [.reg (.d .rax)] }

theorem shlOnce_form : shlOnce.IsShift .l none none (.reg (.d .rax)) :=
  ⟨by decide, rfl, rfl, rfl, rfl⟩

theorem shlOnce_emitted : EmittedAlone shlOnce.fixupShift
    ((printed (emitFunction .alone shlOnce.fixupShift)).get rfl) := ⟨.initial, _, rfl⟩

theorem shift_sign_iff_shlOnce :
    ∃ m', Executes default [shlOnce.fixupShift] onesInRegisters m' ∧
      ShiftSign (.reg (.d .rax)) .l 2 m' := by
  have executed : Executes default [shlOnce.fixupShift] onesInRegisters _ :=
    .alone shlOnce_emitted .done
  exact ⟨_, executed, (shift_sign_iff (by decide) shlOnce_form (by decide) (by decide)
    executed).mpr (.inl (by decide))⟩

theorem shl_sign_wrong :
    ∃ m', Executes default [shlOnce.fixupShift] (onesInRegisters.setReg (.gpr .rax) 0x40) m' ∧
      (Operand.reg (.d .rax)).read .l m' = 0x80 ∧ eflBit m' flagSF = true ∧
      ¬ ShiftSign (.reg (.d .rax)) .l 0x80 m' := by
  have set : eflBit (((printed (emitFunction .alone shlOnce.fixupShift)).get rfl).call default
      (onesInRegisters.setReg (.gpr .rax) 0x40)) flagSF = true := by decide
  refine ⟨_, .alone shlOnce_emitted .done, by decide, set, fun right => ?_⟩
  have sign := right.sign
  rw [set] at sign
  revert sign
  decide

end Tase
