import Tase.Translator.Address
import Tase.Translator.Compare

/-! Addition, subtraction and the logical operations against the manual: the result and the flags
that an instruction leaves are those of the numbers in its operands. -/

namespace Tase

open Cpp

def outOfRange (width : Nat) (n : Int) : Bool :=
  decide (n < -2 ^ (width - 1) ∨ 2 ^ (width - 1) ≤ n)

structure Outcome (width : Nat) where
  result : BitVec width
  carry : Bool
  overflow : Bool

namespace Outcome

variable {width : Nat}

def sum (a b : BitVec width) (c : Bool) : Outcome width where
  result := BitVec.ofNat width (a.toNat + b.toNat + c.toNat)
  carry := 2 ^ width ≤ a.toNat + b.toNat + c.toNat
  overflow := outOfRange width (a.toInt + b.toInt + c.toNat)

def difference (a b : BitVec width) (c : Bool) : Outcome width where
  result := BitVec.ofInt width (a.toNat - b.toNat - c.toNat)
  carry := a.toNat < b.toNat + c.toNat
  overflow := outOfRange width (a.toInt - b.toInt - c.toNat)

def logical (x : BitVec width) : Outcome width := ⟨x, false, false⟩

end Outcome

/-- What the instructions are defined to do with the destination, the source and CF. -/
def Op.outcome {width : Nat} (op : Op) (dest src : BitVec width) (cf : Bool) : Option (Outcome width) :=
  match op with
  | .add => some (.sum dest src false)
  | .adc => some (.sum dest src cf)
  | .sub | .cmp => some (.difference dest src false)
  | .sbb => some (.difference dest src cf)
  | .neg => some (.difference 0 src false)
  | .and | .test => some (.logical (dest &&& src))
  | .or => some (.logical (dest ||| src))
  | .xor => some (.logical (dest ^^^ src))
  | _ => none

namespace Instruction

def destination (i : Instruction) : Option Operand :=
  match i.op with
  | .cmp | .test => none
  | .neg => some (i.arg 0)
  | _ => some (i.arg 1)

/-- The text names the stack guard only where an operand has a segment override. -/
def Spelled (i : Instruction) : Prop :=
  i.stackguard = true → ∃ target : MemRef, .mem target ∈ i.operands ∧ target.seg ≠ none

structure Performs (i : Instruction) (m m' : Mach) (o : Outcome i.bits1.bits) : Prop where
  result : ∀ dest, i.destination = some dest → dest.read i.bits1 m' = o.result
  untouched : i.destination = none →
    m'.mem = m.mem ∧ ∀ r, r ≠ .rip → r ≠ .efl → m'.regs r = m.regs r
  carry : eflBit m' flagCF = o.carry
  overflow : eflBit m' flagOF = o.overflow
  zero : eflBit m' flagZF = decide (o.result = 0)
  sign : eflBit m' flagSF = o.result.msb

end Instruction

theorem Instruction.Spelled.guardless {i : Instruction} (spelled : i.Spelled)
    (plain : ∀ o ∈ i.operands, o.Plain) : i.stackguard = false := by
  rw [Bool.eq_false_iff]
  intro guard
  obtain ⟨target, member, overridden⟩ := spelled guard
  exact overridden ((plain _ member).unsegmented target rfl)

namespace AddMode

variable {size : Size} (mode : AddMode) (a b : BitVec size.bits) (c : Bool)

theorem overflow_eq :
    (((mode.total a b c).msb ^^ a.msb) &&
      ((if mode.sub then a.msb else (mode.total a b c).msb) ^^ b.msb)) =
    outOfRange size.bits
      (if mode.sub then a.toInt - b.toInt - mode.carryIn c else a.toInt + b.toInt + mode.carryIn c) := by
  have positive := size.bits_pos
  have half := Nat.two_pow_pred_mul_two positive
  have power : (2 ^ (size.bits - 1) : Int) = (2 ^ (size.bits - 1) : Nat) := by norm_cast
  have value := mode.total_toNat a b c
  have carry : mode.carryIn c ≤ 1 := Bool.toNat_le _
  have left := a.isLt
  have right := b.isLt
  rw [outOfRange, Bool.eq_iff_iff, decide_eq_true_iff, power]
  generalize mode.total a b c = total at value
  rcases Compared.signed_cases positive a with ⟨signA, rangeA, valueA⟩ | ⟨signA, rangeA, valueA⟩ <;>
  rcases Compared.signed_cases positive b with ⟨signB, rangeB, valueB⟩ | ⟨signB, rangeB, valueB⟩ <;>
  rcases Compared.signed_cases positive total with ⟨sign, range, _⟩ | ⟨sign, range, _⟩ <;>
  cases direction : mode.sub <;>
  · simp only [direction, signA, signB, sign, valueA, valueB, if_true, if_false, Bool.false_eq_true,
      bne_self_eq_false, Bool.and_self, Bool.and_false, Bool.and_true, Bool.bne_true, Bool.bne_false,
      Bool.not_false, false_iff, true_iff] at value ⊢
    split at value <;> omega

def outcome : Outcome size.bits :=
  if mode.sub then .difference a b (mode.carry && c) else .sum a b (mode.carry && c)

theorem outcome_result : (mode.outcome a b c).result = mode.total a b c := by
  unfold outcome total carryIn
  cases mode.sub with
  | true =>
      simp only [if_true, Outcome.difference, ofInt_sub, BitVec.ofInt_natCast, BitVec.ofNat_toNat,
        BitVec.setWidth_eq]
  | false =>
      apply BitVec.eq_of_toNat_eq
      simp [Outcome.sum, BitVec.toNat_add]

theorem outcome_carry : (mode.outcome a b c).carry = mode.carryOut a b c := by
  unfold outcome carryOut carryIn
  cases mode.sub <;> rfl

theorem outcome_overflow : (mode.outcome a b c).overflow = outOfRange size.bits
    (if mode.sub then a.toInt - b.toInt - mode.carryIn c else a.toInt + b.toInt + mode.carryIn c) := by
  unfold outcome carryIn
  cases mode.sub <;> rfl

end AddMode

section

variable {ub : Undef} {i : Instruction} {m : Mach}

theorem stored_read {o : Operand} {x : BitVec i.bits1.bits} {flags : BitVec 64} (plain : o.Plain)
    (fetched : o.Fetchable i.bits1) (storable : o.Storable i.bits1) :
    o.read i.bits1 ((o.write ub i.bits1 ⟨i.bits1.uint, x⟩ m).setReg .efl flags) = x := by
  have narrow : i.bits1.uint.width ≤ 64 := by cases i.bits1 <;> decide
  rw [← @Operand.value_read ub _ _ _ fetched plain.reach, Operand.value_setEfl plain.flags,
    Operand.value_write storable narrow]
  simp

theorem denoteAdd_flags {left right : Option Operand} {mode : AddMode} :
    let o := mode.outcome ((left.getD (i.arg 1)).value ub i.bits1 m)
      ((right.getD (i.arg 0)).value ub i.bits1 m) (eflBit m flagCF)
    let m' := denoteAdd ub i left right mode m
    eflBit m' flagCF = (mode.setCarry && o.carry) ∧ eflBit m' flagOF = o.overflow ∧
      eflBit m' flagZF = decide (o.result = 0) ∧ eflBit m' flagSF = o.result.msb := by
  simp only [AddMode.outcome_result, AddMode.outcome_carry, AddMode.outcome_overflow,
    ← AddMode.overflow_eq]
  refine ⟨?_, ?_, ?_, ?_⟩
  · rw [eflBit_denoteAdd ub (.inl rfl)]
    simp [flagCF, flagOF, flagZF, flagSF]
  · rw [eflBit_denoteAdd ub (.inr (.inr (.inr rfl)))]
    simp [flagCF, flagOF, flagZF, flagSF]
  · rw [eflBit_denoteAdd ub (.inr (.inl rfl))]
    simp [flagCF, flagOF, flagZF, flagSF]
  · rw [eflBit_denoteAdd ub (.inr (.inr (.inl rfl)))]
    simp [flagCF, flagOF, flagZF, flagSF]

theorem denoteLogical_flags {op : ArithOp} {f : Bool → Bool → Bool} (bitwise : op.onBits = some f)
    {writeTarget : Bool} :
    let x := op.compute i.bits1.uint ((i.arg 1).value ub i.bits1 m) ((i.arg 0).value ub i.bits1 m)
    let m' := denoteLogical ub i op writeTarget m
    eflBit m' flagCF = false ∧ eflBit m' flagOF = false ∧ eflBit m' flagZF = decide (x = 0) ∧
      eflBit m' flagSF = x.msb := by
  refine ⟨?_, ?_, ?_, ?_⟩
  · rw [eflBit_denoteLogical ub bitwise (.inl rfl)]
    simp [flagCF, flagZF, flagSF]
  · rw [eflBit_denoteLogical ub bitwise (.inr (.inr (.inr rfl)))]
    simp [flagOF, flagZF, flagSF]
  · rw [eflBit_denoteLogical ub bitwise (.inr (.inl rfl))]
    simp [flagZF, flagSF]
  · rw [eflBit_denoteLogical ub bitwise (.inr (.inr (.inl rfl)))]
    simp [flagZF, flagSF]

def AddMode.goesTo (mode : AddMode) (left right : Operand) : Option Operand :=
  match mode.targetL with
  | some true => some left
  | some false => some right
  | none => none

theorem AddMode.goesTo_cases {mode : AddMode} {left right o : Operand}
    (goes : mode.goesTo left right = some o) : o = left ∨ o = right := by
  unfold goesTo at goes
  split at goes
  · exact .inl (Option.some.inj goes).symm
  · exact .inr (Option.some.inj goes).symm
  · cases goes

theorem AddMode.target_eq {mode : AddMode} {left right o : Operand} {write : Operand → Mach → Mach}
    (goes : mode.goesTo left right = some o) : mode.target left right m write = write o m := by
  unfold goesTo at goes
  unfold target
  cases side : mode.targetL with
  | none =>
      rw [side] at goes
      cases goes
  | some toLeft =>
      rw [side] at goes
      cases toLeft <;>
      · cases goes
        rfl

theorem value_denoteAdd {left right : Option Operand} {mode : AddMode} {o : Operand}
    (goes : mode.goesTo (left.getD (i.arg 1)) (right.getD (i.arg 0)) = some o)
    (apart : .efl ∉ o.reads) (storable : o.Storable i.bits1) :
    o.value ub i.bits1 (denoteAdd ub i left right mode m) =
      mode.total ((left.getD (i.arg 1)).value ub i.bits1 m)
        ((right.getD (i.arg 0)).value ub i.bits1 m) (eflBit m flagCF) := by
  obtain ⟨flags, state⟩ := @denoteAdd_eq ub i m left right mode
  rw [state, Operand.value_setEfl apart, AddMode.target_eq goes,
    Operand.value_write storable (size_cases i.bits1).2]
  simp

theorem performs_add {left right : Option Operand} {mode : AddMode} (sets : mode.setCarry = true)
    (goes : i.destination = mode.goesTo (left.getD (i.arg 1)) (right.getD (i.arg 0)))
    (ready : ∀ o, o = left.getD (i.arg 1) ∨ o = right.getD (i.arg 0) → o.Plain ∧ o.Fetchable i.bits1)
    (stores : ∀ o, i.destination = some o → o.Storable i.bits1) :
    i.Performs m (denoteAdd ub i left right mode (stepRip i m))
      (mode.outcome ((left.getD (i.arg 1)).read i.bits1 (stepRip i m))
        ((right.getD (i.arg 0)).read i.bits1 (stepRip i m)) (eflBit m flagCF)) := by
  obtain ⟨plainL, fetchedL⟩ := ready _ (.inl rfl)
  obtain ⟨plainR, fetchedR⟩ := ready _ (.inr rfl)
  rw [← @Operand.value_read ub _ _ _ fetchedL plainL.reach,
    ← @Operand.value_read ub _ _ _ fetchedR plainR.reach]
  obtain ⟨carry, overflow, zero, sign⟩ := @denoteAdd_flags ub i (stepRip i m) left right mode
  rw [sets, Bool.true_and] at carry
  obtain ⟨flags, state⟩ := @denoteAdd_eq ub i (stepRip i m) left right mode
  refine ⟨fun dest isDest => ?_, fun nowhere => ?_, carry, overflow, zero, sign⟩
  · rw [goes] at isDest
    have storable := stores dest (goes.trans isDest)
    obtain ⟨plain, fetched⟩ := ready dest (AddMode.goesTo_cases isDest)
    rw [← @Operand.value_read ub _ _ _ fetched plain.reach, AddMode.outcome_result]
    exact value_denoteAdd isDest plain.flags storable
  · rw [goes] at nowhere
    have side : mode.targetL = none := by
      unfold AddMode.goesTo at nowhere
      split at nowhere
      · cases nowhere
      · cases nowhere
      · assumption
    simp only [state, AddMode.target, side]
    refine ⟨rfl, fun r notRip notEfl => ?_⟩
    rw [Machine.setReg_regs, if_neg notEfl]
    exact (Machine.setReg_regs ..).trans (if_neg notRip)

theorem performs_logical {op : ArithOp} {f : Bool → Bool → Bool} (bitwise : op.onBits = some f)
    {writeTarget : Bool} (goes : i.destination = if writeTarget then some (i.arg 1) else none)
    (ready : ∀ o, o = i.arg 1 ∨ o = i.arg 0 → o.Plain ∧ o.Fetchable i.bits1)
    (stores : ∀ o, i.destination = some o → o.Storable i.bits1) :
    i.Performs m (denoteLogical ub i op writeTarget (stepRip i m))
      (.logical (op.compute i.bits1.uint ((i.arg 1).read i.bits1 (stepRip i m))
        ((i.arg 0).read i.bits1 (stepRip i m)))) := by
  obtain ⟨plainL, fetchedL⟩ := ready _ (.inl rfl)
  obtain ⟨plainR, fetchedR⟩ := ready _ (.inr rfl)
  rw [← @Operand.value_read ub _ _ _ fetchedL plainL.reach,
    ← @Operand.value_read ub _ _ _ fetchedR plainR.reach]
  obtain ⟨carry, overflow, zero, sign⟩ := @denoteLogical_flags ub i (stepRip i m) op f bitwise writeTarget
  refine ⟨fun dest isDest => ?_, fun nowhere => ?_, carry, overflow, zero, sign⟩
  · have storable := stores dest isDest
    rw [goes] at isDest
    cases writeTarget with
    | false => cases isDest
    | true =>
        cases isDest
        rw [denoteLogical, logicalVal_eq ub bitwise]
        exact stored_read plainL fetchedL storable
  · rw [goes] at nowhere
    cases writeTarget with
    | true => cases nowhere
    | false =>
        refine ⟨rfl, fun r notRip notEfl => ?_⟩
        refine (Machine.setReg_regs ..).trans ((if_neg notEfl).trans ?_)
        exact (Machine.setReg_regs ..).trans (if_neg notRip)

end

/-- The emitted code of the additions, subtractions and logical operations does what the manual says. -/
theorem executes_outcome {ub : Undef} {i : Instruction} {m m' : Mach} {o : Outcome i.bits1.bits}
    (active : i.ignored = false) (free : ∀ o ∈ i.operands, o.isInstrumentation = false)
    (spelled : i.Spelled) (plain : ∀ o ∈ i.operands, o.Plain) (executed : Executes ub [i] m m')
    (known : i.op.outcome ((i.arg 1).read i.bits1 (stepRip i m)) ((i.arg 0).read i.bits1 (stepRip i m))
      (eflBit m flagCF) = some o) : i.Performs m m' o := by
  have ops : i.op ≠ .nop ∧ i.op ≠ .loop := by
    constructor <;>
    · intro op
      rw [op] at known
      cases known
  have handled := Instruction.handled active ops.1 free (spelled.guardless plain)
  have ran := executed.single ops.2 handled
  have fetches := executed.fetches handled
  have stores := executed.stores handled
  have two (pair : i.fetches = [(i.arg 0, i.bits1), (i.arg 1, i.bits1)]) (o : Operand)
      (either : o = i.arg 1 ∨ o = i.arg 0) : o.Plain ∧ o.Fetchable i.bits1 := by
    rcases either with rfl | rfl
    · exact ⟨i.arg_plain plain 1, fetches (i.arg 1, i.bits1) (by simp [pair])⟩
    · exact ⟨i.arg_plain plain 0, fetches (i.arg 0, i.bits1) (by simp [pair])⟩
  have into (k : Nat) (only : i.stores = [(i.arg k, i.bits1)]) (goes : i.destination = some (i.arg k))
      (o : Operand) (isDest : i.destination = some o) : o.Storable i.bits1 := by
    cases goes.symm.trans isDest
    exact stores (i.arg k, i.bits1) (by simp [only])
  have nowhere (goes : i.destination = none) (o : Operand) (isDest : i.destination = some o) :
      o.Storable i.bits1 := by
    cases goes.symm.trans isDest
  rw [ran, denoteOp]
  unfold Op.outcome at known
  cases op : i.op with
  | add | adc | sub | sbb =>
      rw [op] at known
      cases known
      have goes : i.destination = some (i.arg 1) := by simp [Instruction.destination, op]
      have pair : i.fetches = [(i.arg 0, i.bits1), (i.arg 1, i.bits1)] := by simp only [Instruction.fetches, op]
      have only : i.stores = [(i.arg 1, i.bits1)] := by simp only [Instruction.stores, op]
      exact performs_add rfl goes (two pair) (into 1 only goes)
  | cmp =>
      rw [op] at known
      cases known
      have goes : i.destination = none := by simp [Instruction.destination, op]
      have pair : i.fetches = [(i.arg 0, i.bits1), (i.arg 1, i.bits1)] := by simp only [Instruction.fetches, op]
      exact performs_add rfl goes (two pair) (nowhere goes)
  | neg =>
      rw [op] at known
      cases known
      have goes : i.destination = some (i.arg 0) := by simp [Instruction.destination, op]
      have one : i.fetches = [(i.arg 0, i.bits1)] := by simp only [Instruction.fetches, op]
      have only : i.stores = [(i.arg 0, i.bits1)] := by simp only [Instruction.stores, op]
      refine performs_add rfl goes ?_ (into 0 only goes)
      rintro o (rfl | rfl)
      · exact ⟨⟨by simp, by simp [Operand.InReach], by simp [Operand.reads]⟩, _, rfl⟩
      · exact ⟨i.arg_plain plain 0, fetches (i.arg 0, i.bits1) (by simp [one])⟩
  | and | or | xor =>
      rw [op] at known
      cases known
      have goes : i.destination = some (i.arg 1) := by simp [Instruction.destination, op]
      have pair : i.fetches = [(i.arg 0, i.bits1), (i.arg 1, i.bits1)] := by simp only [Instruction.fetches, op]
      have only : i.stores = [(i.arg 1, i.bits1)] := by simp only [Instruction.stores, op]
      exact performs_logical rfl goes (two pair) (into 1 only goes)
  | test =>
      rw [op] at known
      cases known
      have goes : i.destination = none := by simp [Instruction.destination, op]
      have pair : i.fetches = [(i.arg 0, i.bits1), (i.arg 1, i.bits1)] := by simp only [Instruction.fetches, op]
      exact performs_logical rfl goes (two pair) (nowhere goes)
  | _ =>
      rw [op] at known
      cases known

def subFromMemory : Instruction :=
  { original := "sub    %cl,0x8(%rdx)", vaddr := 0x1000, length := 3, op := .sub, size1 := some .b,
    operands := [.reg (.l .rcx), .mem ⟨none, 8, some (.q (.gpr .rdx)), none, .one⟩] }

def onesInRegisters : Mach where
  regs := fun _ => 1
  mem := fun _ => 0

theorem executes_outcome_subFromMemory :
    ∃ m', Executes default [subFromMemory] onesInRegisters m' ∧
      subFromMemory.Performs onesInRegisters m' (.difference 0 1 false) := by
  have emitted : EmittedAlone subFromMemory ((printed (emitFunction .alone subFromMemory)).get rfl) :=
    ⟨.initial, _, rfl⟩
  have executed : Executes default [subFromMemory] onesInRegisters _ := .alone emitted .done
  have spelled : subFromMemory.Spelled := fun guard => absurd guard (by decide)
  refine ⟨_, executed, executes_outcome rfl (by decide) spelled ?_ executed rfl⟩
  simp only [subFromMemory, List.forall_mem_cons]
  refine ⟨⟨by simp, by simp [Operand.InReach], by decide⟩,
    ⟨?_, ?_, by decide⟩, List.forall_mem_nil _⟩
  · rintro target ⟨⟩
    rfl
  · rintro target ⟨⟩
    decide

/-! The counting instructions. -/

theorem Instruction.arg_apart {i : Instruction} (apart : ∀ o ∈ i.operands, .efl ∉ o.reads) (k : Nat) :
    .efl ∉ (i.arg k).reads := by
  unfold arg
  cases found : i.operands[k]? with
  | none => simp [Operand.reads]
  | some o => exact apart o (List.mem_of_getElem? found)

namespace Instruction

def counted {width : Nat} (i : Instruction) (x : BitVec width) : Outcome width :=
  if i.op = .dec then .difference x 1 false else .sum x 1 false

structure Counts (i : Instruction) (m m' : Mach) : Prop where
  result : (i.arg 0).read i.bits1 m' = (i.counted ((i.arg 0).read i.bits1 (stepRip i m))).result
  overflow : eflBit m' flagOF = (i.counted ((i.arg 0).read i.bits1 (stepRip i m))).overflow
  zero : eflBit m' flagZF = decide ((i.counted ((i.arg 0).read i.bits1 (stepRip i m))).result = 0)
  sign : eflBit m' flagSF = (i.counted ((i.arg 0).read i.bits1 (stepRip i m))).result.msb
  carry : eflBit m' flagCF = eflBit m flagCF

def countMode (i : Instruction) : AddMode := ⟨false, decide (i.op = .dec), some true, false, false⟩

theorem counted_eq {size : Size} (i : Instruction) (x : BitVec size.bits) (c : Bool) :
    i.counted x = i.countMode.outcome x 1 c := by
  by_cases down : i.op = .dec <;> simp [counted, countMode, AddMode.outcome, down]

theorem counted_moves {size : Size} (i : Instruction) (x : BitVec size.bits) :
    (i.counted x).result ≠ x := by
  have positive := size.bits_pos.ne'
  rw [counted_eq i x false, AddMode.outcome_result]
  by_cases down : i.op = .dec <;> simp [countMode, AddMode.total, AddMode.carryIn, down, positive]

end Instruction

/-- `inc` and `dec` clear CF, so they keep it only where it is clear. -/
theorem counts_iff {ub : Undef} {i : Instruction} {m m' : Mach} (counting : i.op = .inc ∨ i.op = .dec)
    (plain : ∀ o ∈ i.operands, o.Plain) (executed : Executes ub [i] m m') :
    i.Counts m m' ↔ i.nothingToDo = false ∧ eflBit m flagCF = false := by
  have notLoop : i.op ≠ .loop := by rcases counting with op | op <;> simp [op]
  have before : eflBit (stepRip i m) flagCF = eflBit m flagCF := rfl
  cases skipped : i.nothingToDo with
  | true =>
      obtain rfl := executed.dropped notLoop skipped
      have still (counts : i.Counts m (stepRip i m)) : False :=
        i.counted_moves _ counts.result.symm
      simpa using still
  | false =>
      have ran := executed.single notLoop skipped
      have shape : denoteOp ub i (stepRip i m) =
          denoteAdd ub i (some (i.arg 0)) (some (.imm 1)) i.countMode (stepRip i m) := by
        rcases counting with op | op <;> simp [denoteOp, op, Instruction.countMode]
      rw [shape] at ran
      subst ran
      have storable : (i.arg 0).Storable i.bits1 := by
        refine executed.stores skipped (i.arg 0, i.bits1) ?_
        rcases counting with op | op <;> simp [Instruction.stores, op]
      have counted (m : Mach) : (i.arg 0).value ub i.bits1 m = (i.arg 0).read i.bits1 m :=
        Operand.value_read storable.fetchable (i.arg_plain plain 0).reach
      have one : (Operand.imm 1).value ub i.bits1 (stepRip i m) = 1 :=
        Operand.value_read ⟨_, rfl⟩ (by simp [Operand.InReach])
      have outcome := i.counted_eq ((i.arg 0).read i.bits1 (stepRip i m)) (eflBit m flagCF)
      have stored := @value_denoteAdd ub i (stepRip i m) (some (i.arg 0)) (some (.imm 1)) i.countMode
        (i.arg 0) rfl (i.arg_plain plain 0).flags storable
      obtain ⟨carry, overflow, zero, sign⟩ :=
        @denoteAdd_flags ub i (stepRip i m) (some (i.arg 0)) (some (.imm 1)) i.countMode
      simp only [Option.getD_some, one, before, counted, ← outcome] at stored carry overflow zero sign
      rw [← AddMode.outcome_result, ← outcome] at stored
      constructor
      · intro counts
        refine ⟨rfl, ?_⟩
        rw [← counts.carry, carry]
        rfl
      · rintro ⟨_, clear⟩
        refine ⟨stored, overflow, zero, sign, ?_⟩
        rw [carry, clear]
        rfl

def countUp : Instruction :=
  { original := "incl   0x8(%rdx)", vaddr := 0x1000, length := 3, op := .inc, size1 := some .l,
    operands := [.mem ⟨none, 8, some (.q (.gpr .rdx)), none, .one⟩] }

theorem countUp_emitted : EmittedAlone countUp ((printed (emitFunction .alone countUp)).get rfl) :=
  ⟨.initial, _, rfl⟩

theorem counts_iff_countUp :
    ∃ m', Executes default [countUp] (onesInRegisters.setReg .efl 0) m' ∧
      countUp.Counts (onesInRegisters.setReg .efl 0) m' := by
  have executed : Executes default [countUp] (onesInRegisters.setReg .efl 0) _ :=
    .alone countUp_emitted .done
  exact ⟨_, executed, (counts_iff (.inl rfl) (by decide) executed).mpr (by decide)⟩

theorem inc_loses_carry :
    eflBit onesInRegisters flagCF = true ∧
      ∃ m', Executes default [countUp] onesInRegisters m' ∧ eflBit m' flagCF = false ∧
        ¬ countUp.Counts onesInRegisters m' := by
  -- A carry that is set before `inc` is lost.
  have cleared : eflBit (((printed (emitFunction .alone countUp)).get rfl).call default
      onesInRegisters) flagCF = false := by decide
  refine ⟨by decide, _, .alone countUp_emitted .done, cleared, fun counts => ?_⟩
  have carry := counts.carry
  rw [cleared] at carry
  revert carry
  decide

end Tase
