import Tase.Cpp.Bits
import Tase.Translator.Loop
import Tase.Translator.NameWrites
import Tase.Translator.ShiftWord

/-! Sub-registers: which bits of the general registers an emitted instruction changes. -/

namespace Tase

open Cpp

def covered (names : List RegName) (g : Gpr) (k : Nat) : Bool :=
  names.any fun r => decide (baseReg r = some (.gpr g)) && r.holds k

structure KeepsFrame (i : Instruction) (m m' : Mach) : Prop where
  kept : ∀ g k, k < 64 → covered i.destinations g k = false →
    (m'.regs (.gpr g)).getLsbD k = (m.regs (.gpr g)).getLsbD k
  cleared : ∀ g, .d g ∈ i.destinations → .q (.gpr g) ∉ i.destinations →
    ∀ k, 32 ≤ k → (m'.regs (.gpr g)).getLsbD k = false

theorem keepsFrame_congr {i : Instruction} {m₁ m₂ m₁' m₂' : Mach} (before : gprs m₁ = gprs m₂)
    (after : gprs m₁' = gprs m₂') : KeepsFrame i m₁ m₁' ↔ KeepsFrame i m₂ m₂' := by
  have start (g : Gpr) : m₁.regs (.gpr g) = m₂.regs (.gpr g) := congrFun before g
  have last (g : Gpr) : m₁'.regs (.gpr g) = m₂'.regs (.gpr g) := congrFun after g
  constructor
  · intro frame
    refine ⟨fun g k bound outside => ?_, fun g named whole k upper => ?_⟩
    · rw [← start, ← last]
      exact frame.kept g k bound outside
    · rw [← last]
      exact frame.cleared g named whole k upper
  · intro frame
    refine ⟨fun g k bound outside => ?_, fun g named whole k upper => ?_⟩
    · rw [start, last]
      exact frame.kept g k bound outside
    · rw [last]
      exact frame.cleared g named whole k upper

theorem keepsFrame_setFlag {i : Instruction} {ub : Undef} {m m' : Mach} {mask : Nat} {value : Val}
    {clobber : Bool} : KeepsFrame i m (setFlag ub mask value clobber m') ↔ KeepsFrame i m m' :=
  keepsFrame_congr rfl (writesNames_setFlag ub mask value clobber m')

/-! Writes of values in range keep the frame. -/

section

variable {i : Instruction} (stores : ∀ p ∈ i.stores, p.1.Storable p.2)
include stores

theorem mem_destinations {r : RegName} (member : r ∈ i.destinations) :
    ∃ size, (.reg r, size) ∈ i.stores ∧ size = regSize r := by
  obtain ⟨⟨o, size⟩, stored, named⟩ := List.mem_flatMap.mp member
  cases o with
  | reg r' =>
      obtain rfl : r = r' := by simpa [Operand.names] using named
      exact ⟨size, stored, (stores _ stored).1⟩
  | imm _ | addr _ _ | mem _ => simp [Operand.names] at named

theorem destinations_width :
    ∃ size, ∀ r ∈ i.destinations, regSize r = size ∨ regSize r = .q := by
  have widths : ∃ size, ∀ p ∈ i.stores, ∀ r, p.1 = .reg r → p.2 = size ∨ regSize r = .q := by
    unfold Instruction.stores
    cases i.op with
    | xchg | xadd | lea | add | sub | adc | sbb | and | or | xor | neg | inc | dec | not | div
    | push | pushf | pop | popf | enter | leave | call | ret | j =>
        refine ⟨i.bits1, ?_⟩
        simp +contextual [rspOperand, rbpOperand, ripOperand, eflTextOperand, rspMem, regSize]
    | mov | cmov => exact ⟨i.bits2, by simp +contextual⟩
    | ctd => exact ⟨i.size2.getD .q, by simp +contextual⟩
    | set => exact ⟨.b, by simp +contextual⟩
    | bswap => exact ⟨(i.arg 0).regSize, by simp +contextual⟩
    | loop => exact ⟨i.size1.getD .q, by simp +contextual [ripOperand, regSize]⟩
    | bt =>
        refine ⟨i.bits1, ?_⟩
        simp only
        split <;> simp +contextual
    | mul =>
        refine ⟨i.bits1, ?_⟩
        simp only
        split <;> simp +contextual
    | rc | ro | sa | sh | shd =>
        refine ⟨i.size2.getD .q, ?_⟩
        simp only
        split <;> simp +contextual
    | nop | cmp | test | cl | st | cmc | other name => exact ⟨.q, by simp⟩
  obtain ⟨size, all⟩ := widths
  refine ⟨size, fun r member => ?_⟩
  obtain ⟨size', stored, width⟩ := mem_destinations stores member
  rw [← width]
  rcases all _ stored r rfl with same | whole
  · exact .inl same
  · exact .inr (width.trans whole)

theorem Keeps.frame {m m' : Mach} (keeps : Keeps i.destinations m m') : KeepsFrame i m m' := by
  obtain ⟨ws, within, written, here⟩ := keeps
  have final (g : Gpr) : m'.regs (.gpr g) = writeNames ws (gprs m) g := congrFun here g
  refine ⟨fun g k bound outside => ?_, fun g named whole k upper => ?_⟩
  · rw [final]
    refine writeNames_bit ws (gprs m) (fun w member => (within w member).2) g k bound ?_
    intro w member
    simpa using List.any_eq_false.mp outside w.1 (within w member).1
  · rw [final]
    obtain ⟨size, widths⟩ := destinations_width stores
    refine writeNames_cleared ws (gprs m) g k upper (fun w member base => ?_)
      (.inl (written g named))
    -- the 32-bit destination fixes the width of all others that are not whole registers
    have fixed : size = .l := by
      rcases widths _ named with same | wide
      · exact same.symm
      · simp [regSize] at wide
    have inside := (within w member).1
    have width := widths w.1 inside
    rw [fixed] at width
    cases name : w.1 with
    | d h =>
        rw [name] at base
        simpa [baseReg] using base
    | q r =>
        rw [name] at base inside
        obtain rfl : r = .gpr g := by simpa [baseReg] using base
        exact absurd inside whole
    | other s => simp [name, baseReg] at base
    | w h | l h | h h => simp [name, regSize] at width

theorem keepsFrame_single_iff {o : Operand} {value : BitVec 64} {m m' : Mach}
    (only : i.destinations = o.names)
    (written : WritesNames (o.names.map fun r => (r, value)) m m') :
    KeepsFrame i m m' ↔ ∀ r ∈ o.names, r.Fits value := by
  constructor
  · intro frame r member
    cases low : r.isLow with
    | false => exact RegName.fits_of_not_low _ low
    | true =>
        obtain rfl : o = .reg r := by
          cases o <;> simp_all [Operand.names]
        obtain ⟨g, base⟩ : ∃ g, baseReg r = some (.gpr g) := by
          cases r <;> simp_all [RegName.isLow, baseReg]
        have final : m'.regs (.gpr g) = r.insert (m.regs (.gpr g)) value := by
          have := congrFun written g
          simpa [Operand.names, writeNames, writeName, base, gprs] using this
        refine (r.insert_outside_iff (m.regs (.gpr g)) value).mp fun k bound outside => ?_
        rw [← final]
        refine frame.kept g k bound ?_
        simp [only, Operand.names, covered, outside]
  · intro fits
    exact Keeps.frame stores (only ▸ Keeps.of_writesNames fits written)

end

/-! The values that are not in range. -/

def Operand.isLow : Operand → Bool
  | .reg r => r.isLow
  | _ => false

def signedPart (ub : Undef) (op : ArithOp) (size : Size) (hi lo divisor : BitVec size.bits) :
    BitVec size.bits :=
  (Val.arith ub op ⟨⟨size.bits + size.bits, true⟩, hi ++ lo⟩ ⟨⟨size.bits, true⟩, divisor⟩).conv
    size.uint

def idivPart (ub : Undef) (op : ArithOp) (i : Instruction) (m : Mach) : BitVec i.bits1.bits :=
  signedPart ub op i.bits1 ((divHigh i.bits1).value ub i.bits1 m)
    ((regOperand .rax i.bits1).value ub i.bits1 m) ((i.arg 0).value ub i.bits1 m)

/-- A negative value is added to the masked register, and the sum borrows from the bits above
the sub-register. The 8-bit quotient reaches the bits above `%ah` only when `%ah` is zero.
A `loop` that counts `%ecx` down to zero returns before it is written back. -/
def Spoils (ub : Undef) (i : Instruction) (m : Mach) : Prop :=
  match i.op with
  | .not => (i.arg 0).isLow
  | .mov => (i.arg 1).isLow ∧ i.signExt ∧
      (((i.arg 0).value ub i.bits1 m).signExtend i.bits2.bits).msb
  | .ctd => (i.arg 1).isLow ∧ ((i.arg 0).value ub i.bits1 m).msb
  | .sh =>
      match shiftOperands i with
      | .error _ => False
      | .ok (dest, src) =>
          let source := src.value ub (i.size2.getD .q) m
          let amount := ((i.arg 0).value ub i.bits1 m).toNat % 32
          dest.isLow ∧ i.signExt ∧ (if i.cLeft then source <<< amount else source).msb
  | .div => i.signExt ∧
      ((i.bits1 = .w ∧ ((idivPart ub .div i m).msb ∨ (idivPart ub .rem i m).msb)) ∨
        (i.bits1 = .b ∧ (idivPart ub .div i m).msb ∧
          (m.regs (.gpr .rax)).extractLsb' 8 8 = 0))
  | .loop => i.size1 = some .l ∧ (regOperand .rcx .l).value ub .l m = 1 ∧
      (m.regs (.gpr .rcx)).extractLsb' 32 32 ≠ 0
  | _ => False

theorem signed_bit {width : Nat} (x : BitVec width) {k : Nat} (upper : width ≤ k + 1) :
    (⟨⟨width, true⟩, x⟩ : Val).bit k = x.msb := by
  unfold Val.bit
  split
  · rename_i inside
    rw [BitVec.msb_eq_getLsbD_last]
    congr 1
    simp only at inside
    omega
  · rfl

theorem narrow_of_low {o : Operand} {size : Size} (storable : o.Storable size)
    (low : o.isLow = true) : size = .b ∨ size = .w := by
  cases o with
  | reg r =>
      rw [storable.1]
      cases r <;> simp_all [Operand.isLow, RegName.isLow, regSize]
  | imm _ | addr _ _ | mem _ => simp [Operand.isLow] at low

section

variable {ub : Undef} {i : Instruction} {m : Mach} {size1 size2 : Size}

theorem shifted_sign {src : Operand} (signed : i.signExt = true)
    (narrow : size2 = .b ∨ size2 = .w) :
    ((Val.shift ub (shiftOp i.cLeft) (src.fetch ub size2 true m)
        (shiftAmount ub i size1 size2 m)).cast ⟨size2.bits, true⟩).bit (size2.bits - 1) =
      (if i.cLeft then src.value ub size2 m <<< (((i.arg 0).value ub size1 m).toNat % 32)
        else src.value ub size2 m).msb := by
  have short : size2 ≠ .q := by rcases narrow with rfl | rfl <;> simp
  have top : size2.bits - 1 < size2.bits := by have := size_cases size2; omega
  have word := @shifted_word ub i m size1 size2 src
  simp only [signed, maskedCount, if_neg short, if_true] at word
  have last := Val.conv_getLsbD ((Val.shift ub (shiftOp i.cLeft) (src.fetch ub size2 true m)
    (shiftAmount ub i size1 size2 m)).cast ⟨size2.bits, true⟩) size2.uint (size2.bits - 1)
  rw [word] at last
  simp only [top, decide_true, Bool.true_and] at last
  rw [← last, BitVec.msb_eq_getLsbD_last]
  cases i.cLeft with
  | true => rfl
  | false =>
      simp only [Bool.false_eq_true, if_false]
      rw [← BitVec.msb_eq_getLsbD_last, ← BitVec.msb_eq_getLsbD_last, BitVec.msb_sshiftRight]

end

section

variable {i : Instruction} {ub : Undef} {m : Mach} (stores : ∀ p ∈ i.stores, p.1.Storable p.2)
include stores

theorem storable_of_single {o : Operand} {size : Size} (single : i.stores = [(o, size)]) :
    o.Storable size :=
  stores (o, size) (by simp [single])

theorem keepsFrame_write_iff {o : Operand} {size : Size} {x : Val}
    (single : i.stores = [(o, size)]) (narrow : x.ty.width ≤ 64) :
    KeepsFrame i m (o.write ub size x m) ↔ ∀ r ∈ o.names, r.Fits (x.conv (.uint 64)) := by
  have only : i.destinations = o.names := by simp [Instruction.destinations, single]
  exact keepsFrame_single_iff stores only
    (writesNames_write (storable_of_single stores single) narrow m)

theorem keepsFrame_signed_iff {o : Operand} {size : Size} {x : Val}
    (single : i.stores = [(o, size)]) (signed : x.ty = ⟨size.bits, true⟩) :
    KeepsFrame i m (o.write ub size x m) ↔
      ¬(o.isLow = true ∧ x.bit (size.bits - 1) = true) := by
  have storable := storable_of_single stores single
  obtain ⟨ty, bits⟩ := x
  cases signed
  rw [keepsFrame_write_iff stores single (Keeps.bits_le size),
    signed_bit bits (by change size.bits ≤ _; omega)]
  cases o with
  | reg r => simpa [Operand.names, Operand.isLow] using RegName.fits_signed bits storable.1
  | imm _ | addr _ _ => exact storable.elim
  | mem _ => simp [Operand.names, Operand.isLow]

theorem keepsFrame_not_iff (here : i.op = .not) :
    KeepsFrame i m (denoteNot ub i m) ↔ ¬Spoils ub i m := by
  have single : i.stores = [(i.arg 0, i.bits1)] := by simp [Instruction.stores, here]
  have storable := storable_of_single stores single
  have narrow : (Val.un ub .not ((i.arg 0).fetch ub i.bits1 false m)).ty.width ≤ 64 := by
    change (Ty.promote i.bits1.uint).width ≤ 64
    cases i.bits1 <;> decide
  simp only [denoteNot, keepsFrame_write_iff stores single narrow, Spoils, here]
  cases target : i.arg 0 with
  | reg r =>
      rw [target] at storable
      simpa [Operand.names, Operand.isLow, Operand.fetch] using RegName.fits_not ub _ storable.1
  | imm _ | addr _ _ =>
      rw [target] at storable
      exact storable.elim
  | mem _ => simp [Operand.names, Operand.isLow]

theorem keepsFrame_mov_iff (here : i.op = .mov) :
    KeepsFrame i m (denoteMov ub i.signExt (i.arg 0) (i.arg 1) i.bits1 i.bits2 m) ↔
      ¬Spoils ub i m := by
  have single : i.stores = [(i.arg 1, i.bits2)] := by simp [Instruction.stores, here]
  simp only [Spoils, here]
  cases signed : i.signExt with
  | false =>
      have only : i.destinations = (i.arg 1).names := by simp [Instruction.destinations, single]
      simp only [Bool.false_eq_true, false_and, and_false, not_false_eq_true, iff_true]
      exact Keeps.frame stores (only ▸ Keeps.mov (storable_of_single stores single))
  | true =>
      simp only [true_and]
      have extended : (if i.bits1 = i.bits2 then (i.arg 0).fetch ub i.bits1 true m
          else ((i.arg 0).fetch ub i.bits1 true m).cast ⟨i.bits2.bits, true⟩) =
          ⟨⟨i.bits2.bits, true⟩, ((i.arg 0).value ub i.bits1 m).signExtend i.bits2.bits⟩ := by
        split
        · rename_i same
          rw [← same, BitVec.signExtend_eq]
          rfl
        · rfl
      rw [denoteMov, extended, keepsFrame_signed_iff stores single rfl, signed_bit _ (by omega)]

theorem keepsFrame_ctd_iff (here : i.op = .ctd) :
    KeepsFrame i m (denoteCtd ub i m) ↔ ¬Spoils ub i m := by
  have single : i.stores = [(i.arg 1, i.size2.getD .q)] := by simp [Instruction.stores, here]
  have filled : ((Val.shift ub .right ((i.arg 0).fetch ub i.bits1 true m)
      (.lit .dec (i.bits1.bits - 1))).cast ⟨(i.size2.getD .q).bits, true⟩).bit
        ((i.size2.getD .q).bits - 1) = ((i.arg 0).value ub i.bits1 m).msb := by
    have positive : 0 < (i.size2.getD .q).bits := by cases i.size2.getD .q <;> decide
    have inRange : i.bits1.bits - 1 < (Ty.promote ⟨i.bits1.bits, true⟩).width := by
      cases i.bits1 <;> decide
    have narrow := Keeps.bits_le i.bits1
    rw [Val.cast_bit _ _ (by change _ < (i.size2.getD .q).bits; omega),
      Val.shift_right_lit_bit ub _ .dec inRange (by omega)]
    exact signed_bit _ (by omega)
  simp only [denoteCtd]
  rw [keepsFrame_signed_iff stores single rfl, filled]
  simp only [Spoils, here]

theorem keepsFrame_shift_iff (here : i.op = .sh) :
    KeepsFrame i m (denoteShift ub i m) ↔ ¬Spoils ub i m := by
  simp only [Spoils, here, denoteShift]
  cases shape : shiftOperands i with
  | error _ =>
      have nothing : i.destinations = [] := by
        simp [Instruction.destinations, Instruction.stores, here, shape]
      simp only [not_false_eq_true, iff_true]
      exact Keeps.frame stores (nothing ▸ Keeps.refl)
  | ok operands =>
      obtain ⟨dest, src⟩ := operands
      have single : i.stores = [(dest, i.size2.getD .q)] := by
        simp [Instruction.stores, here, shape]
      have storable := storable_of_single stores single
      simp only
      rw [show ∀ (c : Prop) [Decidable c] (x y : Mach), KeepsFrame i m (if c then x else y) ↔ 
        if c then KeepsFrame i m x else KeepsFrame i m y by intros; split <;> rfl]
      simp only [keepsFrame_setFlag, ite_self]
      cases signed : i.signExt with
      | false =>
          have unsigned : (shiftVal ub i dest src i.bits1 (i.size2.getD .q) m).ty =
              (i.size2.getD .q).uint := by
            simp [shiftVal, shiftFilled, here, signed]
          have only : i.destinations = dest.names := by simp [Instruction.destinations, single]
          simp only [Bool.false_eq_true, false_and, and_false, not_false_eq_true, iff_true]
          exact Keeps.frame stores (only ▸ Keeps.write_unsigned storable unsigned)
      | true =>
          have result : shiftVal ub i dest src i.bits1 (i.size2.getD .q) m =
              (Val.shift ub (shiftOp i.cLeft) (src.fetch ub (i.size2.getD .q) true m)
                (shiftAmount ub i i.bits1 (i.size2.getD .q) m)).cast
                  ⟨(i.size2.getD .q).bits, true⟩ := by
            simp [shiftVal, shiftFilled, here, signed]
          rw [keepsFrame_signed_iff stores single (by rw [result]; rfl), result]
          simp only [true_and]
          refine not_congr (and_congr_right fun low => ?_)
          rw [shifted_sign signed (narrow_of_low storable low)]

end

/-! Division writes two registers, or the two halves of `%ax`. -/

theorem divDividend_eq {ub : Undef} {m : Mach} {size : Size} (narrow : size = .b ∨ size = .w) :
    divDividend ub size true m =
      ⟨⟨size.bits + size.bits, true⟩, (divHigh size).value ub size m ++
        (regOperand .rax size).value ub size m⟩ := by
  have width : size.bits * 2 = size.bits + size.bits := by omega
  have short : size.bits + size.bits ≤ 32 := by rcases narrow with rfl | rfl <;> decide
  have small : size.bits < 32 := by rcases narrow with rfl | rfl <;> decide
  unfold divDividend
  simp only [width]
  refine congrArg (Val.mk ⟨size.bits + size.bits, true⟩) (BitVec.eq_of_getLsbD_eq fun k bound => ?_)
  have bound : k < size.bits + size.bits := bound
  have above : k - size.bits < size.bits + size.bits := by omega
  rw [Val.conv_getLsbD, Val.arith_bit_low ub rfl _ _ (by omega),
    Val.shift_left_lit_bit ub _ .dec small (by omega), Val.cast_bit _ _ above,
    BitVec.getLsbD_append]
  simp only [bound, decide_true, Bool.true_and, Operand.fetch, Val.bit_uint]
  by_cases low : k < size.bits
  · simp [low, Nat.not_le.mpr low]
  · simp [low, Nat.not_lt.mp low]

theorem divPart_eq {ub : Undef} {op : ArithOp} {i : Instruction} {m : Mach}
    (signed : i.signExt = true) (narrow : i.bits1 = .b ∨ i.bits1 = .w) :
    divPart ub op i m = ⟨⟨i.bits1.bits, true⟩, idivPart ub op i m⟩ := by
  unfold divPart
  rw [signed, divDividend_eq narrow]
  rfl

theorem keepsFrame_pair_iff {i : Instruction} (stores : ∀ p ∈ i.stores, p.1.Storable p.2)
    {r r' : RegName} {g g' : Gpr} {value value' : BitVec 64} {m m' : Mach}
    (only : i.destinations = [r, r']) (base : baseReg r = some (.gpr g))
    (base' : baseReg r' = some (.gpr g')) (different : g ≠ g')
    (written : WritesNames [(r, value), (r', value')] m m') :
    KeepsFrame i m m' ↔ r.Fits value ∧ r'.Fits value' := by
  have first : m'.regs (.gpr g) = r.insert (m.regs (.gpr g)) value := by
    have := congrFun written g
    simpa [writeNames, writeName, base, base', gprs, different.symm] using this
  have second : m'.regs (.gpr g') = r'.insert (m.regs (.gpr g')) value' := by
    have := congrFun written g'
    simpa [writeNames, writeName, base, base', gprs, different] using this
  constructor
  · intro frame
    constructor
    · refine (r.insert_outside_iff (m.regs (.gpr g)) value).mp fun k bound outside => ?_
      rw [← first]
      exact frame.kept g k bound (by simp [only, covered, base', different.symm, outside])
    · refine (r'.insert_outside_iff (m.regs (.gpr g')) value').mp fun k bound outside => ?_
      rw [← second]
      exact frame.kept g' k bound (by simp [only, covered, base, different, outside])
  · rintro ⟨fits, fits'⟩
    refine Keeps.frame stores (only ▸ ⟨_, ?_, ?_, written⟩)
    · simp [fits, fits']
    · simp [eq_comm]

theorem byteQuotient_upper_iff {size : Size} (width : size = .b) (old : BitVec 64)
    (quotient : BitVec size.bits) (value : BitVec 64) :
    (∀ k, k < 64 → 16 ≤ k →
      ((RegName.h .rax).insert ((RegName.l .rax).insert old (quotient.signExtend 64)) value).getLsbD k =
        old.getLsbD k) ↔ ¬(quotient.msb = true ∧ old.extractLsb' 8 8 = 0) := by
  -- The quotient is added to the whole register, so a negative one takes the borrow from the bits above `%al`;
  -- `%ah` is overwritten afterwards.
  subst width
  have passed (k : Nat) (bound : k < 64) (above : 16 ≤ k) :
      ((RegName.h .rax).insert ((RegName.l .rax).insert old (quotient.signExtend 64)) value).getLsbD k =
        ((RegName.l .rax).insert old (quotient.signExtend 64)).getLsbD k :=
    RegName.insert_outside (.h .rax) _ _ trivial k bound (by simp [RegName.holds, above])
  cases negative : quotient.msb with
  | false =>
      have fits : (RegName.l .rax).Fits (quotient.signExtend 64) :=
        (@RegName.fits_signed (.l .rax) .b quotient rfl).mpr (by simp [negative])
      simp only [Bool.false_eq_true, false_and, not_false_eq_true, iff_true]
      intro k bound above
      rw [passed k bound above]
      exact RegName.insert_outside _ _ _ fits k bound (by simp [RegName.holds]; omega)
  | true =>
      have bound : quotient.toNat < 2 ^ 8 := quotient.isLt
      have wide := old.isLt
      have borrowed : (quotient.signExtend 64).toNat = 2 ^ 64 - 256 + quotient.toNat := by
        rw [BitVec.toNat_signExtend, negative, BitVec.toNat_setWidth, if_pos rfl]
        have small : quotient.toNat % 2 ^ 64 = quotient.toNat := Nat.mod_eq_of_lt (by omega)
        rw [small, Nat.add_comm]
        rfl
      have sum : ((RegName.l .rax).insert old (quotient.signExtend 64)).toNat =
          (old.toNat / 2 ^ 8 * 2 ^ 8 + (2 ^ 64 - 256 + quotient.toNat)) % 2 ^ 64 := by
        rw [RegName.insert, BitVec.toNat_add, borrowed,
          RegName.toNat_of_cleared fun k bound => RegName.clear_bit (.l .rax) old k bound]
      have empty : old.extractLsb' 8 8 = 0 ↔ old.toNat / 256 % 256 = 0 := by
        rw [← BitVec.toNat_inj, BitVec.extractLsb'_toNat, Nat.shiftRight_eq_div_pow]
        rfl
      rw [empty]
      simp only [true_and]
      constructor
      · intro same zero
        have upper := RegName.eq_upper_of_bits fun k above bound =>
          (passed k bound above).symm.trans (same k bound above)
        rw [sum] at upper
        omega
      · intro nonzero k bound above
        have upper : ((RegName.l .rax).insert old (quotient.signExtend 64)).toNat / 2 ^ 16 =
            old.toNat / 2 ^ 16 := by
          rw [sum]
          omega
        rw [passed k bound above, BitVec.getLsbD, BitVec.getLsbD]
        have bits := congrArg (fun n => n.testBit (k - 16)) upper
        simpa only [Nat.testBit_div_two_pow, Nat.sub_add_cancel above] using bits

theorem keepsFrame_div_iff {ub : Undef} {i : Instruction} {m : Mach}
    (stores : ∀ p ∈ i.stores, p.1.Storable p.2) (here : i.op = .div) :
    KeepsFrame i m (denoteDiv ub i m) ↔ ¬Spoils ub i m := by
  have written : i.stores = [(regOperand .rax i.bits1, i.bits1), (divHigh i.bits1, i.bits1)] := by
    simp [Instruction.stores, here]
  have only : i.destinations = (regOperand .rax i.bits1).names ++ (divHigh i.bits1).names := by
    simp [Instruction.destinations, written]
  have low := stores (regOperand .rax i.bits1, i.bits1) (by simp [written])
  have high := stores (divHigh i.bits1, i.bits1) (by simp [written])
  simp only [Spoils, here]
  cases signed : i.signExt with
  | false =>
      simp only [Bool.false_eq_true, false_and, not_false_eq_true, iff_true]
      exact Keeps.frame stores (only ▸ Keeps.div low high signed)
  | true =>
      simp only [true_and]
      have narrow (op : ArithOp) : (divPart ub op i m).ty.width ≤ 64 := Keeps.bits_le i.bits1
      have both : WritesNames _ m (denoteDiv ub i m) :=
        (writesNames_write low (narrow .div) m).trans (writesNames_write high (narrow .rem) _)
      have sizes : i.bits1 = .l ∨ i.bits1 = .q ∨ i.bits1 = .w ∨ i.bits1 = .b := by
        cases i.bits1 <;> simp
      rcases sizes with width | width | width | width
      · have loName : (regOperand .rax i.bits1).names = [.d .rax] := by rw [width]; rfl
        have hiName : (divHigh i.bits1).names = [.d .rdx] := by rw [width]; rfl
        rw [loName, hiName] at both only
        simp only [width, reduceCtorEq, false_and, or_self, not_false_eq_true, iff_true]
        exact Keeps.frame stores (only ▸ ⟨_, by simp [RegName.Fits], by simp [eq_comm], both⟩)
      · have loName : (regOperand .rax i.bits1).names = [.q (.gpr .rax)] := by rw [width]; rfl
        have hiName : (divHigh i.bits1).names = [.q (.gpr .rdx)] := by rw [width]; rfl
        rw [loName, hiName] at both only
        simp only [width, reduceCtorEq, false_and, or_self, not_false_eq_true, iff_true]
        exact Keeps.frame stores (only ▸ ⟨_, by simp [RegName.Fits], by simp, both⟩)
      · have range : i.bits1 = .b ∨ i.bits1 = .w := .inr width
        have loName : (regOperand .rax i.bits1).names = [.w .rax] := by rw [width]; rfl
        have hiName : (divHigh i.bits1).names = [.w .rdx] := by rw [width]; rfl
        rw [loName, hiName] at both only
        rw [keepsFrame_pair_iff stores only rfl rfl (by simp) both, divPart_eq signed range,
          divPart_eq signed range, RegName.fits_signed _ width, RegName.fits_signed _ width]
        simp [width, RegName.isLow]
      · have range : i.bits1 = .b ∨ i.bits1 = .w := .inl width
        have loName : (regOperand .rax i.bits1).names = [.l .rax] := by rw [width]; rfl
        have hiName : (divHigh i.bits1).names = [.h .rax] := by rw [width]; rfl
        rw [loName, hiName] at both only
        rw [divPart_eq signed range] at both
        have upper := byteQuotient_upper_iff width (m.regs (.gpr .rax)) (idivPart ub .div i m)
          ((divPart ub .rem i m).conv (.uint 64))
        have final : (denoteDiv ub i m).regs (.gpr .rax) = _ := congrFun both .rax
        simp only [width, reduceCtorEq, false_and, true_and, false_or]
        rw [← upper]
        constructor
        · intro frame k bound above
          rw [← frame.kept .rax k bound (by simp [only, covered, baseReg, RegName.holds]; omega), final]
          rfl
        · intro same
          refine ⟨fun g k bound outside => ?_, fun g named => by simp [only] at named⟩
          by_cases here : g = .rax
          · subst here
            rw [final]
            refine same k bound ?_
            simp [only, covered, baseReg, RegName.holds] at outside
            omega
          · have elsewhere : (denoteDiv ub i m).regs (.gpr g) = _ := congrFun both g
            rw [elsewhere]
            simp [writeNames, writeName, baseReg, gprs, Ne.symm here]

/-! The early return of `loop`. -/

theorem loopCount_eq_zero_iff {ub : Undef} {i : Instruction} {m : Mach} {size : Size}
    (width : i.size1.getD .q = size) :
    loopCount ub i m = 0 ↔ (regOperand .rcx size).value ub size m = 1 := by
  subst width
  exact BitVec.sub_eq_iff_eq_add.trans (by simp)

theorem upperHalf_eq_zero_iff (x : BitVec 64) :
    x.extractLsb' 32 32 = 0 ↔ ∀ k, 32 ≤ k → x.getLsbD k = false := by
  constructor
  · intro zero k upper
    by_cases inside : k < 64
    · have bit := congrArg (fun half => half.getLsbD (k - 32)) zero
      have position : 32 + (k - 32) = k := by omega
      have small : k - 32 < 32 := by omega
      simpa only [BitVec.getLsbD_extractLsb', small, position, decide_true, Bool.true_and,
        BitVec.ofNat_eq_ofNat, BitVec.getLsbD_zero] using bit
    · exact BitVec.getLsbD_of_ge x k (by omega)
  · intro clear
    apply BitVec.eq_of_getLsbD_eq
    intro k _
    rw [BitVec.getLsbD_extractLsb', clear (32 + k) (by omega), Bool.and_false]
    exact BitVec.getLsbD_zero.symm

theorem keepsFrame_loop_iff {ub : Undef} {i : Instruction} {m m₀ : Mach}
    (stores : ∀ p ∈ i.stores, p.1.Storable p.2) (here : i.op = .loop) (same : gprs m₀ = gprs m) :
    KeepsFrame i m₀ (afterLoop m₀ (denoteLoop ub i m)) ↔ ¬Spoils ub i m := by
  have written : i.stores = [(regOperand .rcx (i.size1.getD .q), i.size1.getD .q),
      (ripOperand, i.bits2)] := by
    simp [Instruction.stores, here]
  have only : i.destinations = [sizedName .rcx (i.size1.getD .q), .q .rip] := by
    simp [Instruction.destinations, written, regOperand, ripOperand, Operand.names]
  simp only [Spoils, here]
  by_cases last : loopCount ub i m = 0
  · have returned : afterLoop m₀ (denoteLoop ub i m) = ⟨m₀.regs, (loopCounted ub i m).mem⟩ := by
      rw [denoteLoop, if_pos last]
      rfl
    have counter : m.regs (.gpr .rcx) = m₀.regs (.gpr .rcx) := (congrFun same .rcx).symm
    rw [returned, counter]
    by_cases half : i.size1 = some .l
    · have width : i.size1.getD .q = .l := by simp [half]
      have one := (loopCount_eq_zero_iff width).mp last
      have named : i.destinations = [.d .rcx, .q .rip] := by
        rw [only, half]
        rfl
      simp only [half, one, true_and, ne_eq, not_not]
      rw [upperHalf_eq_zero_iff]
      constructor
      · intro frame k upper
        exact frame.cleared .rcx (by simp [named]) (by simp [named]) k upper
      · intro zero
        refine ⟨fun _ _ _ _ => rfl, fun g member _ k upper => ?_⟩
        obtain rfl : g = .rcx := by simpa [named] using member
        exact zero k upper
    · have whole (g : Gpr) : .d g ∉ i.destinations := by
        rw [only]
        cases width : i.size1 with
        | none => simp [sizedName]
        | some size => cases size <;> simp_all [sizedName]
      simp only [half, false_and, not_false_eq_true, iff_true]
      exact ⟨fun _ _ _ _ => rfl, fun g member => absurd member (whole g)⟩
  · have continued : afterLoop m₀ (denoteLoop ub i m) =
        denoteJump ub i (loopCounted ub i m) := by
      rw [denoteLoop, if_neg last]
      rfl
    have notOne (half : i.size1 = some .l) : (regOperand .rcx .l).value ub .l m ≠ 1 := by
      have width : i.size1.getD .q = .l := by simp [half]
      exact fun one => last ((loopCount_eq_zero_iff width).mpr one)
    have flat : i.signExt = false := i.signExt_eq_false (by simp [here])
    have keeps : Keeps i.destinations m (denoteJump ub i (loopCounted ub i m)) :=
      only ▸ (Keeps.write_unsigned (regOperandStorable .rcx _) rfl).trans
        (Keeps.jump (stores (ripOperand, i.bits2) (by simp [written])) rfl flat)
    rw [continued, keepsFrame_congr same rfl]
    refine iff_of_true (Keeps.frame stores keeps) ?_
    rintro ⟨half, one, _⟩
    exact notOne half one

theorem keepsFrame_denoteOp_iff {ub : Undef} {i : Instruction} {m : Mach}
    (stores : ∀ p ∈ i.stores, p.1.Storable p.2)
    (source : i.op = .lea → ∃ mem, i.arg 0 = .mem mem) (notLoop : i.op ≠ .loop) :
    KeepsFrame i m (denoteOp ub i m) ↔ ¬Spoils ub i m := by
  have plain (other : i.op ∉ [Op.not, .mov, .ctd, .sh, .div]) :
      KeepsFrame i m (denoteOp ub i m) := by
    simp only [List.mem_cons, List.not_mem_nil, or_false, not_or] at other
    refine Keeps.frame stores (keeps_denoteOp stores source ?_ ?_)
    · simp [other, notLoop]
    · simp [other]
  cases here : i.op with
  | not =>
      rw [denoteOp, here]
      exact keepsFrame_not_iff stores here
  | mov =>
      rw [denoteOp, here]
      exact keepsFrame_mov_iff stores here
  | ctd =>
      rw [denoteOp, here]
      exact keepsFrame_ctd_iff stores here
  | sh =>
      rw [denoteOp, here]
      exact keepsFrame_shift_iff stores here
  | div =>
      rw [denoteOp, here]
      exact keepsFrame_div_iff stores here
  | loop => exact absurd here notLoop
  | _ => exact iff_of_true (plain (by simp [here])) (by simp [Spoils, here])

/-- An instruction on its own changes no bits but those of its destinations, and clears the
upper half of a 32-bit one, exactly when its stored value is in range. -/
theorem subRegister_keepsFrame_iff (ub : Undef) {i : Instruction} {f : Function}
    (emitted : EmittedAlone i f) (handled : i.nothingToDo = false) (m : Mach) :
    KeepsFrame i m (f.call ub m) ↔ ¬Spoils ub i (stepRip i m) := by
  obtain ⟨s, out, s', found⟩ := emitted.emitted
  have stores := emitBody_stores found handled
  have same : gprs m = gprs (stepRip i m) := (writesNames_stepRip i m).symm
  by_cases loops : i.op = .loop
  · rw [emitted.call_loop loops handled]
    exact keepsFrame_loop_iff stores loops same
  · have called : f.call ub m = denoteOp ub i (stepRip i m) := by
      simp [emitted.call loops, denote, handled]
    rw [called, keepsFrame_congr same rfl]
    have source (lea : i.op = .lea) := (emitBody_lea found handled lea).imp fun _ shape => shape.1
    exact keepsFrame_denoteOp_iff stores source loops

def notLow : Instruction :=
  { original := "not    %al", vaddr := 0x1000, length := 2, op := .not, size1 := some .b,
    operands := [.reg (.l .rax)] }

def notHigh : Instruction :=
  { original := "not    %ah", vaddr := 0x1000, length := 2, op := .not, size1 := some .b,
    operands := [.reg (.h .rax)] }

theorem subRegister_keepsFrame_iff_notHigh :
    ∃ f, EmittedAlone notHigh f ∧ notHigh.nothingToDo = false ∧
      KeepsFrame notHigh ⟨fun _ => 0, fun _ => 0⟩ (f.call default ⟨fun _ => 0, fun _ => 0⟩) ∧
      (f.call default ⟨fun _ => 0, fun _ => 0⟩).regs (.gpr .rax) = 0xff00 := by
  have emitted : EmittedAlone notHigh ((printed (emitFunction .alone notHigh)).get rfl) :=
    ⟨.initial, _, rfl⟩
  have high : ¬((notHigh.arg 0).isLow = true) := by decide
  exact ⟨_, emitted, rfl, (subRegister_keepsFrame_iff default emitted rfl _).mpr high, by decide⟩

theorem not_low_spoils_upper :
    ∃ f, EmittedAlone notLow f ∧ notLow.nothingToDo = false ∧
      ¬KeepsFrame notLow ⟨fun _ => 0, fun _ => 0⟩
        (f.call default ⟨fun _ => 0, fun _ => 0⟩) := by
  -- From zero, `not %al` sets all 64 bits of `%rax`.
  refine ⟨(printed (emitFunction .alone notLow)).get rfl, ⟨.initial, _, rfl⟩, rfl, ?_⟩
  intro frame
  have bit := frame.kept .rax 8 (by decide) (by decide)
  revert bit
  decide

end Tase
