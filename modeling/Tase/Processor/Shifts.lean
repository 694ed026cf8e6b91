import Tase.Processor.Moves

/-! Shifts, bit tests and the instructions on the carry. -/

namespace Tase

open Cpp

theorem modifyVal_changed {ub : Undef} {size : Size} {offset : Val} {n : Nat} (change : TestBit)
    (x : BitVec size.bits) (place : offset.toInt = n) (small : n < size.bits) :
    (change.modifyVal ub ⟨size.uint, x⟩ offset).conv size.uint =
      change.changed x (BitVec.twoPow size.bits n) := by
  apply BitVec.eq_of_getLsbD_eq
  intro k inside
  rw [Val.conv_getLsbD, modifyVal_bit x change place small inside]
  cases change <;> by_cases here : k = n <;>
    simp [TestBit.changed, TestBit.apply, here, inside, small]

namespace Instruction

variable {ub : Undef} {i : Instruction} {m : Mach}

theorem knownCount_eq {c : Nat} (known : i.knownCount = some c) : i.shiftCount m = c := by
  unfold knownCount at known
  split at known
  · rename_i n amount
    cases known
    rw [shiftCount, amount]
    rfl
  · cases known

def ShiftDefines (i : Instruction) (c : Nat) : Status → Prop
  | .cf => c < (i.size2.getD .q).bits
  | .pf => False
  | .zf => True
  | .sf => i.size2.getD .q = .b
  | .of => c = 1

theorem exact_moves {f : Status} (op : i.op = .sh) (exact : i.exact f = true) :
    0 < i.shiftCount m ∧ i.ShiftDefines (i.shiftCount m) f := by
  cases known : i.knownCount with
  | none => simp [Instruction.exact, op, known] at exact
  | some c =>
      simp only [Instruction.exact, op, known, ← @knownCount_eq i m c known, Bool.and_eq_true,
        decide_eq_true_eq] at exact
      refine ⟨exact.1, ?_⟩
      cases f with
      | cf | of | sf => simpa only [ShiftDefines, decide_eq_true_eq] using exact.2
      | zf => trivial
      | pf => cases exact.2

theorem carries_defined {f : Status} (op : i.op = .sh) (kept : i.carries f = true) :
    i.ShiftDefines (i.shiftCount m) f := by
  simp only [Instruction.carries, op] at kept
  cases f with
  | cf =>
      have small := maskedCount_lt (i.size2.getD .q) ((i.arg 0).read .b m) false
      simp only [Bool.or_eq_true, decide_eq_true_eq] at kept
      unfold ShiftDefines shiftCount
      rcases kept with size | size <;> rw [size] at small ⊢ <;> exact small
  | zf => trivial
  | sf => simpa only [ShiftDefines, decide_eq_true_eq] using kept
  | pf | of => cases kept

namespace Ready

variable (ready : i.Ready)

include ready

theorem shiftForm (op : i.op = .sh) :
    shiftOperands i = .ok (i.arg 1, i.arg 1) ∧ i.cNoflag = false ∧ i.bits1 = .b ∧
      (i.signExt && (i.arg 1).isLow) = false := by
  have suited := ready.suits
  simp only [Instruction.suits, op, Bool.and_eq_true, Bool.not_eq_true', decide_eq_true_eq] at suited
  obtain ⟨⟨⟨flagged, byte⟩, two⟩, wide⟩ := suited
  obtain ⟨count, dest, operands⟩ := List.length_eq_two.mp two
  refine ⟨?_, flagged, byte, wide⟩
  simp [shiftOperands, op, operands, Instruction.arg]

theorem shiftReads (op : i.op = .sh) :
    maskedCount (i.size2.getD .q) ((i.arg 0).value ub .b m) = i.shiftCount m ∧
      (i.arg 1).value ub (i.size2.getD .q) m = (i.arg 1).read (i.size2.getD .q) m := by
  obtain ⟨found, flagged, byte, wide⟩ := ready.shiftForm op
  have both : i.fetches = [(i.arg 0, .b), (i.arg 1, i.size2.getD .q)] := by
    simp only [Instruction.fetches, op, found, byte]
  constructor
  · rw [Operand.value_read (ready.fetches (by simp [both])) (ready.arg 0).reach, shiftCount]
  · exact Operand.value_read (ready.fetches (by simp [both])) (ready.arg 1).reach

theorem shiftWord (op : i.op = .sh) :
    (shiftVal ub i (i.arg 1) (i.arg 1) .b (i.size2.getD .q) m).conv (i.size2.getD .q).uint =
      i.shifted m := by
  obtain ⟨count, source⟩ := @shiftReads ub i m ready op
  rw [shiftVal_plain (by simp [op]), count, source]
  rfl

theorem shiftWritten (op : i.op = .sh) :
    (i.arg 1).write ub (i.size2.getD .q) (shiftVal ub i (i.arg 1) (i.arg 1) .b (i.size2.getD .q) m) m =
      (i.shifts m).after := by
  obtain ⟨found, flagged, byte, wide⟩ := ready.shiftForm op
  have storable : (i.arg 1).Storable (i.size2.getD .q) :=
    ready.stores (by simp [Instruction.stores, op, found])
  rw [Operand.write_writeAt storable (ready.arg 1).reach]
  · rw [ready.shiftWord op]
    rfl
  · rw [shiftVal_ty]
    exact (size_cases _).2
  · intro r same
    cases signed : i.signExt with
    | true =>
        refine RegName.fits_of_not_low _ ?_
        simpa [signed, same, Operand.isLow] using wide
    | false =>
        rw [same] at storable
        refine RegName.fits_unsigned ?_
        rw [shiftVal_ty, signed, storable.1]

theorem shiftShows (op : i.op = .sh) (moves : 0 < i.shiftCount m) {f : Status}
    (defined : i.ShiftDefines (i.shiftCount m) f) :
    ∃ b, (i.shifts m).fate f = .becomes b ∧ eflBit (denoteShift ub i m) f.bit = b := by
  obtain ⟨found, flagged, byte, _⟩ := ready.shiftForm op
  obtain ⟨count, source⟩ := @shiftReads ub i m ready op
  have flags := @denoteShift_flags ub i m _ _ found flagged byte (by rw [count]; exact moves)
  simp only [ready.shiftWord op, count, source] at flags
  obtain ⟨zero, seventh, overflow, carry⟩ := flags
  have some : ¬ i.shiftCount m = 0 := moves.ne'
  cases f with
  | pf => exact defined.elim
  | zf => exact ⟨_, if_neg some, zero⟩
  | cf => exact ⟨_, (if_neg some).trans (if_pos defined), carry (Nat.le_of_lt defined)⟩
  | of => exact ⟨_, (if_neg some).trans (if_pos defined), overflow⟩
  | sf =>
      refine ⟨_, if_neg some, seventh.trans ?_⟩
      have bits : (i.size2.getD .q).bits = 8 := congrArg Size.bits defined
      have last : 7 = (i.size2.getD .q).bits - 1 := by omega
      rw [BitVec.msb_eq_getLsbD_last, ← last]

theorem sh (op : i.op = .sh) : i.Realizes (i.shifts m) m (denoteOp ub i m) := by
  obtain ⟨found, flagged, byte, _⟩ := ready.shiftForm op
  obtain ⟨count, _⟩ := @shiftReads ub i m ready op
  have shape : denoteOp ub i m = denoteShift ub i m := by simp only [denoteOp, op]
  rw [shape]
  rcases Nat.eq_zero_or_pos (i.shiftCount m) with still | moves
  · have state : denoteShift ub i m = (i.shifts m).after := by
      rw [denoteShift_still found (by rw [byte, count, still]), byte, ready.shiftWritten op]
    have fate (f : Status) : (i.shifts m).fate f = .kept := if_pos still
    refine ⟨⟨_, state.trans (Machine.setReg_self ..).symm⟩, fun f exact => ?_, fun f _ => ?_⟩
    · exact absurd still (exact_moves op exact).1.ne'
    · rw [fate, state]
      refine ⟨by simp, ?_⟩
      change eflBit (i.shifts m).after f.bit = eflBit m f.bit
      unfold eflBit
      rw [shifts, Operand.writeAt_efl (ready.arg 1).flags]
  · refine ⟨?_, fun f exact => ?_, fun f kept => ?_⟩
    · rw [denoteShift_moved found flagged (by rw [byte, count]; exact moves), byte, ready.shiftWritten op]
      exact ⟨_, rfl⟩
    · exact ready.shiftShows op moves (exact_moves op exact).2
    · obtain ⟨b, becomes, same⟩ := @shiftShows ub i m ready op moves f (carries_defined op kept)
      rw [becomes]
      exact ⟨by simp, same⟩

theorem bt (op : i.op = .bt) : i.Realizes (i.testsBit m) m (denoteOp ub i m) := by
  -- `bt`, `btc`, `btr` and `bts` on a register.
  have shape : denoteOp ub i m = denoteBittest ub i m := by simp only [denoteOp, op]
  obtain ⟨offset, tested⟩ : (i.arg 0).Fetchable i.bits1 ∧ (i.arg 1).Fetchable i.bits1 :=
    ready.ensures (by simpa only [emitOp, op] using Emit.Ensures.bittestFetches)
  have place := @bitOffset_toInt ub i.bits1 ((i.arg 0).read i.bits1 m)
  have small : ((i.arg 0).read i.bits1 m).toNat % i.bits1.bits < i.bits1.bits := Nat.mod_lt _ i.bits1.bits_pos
  have flags {k : Nat} (inside : k < 64) :=
    @afterTest_bit ub i.bits1 m ((i.arg 1).read i.bits1 m) _ _ place small k inside
  obtain ⟨efl, tests⟩ : ∃ efl, afterTest ub ((i.arg 1).read i.bits1 m)
      (bitOffset ub ((i.arg 0).read i.bits1 m)) m = m.setReg .efl efl := ⟨_, rfl⟩
  have state : denoteBittest ub i m = (i.testsBit m).after.setReg .efl efl := by
    rw [denoteBittest_eq]
    simp only
    rw [Operand.value_read offset (ready.arg 0).reach, Operand.value_read tested (ready.arg 1).reach, tests]
    cases change : i.testBit with
    | none => simp only [testsBit, change]
    | some change' =>
        have storable : (i.arg 1).Storable i.bits1 :=
          ready.stores (by simp [Instruction.stores, op, change])
        simp only [testsBit, change]
        rw [Val.cast, modifyVal_changed _ _ place small, Operand.write_unsigned storable (ready.arg 1).reach,
          Operand.writeAt_setReg (ready.arg 1).flags]
  have bits (k : Nat) : eflBit (denoteBittest ub i m) k = eflBit (m.setReg .efl efl) k := by
    rw [state]
    simp only [eflBit, Machine.setReg_regs_self]
  rw [tests] at flags
  rw [shape]
  refine ⟨⟨efl, state⟩, fun f exact => ?_, fun f kept => ?_⟩
  · obtain rfl : f = .cf := by simpa [Instruction.exact, op] using exact
    exact ⟨_, rfl, (bits _).trans ((flags (by decide)).trans (if_pos rfl))⟩
  · obtain rfl : f = .zf := by simpa [Instruction.carries, op] using kept
    exact ⟨by simp [testsBit], (bits _).trans ((flags (by decide)).trans (if_neg (by decide)))⟩

end Ready

theorem eflBit_assigned {bit k : Nat} {value : Val} {b : Bool} (small : bit < 31) (inside : k < 64)
    (only : value.bit k = (decide (k = bit) && b)) :
    eflBit (setFlag ub (2 ^ bit) value false m) k = if k = bit then b else eflBit m k := by
  rw [eflBit_setFlag_all ub inside (Nat.pow_lt_pow_right (by decide) small), only, Nat.testBit_two_pow]
  by_cases here : k = bit
  · simp [here]
  · simp [here, Ne.symm here]

theorem realizes_carrying {value : Val} {b : Bool} (exact : ∀ f, i.exact f = true → f = .cf)
    (kept : ∀ f, i.carries f = true → f ≠ .cf)
    (only : ∀ f : Status, value.bit f.bit = (decide (f.bit = flagCF) && b)) :
    i.Realizes (.carrying b m) m (setFlag ub (2 ^ flagCF) value false m) := by
  have bits (f : Status) : eflBit (setFlag ub (2 ^ flagCF) value false m) f.bit =
      if f.bit = flagCF then b else eflBit m f.bit :=
    eflBit_assigned (by decide) (by cases f <;> decide) (only f)
  refine ⟨⟨_, rfl⟩, fun f right => ?_, fun f carried => ?_⟩
  · cases exact f right
    exact ⟨b, rfl, bits .cf⟩
  · have other := kept f carried
    have apart : f.bit ≠ flagCF := by
      cases f with
      | cf => exact absurd rfl other
      | pf | zf | sf | of => decide
    simp only [Action.carrying, if_neg other]
    exact ⟨by simp, (bits f).trans (if_neg apart)⟩

theorem realizes_flag {clear : Bool} (op : i.op = if clear then .cl else .st) :
    i.Realizes (if i.flagBit = some .c then .carrying (!clear) m else .keeping m) m
      (denoteFlag ub i clear m) := by
  -- `clc` and `stc`. The direction flag is no status flag.
  have kinds : i.op = .cl ∨ i.op = .st := by cases clear <;> simp [op]
  have value (bit k : Nat) (inside : k < 64) :
      (if clear then Val.lit .dec 0 else .lit .hex (2 ^ bit)).bit k = (decide (k = bit) && !clear) := by
    cases clear with
    | true => simpa using Val.lit_bit .dec 0 inside
    | false => simpa [Nat.testBit_two_pow, eq_comm] using Val.lit_bit .hex (2 ^ bit) inside
  cases which : i.flagBit with
  | none =>
      rw [if_neg (by simp), denoteFlag, which]
      exact realizes_keeping rfl fun f => by rcases kinds with op | op <;> simp [Instruction.exact, op, which]
  | some flag =>
      cases flag with
      | c =>
          rw [if_pos rfl, denoteFlag, which]
          refine realizes_carrying (fun f right => ?_) (fun f kept => ?_) fun f =>
            value _ _ (by cases f <;> decide)
          · rcases kinds with op | op <;> simpa [Instruction.exact, op, which] using right
          · rcases kinds with op | op <;> simpa [Instruction.carries, op, which] using kept
      | i =>
          rw [if_neg (by simp), denoteFlag, which]
          exact realizes_keeping rfl fun f => by rcases kinds with op | op <;> simp [Instruction.exact, op, which]
      | d =>
          rw [if_neg (by simp), denoteFlag, which]
          refine ⟨⟨_, rfl⟩, fun f right => ?_, fun f _ => ⟨by simp [Action.keeping], ?_⟩⟩
          · rcases kinds with op | op <;> simp [Instruction.exact, op, which] at right
          · exact (eflBit_assigned (by decide) (by cases f <;> decide)
              (value _ _ (by cases f <;> decide))).trans (if_neg (by cases f <;> decide))

theorem realizes_cmc (op : i.op = .cmc) :
    i.Realizes (.carrying (!eflBit m flagCF) m) m (denoteCmc ub m) := by
  refine realizes_carrying (fun f right => ?_) (fun f kept => ?_) fun f => ?_
  · simpa [Instruction.exact, op] using right
  · simpa [Instruction.carries, op] using kept
  · have inside : f.bit < 16 := by cases f <;> decide
    rw [Val.arith_bit_low ub rfl _ _ (by omega), flagVal_bit ub _ _ inside, Val.lit_bit _ _ (by omega),
      Nat.testBit_two_pow]
    by_cases here : f.bit = flagCF
    · simp [here]
    · simp [here, Ne.symm here]

end Instruction

end Tase
