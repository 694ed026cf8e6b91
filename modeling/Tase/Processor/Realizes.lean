import Tase.Processor.Checker

/-! What has to be shown of an instruction: its emitted code leaves the registers and the memory that the
processor leaves, and the flags that are relied on. -/

namespace Tase

open Cpp

namespace RegName

theorem insert_put {r : RegName} (known : (baseReg r).isSome) {c : BitVec 64} (fits : r.Fits c)
    (old : BitVec 64) : r.insert old c = r.put old (c.setWidth (Tase.regSize r).bits) := by
  -- `emit_store` of a value in range replaces the named part.
  rw [← insert_eq_put known]
  cases r with
  | other name => cases known
  | q held => simp [insert, Tase.regSize, Size.bits]
  | d g => simp [insert, Tase.regSize, Size.bits]
  | w g | l g =>
      have small (n : Nat) (below : c.toNat < n) : c.toNat = c.toNat % n % 2 ^ 64 := by
        rw [Nat.mod_eq_of_lt below, Nat.mod_eq_of_lt c.isLt]
      congr 1
      apply BitVec.eq_of_toNat_eq
      rw [BitVec.toNat_setWidth, BitVec.toNat_setWidth]
      exact small _ fits
  | h g =>
      have same : ((c.setWidth 8).setWidth 64).setWidth 16 <<< 8 = c.setWidth 16 <<< 8 := by
        apply BitVec.eq_of_getLsbD_eq
        intro k inside
        simp only [BitVec.getLsbD_shiftLeft, BitVec.getLsbD_setWidth]
        by_cases low : k < 8
        · simp [low]
        · have byte : k - 8 < 8 ∧ k - 8 < 64 := by omega
          simp [byte]
      simp only [insert, Tase.regSize, Size.bits, same]

end RegName

namespace Operand

variable {ub : Undef} {o : Operand} {size : Size} {m : Mach} {x : Val}

theorem write_writeAt (storable : o.Storable size) (reach : o.InReach) (narrow : x.ty.width ≤ 64)
    (fits : ∀ r, o = .reg r → r.Fits (x.conv (.uint 64))) :
    o.write ub size x m = o.writeAt size m (x.conv size.uint) m := by
  cases o with
  | imm n | addr n symbol => exact storable.elim
  | mem target =>
      obtain ⟨e, found⟩ := storable
      change m.store (target.address ub m) (x.conv size.uint) = _
      rw [MemRef.address_effective found (reach target rfl)]
      rfl
  | reg r =>
      obtain ⟨width, known⟩ := storable
      obtain ⟨whole, base⟩ := Option.isSome_iff_exists.mp known
      subst width
      have truncated : (x.conv (.uint 64)).setWidth (Tase.regSize r).bits = x.conv (Tase.regSize r).uint :=
        Val.conv_setWidth x (.uint 64) _ (by cases Tase.regSize r <;> decide)
      rw [write_reg base rfl narrow, writeAt_reg base, RegName.insert_put known (fits r rfl), truncated]

theorem write_unsigned (storable : o.Storable size) (reach : o.InReach) (v : BitVec size.bits) :
    o.write ub size ⟨size.uint, v⟩ m = o.writeAt size m v m := by
  rw [write_writeAt storable reach (size_cases size).2 fun r same => ?_]
  · simp
  · subst same
    obtain ⟨rfl, _⟩ := storable
    exact RegName.fits_unsigned rfl

theorem writeAt_efl {before : Mach} {v : BitVec size.bits} (apart : .efl ∉ o.reads) :
    (o.writeAt size before v m).regs .efl = m.regs .efl := by
  cases o with
  | imm n | addr n symbol | mem target => rfl
  | reg r =>
      cases base : baseReg r with
      | none => simp only [writeAt, base]
      | some whole =>
          have other : Reg.efl ≠ whole := by
            rintro rfl
            simp [reads, base] at apart
          rw [writeAt_reg base, Machine.setReg_regs, if_neg other]

end Operand

/-! An operand at another moment. -/

section

variable {m m' : Mach} {size : Size}

theorem Operand.read_setReg {o : Operand} {r : Reg} {x : BitVec 64} (apart : r ∉ o.reads) :
    o.read size (m.setReg r x) = o.read size m := by
  refine read_congr (fun held member => ?_) rfl
  rw [Machine.setReg_regs, if_neg]
  rintro rfl
  exact apart member

theorem MemRef.effective_setReg {target : MemRef} {r : Reg} {x : BitVec 64} (apart : r ∉ target.registers) :
    target.effective (m.setReg r x) = target.effective m := by
  refine effective_congr fun held member => ?_
  rw [Machine.setReg_regs, if_neg]
  rintro rfl
  exact apart member

theorem Operand.writeAt_setReg {o : Operand} {r : Reg} {x : BitVec 64} {v : BitVec size.bits} (apart : r ∉ o.reads) :
    o.writeAt size (m.setReg r x) v (m'.setReg r x) = (o.writeAt size m v m').setReg r x := by
  cases o with
  | imm n | addr n symbol => rfl
  | mem target =>
      change (m'.setReg r x).store (target.effective (m.setReg r x)) v = _
      rw [MemRef.effective_setReg apart]
      rfl
  | reg name =>
      cases base : baseReg name with
      | none => simp only [writeAt, base]
      | some whole =>
          have other : whole ≠ r := by
            rintro rfl
            simp [reads, base] at apart
          rw [writeAt_reg base, writeAt_reg base, Machine.setReg_regs, if_neg other,
            Machine.setReg_comm _ _ _ _ _ other.symm]

end

structure Instruction.Realizes (i : Instruction) (a : Action) (m m' : Mach) : Prop where
  state : ∃ flags, m' = a.after.setReg .efl flags
  exact : ∀ f, i.exact f = true → ∃ b, a.fate f = .becomes b ∧ eflBit m' f.bit = b
  carries : ∀ f, i.carries f = true →
    a.fate f ≠ .undefined ∧ (a.fate f).Allows (eflBit m f.bit) (eflBit m' f.bit)

section

variable {i : Instruction} {m m' : Mach}

theorem Instruction.realizes_keeping (flags : m'.regs .efl = m.regs .efl)
    (none : ∀ f, i.exact f = false) : i.Realizes (.keeping m') m m' := by
  refine ⟨⟨m'.regs .efl, ?_⟩, fun f exact => ?_, fun f _ => ⟨nofun, ?_⟩⟩
  · exact (Machine.setReg_self ..).symm
  · rw [none] at exact
    cases exact
  · change eflBit m' f.bit = eflBit m f.bit
    rw [eflBit, flags, eflBit]

end

end Tase
