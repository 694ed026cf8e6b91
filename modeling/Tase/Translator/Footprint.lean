import Tase.Translator.Lens
import Tase.Translator.Records

/-! What an operand reads and what a store to it changes. -/

namespace Tase

open Cpp

namespace Operand

def reads : Operand → List Reg
  | .reg r => (baseReg r).toList
  | .mem target => target.registers
  | .imm _ | .addr _ _ => []

def Occupies (ub : Undef) (o : Operand) (size : Size) (m : Mach) (a : BitVec 64) : Prop :=
  match o with
  | .mem target => (a - target.address ub m).toNat < size.bits / 8
  | .reg _ | .imm _ | .addr _ _ => False

variable {ub : Undef} {o : Operand} {size : Size} {m m' : Mach} {x : Val} {value : Mach → Val}

theorem store_register (name : RegName) :
    (Operand.reg name).store ub size value m = m ∨
      ∃ whole v, baseReg name = some whole ∧
        (Operand.reg name).store ub size value m = m.setReg whole v := by
  cases base : baseReg name with
  | none => exact .inl (by simp only [store, base])
  | some whole =>
      refine .inr ⟨whole, ?_⟩
      simp only [store, base, Machine.setReg_setReg, true_and]
      cases size with
      | q | l | w => exact ⟨_, rfl⟩
      | b => cases name <;> exact ⟨_, rfl⟩

theorem store_regs_of_ne {r : Reg} (other : o.target ≠ some r) :
    (o.store ub size value m).regs r = m.regs r := by
  cases o with
  | imm n | addr n symbol | mem target => rfl
  | reg name =>
      rcases store_register name with same | ⟨whole, v, base, changed⟩
      · rw [same]
      · have different : r ≠ whole := fun same => other (base.trans (by rw [same]))
        rw [changed, Machine.setReg_regs, if_neg different]

theorem store_mem_outside {a : BitVec 64} (outside : ¬ o.Occupies ub size m a) :
    (o.store ub size value m).mem a = m.mem a := by
  cases o with
  | imm n | addr n symbol => rfl
  | mem target => exact Mem.store_outside _ _ _ _ (Nat.not_lt.mp outside)
  | reg name =>
      rcases store_register name with same | ⟨whole, v, _, changed⟩
      · rw [same]
      · rw [changed]
        rfl

theorem write_regs_of_ne {r : Reg} (other : o.target ≠ some r) :
    (o.write ub size x m).regs r = m.regs r := store_regs_of_ne other

theorem target_of_reads {r : Reg} (apart : r ∉ o.reads) : o.target ≠ some r := by
  intro target
  cases o with
  | reg name =>
      change baseReg name = some r at target
      exact apart (by simp [reads, target])
  | imm _ | addr _ _ | mem _ => cases target

theorem fetchExp_over {e : Exp} (found : o.fetchExp size = .ok e) (notMem : ∀ t, o ≠ .mem t) :
    e.Over o.reads := by
  cases o with
  | reg r =>
      obtain ⟨_, _, found⟩ := except_bind_ok found
      exact regExpR_over found
  | imm n | addr n symbol =>
      cases found
      exact .lit _ _
  | mem target => exact absurd rfl (notMem target)

theorem value_congr (regs : ∀ r ∈ o.reads, m.regs r = m'.regs r)
    (mem : ∀ a, o.Occupies ub size m a → m.mem a = m'.mem a) :
    o.value ub size m = o.value ub size m' := by
  cases o with
  | imm n | addr n symbol | reg r =>
      unfold value
      split
      · rename_i e found
        have same : evalOn ub m e = evalOn ub m' e :=
          (fetchExp_over found (by simp)).eval_eq ub regs
        rw [same]
      · rfl
  | mem target =>
      cases found : target.addr with
      | error err =>
          have failed : (Operand.mem target).fetchExp size = .error err := by
            simp only [fetchExp, found]
            rfl
          simp only [value, failed]
      | ok e =>
          have place : target.address ub m = target.address ub m' := MemRef.address_congr regs
          rw [value_mem found, value_mem found, ← place]
          refine Mem.load_congr _ _ _ _ fun offset inside => mem _ ?_
          have small : offset < 2 ^ 64 := by
            have := (bits_whole size).2
            omega
          have back : target.address ub m + BitVec.ofNat 64 offset - target.address ub m =
              BitVec.ofNat 64 offset := by
            rw [BitVec.add_comm, BitVec.add_sub_cancel]
          rw [Occupies, back, BitVec.toNat_ofNat, Nat.mod_eq_of_lt small]
          exact inside

theorem value_setEfl {flags : BitVec 64} (apart : .efl ∉ o.reads) :
    o.value ub size (m.setReg .efl flags) = o.value ub size m := by
  refine value_congr (fun r member => ?_) fun a _ => rfl
  rw [Machine.setReg_regs, if_neg]
  rintro rfl
  exact apart member

end Operand

end Tase
