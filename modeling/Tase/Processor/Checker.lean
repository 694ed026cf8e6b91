import Tase.Processor.Manual
import Tase.Translator.SubRegister

/-! Which instructions the translator gets right, and which flags can be relied on behind them. The
check looks at the records only; it is run along a cartridge with the flags that are right so far. -/

namespace Tase

open Cpp

abbrev Trust := Status → Bool

def Trust.nothing : Trust := fun _ => false

namespace Operand

structure Own (o : Operand) : Prop extends o.Plain where
  visible : ∀ r ∈ o.reads, r.hidden = false
  general : ∀ r, o = .reg r → ∃ g, baseReg r = some (.gpr g)

def isOwn (o : Operand) : Bool :=
  match o with
  | .reg r =>
      match baseReg r with
      | some (.gpr g) => !(Reg.gpr g).hidden
      | some .rip | some .efl | none => false
  | .mem target =>
      target.seg.isNone && decide (-2 ^ 31 < target.offset) && target.registers.all fun r => !r.hidden
  | .imm _ | .addr _ _ => true

theorem Own.of_visible {o : Operand} (unsegmented : ∀ target, o = .mem target → target.seg = none)
    (reach : o.InReach) (visible : ∀ r ∈ o.reads, r.hidden = false)
    (general : ∀ r, o = .reg r → ∃ g, baseReg r = some (.gpr g)) : o.Own := by
  refine ⟨⟨unsegmented, reach, fun flags => ?_⟩, visible, general⟩
  have seen := visible .efl flags
  simp [Reg.hidden] at seen

theorem isOwn_own {o : Operand} (own : o.isOwn = true) : o.Own := by
  unfold isOwn at own
  cases o with
  | imm n | addr n symbol =>
      exact .of_visible (by simp) (by simp [InReach]) (by simp [reads]) (by simp)
  | mem target =>
      simp only [Bool.and_eq_true, decide_eq_true_eq, Option.isNone_iff_eq_none, List.all_eq_true,
        Bool.not_eq_true'] at own
      obtain ⟨⟨unsegmented, reach⟩, visible⟩ := own
      refine .of_visible ?_ ?_ visible (by simp)
      · rintro _ ⟨⟩
        exact unsegmented
      · rintro _ ⟨⟩
        exact reach
  | reg r =>
      cases base : baseReg r with
      | none => simp [base] at own
      | some whole =>
          cases whole with
          | rip | efl => simp [base] at own
          | gpr g =>
              have visible : (Reg.gpr g).hidden = false := by simpa [base] using own
              refine .of_visible (by simp) (by simp [InReach]) ?_ ?_
              · simpa [reads, base] using visible
              · rintro _ ⟨⟩
                exact ⟨g, base⟩

def uses (o : Operand) (r : Reg) : Bool := decide (r ∈ o.reads)

end Operand

def Cond.needs : Cond → List Status
  | .c => [.cf]
  | .z => [.zf]
  | .l => [.sf, .of]
  | .o => [.of]
  | .p => [.pf]
  | .s => [.sf]

namespace Instruction

def exchanges (i : Instruction) : Bool :=
  match i.arg 0, i.arg 1 with
  | .reg _, .reg _ => true
  | .reg r, .mem target => !((baseReg r).any (Operand.mem target).uses)
  | .mem _, .reg _ => i.op = .xchg
  | _, _ => false

/-- The form is one that is translated right. -/
def suits (i : Instruction) : Bool :=
  match i.op with
  | .add | .sub | .adc | .sbb | .cmp | .neg | .and | .or | .xor | .test | .inc | .dec | .leave
  | .call | .set | .cl | .st | .cmc => true
  | .mov => !(i.signExt && (i.arg 1).isLow)
  | .lea =>
      match i.arg 1 with
      | .reg r => i.bits1 ≠ .b && (i.bits1 ≠ .w || !((baseReg r).any (i.arg 0).uses))
      | _ => false
  | .xchg | .xadd => i.exchanges
  | .cmov =>
      match i.arg 1 with
      | .reg r => r.keeps || !((baseReg r).any (i.arg 0).uses)
      | _ => false
  | .ctd | .not => !(i.arg (if i.op = .ctd then 1 else 0)).isLow
  | .push | .pop => !(i.arg 0).uses (.gpr .rsp)
  | .ret => i.operands.isEmpty
  | .j => i.bits1 = .q && i.bits2 = .q
  | .mul => !i.signExt || i.operands.length ≠ 1
  | .div => !i.signExt || i.bits1 = .l || i.bits1 = .q
  | .sh => !i.cNoflag && i.bits1 = .b && i.operands.length = 2 && !(i.signExt && (i.arg 1).isLow)
  | .bt => match i.arg 1 with | .reg _ => true | _ => false
  | .nop | .enter | .rc | .ro | .sa | .shd | .loop | .bswap | .pushf | .popf | .other _ => false

def flagsRead (i : Instruction) : List Status :=
  match i.op with
  | .adc | .sbb | .cmc => [.cf]
  | .j | .set | .cmov =>
      match i.cond with
      | some code => code.needs ++ if i.cEq then [.zf] else []
      | none => []
  | _ => []

def knownCount (i : Instruction) : Option Nat :=
  match i.arg 0 with
  | .imm n => some (maskedCount (i.size2.getD .q) (BitVec.ofNat 8 n))
  | _ => none

/-- The flags that are right behind the instruction. SF after a shift is taken from bit 7. -/
def exact (i : Instruction) (f : Status) : Bool :=
  match i.op with
  | .add | .sub | .adc | .sbb | .cmp | .neg | .and | .or | .xor | .test | .xadd => f ≠ .pf
  | .inc | .dec => f = .zf || f = .sf || f = .of
  | .mul => !i.signExt && (f = .cf || f = .of)
  | .cl | .st => i.flagBit = some .c && f = .cf
  | .cmc | .bt => f = .cf
  | .sh =>
      match i.knownCount with
      | some c =>
          let size := i.size2.getD .q
          0 < c && match f with
            | .cf => c < size.bits
            | .zf => true
            | .sf => size = .b
            | .of => c = 1
            | .pf => false
      | none => false
  | _ => false

def carries (i : Instruction) (f : Status) : Bool :=
  match i.op with
  | .mov | .lea | .xchg | .cmov | .ctd | .push | .pop | .leave | .call | .ret | .j | .set | .not =>
      true
  | .cl | .st | .cmc => f ≠ .cf || i.op ≠ .cmc && i.flagBit ≠ some .c
  | .bt => f = .zf
  | .sh =>
      let size := i.size2.getD .q
      match f with
      | .cf => size = .l || size = .q
      | .zf => true
      | .sf => size = .b
      | .of | .pf => false
  | _ => false

def loadsReserved (i : Instruction) : Bool :=
  match i.arg 0, i.arg 1 with
  | .mem target, .reg r => (i.op = .mov || i.op = .lea) && target.seg.isNone && (baseReg r).any Reg.reserved
  | .reg _, .reg r | .imm _, .reg r => i.op = .mov && (baseReg r).any Reg.reserved
  | _, _ => false

/-- The flags to be relied on behind the instruction, unless it is not known to be right. What is dropped
because of its operands has to be known to make no difference. -/
def trusts (i : Instruction) (T : Trust) : Option Trust :=
  if i.skipped && i.op ≠ .loop then some T
  else if i.nothingToDo then
    if i.loadsReserved then some T else none
  else if i.operands.all Operand.isOwn && i.suits && i.flagsRead.all T then
    some fun f => i.exact f || i.carries f && T f
  else none

end Instruction

def checked : List Instruction → Trust → Option Trust
  | [], T => some T
  | i :: rest, T => (i.trusts T).bind (checked rest)

end Tase
