import Tase.Translator.BitTest
import Tase.Translator.Divide
import Tase.Translator.Exchange
import Tase.Translator.PushPop
import Tase.Translator.Shift

/-! The processor: what its manual says of the instructions, on the records of the translator. AF is
left out, since nothing that is translated reads it. -/

namespace Tase

open Cpp

def Reg.reserved (r : Reg) : Bool := r = .gpr .r14 || r = .gpr .r15

def Reg.hidden (r : Reg) : Bool := r = .efl || r = .gpr .r14 || r = .gpr .r15

inductive Status
  | cf | pf | zf | sf | of
deriving DecidableEq, Repr

def Status.bit : Status → Nat
  | .cf => flagCF
  | .pf => flagPF
  | .zf => flagZF
  | .sf => flagSF
  | .of => flagOF

inductive Fate
  | kept
  | undefined
  | becomes (b : Bool)
deriving DecidableEq, Repr

def Fate.Allows : Fate → Bool → Bool → Prop
  | .kept, before, after => after = before
  | .undefined, _, _ => True
  | .becomes b, _, after => after = b

/-- The registers and the memory afterwards, where the flags register has no meaning, and the flags. -/
structure Action where
  after : Mach
  fate : Status → Fate

namespace Action

def keeping (m : Mach) : Action := ⟨m, fun _ => .kept⟩

def losing (m : Mach) : Action := ⟨m, fun _ => .undefined⟩

def setting {width : Nat} (o : Outcome width) (m : Mach) : Action where
  after := m
  fate
    | .cf => .becomes o.carry
    | .pf => .becomes (evenParity (o.result.setWidth 8))
    | .zf => .becomes (decide (o.result = 0))
    | .sf => .becomes o.result.msb
    | .of => .becomes o.overflow

def keepingCarry (a : Action) : Action :=
  { a with fate := fun f => if f = .cf then .kept else a.fate f }

def carrying (b : Bool) (m : Mach) : Action :=
  { after := m, fate := fun f => if f = .cf then .becomes b else .kept }

structure Leads (a : Action) (m m' : Mach) : Prop where
  regs : ∀ r, r ≠ .efl → m'.regs r = a.after.regs r
  mem : m'.mem = a.after.mem
  flags : ∀ f : Status, (a.fate f).Allows (eflBit m f.bit) (eflBit m' f.bit)

end Action

def deliver (dest : Option Operand) (size : Size) (x : BitVec size.bits) (m : Mach) : Mach :=
  match dest with
  | some o => o.writeAt size m x m
  | none => m

def TestBit.changed {width : Nat} (change : TestBit) (x mask : BitVec width) : BitVec width :=
  match change with
  | .c => x ^^^ mask
  | .r => x &&& ~~~mask
  | .s => x ||| mask

namespace Instruction

def extended (i : Instruction) (m : Mach) : BitVec i.bits2.bits :=
  let x := (i.arg 0).read i.bits1 m
  if i.signExt then x.signExtend _ else x.setWidth _

def computes (i : Instruction) (m : Mach) (o : Outcome i.bits1.bits) : Action :=
  .setting o (deliver i.destination i.bits1 o.result m)

def counts (i : Instruction) (m : Mach) : Action :=
  let o := i.counted ((i.arg 0).read i.bits1 m)
  (Action.setting o ((i.arg 0).writeAt i.bits1 m o.result m)).keepingCarry

/-- The accumulator times the operand into the double word, or the low half of a product of two
operands. The flags of the latter tell whether the signed product fits. -/
def multiplies (i : Instruction) (m : Mach) : Action :=
  let a := i.multiplicand.read i.bits1 m
  let b := (i.arg 0).read i.bits1 m
  if i.signExt then
    let overflow := outOfRange i.bits1.bits (a.toInt * b.toInt)
    { after := i.productTo.writeAt i.bits1 m (a * b) m
      fate := fun f => if f = .cf ∨ f = .of then .becomes overflow else .undefined }
  else
    let high := BitVec.ofNat i.bits1.bits (a.toNat * b.toNat / 2 ^ i.bits1.bits)
    { after := (divHigh i.bits1).writeAt i.bits1 m high
        ((regOperand .rax i.bits1).writeAt i.bits1 m (a * b) m)
      fate := fun f => if f = .cf ∨ f = .of then .becomes (decide (high ≠ 0)) else .undefined }

def fits (i : Instruction) (q : Int) : Bool :=
  if i.signExt then !outOfRange i.bits1.bits q else decide (0 ≤ q ∧ q < 2 ^ i.bits1.bits)

def divides (i : Instruction) (m : Mach) : Option Action :=
  let n := i.dividend m
  let d := i.divisor m
  if d ≠ 0 ∧ i.fits (n.tdiv d) then
    some (.losing ((divHigh i.bits1).writeAt i.bits1 m (BitVec.ofInt _ (n.tmod d))
      ((regOperand .rax i.bits1).writeAt i.bits1 m (BitVec.ofInt _ (n.tdiv d)) m)))
  else none

def shiftCount (i : Instruction) (m : Mach) : Nat := maskedCount (i.size2.getD .q) ((i.arg 0).read .b m)

def shifted (i : Instruction) (m : Mach) : BitVec (i.size2.getD .q).bits :=
  let x := (i.arg 1).read (i.size2.getD .q) m
  if i.cLeft then x <<< i.shiftCount m
  else if i.signExt then x.sshiftRight (i.shiftCount m)
  else x >>> i.shiftCount m

/-- A count of zero leaves the flags alone; OF is known for a count of one, and CF for counts below the
width, or when it is a copy of the sign. -/
def shifts (i : Instruction) (m : Mach) : Action :=
  let size := i.size2.getD .q
  let x := (i.arg 1).read size m
  let c := i.shiftCount m
  let y := i.shifted m
  { after := (i.arg 1).writeAt size m y m
    fate := fun f =>
      if c = 0 then .kept
      else match f with
        | .cf =>
            if c < size.bits then .becomes (lastOut i.cLeft x c)
            else if i.signExt && !i.cLeft then .becomes x.msb
            else .undefined
        | .pf => .becomes (evenParity (y.setWidth 8))
        | .zf => .becomes (decide (y = 0))
        | .sf => .becomes y.msb
        | .of => if c = 1 then .becomes (y.msb ^^ x.msb) else .undefined }

def testsBit (i : Instruction) (m : Mach) : Action :=
  let x := (i.arg 1).read i.bits1 m
  let place := ((i.arg 0).read i.bits1 m).toNat % i.bits1.bits
  { after := match i.testBit with
      | none => m
      | some change =>
          (i.arg 1).writeAt i.bits1 m (change.changed x (BitVec.twoPow i.bits1.bits place)) m
    fate
      | .cf => .becomes (x.getLsbD place)
      | .zf => .kept
      | .pf | .sf | .of => .undefined }

/-- What the processor does when `rip` is behind the instruction already. The instructions that are left
out have no meaning here. -/
def action (i : Instruction) (m : Mach) : Option Action :=
  match i.op with
  | .mov => some (.keeping ((i.arg 1).writeAt i.bits2 m (i.extended m) m))
  | .lea =>
      match i.arg 0 with
      | .mem target => some (.keeping
          ((i.arg 1).writeAt i.bits1 m ((target.effective m).setWidth i.bits1.bits) m))
      | _ => none
  | .xchg => some (.keeping (exchange .xchg i.bits1 (i.arg 0) (i.arg 1) m))
  | .xadd => some (.setting (.sum ((i.arg 0).read i.bits1 m) ((i.arg 1).read i.bits1 m) false)
      (exchange .xadd i.bits1 (i.arg 0) (i.arg 1) m))
  | .cmov => some (.keeping ((i.arg 1).writeAt i.bits1 m
      (if i.condition (eflBit m) then (i.arg 0).read i.bits1 m else (i.arg 1).read i.bits1 m) m))
  | .ctd => some (.keeping ((i.arg 1).writeAt (i.size2.getD .q) m
      (if ((i.arg 0).read i.bits1 m).msb then BitVec.allOnes _ else 0) m))
  | .push => some (.keeping (afterPush i.bits1 (i.arg 0) m))
  | .pop => some (.keeping (afterPop i.bits1 (i.arg 0) m))
  | .leave => some (.keeping (afterPop .q rbpOperand (m.setReg (.gpr .rsp) (m.regs (.gpr .rbp)))))
  | .call => some (.keeping ((afterPush .q ripOperand m).setReg .rip ((i.arg 0).read .q m)))
  | .ret => some (.keeping (afterPop .q ripOperand m))
  | .j => some (.keeping
      (if i.condition (eflBit m) then m.setReg .rip ((i.arg 0).read .q m) else m))
  | .set => some (.keeping ((i.arg 0).writeAt .b m (if i.condition (eflBit m) then 1 else 0) m))
  | .not => some (.keeping ((i.arg 0).writeAt i.bits1 m (~~~(i.arg 0).read i.bits1 m) m))
  | .inc | .dec => some (i.counts m)
  | .mul => some (i.multiplies m)
  | .div => i.divides m
  | .sh => if i.cNoflag then none else some (i.shifts m)
  | .bt => some (i.testsBit m)
  | .cl => some (if i.flagBit = some .c then .carrying false m else .keeping m)
  | .st => some (if i.flagBit = some .c then .carrying true m else .keeping m)
  | .cmc => some (.carrying (!eflBit m flagCF) m)
  | .add | .sub | .adc | .sbb | .cmp | .neg | .and | .or | .xor | .test =>
      (i.op.outcome ((i.arg 1).read i.bits1 m) ((i.arg 0).read i.bits1 m) (eflBit m flagCF)).map
        (i.computes m)
  | .nop | .enter | .rc | .ro | .sa | .shd | .loop | .bswap | .pushf | .popf | .other _ => none

def skipped (i : Instruction) : Bool := i.ignored || i.op = .nop

structure DivideError (i : Instruction) (m : Mach) : Prop where
  read : i.skipped = false
  division : i.op = .div
  overflow : i.divides (stepRip i m) = none

structure Reserves (i : Instruction) (m m' : Mach) : Prop where
  regs : ∀ r, r.hidden = false → m'.regs r = (stepRip i m).regs r
  mem : m'.mem = m.mem
  flags : ∀ f : Status, eflBit m' f.bit = eflBit m f.bit

end Instruction

/-- What the processor does with the instructions of its vector and floating point units, and with whatever
else is read as a `nop`: there are no registers for it in the model. -/
abbrev Foreign := Instruction → Mach → Mach → Prop

/-- Instrumentation: it runs through, and works on the reserved registers. -/
structure Foreign.Quiet (foreign : Foreign) (i : Instruction) : Prop where
  runs : ∀ m, ∃ m', foreign i m m'
  keeps : ∀ {m m'}, foreign i m m' → i.Reserves m m'

def Instruction.Processed (foreign : Foreign) (i : Instruction) (m m' : Mach) : Prop :=
  if i.skipped then foreign i m m'
  else ∃ a, i.action (stepRip i m) = some a ∧ a.Leads m m'

end Tase
