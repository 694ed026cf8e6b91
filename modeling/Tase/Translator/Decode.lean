import Tase.Translator.Objdump
import Tase.Translator.Spelling

/-! `Instruction.__init__`: from the groups of a line to a record. -/

namespace Tase

open Regex

def splitSpace (text : List Char) : List (List Char) := (text.splitOnP isSpaceChar).filter (· ≠ [])

def Op.isSigned : Op → Bool
  | .mov | .test | .ctd | .mul | .div | .sh => true
  | _ => false

theorem Op.isSigned_mem {op : Op} (signed : op.isSigned = true) {sign : Bool} :
    sign = true → op ∈ [Op.mov, .test, .ctd, .mul, .div, .sh] := by
  intro _
  cases op <;> first | decide | cases signed

namespace Instruction

def withSign (i : Instruction) (op : Op) (sign : Bool) (signed : op.isSigned = true) : Instruction :=
  { i with op := op, signExt := sign, signExtOps := Op.isSigned_mem signed }

def renamed (i : Instruction) (op : Op) : Instruction :=
  { i with op := op, signExt := false, signExtOps := not_sign_ext }

def widening (i : Instruction) (size1 size2 : Size) : Instruction :=
  { i.withSign .mov true (Eq.refl true) with
    size1 := some size1
    size2 := some size2
    operands := i.operands ++ [regOperand .rax size1, regOperand .rax size2] }

def spreading (i : Instruction) (size : Size) : Instruction :=
  { i.withSign .ctd true (Eq.refl true) with
    size1 := some size
    size2 := some size
    operands := i.operands ++ [regOperand .rax size, regOperand .rdx size] }

/-- The operations of `OPS_IMM32`. In AT&T order the second operand is the destination. -/
def fixupImm32 (i : Instruction) (op : Op) (signed : op.isSigned = true) : Except Error Instruction :=
  if i.size1 = some .q then
    match i.operands[1]? with
    | none => .error .index
    | some (Operand.imm _) => .ok { i.withSign op true signed with size1 := some .l, size2 := some .q }
    | some _ => .ok i
  else .ok i

/-- `_fixup_instructions`, for the operation that the mnemonic named. The third entry of `OPS_IMM32` is a
list, which no operation equals. -/
def fixupInstructions (i : Instruction) : Stem → Except Error Instruction
  | .test => i.fixupImm32 .test (Eq.refl true)
  | .mov => i.fixupImm32 .mov (Eq.refl true)
  | .movsx => .ok (i.withSign .mov true (Eq.refl true))
  | .movz | .movabs => .ok (i.withSign .mov false (Eq.refl true))
  | .cbtw => .ok (i.widening .b .w)
  | .cwtl => .ok (i.widening .w .l)
  | .cltq => .ok (i.widening .l .q)
  | .cwtd => .ok (i.spreading .w)
  | .cltd => .ok (i.spreading .l)
  | .cqtd | .cqto => .ok (i.spreading .q)
  | .jmp => .ok (i.renamed .j)
  | .j => .ok { i with size1 := some .q }
  | .set => .ok { i with size1 := some .b }
  | .idiv => .ok (i.withSign .div true (Eq.refl true))
  | .imul => .ok (i.withSign .mul true (Eq.refl true))
  | .div => .ok (i.withSign .div false (Eq.refl true))
  | .mul => .ok (i.withSign .mul false (Eq.refl true))
  | .rc | .ro | .sa | .sh | .shd => .ok i.fixupShift
  | .hlt => .ok (i.renamed .nop)
  | _ => .ok i

end Instruction

def Reading.instruction (r : Reading) (original : String) (vaddr length : Nat) (bounded : isLength length = true)
    (operands : List Operand) : Instruction where
  original := original
  vaddr := vaddr
  length := length
  op := r.op.op
  signExt := false
  size1 := r.size1
  size2 := r.size2
  cond := r.cond.cond
  cNeg := r.cond.cNeg
  cEq := r.cond.cEq
  cLeft := r.cLeft
  cNoflag := r.cNoflag
  flagBit := r.flagBit
  testBit := r.testBit
  operands := operands
  ignored := r.ignored
  bounded := bounded
  signExtOps := not_sign_ext

def operandList (alnum : Char → Bool) (operands : Option (List Char)) : Except Error (List Operand) :=
  match parseOperands alnum operands with
  | some (.ok ps) => .ok (ps.map ParsedOperand.operand)
  | some (.error e) => .error e
  | none => .error (.assertion "")

def newInstruction (alnum : Char → Bool) (original : List Char) (groups : Groups LineGroup) :
    Except Error Instruction :=
  -- `Instruction.__init__`.
  if original = [] then .error (.assertion "")
  else
    let vaddr := (intHex ((groups .vaddr).getD [])).toNat
    let length := (splitSpace ((groups .encoded).getD [])).length
    if bounded : isLength length = true then do
      let r ← readMnemonic (String.ofList original) (strip ((groups .mnemonic).getD []))
      if r.ignored then return r.instruction (String.ofList original) vaddr length bounded []
      else do
        let operands ← operandList alnum (groups .operands)
        (r.instruction (String.ofList original) vaddr length bounded operands).fixupInstructions r.op
    else .error (.assertion "")

end Tase
