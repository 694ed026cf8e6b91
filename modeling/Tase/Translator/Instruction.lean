import Tase.Translator.Operand

/-! The embedding of `translator/instruction.py` from a parsed instruction to the
statements it is emitted as. -/

namespace Tase

open Cpp

/-- The operations `emit_function` dispatches on, after `_fixup_instructions`. -/
inductive Op
  | nop | xchg | xadd | lea | mov | cmov | ctd | push | pop | enter | leave
  | add | sub | adc | sbb | cmp | neg | inc | dec | mul | div
  | and | or | xor | not | rc | ro | sa | sh | shd
  | call | ret | loop | j | set | bt | test | bswap
  | pushf | popf | cl | st | cmc
  | other (name : String)
deriving DecidableEq, Repr

inductive Cond
  | c | z | l | o | p | s
deriving DecidableEq, Repr

inductive FlagBit
  | c | d | i
deriving DecidableEq, Repr

inductive TestBit
  | c | r | s
deriving DecidableEq, Repr

def isLength (n : Nat) : Bool := 0 < n && n < 16

theorem isLength_pos {n : Nat} (bounded : isLength n = true) : 0 < n := by
  simp only [isLength, Bool.and_eq_true, decide_eq_true_eq] at bounded
  exact bounded.1

theorem not_sign_ext {op : Op} : false = true → op ∈ [.mov, .test, .ctd, .mul, .div, .sh] := nofun

/-- A parsed instruction, with the defaults of `__init__`. A Python `None` that is only
tested for truth is `false`. `_fixup_instructions` sets `sign_ext` for the operations of
`signExtOps` only. -/
structure Instruction where
  original : String
  vaddr : Nat
  length : Nat
  op : Op
  signExt : Bool := false
  size1 : Option Size := none
  size2 : Option Size := none
  cond : Option Cond := none
  cNeg : Bool := false
  cEq : Bool := false
  cLeft : Bool := false
  cNoflag : Bool := false
  flagBit : Option FlagBit := none
  testBit : Option TestBit := none
  operands : List Operand := []
  ignored : Bool := false
  bounded : isLength length = true := by exact Eq.refl true
  signExtOps : signExt = true → op ∈ [.mov, .test, .ctd, .mul, .div, .sh] := by
    first | exact not_sign_ext | decide

theorem Instruction.signExt_eq_false {i : Instruction}
    (plain : i.op ∉ [Op.mov, .test, .ctd, .mul, .div, .sh]) : i.signExt = false := by
  cases signed : i.signExt with
  | false => rfl
  | true => exact absurd (i.signExtOps signed) plain

def flagCF : Nat := 0
def flagPF : Nat := 2
def flagZF : Nat := 6
def flagSF : Nat := 7
def flagDF : Nat := 10
def flagOF : Nat := 11

def cozpsMask : Nat := 2 ^ flagCF ||| 2 ^ flagPF ||| 2 ^ flagZF ||| 2 ^ flagSF ||| 2 ^ flagOF

def ripOperand : Operand := .reg (.q .rip)
def rspOperand : Operand := .reg (.q (.gpr .rsp))
def rbpOperand : Operand := .reg (.q (.gpr .rbp))

def rspMem (offset : Int) : Operand := .mem ⟨none, offset, some (.q (.gpr .rsp)), none, .one⟩

/-- `Operand(self, 'efl')`: the text has no `%`, so the offset group takes `ef`. -/
def eflTextOperand : Operand := .mem ⟨none, 0xef, none, none, .one⟩

def textContains (text pattern : String) : Bool := pattern.toList <:+: text.toList

namespace Instruction

def operand (i : Instruction) (k : Nat) : Emit Operand :=
  Emit.lift (match i.operands[k]? with | some o => .ok o | none => .error .index)

def operandOr (i : Instruction) (o : Option Operand) (k : Nat) : Emit Operand :=
  match o with
  | some o => pure o
  | none => i.operand k

/-- A size that is `None` fails in the first arithmetic on it. -/
def needSize (size : Option Size) : Emit Size :=
  Emit.lift (match size with | some size => .ok size | none => .error .type)

def stackguard (i : Instruction) : Bool := textContains i.original "fs:0x28"

def isInstrumentation (i : Instruction) : Bool :=
  i.operands.any Operand.isInstrumentation || i.stackguard

/-- The instructions whose only code is the step of `rip_tmp`. -/
def nothingToDo (i : Instruction) : Bool :=
  i.ignored || i.op = .nop || i.isInstrumentation

theorem handled {i : Instruction} (active : i.ignored = false) (op : i.op ≠ .nop)
    (free : ∀ o ∈ i.operands, o.isInstrumentation = false) (guardless : i.stackguard = false) :
    i.nothingToDo = false := by
  have instrumentation : i.isInstrumentation = false := by
    rw [isInstrumentation, guardless, Bool.or_false, List.any_eq_false]
    simpa using free
  simp [nothingToDo, active, op, instrumentation]

end Instruction

def emitFlagDecl : Emit Temp := emitVarDecl "efl" (.uint 16) (dec 0)

def emitXchg (i : Instruction) : Emit Unit := do
  let src ← i.operand 0
  let dest ← i.operand 1
  let size ← Instruction.needSize i.size1
  let vSrc ← src.emitFetch "src" size false
  let vDest ← dest.emitFetch "dest" size false
  src.emitStore (.var vDest) size
  dest.emitStore (.var vSrc) size

def emitZps (i : Instruction) (vEfl vRes : Temp) : Emit Unit := do
  let size ← Instruction.needSize i.size1
  Emit.write (.orSet vEfl (.shift .left
    (.arith .and
      (.shift .right (.lit .hex 0x6996)
        (.arith .and (.arith .xor (.shift .right (.var vRes) (dec 4)) (.var vRes)) (.lit .hex 0xf)))
      (dec 1))
    (dec flagPF)))
  Emit.write (.orSet vEfl (.shift .left (.cmp .eq (.var vRes) (dec 0)) (dec flagZF)))
  Emit.write (.orSet vEfl (.arith .and
    (.shift .right (.var vRes) (dec (size.bits - flagSF - 1))) (.lit .hex (2 ^ flagSF))))

def emitStoreCozps (vEfl : Temp) (cleanClobberFlags : Bool) : Emit Unit :=
  emitSetFlag cozpsMask (.var vEfl) cleanClobberFlags

structure AddMode where
  carry : Bool
  sub : Bool
  targetL : Option Bool
  setCarry : Bool
  cleanClobberFlags : Bool

def AddMode.op (mode : AddMode) : ArithOp := if mode.sub then .sub else .add

/-- The carry out: without a carry in, or after one that was clear, the sum is
below the augend exactly when it wrapped. -/
def AddMode.carryExp (mode : AddMode) (vCf : Option Temp) (vRes vAug : Temp) : Exp :=
  let plain : Exp := .cmp (if mode.sub then .gt else .lt) (.var vRes) (.var vAug)
  match vCf with
  | some cf => .cond (.var cf) (.cmp (if mode.sub then .ge else .le) (.var vRes) (.var vAug)) plain
  | none => plain

def AddMode.sumExp (mode : AddMode) (vCf : Option Temp) (vAug vAdd : Temp) : Exp :=
  let two : Exp := .arith mode.op (.var vAug) (.var vAdd)
  match vCf with
  | some cf => .arith mode.op two (.var cf)
  | none => two

def emitAddCarryIn (mode : AddMode) : Emit (Option Temp) :=
  if mode.carry then do
    let vCf ← makeVar "cf"
    emitGetFlag (2 ^ flagCF) vCf
    return some vCf
  else pure none

def emitAddTarget (mode : AddMode) (argL argR : Operand) (vRes : Temp) (size : Size) : Emit Unit :=
  match mode.targetL with
  | some true => argL.emitStore (.var vRes) size
  | some false => argR.emitStore (.var vRes) size
  | none => pure ()

def AddMode.overflowExp (mode : AddMode) (vRes vAug vAdd : Temp) (size : Size) : Exp :=
  .shift .left
    (.shift .right
      (.arith .and (.arith .xor (.var vRes) (.var vAug))
        (.arith .xor (.var (if mode.sub then vAug else vRes)) (.var vAdd)))
      (dec (size.bits - 1)))
    (dec flagOF)

def emitAdd (i : Instruction) (left right : Option Operand) (mode : AddMode) : Emit Unit := do
  let argR ← i.operandOr right 0
  let argL ← i.operandOr left 1
  let size ← Instruction.needSize i.size1
  let vAug ← argL.emitFetch "augend" size false
  let vAdd ← argR.emitFetch "addend" size false
  let vCf ← emitAddCarryIn mode
  let vRes ← emitVarDecl "sum" size.uint (mode.sumExp vCf vAug vAdd)
  let vEfl ← emitFlagDecl
  emitAddTarget mode argL argR vRes size
  Emit.write (.orSet vEfl (mode.overflowExp vRes vAug vAdd size))
  Emit.when mode.setCarry (Emit.write (.orSet vEfl (mode.carryExp vCf vRes vAug)))
  emitZps i vEfl vRes
  emitStoreCozps vEfl mode.cleanClobberFlags

def emitXadd (i : Instruction) : Emit Unit := do
  emitXchg i
  emitAdd i none none ⟨false, false, some true, true, false⟩

def mulOperands (i : Instruction) (size : Size) :
    Except Error (Operand × Operand × Operand × Option Operand) :=
  match i.signExt, i.operands with
  | true, [multiplier, multiplicand, destLo] => .ok (multiplier, multiplicand, destLo, none)
  | true, [multiplier, multiplicand] => .ok (multiplier, multiplicand, multiplicand, none)
  | _, [multiplier] =>
      .ok (multiplier, regOperand .rax size, regOperand .rax size,
        some (if size = .b then .reg (.h .rax) else regOperand .rdx size))
  | _, _ => .error (.assertion "")

def emitStoreHi (destHi : Option Operand) (vHi : Temp) (size : Size) : Emit Unit :=
  match destHi with
  | some dest => dest.emitStore (.var vHi) size
  | none => pure ()

def mulMask : Nat := 2 ^ flagOF ||| 2 ^ flagCF

def mulFlagExp (signed : Bool) (vLo vHi : Temp) (size : Size) : Exp :=
  if signed then
    .cond (.cmp .eq
        (.shift .right (.cast ⟨size.bits, true⟩ (.var vLo)) (dec (size.bits - 1)))
        (.cast ⟨size.bits, true⟩ (.var vHi)))
      (dec 0) (.lit .hex mulMask)
  else .cond (.cmp .eq (.var vHi) (dec 0)) (dec 0) (.lit .hex mulMask)

def emitMul (i : Instruction) : Emit Unit := do
  let size ← Instruction.needSize i.size1
  let (multiplier, multiplicand, destLo, destHi) ← Emit.lift (mulOperands i size)
  let wide : Ty := ⟨size.bits * 2, i.signExt⟩
  let vMultiplicand ← multiplicand.emitFetch "multiplicand" size false
  let vMultiplier ← multiplier.emitFetch "multiplier" size false
  let vProduct ← emitVarDecl "product" wide
    (.arith .mul (.cast wide (.var vMultiplicand)) (.cast wide (.var vMultiplier)))
  let vLo ← emitVarDecl "product_lo" size.uint (.cast size.uint (.var vProduct))
  destLo.emitStore (.var vLo) size
  let vHi ← emitVarDecl "product_hi" size.uint
    (.cast size.uint (.shift .right (.var vProduct) (dec size.bits)))
  emitStoreHi destHi vHi size
  emitSetFlag mulMask (mulFlagExp i.signExt vLo vHi size) false

def divHigh (size : Size) : Operand :=
  if size = .b then .reg (.h .rax) else regOperand .rdx size

def emitDiv (i : Instruction) : Emit Unit := do
  Emit.lift (check (i.operands.length = 1) "")
  let size ← Instruction.needSize i.size1
  let divisor ← i.operand 0
  let wide : Ty := ⟨size.bits * 2, i.signExt⟩
  let vHi ← (divHigh size).emitFetch "div_hi" size false
  let vLo ← (regOperand .rax size).emitFetch "div_lo" size false
  let vDividend ← emitVarDecl "dividend" wide
    (.arith .or (.var vLo) (.shift .left (.cast wide (.var vHi)) (dec size.bits)))
  let vDivisor ← divisor.emitFetch "divisor" size i.signExt
  let vQuotient ← emitVarDecl "quotient" ⟨size.bits, i.signExt⟩
    (.arith .div (.var vDividend) (.var vDivisor))
  let vRemainder ← emitVarDecl "remainder" ⟨size.bits, i.signExt⟩
    (.arith .rem (.var vDividend) (.var vDivisor))
  (regOperand .rax size).emitStore (.var vQuotient) size
  (divHigh size).emitStore (.var vRemainder) size

/-- `_emit_logical` passes `clean_clobber_flags=True` on, whatever it was given. -/
def emitLogical (i : Instruction) (op : ArithOp) (writeTarget : Bool) : Emit Unit := do
  let src ← i.operand 0
  let dest ← i.operand 1
  let size ← Instruction.needSize i.size1
  let vSrc ← src.emitFetch "src" size false
  let vDest ← dest.emitFetch "dest" size false
  let vRes ← emitVarDecl "result" size.uint (.arith op (.var vDest) (.var vSrc))
  Emit.when writeTarget (dest.emitStore (.var vRes) size)
  let vEfl ← emitFlagDecl
  emitZps i vEfl vRes
  emitStoreCozps vEfl true

def emitNot (i : Instruction) : Emit Unit := do
  let dest ← i.operand 0
  let size ← Instruction.needSize i.size1
  let vSrc ← dest.emitFetch "src" size false
  dest.emitStore (.un .not (.var vSrc)) size

def flagExp (bit : Nat) (vEfl : Temp) : Exp := .arith .and (.var vEfl) (.lit .hex (2 ^ bit))

def condExp (code : Cond) (vEfl : Temp) : Exp :=
  match code with
  | .c => flagExp flagCF vEfl
  | .z => flagExp flagZF vEfl
  | .o => flagExp flagOF vEfl
  | .p => flagExp flagPF vEfl
  | .s => flagExp flagSF vEfl
  | .l => .arith .and
      (.arith .xor (.shift .right (.var vEfl) (dec flagSF)) (.shift .right (.var vEfl) (dec flagOF)))
      (.lit .hex 1)

def eqExp (code : Cond) (cEq : Bool) (vEfl : Temp) : Exp :=
  if cEq && code ≠ .z then .lor (flagExp flagZF vEfl) (condExp code vEfl)
  else condExp code vEfl

def failureExp (code : Cond) (cNeg cEq : Bool) (vEfl : Temp) : Exp :=
  if cNeg then eqExp code cEq vEfl else .un .lnot (eqExp code cEq vEfl)

def emitReturnForCond (i : Instruction) : Emit (Option Exp) :=
  match i.cond with
  | none => pure none
  | some code => do
      let vEfl ← makeVar "efl"
      emitGetFlag 0xffff vEfl
      return some (failureExp code i.cNeg i.cEq vEfl)

def emitElse (failure : Option Exp) (body : Emit Unit) : Emit Unit :=
  match failure with
  | none => body
  | some failure => Emit.elseBlock failure body

def emitSet (i : Instruction) : Emit Unit := do
  let dest ← i.operand 0
  dest.emitStore (dec 0) .b
  let failure ← emitReturnForCond i
  emitElse failure (dest.emitStore (dec 1) .b)

def TestBit.modify (bit : TestBit) (vOrig vOffset : Temp) : Exp :=
  let mask : Exp := .shift .left (.lit .hexUll 1) (.var vOffset)
  match bit with
  | .c => .arith .xor (.var vOrig) mask
  | .r => .arith .and (.var vOrig) (.un .not mask)
  | .s => .arith .or (.var vOrig) mask

def emitBittestModify (i : Instruction) (dest : Operand) (vOrig vOffset : Temp) (size : Size) :
    Emit Unit :=
  match i.testBit with
  | none => pure ()
  | some bit => do
      let vDest ← emitVarDecl "final" size.uint (bit.modify vOrig vOffset)
      dest.emitStore (.var vDest) size

def emitBittest (i : Instruction) : Emit Unit := do
  let src ← i.operand 0
  let dest ← i.operand 1
  let size ← Instruction.needSize i.size1
  Emit.lift (check (match dest with | .reg _ => true | _ => false) "")
  let vOffset1 ← src.emitFetch "offset_raw" size false
  let vOffset ← emitVarDecl "offset" size.uint
    (.arith .and (.var vOffset1) (hex (size.bits - 1)))
  let vOrig ← dest.emitFetch "orig" size false
  let vBit ← emitVarDecl "bit" size.uint
    (.arith .and (.var vOrig) (.shift .left (.lit .hexUll 1) (.var vOffset)))
  emitSetFlag (2 ^ flagCF)
    (.shift .left (.shift .right (.var vBit) (.var vOffset)) (dec flagCF)) false
  emitBittestModify i dest vOrig vOffset size

def emitFlag (i : Instruction) (clear : Bool) : Emit Unit := do
  let bit ← Emit.lift (match i.flagBit with
    | some .c => .ok flagCF
    | some .d => .ok flagDF
    | some .i | none => .error .key)
  emitSetFlag (2 ^ bit) (if clear then dec 0 else .lit .hex (2 ^ bit)) false

/-- `v_efl` is declared by `_emit_flag_decl` and once more by `emit_get_flag`. -/
def emitCmc : Emit Unit := do
  let vEfl ← emitFlagDecl
  emitGetFlag (2 ^ flagCF) vEfl
  emitSetFlag (2 ^ flagCF) (.arith .xor (.var vEfl) (.lit .hex (2 ^ flagCF))) false

def shiftOp (left : Bool) : ShiftOp := if left then .left else .right

def shiftOperands (i : Instruction) : Except Error (Operand × Operand) :=
  if i.op = .shd then
    match i.operands with
    | [_, _, dest] => .ok (dest, dest)
    | _ => .error (.assertion "")
  else
    match i.operands, i.operands.getLast? with
    | _ :: src :: _, some dest => .ok (dest, src)
    | _, _ => .error (.assertion "")

def emitShiftCarryIn (i : Instruction) (vBits : Temp) (size : Size) : Emit Unit :=
  Emit.when (i.op = .rc) do
    let vCf ← makeVar "cf"
    emitGetFlag (2 ^ flagCF) vCf
    Emit.write (.set vBits (.arith .or
      (.shift (shiftOp (!i.cLeft)) (.var vBits) (dec 1))
      (.shift .left (.shift .right (.var vCf) (dec flagCF))
        (dec (if i.cLeft then size.bits - 1 else 0)))))

def emitShiftFill (i : Instruction) (dest : Operand) (vAmt vShift : Temp) (size : Size) :
    Emit Unit := Emit.when (i.op = .rc || i.op = .ro || i.op = .shd) do
  let origin ← i.operandOr (if i.op = .shd then none else some dest) 1
  let vBits ← origin.emitFetch "bit_exp" size false
  emitShiftCarryIn i vBits size
  Emit.write (.orSet vShift (.shift (shiftOp (!i.cLeft)) (.var vBits)
    (.arith .sub (dec size.bits) (.var vAmt))))

def shiftOverflowExp (vSrc vShift : Temp) (size : Size) : Exp :=
  .shift .left
    (.arith .and
      (.shift .right (.arith .xor (.var vShift) (.var vSrc)) (dec (size.bits - 1)))
      (.lit .hex 1))
    (dec flagOF)

def shiftCarryExp (cLeft : Bool) (vAmt vSrc : Temp) (size : Size) : Exp :=
  .shift .left
    (.arith .and
      (.shift .right (.var vSrc)
        (if cLeft then .arith .sub (dec size.bits) (.var vAmt) else .arith .sub (.var vAmt) (dec 1)))
      (.lit .hex 1))
    (dec flagCF)

def emitShiftFlags (i : Instruction) (vAmt vSrc vShift : Temp) (size : Size) : Emit Unit := do
  let vEfl ← emitFlagDecl
  emitZps i vEfl vShift
  Emit.write (.orSet vEfl (shiftOverflowExp vSrc vShift size))
  Emit.write (.orSet vEfl (shiftCarryExp i.cLeft vAmt vSrc size))
  emitStoreCozps vEfl false

def emitShift (i : Instruction) : Emit Unit := do
  let (dest, src) ← Emit.lift (shiftOperands i)
  let amount ← i.operand 0
  let size1 ← Instruction.needSize i.size1
  let size2 ← Instruction.needSize i.size2
  let vAmt1 ← amount.emitFetch "amt_raw" size1 false
  let vAmt ← emitVarDecl "amt" size1.uint
    (.arith .and (.var vAmt1) (.lit .hex (if size2 = .q then 63 else 31)))
  let vSrc ← src.emitFetch "src" size2 i.signExt
  let vShift ← emitVarDecl "shift" ⟨size2.bits, i.signExt⟩
    (.shift (shiftOp i.cLeft) (.var vSrc) (.var vAmt))
  emitShiftFill i dest vAmt vShift size2
  dest.emitStore (.var vShift) size2
  Emit.when (!i.cNoflag)
    (Emit.elseBlock (.cmp .eq (.var vAmt) (dec 0)) (emitShiftFlags i vAmt vSrc vShift size2))

def emitConverted (vIn : Temp) (size1 size2 : Size) (signed : Bool) : Emit Temp :=
  if size1 = size2 then pure vIn
  else emitVarDecl "converted" ⟨size2.bits, signed⟩ (.var vIn)

/-- `size1` is the argument of that name; no caller passes `size2`. -/
def emitMov (i : Instruction) (src dest : Option Operand) (size1 : Option Size) : Emit Unit := do
  let src ← i.operandOr src 0
  let dest ← i.operandOr dest 1
  let size2 ← Instruction.needSize (size1 <|> i.size2 <|> i.size1)
  let size1 ← Instruction.needSize (size1 <|> i.size1)
  let vIn ← src.emitFetch "in" size1 i.signExt
  let vConv ← emitConverted vIn size1 size2 i.signExt
  dest.emitStore (.var vConv) size2

def emitLea (i : Instruction) (src dest : Option Operand) (size : Option Size) : Emit Unit := do
  let src ← i.operandOr src 0
  let dest ← i.operandOr dest 1
  let size ← Instruction.needSize (size <|> i.size1)
  let m ← Emit.lift (match src with | .mem m => .ok m | _ => .error (.assertion ""))
  let addr ← Emit.lift m.addr
  dest.emitStore (.cast size.uint addr) size

def emitPush (i : Instruction) (src : Option Operand) (size : Option Size) : Emit Unit := do
  let src ← i.operandOr src 0
  let size ← Instruction.needSize (size <|> i.size1)
  emitLea i (some (rspMem (-size.bytes))) (some rspOperand) (some .q)
  emitMov i (some src) (some (rspMem 0)) (some size)

def emitPop (i : Instruction) (dest : Option Operand) (size : Option Size) : Emit Unit := do
  let dest ← i.operandOr dest 0
  let size ← Instruction.needSize (size <|> i.size1)
  emitMov i (some (rspMem 0)) (some dest) (some size)
  emitLea i (some (rspMem size.bytes)) (some rspOperand) (some .q)

def emitEnter (i : Instruction) : Emit Unit := do
  let alloc ← Emit.lift (match i.operands with
    | .imm alloc :: .imm 0 :: _ => .ok alloc
    | [] | [.imm _] => .error .index
    | _ => .error (.assertion ""))
  emitPush i (some rbpOperand) (some .q)
  emitMov i (some rspOperand) (some rbpOperand) (some .q)
  emitLea i (some (rspMem (-alloc))) (some rspOperand) (some .q)

def emitLeave (i : Instruction) : Emit Unit := do
  emitMov i (some rbpOperand) (some rspOperand) (some .q)
  emitPop i (some rbpOperand) (some .q)

def emitCall (i : Instruction) : Emit Unit := do
  Emit.lift (check (i.size1 = some .q) "")
  let target ← i.operand 0
  let vTarget ← target.emitFetch "target" .q false
  emitPush i (some ripOperand) (some .q)
  ripOperand.emitStore (.var vTarget) .q

def emitRet (i : Instruction) : Emit Unit := do
  Emit.lift (check (i.size1 = some .q) "")
  emitPop i (some ripOperand) (some .q)

def emitJump (i : Instruction) : Emit Unit := do
  let failure ← emitReturnForCond i
  emitElse failure (emitMov i none (some ripOperand) none)

def emitLoop (i : Instruction) : Emit Unit := do
  let target ← i.operand 0
  Emit.lift (check (match target with | .mem _ => true | _ => false) "")
  let size := i.size1.getD .q
  let ctr := regOperand .rcx size
  let vCtr ← ctr.emitFetch "ctr" size false
  Emit.write (.dec vCtr)
  ctr.emitStore (.var vCtr) size
  Emit.write (.ite (.cmp .eq (.var vCtr) (dec 0)) .ret .skip)
  emitJump i

def emitCtd (i : Instruction) : Emit Unit := do
  let src ← i.operand 0
  let dest ← i.operand 1
  let size1 ← Instruction.needSize i.size1
  let size2 ← Instruction.needSize i.size2
  let vSrc ← src.emitFetch "in" size1 true
  let vShift ← emitVarDecl "shift" ⟨size2.bits, true⟩
    (.shift .right (.var vSrc) (dec (size1.bits - 1)))
  dest.emitStore (.var vShift) size2

def byteMask : Nat → Nat
  | 0 => 0xff
  | 1 => 0xff00
  | 2 => 0xff0000
  | _ => 0xff000000

def bswapTerms (v : Temp) (bytes k : Nat) : List Exp :=
  let amount := (bytes - 2 * k - 1) * 8
  [.arith .and (.shift .right (.var v) (dec amount)) (.lit .hex (byteMask k)),
    .shift .left (.arith .and (.var v) (.lit .hex (byteMask k))) (dec amount)]

def bswapExp (v : Temp) (bytes : Nat) : Exp :=
  match (List.range (bytes / 2)).flatMap (bswapTerms v bytes) with
  | [] => dec 0
  | first :: rest => rest.foldl (.arith .or) first

def emitBswap (i : Instruction) : Emit Unit := do
  let reg ← i.operand 0
  let size := reg.regSize
  Emit.lift (check (size = .l || size = .q) "")
  let vReg ← reg.emitFetch "src" size false
  let vSwapped ← emitVarDecl "swapped" size.uint (bswapExp vReg size.bytes)
  reg.emitStore (.var vSwapped) size

def emitCmov (i : Instruction) : Emit Unit := do
  let dest ← i.operand 1
  emitMov i (some dest) none none
  let failure ← emitReturnForCond i
  emitElse failure (emitMov i none none none)

def emitOp (i : Instruction) : Emit Unit :=
  match i.op with
  | .nop => pure ()
  | .xchg => emitXchg i
  | .xadd => emitXadd i
  | .lea => emitLea i none none none
  | .mov => emitMov i none none none
  | .cmov => emitCmov i
  | .ctd => emitCtd i
  | .push => emitPush i none none
  | .pop => emitPop i none none
  | .enter => emitEnter i
  | .leave => emitLeave i
  | .add => emitAdd i none none ⟨false, false, some true, true, false⟩
  | .sub => emitAdd i none none ⟨false, true, some true, true, false⟩
  | .adc => emitAdd i none none ⟨true, false, some true, true, false⟩
  | .sbb => emitAdd i none none ⟨true, true, some true, true, false⟩
  | .cmp => emitAdd i none none ⟨false, true, none, true, true⟩
  | .neg => emitAdd i (some (.imm 0)) none ⟨false, true, some false, true, false⟩
  | .inc => do
      let dest ← i.operand 0
      emitAdd i (some dest) (some (.imm 1)) ⟨false, false, some true, false, false⟩
  | .dec => do
      let dest ← i.operand 0
      emitAdd i (some dest) (some (.imm 1)) ⟨false, true, some true, false, false⟩
  | .mul => emitMul i
  | .div => emitDiv i
  | .and => emitLogical i .and true
  | .or => emitLogical i .or true
  | .xor => emitLogical i .xor true
  | .not => emitNot i
  | .rc | .ro | .sa | .sh | .shd => emitShift i
  | .call => emitCall i
  | .ret => emitRet i
  | .loop => emitLoop i
  | .j => emitJump i
  | .set => emitSet i
  | .bt => emitBittest i
  | .test => emitLogical i .and false
  | .bswap => emitBswap i
  | .pushf => emitPush i (some eflTextOperand) none
  | .popf => emitPop i (some eflTextOperand) none
  | .cl => emitFlag i true
  | .st => emitFlag i false
  | .cmc => emitCmc
  | .other _ =>
      Emit.raise (.value ("Encountered an instruction that we do not handle : " ++ i.original))

def emitBody (i : Instruction) : Emit Unit := do
  Emit.write (.setReg .rip (.arith .add (.reg .rip) (dec i.length)))
  Emit.when (!i.nothingToDo) (emitOp i)

end Tase
