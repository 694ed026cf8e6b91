import Tase.Cpp.Program

/-! The embedding of `translator/operand.py`: register names, operands and the
C++ they are fetched and stored with. -/

namespace Tase

open Cpp

inductive Gpr
  | rax | rbx | rcx | rdx | rsi | rdi | rsp | rbp
  | r8 | r9 | r10 | r11 | r12 | r13 | r14 | r15
deriving DecidableEq, Repr

/-- `REG_64`, the 18 entries of `gregs` and the 18 `_tmp` locals. -/
inductive Reg
  | gpr (g : Gpr)
  | rip
  | efl
deriving DecidableEq, Repr

inductive Size
  | b | w | l | q
deriving DecidableEq, Repr

namespace Size

@[reducible] def bits : Size → Nat
  | .b => 8
  | .w => 16
  | .l => 32
  | .q => 64

def bytes : Size → Nat
  | .b => 1
  | .w => 2
  | .l => 4
  | .q => 8

abbrev uint (size : Size) : Ty := .uint size.bits

end Size

/-- A name written after `%`, by the list of `operand.py` that holds it.
`REG_8H` has entries for the first eight registers only. -/
inductive RegName
  | q (r : Reg)
  | d (g : Gpr)
  | w (g : Gpr)
  | l (g : Gpr)
  | h (g : Gpr)
  | other (name : String)
deriving DecidableEq, Repr

def baseReg : RegName → Option Reg
  | .q r => some r
  | .d g | .w g | .l g | .h g => some (.gpr g)
  | .other _ => none

def regSize : RegName → Size
  | .q _ => .q
  | .d _ => .l
  | .w _ => .w
  | .l _ | .h _ | .other _ => .b

inductive Scale
  | one | two | four | eight
deriving DecidableEq, Repr

def Scale.toNat : Scale → Nat
  | .one => 1
  | .two => 2
  | .four => 4
  | .eight => 8

structure MemRef where
  seg : Option String
  offset : Int
  base : Option RegName
  index : Option RegName
  scale : Scale
deriving DecidableEq

inductive Operand
  | reg (r : RegName)
  | imm (n : Nat)
  | addr (n : Nat) (symbol : String)
  | mem (m : MemRef)
deriving DecidableEq

structure Temp where
  stem : String
  index : Nat
deriving DecidableEq, Repr

def Temp.name (t : Temp) : String := t.stem ++ toString t.index

abbrev Exp := Cpp.Expr Reg Temp
abbrev Code := Cpp.Stmt Reg Temp

inductive Error
  | assertion (message : String)
  | value (message : String)
  | key
  | index
  | type
deriving DecidableEq, Repr

/-! Emission: the global `var_count` and `BB_ASSIGNED_REGS` are passed along and
the written statements are collected. -/

/-- `rip` is in `BB_ASSIGNED_REGS` from the start and put back by `clear_bb_reg_refs`. -/
structure EmitState where
  varCount : Nat
  bbAssignedRegs : List Reg
  ripRecorded : .rip ∈ bbAssignedRegs

def Emit (α : Type) := EmitState → Except Error (α × List Code × EmitState)

namespace Emit

def pure {α : Type} (a : α) : Emit α := fun s => .ok (a, [], s)

def bind {α β : Type} (m : Emit α) (f : α → Emit β) : Emit β := fun s =>
  match m s with
  | .error e => .error e
  | .ok (a, out, s') =>
      match f a s' with
      | .error e => .error e
      | .ok (b, out', s'') => .ok (b, out ++ out', s'')

instance : Monad Emit where
  pure := Emit.pure
  bind := Emit.bind

def lift {α : Type} (x : Except Error α) : Emit α := fun s =>
  match x with
  | .error e => .error e
  | .ok a => .ok (a, [], s)

def raise {α : Type} (e : Error) : Emit α := lift (.error e)

def write (stmt : Code) : Emit Unit := fun s => .ok ((), [stmt], s)

def when (condition : Bool) (body : Emit Unit) : Emit Unit :=
  if condition then body else Emit.pure ()

def elseBlock (c : Exp) (body : Emit Unit) : Emit Unit := fun s =>
  match body s with
  | .error e => .error e
  | .ok (_, out, s') => .ok ((), [.ite c .skip (block out)], s')

end Emit

def check (condition : Bool) (message : String) : Except Error Unit :=
  if condition then .ok () else .error (.assertion message)

def addBbRegRef (r : Reg) : Emit Unit := fun s =>
  .ok ((), [], if r ∈ s.bbAssignedRegs then s
    else { s with
      bbAssignedRegs := s.bbAssignedRegs ++ [r]
      ripRecorded := List.mem_append_left _ s.ripRecorded })

def makeVar (stem : String) : Emit Temp := fun s =>
  .ok (⟨stem, s.varCount⟩, [], { s with varCount := s.varCount + 1 })

def emitVarDecl (stem : String) (t : Ty) (e : Exp) : Emit Temp := do
  let v ← makeVar stem
  Emit.write (.decl t v e)
  return v

def dec (n : Nat) : Exp := .lit .dec n

/-- Python's `hex`, which puts the sign of a negative number before `0x`. -/
def hex (n : Int) : Exp :=
  if n < 0 then .un .neg (.lit .hex n.natAbs) else .lit .hex n.natAbs

def regExpR (reg : RegName) : Except Error Exp :=
  match baseReg reg with
  | none => .error (.assertion "Error: called tmp_reg_name on reg None")
  | some r =>
      match reg with
      | .h _ => .ok (.cast (.uint 8) (.shift .right (.reg r) (dec 8)))
      | _ => .ok (.cast (regSize reg).uint (.reg r))

def regExpL (reg : RegName) : Emit Reg := do
  match baseReg reg with
  | none =>
      Emit.raise (.assertion "Error: attempting to pass invalid register None to add_bb_reg_ref")
  | some r => do
      addBbRegRef r
      return r

def emitGetFlag (mask : Nat) (v : Temp) : Emit Unit :=
  Emit.write (.decl (.uint 16) v
    (.arith .and (.cast (.uint 16) (.reg .efl)) (.lit .hex mask)))

def emitSetFlag (mask : Nat) (value : Exp) (cleanClobberFlags : Bool) : Emit Unit := do
  let flags ← regExpL (.q .efl)
  if cleanClobberFlags then
    Emit.write (.setReg flags value)
  else
    Emit.write (.setReg flags
      (.arith .or (.arith .and (.reg flags) (.un .not (.lit .hex mask))) value))

def sizedName (g : Gpr) : Size → RegName
  | .q => .q (.gpr g)
  | .l => .d g
  | .w => .w g
  | .b => .l g

def regOperand (g : Gpr) (size : Size) : Operand := .reg (sizedName g size)

namespace MemRef

def addrSize (m : MemRef) : Except Error Size :=
  match m.base, m.index with
  | some base, some index => do
      check (regSize base = regSize index) ""
      return regSize base
  | some base, none => .ok (regSize base)
  | none, some index => .ok (regSize index)
  | none, none => .ok .q

def addrStr (size : Size) (e : Exp) : Exp := if size = .l then .cast (.uint 32) e else e

def offsetTerm (m : MemRef) (size : Size) : List Exp :=
  if m.offset = 0 then [] else [addrStr size (hex m.offset)]

def baseTerm (m : MemRef) (size : Size) : Except Error (List Exp) :=
  match m.base with
  | none => .ok []
  | some base => do
      let e ← regExpR base
      return [addrStr size e]

def indexTerm (m : MemRef) (size : Size) : Except Error (List Exp) :=
  match m.index with
  | none => .ok []
  | some index => do
      let e ← regExpR index
      return [.arith .mul (addrStr size e) (dec m.scale.toNat)]

def sum : List Exp → Exp
  | [] => dec 0
  | first :: rest => rest.foldl (.arith .add) first

def addr (m : MemRef) : Except Error Exp := do
  let size ← m.addrSize
  check (size = .l || size = .q) ""
  let base ← m.baseTerm size
  let index ← m.indexTerm size
  return sum (m.offsetTerm size ++ base ++ index)

end MemRef

namespace Operand

def regSize : Operand → Size
  | .reg r => Tase.regSize r
  | _ => .b

def usesR14 : Operand → Bool
  | .reg r => baseReg r = some (.gpr .r14)
  | _ => false

def usesR15d : Operand → Bool
  | .reg r => baseReg r = some (.gpr .r15) && Tase.regSize r = .l
  | _ => false

def isInstrumentation (o : Operand) : Bool := o.usesR14 || o.usesR15d

def fetchExp (o : Operand) (size : Size) : Except Error Exp :=
  match o with
  | .reg r => do
      check (size = Tase.regSize r) ""
      regExpR r
  | .imm n | .addr n _ => .ok (.lit .hex n)
  | .mem m => do
      let addr ← m.addr
      return .load size.uint addr

def emitFetch (o : Operand) (stem : String) (size : Size) (signed : Bool) : Emit Temp := do
  let e ← Emit.lift (o.fetchExp size)
  emitVarDecl stem ⟨size.bits, signed⟩ e

def emitStore (o : Operand) (e : Exp) (size : Size) : Emit Unit := do
  match o with
  | .imm _ | .addr _ _ => Emit.raise (.assertion "Cannot store to an immediate")
  | .reg r => do
      Emit.lift (check (size = Tase.regSize r) "")
      let whole ← regExpL r
      match size, r with
      | .b, .h _ =>
          Emit.write (.setReg whole (.arith .and (.reg whole) (hex 0xFFFFFFFFFFFF00FF)))
          Emit.write (.addReg whole (.cast (.uint 16) (.shift .left e (dec 8))))
      | .b, _ =>
          Emit.write (.setReg whole (.arith .and (.reg whole) (hex 0xFFFFFFFFFFFFFF00)))
          Emit.write (.addReg whole e)
      | .w, _ =>
          Emit.write (.setReg whole (.arith .and (.reg whole) (hex 0xFFFFFFFFFFFF0000)))
          Emit.write (.setReg whole (.arith .add (.reg whole) e))
      | .l, _ => Emit.write (.setReg whole (.cast (.uint 64) (.cast (.uint 32) e)))
      | .q, _ => Emit.write (.setReg whole e)
  | .mem m => do
      let addr ← Emit.lift m.addr
      Emit.write (.store size.uint addr e)

end Operand

end Tase
