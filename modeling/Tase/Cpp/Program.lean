import Tase.Cpp.Value
import Tase.Cpp.Memory

/-! Straight-line C++ with `if` and `return`: a bank of `uint64_t` locals named by
`ρ`, further integer locals named by `ν`, and byte memory behind pointers. -/

namespace Cpp

inductive Expr (ρ ν : Type)
  | lit (radix : Radix) (n : Nat)
  | reg (r : ρ)
  | var (v : ν)
  | cast (t : Ty) (e : Expr ρ ν)
  | load (t : Ty) (addr : Expr ρ ν)
  | un (op : UnOp) (e : Expr ρ ν)
  | arith (op : ArithOp) (l r : Expr ρ ν)
  | shift (op : ShiftOp) (l r : Expr ρ ν)
  | cmp (op : CmpOp) (l r : Expr ρ ν)
  | lor (l r : Expr ρ ν)
  | cond (c l r : Expr ρ ν)
  | lookup (table : List Nat) (index : Expr ρ ν)
deriving DecidableEq

/-- The branches of `ite` are blocks with a scope of their own. -/
inductive Stmt (ρ ν : Type)
  | decl (t : Ty) (v : ν) (e : Expr ρ ν)
  | set (v : ν) (e : Expr ρ ν)
  | orSet (v : ν) (e : Expr ρ ν)
  | dec (v : ν)
  | setReg (r : ρ) (e : Expr ρ ν)
  | addReg (r : ρ) (e : Expr ρ ν)
  | store (t : Ty) (addr e : Expr ρ ν)
  | skip
  | seq (first second : Stmt ρ ν)
  | ite (c : Expr ρ ν) (yes no : Stmt ρ ν)
  | ret
deriving DecidableEq

structure Machine (ρ : Type) where
  regs : ρ → BitVec 64
  mem : Mem

structure State (ρ ν : Type) where
  machine : Machine ρ
  vars : ν → Val

variable {ρ ν : Type}

def Machine.store {width : Nat} (m : Machine ρ) (addr : BitVec 64) (x : BitVec width) :
    Machine ρ :=
  { m with mem := m.mem.store addr x }

def State.withMachine (st : State ρ ν) (m : Machine ρ) : State ρ ν := { st with machine := m }

section Frame

variable (m : Machine ρ) (st : State ρ ν)

@[simp] theorem Machine.store_regs {width : Nat} (addr : BitVec 64) (x : BitVec width) :
    (m.store addr x).regs = m.regs := rfl

@[simp] theorem Machine.store_mem {width : Nat} (addr : BitVec 64) (x : BitVec width) :
    (m.store addr x).mem = m.mem.store addr x := rfl

@[simp] theorem State.withMachine_machine : (st.withMachine m).machine = m := rfl

@[simp] theorem State.withMachine_self : st.withMachine st.machine = st := rfl

@[simp] theorem State.withMachine_vars : (st.withMachine m).vars = st.vars := rfl

end Frame

section Registers

variable [DecidableEq ρ]

def Machine.setReg (m : Machine ρ) (r : ρ) (x : BitVec 64) : Machine ρ :=
  { m with regs := Function.update m.regs r x }

variable (m : Machine ρ) (r s : ρ) (x : BitVec 64)

@[simp] theorem Machine.setReg_regs_self : (m.setReg r x).regs r = x := by
  simp [Machine.setReg]

theorem Machine.setReg_regs : (m.setReg r x).regs s = if s = r then x else m.regs s := by
  simp [Machine.setReg, Function.update_apply]

@[simp] theorem Machine.setReg_mem : (m.setReg r x).mem = m.mem := rfl

@[simp] theorem Machine.setReg_setReg (y : BitVec 64) :
    (m.setReg r x).setReg r y = m.setReg r y := by
  simp [Machine.setReg]

theorem Machine.setReg_comm (y : BitVec 64) (other : r ≠ s) :
    (m.setReg r x).setReg s y = (m.setReg s y).setReg r x := by
  simp [Machine.setReg, Function.update_comm other]

@[simp] theorem Machine.setReg_self : m.setReg r (m.regs r) = m := by
  simp [Machine.setReg]

end Registers

section Locals

variable [DecidableEq ν]

def State.bind (st : State ρ ν) (v : ν) (x : Val) : State ρ ν :=
  { st with vars := Function.update st.vars v x }

variable (st : State ρ ν) (v w : ν) (x : Val)

@[simp] theorem State.bind_machine : (st.bind v x).machine = st.machine := rfl

@[simp] theorem State.bind_vars_self : (st.bind v x).vars v = x := by
  simp [State.bind]

@[simp] theorem State.bind_vars_ne (different : w ≠ v) : (st.bind v x).vars w = st.vars w := by
  simp [State.bind, different]

end Locals

def eval (ub : Undef) (st : State ρ ν) : Expr ρ ν → Val
  | .lit radix n => .lit radix n
  | .reg r => ⟨.uint 64, st.machine.regs r⟩
  | .var v => st.vars v
  | .cast t e => (eval ub st e).cast t
  | .load t addr => ⟨t, st.machine.mem.load ((eval ub st addr).conv (.uint 64)) t.width⟩
  | .un op e => Val.un ub op (eval ub st e)
  | .arith op l r => Val.arith ub op (eval ub st l) (eval ub st r)
  | .shift op l r => Val.shift ub op (eval ub st l) (eval ub st r)
  | .cmp op l r => Val.cmp op (eval ub st l) (eval ub st r)
  | .lor l r => Val.lor (eval ub st l) (eval ub st r)
  | .cond c l r => Val.cond (eval ub st c) (eval ub st l) (eval ub st r)
  | .lookup table index => Val.lookup ub table (eval ub st index)

section Execution

variable [DecidableEq ρ] [DecidableEq ν]

/-- `.error` is the state in which the function has returned early. -/
def exec (ub : Undef) : Stmt ρ ν → State ρ ν → Except (State ρ ν) (State ρ ν)
  | .decl t v e, st => .ok (st.bind v ((eval ub st e).cast t))
  | .set v e, st => .ok (st.bind v ((eval ub st e).cast (st.vars v).ty))
  | .orSet v e, st =>
      .ok (st.bind v ((Val.arith ub .or (st.vars v) (eval ub st e)).cast (st.vars v).ty))
  | .dec v, st =>
      .ok (st.bind v ((Val.arith ub .sub (st.vars v) (.lit .dec 1)).cast (st.vars v).ty))
  | .setReg r e, st =>
      .ok (st.withMachine (st.machine.setReg r ((eval ub st e).conv (.uint 64))))
  | .addReg r e, st =>
      .ok (st.withMachine (st.machine.setReg r
        ((Val.arith ub .add ⟨.uint 64, st.machine.regs r⟩ (eval ub st e)).conv (.uint 64))))
  | .store t addr e, st =>
      .ok (st.withMachine
        (st.machine.store ((eval ub st addr).conv (.uint 64)) ((eval ub st e).conv t)))
  | .skip, st => .ok st
  | .seq first second, st => (exec ub first st).bind (exec ub second)
  | .ite c yes no, st => if (eval ub st c).truthy then exec ub yes st else exec ub no st
  | .ret, st => .error st

def block : List (Stmt ρ ν) → Stmt ρ ν
  | [] => .skip
  | first :: rest => .seq first (block rest)

def run (ub : Undef) (body : List (Stmt ρ ν)) (st : State ρ ν) :
    Except (State ρ ν) (State ρ ν) :=
  exec ub (block body) st

@[simp] theorem run_nil (ub : Undef) (st : State ρ ν) : run ub [] st = .ok st := rfl

@[simp] theorem run_cons (ub : Undef) (first : Stmt ρ ν) (rest : List (Stmt ρ ν))
    (st : State ρ ν) :
    run ub (first :: rest) st = (exec ub first st).bind (run ub rest) := rfl

theorem run_append (ub : Undef) (first second : List (Stmt ρ ν)) (st : State ρ ν) :
    run ub (first ++ second) st = (run ub first st).bind (run ub second) := by
  induction first generalizing st with
  | nil => rfl
  | cons stmt rest ih =>
      simp only [List.cons_append, run_cons]
      cases exec ub stmt st with
      | error done => rfl
      | ok next => exact ih next

end Execution

end Cpp
