import Tase.Cpp.Program

/-! What an expression reads and what a statement may assign. -/

namespace Cpp

variable {ρ ν : Type}

namespace Expr

def vars : Expr ρ ν → List ν
  | .lit _ _ | .reg _ => []
  | .var v => [v]
  | .cast _ e | .load _ e | .un _ e | .lookup _ e => e.vars
  | .arith _ l r | .shift _ l r | .cmp _ l r | .lor l r => l.vars ++ r.vars
  | .cond c l r => c.vars ++ l.vars ++ r.vars

end Expr

theorem eval_congr (ub : Undef) (left right : State ρ ν) (e : Expr ρ ν)
    (machine : left.machine = right.machine)
    (vars : ∀ v ∈ e.vars, left.vars v = right.vars v) :
    eval ub left e = eval ub right e := by
  induction e with
  | lit radix n => rfl
  | reg r => simp [eval, machine]
  | var v => exact vars v (by simp [Expr.vars])
  | cast t e ih => simp only [eval, ih vars]
  | load t e ih => simp only [eval, ih vars, machine]
  | un op e ih | lookup table e ih => simp only [eval, ih vars]
  | arith op l r ihl ihr | shift op l r ihl ihr | cmp op l r ihl ihr | lor l r ihl ihr =>
      simp only [Expr.vars, List.mem_append] at vars
      simp only [eval, ihl fun v found => vars v (.inl found),
        ihr fun v found => vars v (.inr found)]
  | cond c l r ihc ihl ihr =>
      simp only [Expr.vars, List.mem_append] at vars
      simp only [eval, ihc fun v found => vars v (.inl (.inl found)),
        ihl fun v found => vars v (.inl (.inr found)), ihr fun v found => vars v (.inr found)]

namespace Expr

inductive Over (regs : List ρ) : Expr ρ ν → Prop
  | lit (radix : Radix) (n : Nat) : Over regs (.lit radix n)
  | reg {r : ρ} (member : r ∈ regs) : Over regs (.reg r)
  | cast (t : Ty) {e : Expr ρ ν} (inner : Over regs e) : Over regs (.cast t e)
  | un (op : UnOp) {e : Expr ρ ν} (inner : Over regs e) : Over regs (.un op e)
  | arith (op : ArithOp) {l r : Expr ρ ν} (left : Over regs l) (right : Over regs r) :
      Over regs (.arith op l r)
  | shift (op : ShiftOp) {l r : Expr ρ ν} (left : Over regs l) (right : Over regs r) :
      Over regs (.shift op l r)

namespace Over

variable {regs more : List ρ} {e : Expr ρ ν}

theorem mono (reads : Over regs e) (within : ∀ r ∈ regs, r ∈ more) : Over more e := by
  induction reads with
  | lit radix n => exact .lit radix n
  | reg member => exact .reg (within _ member)
  | cast t _ ih => exact .cast t ih
  | un op _ ih => exact .un op ih
  | arith op _ _ ihl ihr => exact .arith op ihl ihr
  | shift op _ _ ihl ihr => exact .shift op ihl ihr

theorem vars (reads : Over regs e) : e.vars = [] := by
  induction reads with
  | lit _ _ | reg _ => rfl
  | cast _ _ ih | un _ _ ih => exact ih
  | arith _ _ _ ihl ihr | shift _ _ _ ihl ihr => simp [Expr.vars, ihl, ihr]

theorem eval_eq (reads : Over regs e) (ub : Undef) {left right : State ρ ν}
    (same : ∀ r ∈ regs, left.machine.regs r = right.machine.regs r) :
    eval ub left e = eval ub right e := by
  induction reads with
  | lit _ _ => rfl
  | reg member => simp only [eval, same _ member]
  | cast _ _ ih | un _ _ ih => simp only [eval, ih]
  | arith _ _ _ ihl ihr | shift _ _ _ ihl ihr => simp only [eval, ihl, ihr]

end Over

end Expr

namespace Stmt

/-- The `uint64_t` locals that some path through the statement assigns. -/
def assigned : Stmt ρ ν → List ρ
  | .setReg r _ | .addReg r _ => [r]
  | .seq first second => first.assigned ++ second.assigned
  | .ite _ yes no => yes.assigned ++ no.assigned
  | .decl _ _ _ | .set _ _ | .orSet _ _ | .dec _ | .store _ _ _ | .skip | .ret => []

end Stmt

def assigned (body : List (Stmt ρ ν)) : List ρ := body.flatMap Stmt.assigned

theorem block_assigned (body : List (Stmt ρ ν)) : (block body).assigned = assigned body := by
  induction body with
  | nil => rfl
  | cons first rest ih => simp [block, Stmt.assigned, assigned, ih]

/-- The state a statement ends in, whether or not it returned. -/
def final : Except (State ρ ν) (State ρ ν) → State ρ ν
  | .ok st => st
  | .error st => st

variable [DecidableEq ρ] [DecidableEq ν]

theorem exec_unassigned (ub : Undef) (stmt : Stmt ρ ν) (st : State ρ ν) (r : ρ)
    (unassigned : r ∉ stmt.assigned) :
    (final (exec ub stmt st)).machine.regs r = st.machine.regs r := by
  induction stmt generalizing st with
  | decl t v e | set v e | orSet v e | dec v | store t addr e | skip | ret => rfl
  | setReg s e | addReg s e =>
      have different : r ≠ s := by simpa [Stmt.assigned] using unassigned
      simp [exec, final, Machine.setReg_regs, different]
  | seq first second ihFirst ihSecond =>
      simp only [Stmt.assigned, List.mem_append, not_or] at unassigned
      have before := ihFirst st unassigned.1
      simp only [exec]
      cases found : exec ub first st with
      | error done => simpa [found, final, Except.bind] using before
      | ok next =>
          rw [found] at before
          exact (ihSecond next unassigned.2).trans before
  | ite c yes no ihYes ihNo =>
      simp only [Stmt.assigned, List.mem_append, not_or] at unassigned
      simp only [exec]
      split
      · exact ihYes st unassigned.1
      · exact ihNo st unassigned.2

theorem run_unassigned (ub : Undef) (body : List (Stmt ρ ν)) (st : State ρ ν) (r : ρ)
    (unassigned : r ∉ assigned body) :
    (final (run ub body st)).machine.regs r = st.machine.regs r :=
  exec_unassigned ub (block body) st r (by rwa [block_assigned])

end Cpp
