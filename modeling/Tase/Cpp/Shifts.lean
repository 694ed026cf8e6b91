import Tase.Cpp.Bits
import Tase.Cpp.Ints
import Tase.Cpp.Program

/-! Shifts that the standard gives a meaning, along the execution of a program. -/

namespace Cpp

variable {ρ ν : Type}

def Val.Shiftable (l r : Val) : Prop := 0 ≤ r.toInt ∧ r.toInt < l.ty.promote.width

instance (l r : Val) : Decidable (l.Shiftable r) := inferInstanceAs (Decidable (_ ∧ _))

/-- Every shift that the evaluation executes is in range. `||` and `?:` leave a side out. -/
def Expr.InRange (ub : Undef) (st : State ρ ν) : Expr ρ ν → Prop
  | .lit _ _ | .reg _ | .var _ => True
  | .cast _ e | .load _ e | .un _ e | .lookup _ e => e.InRange ub st
  | .arith _ l r | .cmp _ l r => l.InRange ub st ∧ r.InRange ub st
  | .shift _ l r => l.InRange ub st ∧ r.InRange ub st ∧ (eval ub st l).Shiftable (eval ub st r)
  | .lor l r => l.InRange ub st ∧ ((eval ub st l).truthy = false → r.InRange ub st)
  | .cond c l r =>
      c.InRange ub st ∧ if (eval ub st c).truthy then l.InRange ub st else r.InRange ub st

/-- All shifts are by literals below 32, the least width after promotion. -/
def Expr.modest : Expr ρ ν → Bool
  | .lit _ _ | .reg _ | .var _ => true
  | .cast _ e | .load _ e | .un _ e | .lookup _ e => e.modest
  | .arith _ l r | .cmp _ l r | .lor l r => l.modest && r.modest
  | .shift _ l (.lit _ n) => l.modest && n < 32
  | .shift _ _ _ => false
  | .cond c l r => c.modest && l.modest && r.modest

theorem Val.shiftable_lit {radix : Radix} {n : Nat} (v : Val) (small : n < v.ty.promote.width)
    (bound : n < 2 ^ 64) : v.Shiftable (.lit radix n) := by
  rw [Shiftable, lit_toInt radix n bound]
  omega

theorem Val.shiftable_small {radix : Radix} {n : Nat} (v : Val) (small : n < 32) :
    v.Shiftable (.lit radix n) :=
  shiftable_lit v (Nat.lt_of_lt_of_le small (Ty.promote_width v.ty)) (by omega)

theorem Val.shiftable_sub (ub : Undef) {v l r : Val} {x y : Nat} (narrow : v.ty.width ≤ 64)
    (left : l.toInt = x) (right : r.toInt = y) (small : x ≤ 64) (small' : y ≤ 64) :
    v.Shiftable (arith ub .sub l r) ↔ y ≤ x ∧ x - y < v.ty.promote.width := by
  have promoted := Ty.promote_width l.ty
  have common := Ty.common_width l.ty r.ty
  have wide : 32 ≤ (Ty.common l.ty r.ty).width := by omega
  have half : (2 : Int) ^ 31 ≤ 2 ^ ((Ty.common l.ty r.ty).width - 1) := by
    have above : 31 ≤ (Ty.common l.ty r.ty).width - 1 := by omega
    exact_mod_cast Nat.pow_le_pow_right (by decide : 0 < 2) above
  have range (k : Int) (bounds : -64 ≤ k ∧ k ≤ 64) : (Ty.common l.ty r.ty).InRange k :=
    fun _ => ⟨by omega, by omega⟩
  have exactly : ArithOp.sub.onInts = some fun x y => x - y := rfl
  have top : v.ty.promote.width ≤ 64 := by
    unfold Ty.promote
    split
    · decide
    · exact narrow
  rw [Shiftable]
  cases signed : (Ty.common l.ty r.ty).signed with
  | true =>
      rw [arith_toInt ub exactly (range _ (by omega)) (range _ (by omega)) (range _ (by omega)) signed,
        left, right]
      omega
  | false =>
      have full : 2 ^ 32 ≤ 2 ^ (Ty.common l.ty r.ty).width := Nat.pow_le_pow_right (by decide) wide
      rw [arith_toInt_unsigned ub exactly signed, left, right]
      by_cases below : y ≤ x
      · rw [Int.emod_eq_of_lt (by omega) (by omega)]
        omega
      · rw [← Int.add_emod_right, Int.emod_eq_of_lt (by omega) (by omega)]
        omega

theorem Expr.inRange_of_modest {ub : Undef} {st : State ρ ν} {e : Expr ρ ν} (modest : e.modest = true) :
    e.InRange ub st := by
  induction e with
  | lit | reg | var => trivial
  | cast _ e ih | load _ e ih | un _ e ih | lookup _ e ih => exact ih modest
  | arith _ l r ihL ihR | cmp _ l r ihL ihR =>
      obtain ⟨left, right⟩ := Bool.and_eq_true_iff.mp modest
      exact ⟨ihL left, ihR right⟩
  | lor l r ihL ihR =>
      obtain ⟨left, right⟩ := Bool.and_eq_true_iff.mp modest
      exact ⟨ihL left, fun _ => ihR right⟩
  | cond c l r ihC ihL ihR =>
      obtain ⟨both, right⟩ := Bool.and_eq_true_iff.mp modest
      obtain ⟨test, left⟩ := Bool.and_eq_true_iff.mp both
      refine ⟨ihC test, ?_⟩
      split
      · exact ihL left
      · exact ihR right
  | shift op l r ihL _ =>
      cases r with
      | lit radix n =>
          obtain ⟨left, small⟩ := Bool.and_eq_true_iff.mp modest
          exact ⟨ihL left, trivial, Val.shiftable_small _ (of_decide_eq_true small)⟩
      | reg | var | cast | load | un | arith | shift | cmp | lor | cond | lookup => cases modest

theorem Expr.foldl_modest {op : ArithOp} {first : Expr ρ ν} {rest : List (Expr ρ ν)}
    (start : first.modest = true) (all : ∀ e ∈ rest, e.modest = true) : (rest.foldl (Expr.arith op) first).modest = true := by
  induction rest generalizing first with
  | nil => exact start
  | cons e rest ih =>
      refine ih ?_ fun e' member => all e' (List.mem_cons_of_mem _ member)
      exact Bool.and_eq_true_iff.mpr ⟨start, all e List.mem_cons_self⟩

theorem Expr.foldl_inRange {ub : Undef} {st : State ρ ν} {op : ArithOp} {first : Expr ρ ν}
    {rest : List (Expr ρ ν)} (start : first.InRange ub st) (all : ∀ e ∈ rest, e.InRange ub st) :
    (rest.foldl (Expr.arith op) first).InRange ub st := by
  induction rest generalizing first with
  | nil => exact start
  | cons e rest ih =>
      refine ih ?_ fun e' member => all e' (List.mem_cons_of_mem _ member)
      exact ⟨start, all e List.mem_cons_self⟩

def Stmt.modest : Stmt ρ ν → Bool
  | .decl _ _ e | .set _ e | .orSet _ e | .setReg _ e | .addReg _ e => e.modest
  | .store _ addr e => addr.modest && e.modest
  | .dec _ | .skip | .ret => true
  | .seq first second => first.modest && second.modest
  | .ite c yes no => c.modest && yes.modest && no.modest

theorem block_modest {body : List (Stmt ρ ν)} (modest : ∀ stmt ∈ body, stmt.modest = true) :
    (block body).modest = true := by
  induction body with
  | nil => rfl
  | cons stmt rest ih =>
      have later := ih fun s member => modest s (List.mem_cons_of_mem _ member)
      exact Bool.and_eq_true_iff.mpr ⟨modest stmt List.mem_cons_self, later⟩

variable [DecidableEq ρ] [DecidableEq ν]

def Stmt.InRange (ub : Undef) : Stmt ρ ν → State ρ ν → Prop
  | .decl _ _ e, st | .set _ e, st | .orSet _ e, st | .setReg _ e, st | .addReg _ e, st => e.InRange ub st
  | .store _ addr e, st => addr.InRange ub st ∧ e.InRange ub st
  | .dec _, _ | .skip, _ | .ret, _ => True
  | .seq first second, st =>
      first.InRange ub st ∧
        match exec ub first st with
        | .ok st' => second.InRange ub st'
        | .error _ => True
  | .ite c yes no, st =>
      c.InRange ub st ∧ if (eval ub st c).truthy then yes.InRange ub st else no.InRange ub st

section

variable {ub : Undef} {st : State ρ ν}

theorem Stmt.inRange_of_modest {stmt : Stmt ρ ν} (modest : stmt.modest = true) : stmt.InRange ub st := by
  induction stmt generalizing st with
  | decl | set | orSet | setReg | addReg => exact Expr.inRange_of_modest modest
  | store t addr e =>
      obtain ⟨first, second⟩ := Bool.and_eq_true_iff.mp modest
      exact ⟨Expr.inRange_of_modest first, Expr.inRange_of_modest second⟩
  | dec | skip | ret => trivial
  | seq first second ihFirst ihSecond =>
      obtain ⟨before, after⟩ := Bool.and_eq_true_iff.mp modest
      refine ⟨ihFirst before, ?_⟩
      split
      · exact ihSecond after
      · trivial
  | ite c yes no ihYes ihNo =>
      obtain ⟨both, right⟩ := Bool.and_eq_true_iff.mp modest
      obtain ⟨test, left⟩ := Bool.and_eq_true_iff.mp both
      refine ⟨Expr.inRange_of_modest test, ?_⟩
      split
      · exact ihYes left
      · exact ihNo right

theorem block_inRange_append {first second : List (Stmt ρ ν)} :
    (block (first ++ second)).InRange ub st ↔
      (block first).InRange ub st ∧
        match run ub first st with
        | .ok st' => (block second).InRange ub st'
        | .error _ => True := by
  induction first generalizing st with
  | nil => exact ⟨fun rest => ⟨trivial, rest⟩, fun both => both.2⟩
  | cons stmt rest ih =>
      rw [List.cons_append, block, block, Stmt.InRange, Stmt.InRange, run_cons, and_assoc]
      refine and_congr_right fun _ => ?_
      cases exec ub stmt st with
      | error done => simp [Except.bind]
      | ok next => exact ih

theorem block_inRange_single {stmt : Stmt ρ ν} : (block [stmt]).InRange ub st ↔ stmt.InRange ub st := by
  rw [block, block, Stmt.InRange]
  refine and_iff_left ?_
  split <;> trivial

end

end Cpp
