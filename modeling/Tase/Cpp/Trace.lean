import Tase.Cpp.Frame

/-! Which expressions an execution evaluates, and in which states. -/

namespace Cpp

variable {ρ ν : Type}

namespace Expr

def parts : Expr ρ ν → List (Expr ρ ν)
  | .lit radix n => [.lit radix n]
  | .reg r => [.reg r]
  | .var v => [.var v]
  | .cast t e => .cast t e :: e.parts
  | .load t e => .load t e :: e.parts
  | .un op e => .un op e :: e.parts
  | .arith op l r => .arith op l r :: (l.parts ++ r.parts)
  | .shift op l r => .shift op l r :: (l.parts ++ r.parts)
  | .cmp op l r => .cmp op l r :: (l.parts ++ r.parts)
  | .lor l r => .lor l r :: (l.parts ++ r.parts)
  | .cond c l r => .cond c l r :: (c.parts ++ l.parts ++ r.parts)
  | .lookup table e => .lookup table e :: e.parts

def regs : Expr ρ ν → List ρ
  | .lit _ _ | .var _ => []
  | .reg r => [r]
  | .cast _ e | .load _ e | .un _ e | .lookup _ e => e.regs
  | .arith _ l r | .shift _ l r | .cmp _ l r | .lor l r => l.regs ++ r.regs
  | .cond c l r => c.regs ++ l.regs ++ r.regs

theorem regs_of_mem_parts {a e : Expr ρ ν} (member : a ∈ e.parts) {r : ρ} (named : r ∈ a.regs) :
    r ∈ e.regs := by
  induction e with
  | lit radix n | reg s | var v =>
      simp only [parts, List.mem_singleton] at member
      rwa [member] at named
  | cast t e ih | load t e ih | un op e ih | lookup table e ih =>
      rcases List.mem_cons.mp member with rfl | inside
      · exact named
      · exact ih inside
  | arith op x y ihx ihy | shift op x y ihx ihy | cmp op x y ihx ihy | lor x y ihx ihy =>
      rcases List.mem_cons.mp member with rfl | inside
      · exact named
      · rcases List.mem_append.mp inside with left | right
        · exact List.mem_append_left _ (ihx left)
        · exact List.mem_append_right _ (ihy right)
  | cond c x y ihc ihx ihy =>
      rcases List.mem_cons.mp member with rfl | inside
      · exact named
      · rcases List.mem_append.mp inside with early | right
        · rcases List.mem_append.mp early with test | left
          · exact List.mem_append_left _ (List.mem_append_left _ (ihc test))
          · exact List.mem_append_left _ (List.mem_append_right _ (ihx left))
        · exact List.mem_append_right _ (ihy right)

theorem Over.regs_subset {regs : List ρ} {e : Expr ρ ν} (reads : Over regs e) : e.regs ⊆ regs := by
  induction reads with
  | lit _ _ => simp [Expr.regs]
  | reg member => simpa [Expr.regs] using member
  | cast _ _ ih | un _ _ ih => exact ih
  | arith _ _ _ ihl ihr | shift _ _ _ ihl ihr => exact List.append_subset.mpr ⟨ihl, ihr⟩

end Expr

namespace Stmt

def mentions : Stmt ρ ν → List ρ
  | .decl _ _ e | .set _ e | .orSet _ e | .setReg _ e => e.regs
  | .addReg r e => r :: e.regs
  | .store _ addr e => addr.regs ++ e.regs
  | .seq first second => first.mentions ++ second.mentions
  | .ite c yes no => c.regs ++ yes.mentions ++ no.mentions
  | .dec _ | .skip | .ret => []

/-- Once the register has been assigned, nothing reads it any more. -/
def Late (r : ρ) : Stmt ρ ν → Prop
  | .seq first second =>
      first.Late r ∧ second.Late r ∧ (r ∈ first.assigned → r ∉ second.mentions)
  | .ite _ yes no => yes.Late r ∧ no.Late r
  | _ => True

theorem late_of_unassigned {r : ρ} (stmt : Stmt ρ ν) (unassigned : r ∉ stmt.assigned) :
    stmt.Late r := by
  induction stmt with
  | decl t v e | set v e | orSet v e | dec v | store t addr e | skip | ret | setReg s e
  | addReg s e => trivial
  | seq first second ihFirst ihSecond =>
      simp only [assigned, List.mem_append, not_or] at unassigned
      exact ⟨ihFirst unassigned.1, ihSecond unassigned.2, fun here => absurd here unassigned.1⟩
  | ite c yes no ihYes ihNo =>
      simp only [assigned, List.mem_append, not_or] at unassigned
      exact ⟨ihYes unassigned.1, ihNo unassigned.2⟩

end Stmt

theorem block_mentions (body : List (Stmt ρ ν)) :
    (block body).mentions = body.flatMap Stmt.mentions := by
  induction body with
  | nil => rfl
  | cons first rest ih => simp [block, Stmt.mentions, ih]

theorem late_append {r : ρ} {first second : List (Stmt ρ ν)} (left : (block first).Late r)
    (right : (block second).Late r)
    (apart : r ∈ assigned first → r ∉ second.flatMap Stmt.mentions) :
    (block (first ++ second)).Late r := by
  induction first with
  | nil => exact right
  | cons stmt rest ih =>
      obtain ⟨here, later, order⟩ := left
      rw [block_mentions] at order
      rw [List.cons_append]
      refine ⟨here, ih later fun found => apart ?_, fun found => ?_⟩
      · rw [assigned, List.flatMap_cons]
        exact List.mem_append_right _ found
      · rw [block_mentions, List.flatMap_append, List.mem_append, not_or]
        refine ⟨order found, apart ?_⟩
        rw [assigned, List.flatMap_cons]
        exact List.mem_append_left _ found

section

variable [DecidableEq ρ] [DecidableEq ν]

def evaluated (ub : Undef) : Stmt ρ ν → State ρ ν → List (State ρ ν × Expr ρ ν)
  | .decl _ _ e, st | .set _ e, st | .orSet _ e, st | .setReg _ e, st => [(st, e)]
  | .addReg r e, st => [(st, .reg r), (st, e)]
  | .store _ addr e, st => [(st, addr), (st, e)]
  | .dec _, _ | .skip, _ | .ret, _ => []
  | .seq first second, st =>
      evaluated ub first st ++
        match exec ub first st with
        | .ok next => evaluated ub second next
        | .error _ => []
  | .ite c yes no, st =>
      (st, c) :: if (eval ub st c).truthy then evaluated ub yes st else evaluated ub no st

theorem evaluated_mentions (ub : Undef) (stmt : Stmt ρ ν) (st : State ρ ν)
    {p : State ρ ν × Expr ρ ν} (member : p ∈ evaluated ub stmt st) {r : ρ} (named : r ∈ p.2.regs) :
    r ∈ stmt.mentions := by
  induction stmt generalizing st with
  | decl t v e | set v e | orSet v e | setReg s e =>
      simp only [evaluated, List.mem_singleton] at member
      subst member
      exact named
  | addReg s e =>
      simp only [evaluated, List.mem_cons, List.not_mem_nil, or_false] at member
      rcases member with rfl | rfl
      · rw [List.mem_singleton.mp named]
        exact List.mem_cons_self
      · exact List.mem_cons_of_mem _ named
  | store t addr e =>
      simp only [evaluated, List.mem_cons, List.not_mem_nil, or_false] at member
      rcases member with rfl | rfl
      · exact List.mem_append_left _ named
      · exact List.mem_append_right _ named
  | dec v | skip | ret => cases member
  | seq first second ihFirst ihSecond =>
      rcases List.mem_append.mp member with early | late
      · exact List.mem_append_left _ (ihFirst st early)
      · split at late
        · rename_i next _
          exact List.mem_append_right _ (ihSecond next late)
        · cases late
  | ite c yes no ihYes ihNo =>
      rcases List.mem_cons.mp member with rfl | inside
      · exact List.mem_append_left _ (List.mem_append_left _ named)
      · split at inside
        · exact List.mem_append_left _ (List.mem_append_right _ (ihYes st inside))
        · exact List.mem_append_right _ (ihNo st inside)

theorem evaluated_late (ub : Undef) (stmt : Stmt ρ ν) (st : State ρ ν) {r : ρ}
    (late : stmt.Late r) {p : State ρ ν × Expr ρ ν} (member : p ∈ evaluated ub stmt st)
    (named : r ∈ p.2.regs) : p.1.machine.regs r = st.machine.regs r := by
  induction stmt generalizing st with
  | decl t v e | set v e | orSet v e | setReg s e =>
      simp only [evaluated, List.mem_singleton] at member
      rw [member]
  | addReg s e | store t addr e =>
      simp only [evaluated, List.mem_cons, List.not_mem_nil, or_false] at member
      rcases member with rfl | rfl <;> rfl
  | dec v | skip | ret => cases member
  | seq first second ihFirst ihSecond =>
      obtain ⟨lateFirst, lateSecond, order⟩ := late
      rcases List.mem_append.mp member with early | later
      · exact ihFirst st lateFirst early
      · split at later
        · rename_i next ran
          have unassigned : r ∉ first.assigned := fun assigns =>
            order assigns (evaluated_mentions ub second next later named)
          have kept := exec_unassigned ub first st r unassigned
          rw [ran] at kept
          exact (ihSecond next lateSecond later).trans kept
        · cases later
  | ite c yes no ihYes ihNo =>
      rcases List.mem_cons.mp member with rfl | inside
      · rfl
      · split at inside
        · exact ihYes st late.1 inside
        · exact ihNo st late.2 inside

end

end Cpp
