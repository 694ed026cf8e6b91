import Tase.Cpp.Shifts
import Tase.Translator.Runs

/-! Emitters all of whose shifts are by small literals. -/

namespace Tase

open Cpp

namespace Emit

def Modest {α : Type} (m : Emit α) (Q : α → Prop) : Prop :=
  ∀ s a out s', m s = .ok (a, out, s') → (∀ stmt ∈ out, stmt.modest = true) ∧ Q a

namespace Modest

variable {α β : Type} {Q : α → Prop} {i : Instruction}

theorem bind {R : β → Prop} {m : Emit α} {f : α → Emit β} (first : Modest m Q)
    (rest : ∀ a, Q a → Modest (f a) R) : Modest (m >>= f) R := by
  intro s b out s' emitted
  obtain ⟨a, code, middle, code', found, found', rfl⟩ := bind_ok emitted
  obtain ⟨early, holds⟩ := first s a code middle found
  obtain ⟨late, result⟩ := rest a holds middle b code' s' found'
  refine ⟨fun stmt member => ?_, result⟩
  rcases List.mem_append.mp member with here | there
  · exact early stmt here
  · exact late stmt there

theorem pure {a : α} (post : Q a) : Modest (Pure.pure a : Emit α) Q := by
  intro s a' out s' emitted
  change Except.ok (a, [], s) = _ at emitted
  simp only [Except.ok.injEq, Prod.mk.injEq] at emitted
  obtain ⟨rfl, rfl, rfl⟩ := emitted
  exact ⟨by simp, post⟩

theorem lift {x : Except Error α} (post : ∀ a, x = .ok a → Q a) : Modest (Emit.lift x) Q := by
  intro s a out s' emitted
  obtain ⟨found, rfl, rfl⟩ := lift_ok emitted
  exact ⟨by simp, post a found⟩

theorem raise {e : Error} : Modest (Emit.raise e : Emit α) Q := lift fun _ impossible => by cases impossible

theorem write {stmt : Code} (modest : stmt.modest = true) : Modest (Emit.write stmt) fun _ => True := by
  intro s a out s' emitted
  simp only [Emit.write, Except.ok.injEq, Prod.mk.injEq] at emitted
  obtain ⟨_, rfl, rfl⟩ := emitted
  refine ⟨fun stmt' member => ?_, trivial⟩
  rw [List.mem_singleton.mp member]
  exact modest

theorem makeVar {stem : String} : Modest (Tase.makeVar stem) fun _ => True := by
  intro s a out s' emitted
  simp only [Tase.makeVar, Except.ok.injEq, Prod.mk.injEq] at emitted
  obtain ⟨rfl, rfl, rfl⟩ := emitted
  exact ⟨by simp, trivial⟩

theorem addBbRegRef {r : Reg} : Modest (Tase.addBbRegRef r) fun _ => True := by
  intro s a out s' emitted
  simp only [Tase.addBbRegRef, Except.ok.injEq, Prod.mk.injEq] at emitted
  obtain ⟨_, rfl, _⟩ := emitted
  exact ⟨by simp, trivial⟩

theorem regExpL {reg : RegName} : Modest (Tase.regExpL reg) fun _ => True := by
  unfold Tase.regExpL
  split
  · exact raise
  · exact bind addBbRegRef fun _ _ => pure trivial

theorem emitVarDecl {stem : String} {t : Ty} {e : Exp} (modest : e.modest = true) :
    Modest (Tase.emitVarDecl stem t e) fun _ => True :=
  bind makeVar fun _ _ => bind (write modest) fun _ _ => pure trivial

theorem when {condition : Bool} {body : Emit Unit} (modest : Modest body fun _ => True) :
    Modest (Emit.when condition body) fun _ => True := by
  cases condition with
  | true => exact modest
  | false => exact pure trivial

theorem elseBlock {c : Exp} {body : Emit Unit} (test : c.modest = true) (modest : Modest body fun _ => True) :
    Modest (Emit.elseBlock c body) fun _ => True := by
  intro s a out s' emitted
  unfold Emit.elseBlock at emitted
  split at emitted
  · simp at emitted
  · rename_i inner code last found
    simp only [Except.ok.injEq, Prod.mk.injEq] at emitted
    obtain ⟨_, rfl, rfl⟩ := emitted
    refine ⟨fun stmt member => ?_, trivial⟩
    rw [List.mem_singleton.mp member]
    simp only [Stmt.modest, test, block_modest (modest s inner code last found).1, Bool.and_self]

theorem operand {k : Nat} : Modest (i.operand k) fun _ => True := lift fun _ _ => trivial

theorem operandOr {o : Option Operand} {k : Nat} : Modest (i.operandOr o k) fun _ => True := by
  cases o with
  | none => exact operand
  | some o => exact pure trivial

theorem needSize {size : Option Size} : Modest (Instruction.needSize size) fun _ => True := lift fun _ _ => trivial

end Modest

end Emit

/-! Operands. -/

theorem hex_modest (n : Int) : (hex n).modest = true := by
  unfold hex
  split <;> rfl

theorem regExpR_modest {reg : RegName} {e : Exp} (found : regExpR reg = .ok e) : e.modest = true := by
  unfold regExpR at found
  split at found
  · cases found
  · split at found <;> cases found <;> rfl

namespace MemRef

theorem addrStr_modest {e : Exp} (size : Size) (modest : e.modest = true) : (addrStr size e).modest = true := by
  unfold addrStr
  split
  · exact modest
  · exact modest

theorem sum_modest {terms : List Exp} (modest : ∀ e ∈ terms, e.modest = true) : (sum terms).modest = true := by
  cases terms with
  | nil => rfl
  | cons first rest =>
      refine Expr.foldl_modest (modest first List.mem_cons_self) fun e member => ?_
      exact modest e (List.mem_cons_of_mem _ member)

theorem addr_modest {m : MemRef} {e : Exp} (found : m.addr = .ok e) : e.modest = true := by
  obtain ⟨size, _, found⟩ := except_bind_ok found
  obtain ⟨_, _, found⟩ := except_bind_ok found
  obtain ⟨base, readBase, found⟩ := except_bind_ok found
  obtain ⟨index, readIndex, found⟩ := except_bind_ok found
  cases found
  refine sum_modest fun e member => ?_
  simp only [List.mem_append] at member
  rcases member with (offset | inBase) | inIndex
  · unfold offsetTerm at offset
    split at offset
    · cases offset
    · rw [List.mem_singleton.mp offset]
      exact addrStr_modest size (hex_modest _)
  · unfold baseTerm at readBase
    split at readBase
    · cases readBase
      cases inBase
    · obtain ⟨e', read, made⟩ := except_bind_ok readBase
      cases made
      rw [List.mem_singleton.mp inBase]
      exact addrStr_modest size (regExpR_modest read)
  · unfold indexTerm at readIndex
    split at readIndex
    · cases readIndex
      cases inIndex
    · obtain ⟨e', read, made⟩ := except_bind_ok readIndex
      cases made
      rw [List.mem_singleton.mp inIndex]
      exact Bool.and_eq_true_iff.mpr ⟨addrStr_modest size (regExpR_modest read), rfl⟩

end MemRef

theorem Operand.fetchExp_modest {o : Operand} {size : Size} {e : Exp} (found : o.fetchExp size = .ok e) :
    e.modest = true := by
  cases o with
  | reg r =>
      obtain ⟨_, _, found⟩ := except_bind_ok found
      exact regExpR_modest found
  | imm n | addr n symbol =>
      cases found
      rfl
  | mem m =>
      obtain ⟨addr, read, found⟩ := except_bind_ok found
      cases found
      change addr.modest = true
      exact MemRef.addr_modest read

theorem condExp_modest (code : Cond) (v : Temp) : (condExp code v).modest = true := by
  cases code <;> rfl

theorem failureExp_modest (code : Cond) (cNeg cEq : Bool) (v : Temp) :
    (failureExp code cNeg cEq v).modest = true := by
  have either : (eqExp code cEq v).modest = true := by
    unfold eqExp
    split
    · exact Bool.and_eq_true_iff.mpr ⟨rfl, condExp_modest code v⟩
    · exact condExp_modest code v
  cases cNeg <;> exact either

namespace Emit.Modest

variable {i : Instruction}

theorem emitFetch {o : Operand} {stem : String} {size : Size} {signed : Bool} :
    Modest (o.emitFetch stem size signed) fun _ => True :=
  bind (lift fun _ found => Operand.fetchExp_modest found) fun _ modest => emitVarDecl modest

theorem emitStore {o : Operand} {e : Exp} {size : Size} (modest : e.modest = true) :
    Modest (o.emitStore e size) fun _ => True := by
  cases o with
  | imm n | addr n symbol => exact raise
  | mem target =>
      refine bind (lift fun _ found => MemRef.addr_modest found) fun addr reads => write ?_
      exact Bool.and_eq_true_iff.mpr ⟨reads, modest⟩
  | reg r =>
      refine bind (lift fun _ _ => trivial) fun _ _ => bind regExpL fun whole _ => ?_
      split
      · exact bind (write (hex_modest _)) fun _ _ => write (Bool.and_eq_true_iff.mpr ⟨modest, rfl⟩)
      · exact bind (write (hex_modest _)) fun _ _ => write modest
      · exact bind (write (hex_modest _)) fun _ _ => write modest
      · exact write modest
      · exact write modest

theorem emitGetFlag {mask : Nat} {v : Temp} : Modest (Tase.emitGetFlag mask v) fun _ => True := write rfl

theorem emitSetFlag {mask : Nat} {value : Exp} {clobber : Bool} (modest : value.modest = true) :
    Modest (Tase.emitSetFlag mask value clobber) fun _ => True := by
  refine bind regExpL fun _ _ => ?_
  cases clobber with
  | true => exact write modest
  | false => exact write modest

theorem emitXchg : Modest (Tase.emitXchg i) fun _ => True :=
  bind operand fun _ _ => bind operand fun _ _ => bind needSize fun _ _ => bind emitFetch fun _ _ =>
    bind emitFetch fun _ _ => bind (emitStore rfl) fun _ _ => emitStore rfl

theorem emitMov {src dest : Option Operand} {size : Option Size} :
    Modest (Tase.emitMov i src dest size) fun _ => True := by
  refine bind operandOr fun _ _ => bind operandOr fun _ _ => bind needSize fun size2 _ => ?_
  refine bind needSize fun size1 _ => bind emitFetch fun v _ => ?_
  refine bind (Q := fun _ => True) ?_ fun _ _ => emitStore rfl
  unfold emitConverted
  split
  · exact pure trivial
  · exact emitVarDecl rfl

theorem emitLea {src dest : Option Operand} {size : Option Size} :
    Modest (Tase.emitLea i src dest size) fun _ => True := by
  refine bind operandOr fun _ _ => bind operandOr fun _ _ => bind needSize fun _ _ => ?_
  refine bind (Q := fun _ => True) (lift fun _ _ => trivial) fun m _ => ?_
  exact bind (lift fun _ found => MemRef.addr_modest found) fun _ modest => emitStore modest

theorem emitPush {src : Option Operand} {size : Option Size} : Modest (Tase.emitPush i src size) fun _ => True :=
  bind operandOr fun _ _ => bind needSize fun _ _ => bind emitLea fun _ _ => emitMov

theorem emitPop {dest : Option Operand} {size : Option Size} : Modest (Tase.emitPop i dest size) fun _ => True :=
  bind operandOr fun _ _ => bind needSize fun _ _ => bind emitMov fun _ _ => emitLea

theorem emitUnderCond {body : Emit Unit} (modest : Modest body fun _ => True) :
    Modest (emitReturnForCond i >>= fun failure => emitElse failure body) fun _ => True := by
  refine bind (Q := fun failure => ∀ e, failure = some e → e.modest = true) ?_ fun failure holds => ?_
  · unfold emitReturnForCond
    split
    · exact pure fun _ impossible => by cases impossible
    · refine bind makeVar fun v _ => bind emitGetFlag fun _ _ => pure fun e same => ?_
      cases same
      exact failureExp_modest _ _ _ _
  · cases failure with
    | none => exact modest
    | some e => exact elseBlock (holds e rfl) modest

theorem emitEnter : Modest (Tase.emitEnter i) fun _ => True :=
  bind (lift fun _ _ => trivial) fun _ _ => bind emitPush fun _ _ => bind emitMov fun _ _ => emitLea

theorem emitLeave : Modest (Tase.emitLeave i) fun _ => True := bind emitMov fun _ _ => emitPop

theorem emitNot : Modest (Tase.emitNot i) fun _ => True :=
  bind operand fun _ _ => bind needSize fun _ _ => bind emitFetch fun _ _ => emitStore rfl

theorem emitCall : Modest (Tase.emitCall i) fun _ => True :=
  bind (lift fun _ _ => trivial) fun _ _ => bind operand fun _ _ => bind emitFetch fun _ _ =>
    bind emitPush fun _ _ => emitStore rfl

theorem emitRet : Modest (Tase.emitRet i) fun _ => True := bind (lift fun _ _ => trivial) fun _ _ => emitPop

theorem emitSet : Modest (Tase.emitSet i) fun _ => True :=
  bind operand fun _ _ => bind (emitStore rfl) fun _ _ => emitUnderCond (emitStore rfl)

theorem emitCmov : Modest (Tase.emitCmov i) fun _ => True :=
  bind operand fun _ _ => bind emitMov fun _ _ => emitUnderCond emitMov

theorem emitJump : Modest (Tase.emitJump i) fun _ => True := emitUnderCond emitMov

theorem emitLoop : Modest (Tase.emitLoop i) fun _ => True :=
  bind operand fun _ _ => bind (lift fun _ _ => trivial) fun _ _ => bind emitFetch fun _ _ =>
    bind (write rfl) fun _ _ => bind (emitStore rfl) fun _ _ => bind (write rfl) fun _ _ => emitJump

theorem emitFlag {clear : Bool} : Modest (Tase.emitFlag i clear) fun _ => True := by
  refine bind (Q := fun _ => True) (lift fun _ _ => trivial) fun _ _ => emitSetFlag ?_
  cases clear <;> rfl

theorem emitCmc : Modest Tase.emitCmc fun _ => True :=
  bind (emitVarDecl rfl) fun _ _ => bind emitGetFlag fun _ _ => emitSetFlag rfl

theorem emitStoreHi {destHi : Option Operand} {v : Temp} {size : Size} :
    Modest (Tase.emitStoreHi destHi v size) fun _ => True := by
  cases destHi with
  | none => exact pure trivial
  | some dest => exact emitStore rfl

theorem emitAddTarget {mode : AddMode} {left right : Operand} {v : Temp} {size : Size} :
    Modest (Tase.emitAddTarget mode left right v size) fun _ => True := by
  unfold Tase.emitAddTarget
  split
  · exact emitStore rfl
  · exact emitStore rfl
  · exact pure trivial

theorem emitAddCarryIn {mode : AddMode} : Modest (Tase.emitAddCarryIn mode) fun _ => True := by
  unfold Tase.emitAddCarryIn
  split
  · exact bind makeVar fun _ _ => bind emitGetFlag fun _ _ => pure trivial
  · exact pure trivial

end Emit.Modest

end Tase
