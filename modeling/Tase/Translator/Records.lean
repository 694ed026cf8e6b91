import Tase.Translator.Runs

/-! Every register that emitted code assigns, on any path, is recorded in
`BB_ASSIGNED_REGS` by the time the emitter is done. -/

namespace Tase

open Cpp

def Operand.target : Operand → Option Reg
  | .reg r => baseReg r
  | _ => none

namespace Emit

/-- `m` only adds to the recorded registers, records all that its code assigns, assigns
only those in `P`, and returns values in `Q`. -/
def Records {α : Type} (P : Reg → Prop) (m : Emit α) (Q : α → Prop) : Prop :=
  ∀ s a out s', m s = .ok (a, out, s') →
    s.bbAssignedRegs ⊆ s'.bbAssignedRegs ∧
    (∀ r ∈ assigned out, r ∈ s'.bbAssignedRegs ∧ P r) ∧ Q a

namespace Records

variable {α β : Type} {P : Reg → Prop} {Q : α → Prop}

theorem pure {a : α} (post : Q a) : Records P (Pure.pure a : Emit α) Q := by
  intro s a' out s' emitted
  change Except.ok (a, [], s) = _ at emitted
  simp only [Except.ok.injEq, Prod.mk.injEq] at emitted
  obtain ⟨rfl, rfl, rfl⟩ := emitted
  exact ⟨fun _ found => found, by simp [assigned], post⟩

theorem bind {R : β → Prop} {m : Emit α} {f : α → Emit β} (first : Records P m Q)
    (rest : ∀ a, Q a → Records P (f a) R) : Records P (m >>= f) R := by
  intro s b out s' emitted
  obtain ⟨a, code, middle, code', found, found', rfl⟩ := bind_ok emitted
  obtain ⟨grows, recorded, value⟩ := first s a code middle found
  obtain ⟨grows', recorded', value'⟩ := rest a value middle b code' s' found'
  refine ⟨fun r here => grows' (grows here), ?_, value'⟩
  intro r assigns
  rw [assigned, List.flatMap_append, List.mem_append] at assigns
  rcases assigns with early | late
  · exact ⟨grows' (recorded r early).1, (recorded r early).2⟩
  · exact recorded' r late

theorem lift {x : Except Error α} (post : ∀ a, x = .ok a → Q a) :
    Records P (Emit.lift x) Q := by
  intro s a out s' emitted
  obtain ⟨found, rfl, rfl⟩ := lift_ok emitted
  exact ⟨fun _ here => here, by simp [assigned], post a found⟩

theorem raise {e : Error} : Records P (Emit.raise e : Emit α) Q :=
  lift fun _ impossible => by simp at impossible

theorem write {stmt : Code} (quiet : stmt.assigned = []) :
    Records P (Emit.write stmt) fun _ => True := by
  intro s a out s' emitted
  simp only [Emit.write, Except.ok.injEq, Prod.mk.injEq] at emitted
  obtain ⟨_, rfl, rfl⟩ := emitted
  exact ⟨fun _ here => here, by simp [assigned, quiet], trivial⟩

theorem when {condition : Bool} {body : Emit Unit}
    (yes : condition = true → Records P body fun _ => True) :
    Records P (Emit.when condition body) fun _ => True := by
  cases condition with
  | true => exact yes rfl
  | false => exact pure trivial

theorem makeVar {stem : String} : Records P (Tase.makeVar stem) fun _ => True := by
  intro s a out s' emitted
  simp only [Tase.makeVar, Except.ok.injEq, Prod.mk.injEq] at emitted
  obtain ⟨rfl, rfl, rfl⟩ := emitted
  exact ⟨fun _ here => here, by simp [assigned], trivial⟩

theorem emitVarDecl {stem : String} {t : Ty} {e : Exp} :
    Records P (Tase.emitVarDecl stem t e) fun _ => True :=
  bind makeVar fun _ _ => bind (write rfl) fun _ _ => pure trivial

theorem elseBlock {c : Exp} {body : Emit Unit} (records : Records P body fun _ => True) :
    Records P (Emit.elseBlock c body) fun _ => True := by
  intro s a out s' emitted
  unfold Emit.elseBlock at emitted
  split at emitted
  · simp at emitted
  · rename_i inner code last found
    simp only [Except.ok.injEq, Prod.mk.injEq] at emitted
    obtain ⟨_, rfl, rfl⟩ := emitted
    obtain ⟨grows, recorded, _⟩ := records s inner code last found
    refine ⟨grows, ?_, trivial⟩
    simpa [assigned, Stmt.assigned, block_assigned] using recorded

theorem regExpL_ok {reg : RegName} {s s' : EmitState} {r : Reg} {out : List Code}
    (emitted : regExpL reg s = .ok (r, out, s')) :
    baseReg reg = some r ∧ out = [] ∧ s.bbAssignedRegs ⊆ s'.bbAssignedRegs ∧
      r ∈ s'.bbAssignedRegs := by
  cases base : baseReg reg with
  | none => simp [regExpL, base, Emit.raise, Emit.lift] at emitted
  | some whole =>
      simp only [regExpL, base] at emitted
      obtain ⟨_, code, middle, code', added, returned, rfl⟩ := bind_ok emitted
      simp only [addBbRegRef, Except.ok.injEq, Prod.mk.injEq] at added
      obtain ⟨_, rfl, rfl⟩ := added
      change Except.ok (whole, [], _) = Except.ok (r, code', s') at returned
      simp only [Except.ok.injEq, Prod.mk.injEq] at returned
      obtain ⟨rfl, rfl, rfl⟩ := returned
      refine ⟨rfl, rfl, ?_⟩
      split
      · rename_i already
        exact ⟨fun _ here => here, already⟩
      · exact ⟨fun _ here => List.mem_append_left _ here, by simp⟩

theorem recordThen {reg : RegName} {f : Reg → Emit Unit}
    (target : ∀ r, baseReg reg = some r → P r)
    (rest : ∀ r s a out s', f r s = .ok (a, out, s') →
      s' = s ∧ ∀ r' ∈ assigned out, r' = r) :
    Records P (regExpL reg >>= f) fun _ => True := by
  intro s a out s' emitted
  obtain ⟨r, code, middle, code', found, found', rfl⟩ := bind_ok emitted
  obtain ⟨base, rfl, grows, here⟩ := regExpL_ok found
  obtain ⟨rfl, only⟩ := rest r middle a code' s' found'
  refine ⟨grows, fun r' assigns => ?_, trivial⟩
  rw [only r' assigns]
  exact ⟨here, target r base⟩

theorem emitSetFlag {mask : Nat} {value : Exp} {clobber : Bool} (efl : P .efl) :
    Records P (Tase.emitSetFlag mask value clobber) fun _ => True := by
  refine recordThen (fun r found => by cases found; exact efl) ?_
  intro r s a out s' emitted
  cases clobber <;>
  · simp only [Emit.write, Bool.false_eq_true, if_true, if_false, Except.ok.injEq,
      Prod.mk.injEq] at emitted
    obtain ⟨_, rfl, rfl⟩ := emitted
    simp [assigned, Stmt.assigned]

theorem emitStore {o : Operand} {e : Exp} {size : Size} (target : ∀ r, o.target = some r → P r) :
    Records P (o.emitStore e size) fun _ => True := by
  have single (stmt : Code) (r : Reg) (only : stmt.assigned = [r]) (s : EmitState) (a : Unit)
      (out : List Code) (s' : EmitState) (emitted : Emit.write stmt s = .ok (a, out, s')) :
      s' = s ∧ ∀ r' ∈ assigned out, r' = r := by
    simp only [Emit.write, Except.ok.injEq, Prod.mk.injEq] at emitted
    obtain ⟨_, rfl, rfl⟩ := emitted
    simp [assigned, only]
  have double (stmt stmt' : Code) (r : Reg) (only : stmt.assigned = [r])
      (only' : stmt'.assigned = [r]) (s : EmitState) (a : Unit) (out : List Code) (s' : EmitState)
      (emitted : (Emit.write stmt >>= fun _ => Emit.write stmt') s = .ok (a, out, s')) :
      s' = s ∧ ∀ r' ∈ assigned out, r' = r := by
    obtain ⟨b, code, middle, code', found, found', rfl⟩ := bind_ok emitted
    obtain ⟨rfl, first⟩ := single stmt r only s b code middle found
    obtain ⟨rfl, second⟩ := single stmt' r only' middle a code' s' found'
    refine ⟨rfl, fun r' assigns => ?_⟩
    rw [assigned, List.flatMap_append, List.mem_append] at assigns
    exact assigns.elim (first r') (second r')
  cases o with
  | imm n | addr n symbol => exact raise
  | mem m => exact bind (lift fun _ _ => trivial) fun _ _ => write rfl
  | reg reg =>
      refine bind (lift fun _ _ => trivial) fun _ _ => recordThen target ?_
      intro r s a out s' emitted
      split at emitted
      · exact double _ _ r rfl rfl s a out s' emitted
      · exact double _ _ r rfl rfl s a out s' emitted
      · exact double _ _ r rfl rfl s a out s' emitted
      · exact single _ r rfl s a out s' emitted
      · exact single _ r rfl s a out s' emitted

end Records

end Emit

/-! The emitters. `fixed` covers the registers that they name themselves. -/

def Operand.Within (P : Reg → Prop) (o : Operand) : Prop := ∀ r, o.target = some r → P r

namespace Operand

variable {P : Reg → Prop}

theorem within_mem (m : MemRef) : (Operand.mem m).Within P := fun _ found => by cases found

theorem within_reg {reg : RegName} (allowed : ∀ r, baseReg reg = some r → P r) :
    (Operand.reg reg).Within P := allowed

theorem within_regOperand {g : Gpr} (size : Size) (allowed : P (.gpr g)) :
    (regOperand g size).Within P := by
  intro r found
  cases size <;> cases found <;> exact allowed

theorem within_some {o : Operand} (allowed : o.Within P) : ∀ o', some o = some o' → o'.Within P := by
  intro o' same
  cases same
  exact allowed

end Operand

namespace Emit.Records

open Operand

variable {P : Reg → Prop} {i : Instruction}

theorem needSize {size : Option Size} : Records P (Instruction.needSize size) fun _ => True :=
  lift fun _ _ => trivial

theorem emitFetch {o : Operand} {stem : String} {size : Size} {signed : Bool} :
    Records P (o.emitFetch stem size signed) fun _ => True :=
  bind (lift fun _ _ => trivial) fun _ _ => emitVarDecl

theorem emitGetFlag {mask : Nat} {v : Temp} : Records P (Tase.emitGetFlag mask v) fun _ => True :=
  write rfl

theorem emitZps {vEfl vRes : Temp} : Records P (Tase.emitZps i vEfl vRes) fun _ => True :=
  bind needSize fun _ _ => bind (write rfl) fun _ _ => bind (write rfl) fun _ _ => write rfl

theorem emitReturnForCond : Records P (Tase.emitReturnForCond i) fun _ => True := by
  unfold Tase.emitReturnForCond
  cases i.cond with
  | none => exact pure trivial
  | some code => exact bind makeVar fun _ _ => bind emitGetFlag fun _ _ => pure trivial

theorem emitUnderCond {body : Emit Unit} (records : Records P body fun _ => True) :
    Records P (do let failure ← Tase.emitReturnForCond i; emitElse failure body) fun _ => True := by
  refine bind emitReturnForCond fun failure _ => ?_
  cases failure with
  | none => exact records
  | some failure => exact elseBlock records

section

variable (fixed : ∀ r, r ≠ .rip → P r) (operands : ∀ o ∈ i.operands, o.Within P)
include operands

theorem operand {k : Nat} : Records P (i.operand k) (Operand.Within P) := by
  refine lift fun o found => ?_
  split at found
  · rename_i present
    cases found
    exact operands _ (List.mem_of_getElem? present)
  · simp at found

theorem operandOr {o : Option Operand} {k : Nat} (given : ∀ o', o = some o' → o'.Within P) :
    Records P (i.operandOr o k) (Operand.Within P) := by
  cases o with
  | none => exact operand operands
  | some o => exact pure (given o rfl)

theorem emitMov {src dest : Option Operand} {size : Option Size}
    (source : ∀ o, src = some o → o.Within P) (target : ∀ o, dest = some o → o.Within P) :
    Records P (Tase.emitMov i src dest size) fun _ => True := by
  refine bind (operandOr operands source) fun _ _ => ?_
  refine bind (operandOr operands target) fun _ allowed => ?_
  refine bind needSize fun _ _ => ?_
  refine bind needSize fun _ _ => ?_
  refine bind emitFetch fun _ _ => ?_
  refine bind (Q := fun _ => True) ?_ fun _ _ => emitStore allowed
  unfold emitConverted
  split
  · exact pure trivial
  · exact emitVarDecl

theorem emitLea {src dest : Option Operand} {size : Option Size}
    (source : ∀ o, src = some o → o.Within P) (target : ∀ o, dest = some o → o.Within P) :
    Records P (Tase.emitLea i src dest size) fun _ => True := by
  refine bind (operandOr operands source) fun _ _ => ?_
  refine bind (operandOr operands target) fun _ allowed => ?_
  refine bind needSize fun _ _ => ?_
  refine bind (lift fun _ _ => trivial) fun _ _ => ?_
  exact bind (lift fun _ _ => trivial) fun _ _ => emitStore allowed

theorem emitBittest (efl : P .efl) : Records P (Tase.emitBittest i) fun _ => True := by
  refine bind (operand operands) fun _ _ => ?_
  refine bind (operand operands) fun _ allowed => ?_
  refine bind needSize fun _ _ => ?_
  refine bind (lift fun _ _ => trivial) fun _ _ => ?_
  refine bind emitFetch fun _ _ => ?_
  refine bind emitVarDecl fun _ _ => ?_
  refine bind emitFetch fun _ _ => ?_
  refine bind emitVarDecl fun _ _ => ?_
  refine bind (emitSetFlag efl) fun _ _ => ?_
  unfold emitBittestModify
  cases i.testBit with
  | none => exact pure trivial
  | some bit => exact bind emitVarDecl fun _ _ => emitStore allowed

theorem emitNot : Records P (Tase.emitNot i) fun _ => True := by
  refine bind (operand operands) fun _ allowed => ?_
  refine bind needSize fun _ _ => ?_
  exact bind emitFetch fun _ _ => emitStore allowed

theorem emitXchg : Records P (Tase.emitXchg i) fun _ => True := by
  refine bind (operand operands) fun _ source => ?_
  refine bind (operand operands) fun _ target => ?_
  refine bind needSize fun _ _ => ?_
  refine bind emitFetch fun _ _ => ?_
  refine bind emitFetch fun _ _ => ?_
  exact bind (emitStore source) fun _ _ => emitStore target

theorem emitCtd : Records P (Tase.emitCtd i) fun _ => True := by
  refine bind (operand operands) fun _ _ => ?_
  refine bind (operand operands) fun _ target => ?_
  refine bind needSize fun _ _ => ?_
  refine bind needSize fun _ _ => ?_
  refine bind emitFetch fun _ _ => ?_
  exact bind emitVarDecl fun _ _ => emitStore target

theorem emitBswap : Records P (Tase.emitBswap i) fun _ => True := by
  refine bind (operand operands) fun _ target => ?_
  refine bind (lift fun _ _ => trivial) fun _ _ => ?_
  refine bind emitFetch fun _ _ => ?_
  exact bind emitVarDecl fun _ _ => emitStore target

theorem emitSet : Records P (Tase.emitSet i) fun _ => True := by
  refine bind (operand operands) fun _ target => ?_
  exact bind (emitStore target) fun _ _ => emitUnderCond (emitStore target)

theorem emitCmov : Records P (Tase.emitCmov i) fun _ => True := by
  refine bind (operand operands) fun dest target => ?_
  refine bind (emitMov operands ?_ (by simp)) fun _ _ => ?_
  · intro o same
    cases same
    exact target
  · exact emitUnderCond (emitMov operands (by simp) (by simp))

theorem emitJump (rip : P .rip) : Records P (Tase.emitJump i) fun _ => True := by
  refine emitUnderCond (emitMov operands (by simp) ?_)
  intro o same r found
  cases same
  cases found
  exact rip

theorem emitLogical {op : ArithOp} {writeTarget : Bool} (efl : P .efl) :
    Records P (Tase.emitLogical i op writeTarget) fun _ => True := by
  refine bind (operand operands) fun _ _ => ?_
  refine bind (operand operands) fun _ target => ?_
  refine bind needSize fun _ _ => ?_
  refine bind emitFetch fun _ _ => ?_
  refine bind emitFetch fun _ _ => ?_
  refine bind emitVarDecl fun _ _ => ?_
  refine bind (when fun _ => emitStore target) fun _ _ => ?_
  refine bind emitVarDecl fun _ _ => ?_
  exact bind emitZps fun _ _ => emitSetFlag efl

theorem emitAdd {left right : Option Operand} {mode : AddMode} (efl : P .efl)
    (inLeft : ∀ o, left = some o → o.Within P) (inRight : ∀ o, right = some o → o.Within P) :
    Records P (Tase.emitAdd i left right mode) fun _ => True := by
  refine bind (operandOr operands inRight) fun argR targetR => ?_
  refine bind (operandOr operands inLeft) fun argL targetL => ?_
  refine bind needSize fun _ _ => ?_
  refine bind emitFetch fun _ _ => ?_
  refine bind emitFetch fun _ _ => ?_
  refine bind (Q := fun _ => True) ?_ fun vCf _ => ?_
  · unfold emitAddCarryIn
    split
    · exact bind makeVar fun _ _ => bind emitGetFlag fun _ _ => pure trivial
    · exact pure trivial
  refine bind emitVarDecl fun _ _ => ?_
  refine bind emitVarDecl fun _ _ => ?_
  refine bind (Q := fun _ => True) ?_ fun _ _ => ?_
  · unfold emitAddTarget
    split
    · exact emitStore targetL
    · exact emitStore targetR
    · exact pure trivial
  refine bind (write rfl) fun _ _ => ?_
  refine bind (when fun _ => write rfl) fun _ _ => ?_
  exact bind emitZps fun _ _ => emitSetFlag efl

include fixed

theorem emitPush {src : Option Operand} {size : Option Size}
    (source : ∀ o, src = some o → o.Within P) :
    Records P (Tase.emitPush i src size) fun _ => True := by
  refine bind (operandOr operands source) fun o allowed => ?_
  refine bind needSize fun _ _ => ?_
  have rsp : rspOperand.Within P := within_regOperand .q (fixed (.gpr .rsp) (by simp))
  refine bind (emitLea operands (within_some (within_mem _)) (within_some rsp)) fun _ _ => ?_
  exact emitMov operands (within_some allowed) (within_some (within_mem _))

theorem emitPop {dest : Option Operand} {size : Option Size}
    (target : ∀ o, dest = some o → o.Within P) :
    Records P (Tase.emitPop i dest size) fun _ => True := by
  refine bind (operandOr operands target) fun o allowed => ?_
  refine bind needSize fun _ _ => ?_
  have rsp : rspOperand.Within P := within_regOperand .q (fixed (.gpr .rsp) (by simp))
  refine bind (emitMov operands (within_some (within_mem _)) (within_some allowed)) fun _ _ => ?_
  exact emitLea operands (within_some (within_mem _)) (within_some rsp)

theorem emitEnter : Records P (Tase.emitEnter i) fun _ => True := by
  have rsp : rspOperand.Within P := within_regOperand .q (fixed (.gpr .rsp) (by simp))
  have rbp : rbpOperand.Within P := within_regOperand .q (fixed (.gpr .rbp) (by simp))
  refine bind (lift fun _ _ => trivial) fun _ _ => ?_
  refine bind (emitPush fixed operands (within_some rbp)) fun _ _ => ?_
  refine bind (emitMov operands (within_some rsp) (within_some rbp)) fun _ _ => ?_
  exact emitLea operands (within_some (within_mem _)) (within_some rsp)

theorem emitLeave : Records P (Tase.emitLeave i) fun _ => True := by
  have rsp : rspOperand.Within P := within_regOperand .q (fixed (.gpr .rsp) (by simp))
  have rbp : rbpOperand.Within P := within_regOperand .q (fixed (.gpr .rbp) (by simp))
  refine bind (emitMov operands (within_some rbp) (within_some rsp)) fun _ _ => ?_
  exact emitPop fixed operands (within_some rbp)

theorem emitCall (rip : P .rip) : Records P (Tase.emitCall i) fun _ => True := by
  have target : ripOperand.Within P := within_reg fun r found => by cases found; exact rip
  refine bind (lift fun _ _ => trivial) fun _ _ => ?_
  refine bind (operand operands) fun _ _ => ?_
  refine bind emitFetch fun _ _ => ?_
  exact bind (emitPush fixed operands (within_some target)) fun _ _ => emitStore target

theorem emitRet (rip : P .rip) : Records P (Tase.emitRet i) fun _ => True := by
  have target : ripOperand.Within P := within_reg fun r found => by cases found; exact rip
  exact bind (lift fun _ _ => trivial) fun _ _ => emitPop fixed operands (within_some target)

theorem emitLoop (rip : P .rip) : Records P (Tase.emitLoop i) fun _ => True := by
  have counter : (regOperand .rcx (i.size1.getD .q)).Within P :=
    within_regOperand _ (fixed (.gpr .rcx) (by simp))
  refine bind (operand operands) fun _ _ => ?_
  refine bind (lift fun _ _ => trivial) fun _ _ => ?_
  refine bind emitFetch fun _ _ => ?_
  refine bind (write rfl) fun _ _ => ?_
  refine bind (emitStore counter) fun _ _ => ?_
  exact bind (write rfl) fun _ _ => emitJump operands rip

theorem emitXadd : Records P (Tase.emitXadd i) fun _ => True :=
  bind (emitXchg operands) fun _ _ =>
    emitAdd operands (fixed .efl (by simp)) (by simp) (by simp)

theorem emitMul : Records P (Tase.emitMul i) fun _ => True := by
  refine bind needSize fun size _ => ?_
  refine bind (Q := fun chosen => chosen.2.2.1.Within P ∧ ∀ o, chosen.2.2.2 = some o → o.Within P)
    (lift ?_) ?_
  · have rax : (regOperand .rax size).Within P := within_regOperand _ (fixed (.gpr .rax) (by simp))
    have rdx : (regOperand .rdx size).Within P := within_regOperand _ (fixed (.gpr .rdx) (by simp))
    have ah : (Operand.reg (.h .rax)).Within P :=
      within_reg fun r found => by cases found; exact fixed (.gpr .rax) (by simp)
    intro chosen found
    unfold mulOperands at found
    split at found
    · rename_i shape
      cases found
      exact ⟨operands _ (by simp [shape]), by simp⟩
    · rename_i shape
      cases found
      exact ⟨operands _ (by simp [shape]), by simp⟩
    · cases found
      refine ⟨rax, within_some ?_⟩
      split
      · exact ah
      · exact rdx
    · cases found
  · rintro ⟨multiplier, multiplicand, destLo, destHi⟩ ⟨low, high⟩
    refine bind emitFetch fun _ _ => ?_
    refine bind emitFetch fun _ _ => ?_
    refine bind emitVarDecl fun _ _ => ?_
    refine bind emitVarDecl fun _ _ => ?_
    refine bind (emitStore low) fun _ _ => ?_
    refine bind emitVarDecl fun _ _ => ?_
    refine bind (Q := fun _ => True) ?_ fun _ _ => emitSetFlag (fixed .efl (by simp))
    cases destHi with
    | none => exact pure trivial
    | some dest => exact emitStore (high dest rfl)

theorem emitDiv : Records P (Tase.emitDiv i) fun _ => True := by
  refine bind (lift fun _ _ => trivial) fun _ _ => ?_
  refine bind needSize fun size _ => ?_
  have rax : (regOperand .rax size).Within P := within_regOperand _ (fixed (.gpr .rax) (by simp))
  have high : (divHigh size).Within P := by
    unfold divHigh
    split
    · exact within_reg fun r found => by cases found; exact fixed (.gpr .rax) (by simp)
    · exact within_regOperand _ (fixed (.gpr .rdx) (by simp))
  refine bind (operand operands) fun _ _ => ?_
  refine bind emitFetch fun _ _ => ?_
  refine bind emitFetch fun _ _ => ?_
  refine bind emitVarDecl fun _ _ => ?_
  refine bind emitFetch fun _ _ => ?_
  refine bind emitVarDecl fun _ _ => ?_
  refine bind emitVarDecl fun _ _ => ?_
  exact bind (emitStore rax) fun _ _ => emitStore high

theorem emitShift : Records P (Tase.emitShift i) fun _ => True := by
  refine bind (Q := fun chosen => chosen.1.Within P) (lift ?_) ?_
  · intro chosen found
    unfold shiftOperands at found
    split at found
    · split at found
      · rename_i shape
        cases found
        exact operands _ (by simp [shape])
      · cases found
    · split at found
      · rename_i last
        cases found
        exact operands _ (List.mem_of_getLast? last)
      · cases found
  · rintro ⟨dest, src⟩ target
    refine bind (operand operands) fun _ _ => ?_
    refine bind needSize fun _ _ => ?_
    refine bind needSize fun _ _ => ?_
    refine bind emitFetch fun _ _ => ?_
    refine bind emitVarDecl fun _ _ => ?_
    refine bind emitFetch fun _ _ => ?_
    refine bind emitVarDecl fun _ _ => ?_
    refine bind (when fun _ => ?_) fun _ _ => ?_
    · refine bind (operandOr operands ?_) fun _ _ => ?_
      · intro o same
        split at same
        · cases same
        · cases same
          exact target
      refine bind emitFetch fun _ _ => ?_
      refine bind (when fun _ => ?_) fun _ _ => write rfl
      exact bind makeVar fun _ _ => bind emitGetFlag fun _ _ => write rfl
    refine bind (emitStore target) fun _ _ => ?_
    refine when fun _ => elseBlock ?_
    refine bind emitVarDecl fun _ _ => ?_
    refine bind emitZps fun _ _ => ?_
    refine bind (write rfl) fun _ _ => ?_
    exact bind (write rfl) fun _ _ => emitSetFlag (fixed .efl (by simp))

omit operands

theorem emitFlag {clear : Bool} : Records P (Tase.emitFlag i clear) fun _ => True :=
  bind (lift fun _ _ => trivial) fun _ _ => emitSetFlag (fixed .efl (by simp))

theorem emitCmc : Records P Tase.emitCmc fun _ => True :=
  bind emitVarDecl fun _ _ => bind emitGetFlag fun _ _ => emitSetFlag (fixed .efl (by simp))

end

end Emit.Records

def Instruction.transfersControl (i : Instruction) : Bool :=
  !i.nothingToDo &&
    (i.op = .call || i.op = .ret || i.op = .loop || i.op = .j ||
      i.operands.any fun o => o.target = some .rip)

namespace Emit.Records

open Operand

variable {P : Reg → Prop} {i : Instruction}

theorem emitOp (fixed : ∀ r, r ≠ .rip → P r) (operands : ∀ o ∈ i.operands, o.Within P)
    (rip : i.op = .call ∨ i.op = .ret ∨ i.op = .loop ∨ i.op = .j → P .rip) :
    Records P (Tase.emitOp i) fun _ => True := by
  have efl : P .efl := fixed .efl (by simp)
  unfold Tase.emitOp
  cases found : i.op with
  | nop => exact pure trivial
  | other name => exact raise
  | xchg => exact emitXchg operands
  | lea => exact emitLea operands (by simp) (by simp)
  | mov => exact emitMov operands (by simp) (by simp)
  | push => exact emitPush fixed operands (by simp)
  | pop => exact emitPop fixed operands (by simp)
  | pushf => exact emitPush fixed operands (within_some (within_mem _))
  | popf => exact emitPop fixed operands (within_some (within_mem _))
  | enter => exact emitEnter fixed operands
  | leave => exact emitLeave fixed operands
  | add | sub | adc | sbb | cmp => exact emitAdd operands efl (by simp) (by simp)
  | neg => exact emitAdd operands efl (within_some fun _ found => by cases found) (by simp)
  | inc | dec =>
      refine bind (operand operands) fun o allowed => ?_
      exact emitAdd operands efl (within_some allowed) (within_some fun _ found => by cases found)
  | and | or | xor | test => exact emitLogical operands efl
  | rc | ro | sa | sh | shd => exact emitShift fixed operands
  | cl | st => exact emitFlag fixed
  | xadd => exact emitXadd fixed operands
  | cmov => exact emitCmov operands
  | ctd => exact emitCtd operands
  | mul => exact emitMul fixed operands
  | div => exact emitDiv fixed operands
  | not => exact emitNot operands
  | call => exact emitCall fixed operands (rip (by simp [found]))
  | ret => exact emitRet fixed operands (rip (by simp [found]))
  | loop => exact emitLoop fixed operands (rip (by simp [found]))
  | j => exact emitJump operands (rip (by simp [found]))
  | set => exact emitSet operands
  | bt => exact emitBittest operands efl
  | bswap => exact emitBswap operands
  | cmc => exact emitCmc fixed

theorem stepRip {e : Exp} (rip : P .rip) :
    Records P (Emit.write (.setReg .rip e)) fun _ => True := by
  -- The step of `rip_tmp` needs no record of its own.
  intro s a out s' emitted
  simp only [Emit.write, Except.ok.injEq, Prod.mk.injEq] at emitted
  obtain ⟨_, rfl, rfl⟩ := emitted
  refine ⟨fun _ here => here, ?_, trivial⟩
  simpa [assigned, Stmt.assigned, rip] using s.ripRecorded

theorem emitBody : Records (fun _ => True) (Tase.emitBody i) fun _ => True :=
  bind (stepRip trivial) fun _ _ => when fun _ =>
    emitOp (fun _ _ => trivial) (fun _ _ _ _ => trivial) fun _ => trivial

theorem emitOp_straight (straight : i.transfersControl = false) (handled : i.nothingToDo = false) :
    Records (fun r => r ≠ .rip) (Tase.emitOp i) fun _ => True := by
  -- Straight-line code leaves `rip_tmp` where the step put it.
  simp only [Instruction.transfersControl, handled, Bool.not_false, Bool.true_and,
    Bool.or_eq_false_iff, decide_eq_false_iff_not, List.any_eq_false, decide_eq_true_eq] at straight
  refine emitOp (fun r different => different) ?_ (by simp [straight])
  intro o found r same different
  exact straight.2 o found (by rw [same, different])

end Emit.Records


end Tase
