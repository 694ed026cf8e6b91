import Tase.Translator.Denotation

/-! What the assertions of the emitters guarantee about an instruction that is emitted
without an exception: every operand that it writes can be written at its width. -/

namespace Tase

open Cpp

def Operand.Storable (o : Operand) (size : Size) : Prop :=
  match o with
  | .imm _ | .addr _ _ => False
  | .reg r => size = Tase.regSize r ∧ (baseReg r).isSome
  | .mem m => ∃ e, m.addr = .ok e

def Operand.Fetchable (o : Operand) (size : Size) : Prop := ∃ e, o.fetchExp size = .ok e

theorem Operand.Storable.fetchable {o : Operand} {size : Size} (storable : o.Storable size) :
    o.Fetchable size := by
  cases o with
  | imm n | addr n symbol => exact storable.elim
  | mem target =>
      obtain ⟨e, found⟩ := storable
      simp only [Fetchable, fetchExp, found]
      exact ⟨_, rfl⟩
  | reg r =>
      obtain ⟨rfl, known⟩ := storable
      simp only [Fetchable, fetchExp, check, decide_true, if_true]
      cases r with
      | other name => cases known
      | _ => exact ⟨_, rfl⟩

theorem Operand.Fetchable.width {r : RegName} {size : Size} (fetched : (Operand.reg r).Fetchable size) :
    size = Tase.regSize r := by
  obtain ⟨e, found⟩ := fetched
  by_contra other
  simp [fetchExp, check, other] at found
  cases found

theorem rspStorable : rspOperand.Storable .q := ⟨rfl, rfl⟩

theorem rbpStorable : rbpOperand.Storable .q := ⟨rfl, rfl⟩

theorem ripStorable : ripOperand.Storable .q := ⟨rfl, rfl⟩

theorem rspMemStorable (size : Size) : (rspMem 0).Storable size := ⟨_, rfl⟩

theorem regOperandStorable (g : Gpr) (size : Size) : (regOperand g size).Storable size := by
  cases size <;> exact ⟨rfl, rfl⟩

theorem divHighStorable (size : Size) : (divHigh size).Storable size := by
  cases size <;> exact ⟨rfl, rfl⟩

/-- The operands that the instruction writes, with the widths it writes them at. -/
def Instruction.stores (i : Instruction) : List (Operand × Size) :=
  match i.op with
  | .xchg | .xadd => [(i.arg 0, i.bits1), (i.arg 1, i.bits1)]
  | .lea | .add | .sub | .adc | .sbb | .and | .or | .xor => [(i.arg 1, i.bits1)]
  | .mov | .cmov => [(i.arg 1, i.bits2)]
  | .ctd => [(i.arg 1, i.size2.getD .q)]
  | .push | .pushf => [(rspOperand, .q), (rspMem 0, i.bits1)]
  | .pop => [(i.arg 0, i.bits1), (rspOperand, .q)]
  | .popf => [(eflTextOperand, i.bits1), (rspOperand, .q)]
  | .enter => [(rspOperand, .q), (rspMem 0, .q), (rbpOperand, .q)]
  | .leave => [(rspOperand, .q), (rbpOperand, .q)]
  | .neg | .inc | .dec | .not => [(i.arg 0, i.bits1)]
  | .mul =>
      match mulOperands i i.bits1 with
      | .ok (_, _, destLo, none) => [(destLo, i.bits1)]
      | .ok (_, _, destLo, some destHi) => [(destLo, i.bits1), (destHi, i.bits1)]
      | .error _ => []
  | .div => [(regOperand .rax i.bits1, i.bits1), (divHigh i.bits1, i.bits1)]
  | .rc | .ro | .sa | .sh | .shd =>
      match shiftOperands i with
      | .ok (dest, _) => [(dest, i.size2.getD .q)]
      | .error _ => []
  | .call => [(rspOperand, .q), (rspMem 0, .q), (ripOperand, .q)]
  | .ret => [(ripOperand, .q), (rspOperand, .q)]
  | .j => [(ripOperand, i.bits2)]
  | .loop => [(regOperand .rcx (i.size1.getD .q), i.size1.getD .q), (ripOperand, i.bits2)]
  | .set => [(i.arg 0, .b)]
  | .bt => if i.testBit.isSome then [(i.arg 1, i.bits1)] else []
  | .bswap => [(i.arg 0, (i.arg 0).regSize)]
  | .nop | .cmp | .test | .cl | .st | .cmc | .other _ => []

def Instruction.fetches (i : Instruction) : List (Operand × Size) :=
  match i.op with
  | .add | .sub | .adc | .sbb | .cmp | .and | .or | .xor | .test =>
      [(i.arg 0, i.bits1), (i.arg 1, i.bits1)]
  | .neg | .inc | .dec | .div => [(i.arg 0, i.bits1)]
  | .mul =>
      match mulOperands i i.bits1 with
      | .ok (multiplier, multiplicand, _, _) => [(multiplier, i.bits1), (multiplicand, i.bits1)]
      | .error _ => []
  | .rc | .ro | .sa | .sh | .shd =>
      match shiftOperands i with
      | .ok (_, src) => [(i.arg 0, i.bits1), (src, i.size2.getD .q)]
      | .error _ => []
  | .call => [(i.arg 0, .q)]
  | _ => []

namespace Emit

def Ensures {α : Type} (m : Emit α) (Q : α → Prop) : Prop :=
  ∀ s a out s', m s = .ok (a, out, s') → Q a

namespace Ensures

variable {α β : Type} {Q : α → Prop} {i : Instruction}

theorem any {m : Emit α} : Ensures m fun _ => True := fun _ _ _ _ _ => trivial

theorem bind {R : β → Prop} {m : Emit α} {f : α → Emit β} (first : Ensures m Q)
    (rest : ∀ a, Q a → Ensures (f a) R) : Ensures (m >>= f) R := by
  intro s b out s' emitted
  obtain ⟨a, code, middle, code', found, found', rfl⟩ := bind_ok emitted
  exact rest a (first s a code middle found) middle b code' s' found'

theorem pure {a : α} (post : Q a) : Ensures (Pure.pure a : Emit α) Q := by
  intro s a' out s' emitted
  change Except.ok (a, [], s) = _ at emitted
  simp only [Except.ok.injEq, Prod.mk.injEq] at emitted
  obtain ⟨rfl, _⟩ := emitted
  exact post

theorem lift {x : Except Error α} : Ensures (Emit.lift x) fun a => x = .ok a :=
  fun _ _ _ _ emitted => (lift_ok emitted).1

theorem raise {e : Error} : Ensures (Emit.raise e : Emit α) Q := by
  intro s a out s' emitted
  exact absurd (lift_ok emitted).1 (by simp)

theorem mono {R : α → Prop} {m : Emit α} (ensures : Ensures m Q) (weaker : ∀ a, Q a → R a) :
    Ensures m R :=
  fun s a out s' emitted => weaker a (ensures s a out s' emitted)

theorem operand {k : Nat} : Ensures (i.operand k) fun o => o = i.arg k := by
  refine lift.mono fun o found => ?_
  unfold Instruction.arg
  split at found
  · rename_i present
    cases found
    simp [present]
  · simp at found

theorem operandOr {o : Option Operand} {k : Nat} :
    Ensures (i.operandOr o k) fun o' => o' = o.getD (i.arg k) := by
  cases o with
  | none => exact operand
  | some o => exact pure rfl

theorem needSize {size : Option Size} :
    Ensures (Instruction.needSize size) fun found => found = size.getD .q := by
  refine lift.mono fun found present => ?_
  cases size with
  | none => simp at present
  | some size =>
      cases present
      rfl

theorem checked {condition : Bool} {message : String} :
    Ensures (Emit.lift (check condition message)) fun _ => condition = true := by
  refine lift.mono fun _ passed => ?_
  cases condition with
  | true => rfl
  | false => simp [check] at passed

theorem emitStore {o : Operand} {e : Exp} {size : Size} :
    Ensures (o.emitStore e size) fun _ => o.Storable size := by
  cases o with
  | imm n | addr n symbol => exact raise
  | mem m => exact bind lift fun addr found => any.mono fun _ _ => ⟨addr, found⟩
  | reg r =>
      refine bind checked fun _ matched => ?_
      refine bind (Q := fun whole => baseReg r = some whole) ?_ fun whole found => ?_
      · intro s whole out s' emitted
        unfold regExpL at emitted
        cases base : baseReg r with
        | none => simp [base, Emit.raise, Emit.lift] at emitted
        | some g =>
            simp only [base] at emitted
            obtain ⟨_, _, _, _, _, returned, _⟩ := bind_ok emitted
            change Except.ok (g, [], _) = _ at returned
            simp only [Except.ok.injEq, Prod.mk.injEq] at returned
            rw [returned.1]
      · exact any.mono fun _ _ => ⟨by simpa using matched, by simp [found]⟩

theorem emitFetch {o : Operand} {stem : String} {size : Size} {signed : Bool} :
    Ensures (o.emitFetch stem size signed) fun _ => o.Fetchable size :=
  bind lift fun e found => any.mono fun _ _ => ⟨e, found⟩

end Ensures

end Emit

namespace Emit.Ensures

variable {i : Instruction}

theorem emitMov {src dest : Option Operand} {size : Option Size} :
    Ensures (Tase.emitMov i src dest size) fun _ =>
      (dest.getD (i.arg 1)).Storable ((size <|> i.size2 <|> i.size1).getD .q) := by
  refine bind any fun _ _ => ?_
  refine bind operandOr fun target toTarget => ?_
  refine bind needSize fun size2 width => ?_
  refine bind any fun _ _ => bind any fun _ _ => bind any fun _ _ => ?_
  rw [toTarget, width]
  exact emitStore

theorem emitLea {src dest : Option Operand} {size : Option Size} :
    Ensures (Tase.emitLea i src dest size) fun _ =>
      (dest.getD (i.arg 1)).Storable ((size <|> i.size1).getD .q) := by
  refine bind any fun _ _ => ?_
  refine bind operandOr fun target toTarget => ?_
  refine bind needSize fun size2 width => ?_
  refine bind any fun _ _ => bind any fun _ _ => ?_
  rw [toTarget, width]
  exact emitStore

theorem leaSource : Ensures (Tase.emitLea i none none none) fun _ =>
    ∃ mem, i.arg 0 = .mem mem ∧ ∃ e, mem.addr = .ok e := by
  refine bind operand fun src isSrc => bind any fun _ _ => bind any fun _ _ => ?_
  rw [← isSrc]
  refine bind lift fun mem found => bind lift fun e computed => any.mono fun _ _ => ?_
  cases src with
  | mem target =>
      cases found
      exact ⟨mem, rfl, e, computed⟩
  | reg _ | imm _ | addr _ _ => simp at found

theorem emitPop {dest : Option Operand} {size : Option Size} :
    Ensures (Tase.emitPop i dest size) fun _ =>
      (dest.getD (i.arg 0)).Storable ((size <|> i.size1).getD .q) := by
  refine bind operandOr fun target toTarget => ?_
  refine bind needSize fun size width => ?_
  refine bind emitMov fun _ stored => any.mono fun _ _ => ?_
  rw [← toTarget, ← width]
  exact stored

theorem emitUnderCond {body : Emit Unit} {P : Prop} (ensures : Ensures body fun _ => P) :
    Ensures (do let failure ← emitReturnForCond i; emitElse failure body) fun _ => P := by
  refine bind any fun failure _ => ?_
  cases failure with
  | none => exact ensures
  | some failure =>
      intro s a out s' emitted
      simp only [emitElse, Emit.elseBlock] at emitted
      split at emitted
      · simp at emitted
      · rename_i inner code last found
        exact ensures s inner code last found

theorem emitAdd {left right : Option Operand} {mode : AddMode} :
    Ensures (Tase.emitAdd i left right mode) fun _ =>
      (mode.targetL = some true → (left.getD (i.arg 1)).Storable i.bits1) ∧
      (mode.targetL = some false → (right.getD (i.arg 0)).Storable i.bits1) := by
  refine bind operandOr fun argR isR => ?_
  refine bind operandOr fun argL isL => ?_
  refine bind needSize fun size width => ?_
  refine bind any fun _ _ => bind any fun _ _ => bind any fun _ _ => bind any fun _ _ => ?_
  refine bind any fun _ _ => ?_
  rw [isR, isL, width]
  refine bind (Q := fun _ => (mode.targetL = some true → (left.getD (i.arg 1)).Storable i.bits1) ∧
    (mode.targetL = some false → (right.getD (i.arg 0)).Storable i.bits1)) ?_ fun _ stored =>
      any.mono fun _ _ => stored
  unfold emitAddTarget
  split
  · rename_i toLeft
    exact emitStore.mono fun _ stored => ⟨fun _ => stored, by simp [toLeft]⟩
  · rename_i toRight
    exact emitStore.mono fun _ stored => ⟨by simp [toRight], fun _ => stored⟩
  · rename_i nowhere
    exact pure (by simp [nowhere])

theorem emitXchg :
    Ensures (Tase.emitXchg i) fun _ =>
      (i.arg 0).Storable i.bits1 ∧ (i.arg 1).Storable i.bits1 := by
  refine bind operand fun src isSrc => ?_
  refine bind operand fun dest isDest => ?_
  refine bind needSize fun size width => ?_
  refine bind any fun _ _ => bind any fun _ _ => ?_
  rw [isSrc, isDest, width]
  exact bind emitStore fun _ first => emitStore.mono fun _ second => ⟨first, second⟩

theorem emitMul :
    Ensures (Tase.emitMul i) fun _ =>
      ∃ multiplier multiplicand destLo destHi,
        mulOperands i i.bits1 = .ok (multiplier, multiplicand, destLo, destHi) ∧
        destLo.Storable i.bits1 ∧ ∀ dest, destHi = some dest → dest.Storable i.bits1 := by
  refine bind needSize fun size width => ?_
  refine bind lift fun operands found => ?_
  obtain ⟨multiplier, multiplicand, destLo, destHi⟩ := operands
  rw [width] at found ⊢
  refine bind any fun _ _ => bind any fun _ _ => bind any fun _ _ => bind any fun _ _ => ?_
  refine bind emitStore fun _ low => bind any fun _ _ => ?_
  refine bind (Q := fun _ => ∀ dest, destHi = some dest → dest.Storable i.bits1) ?_ fun _ high =>
    any.mono fun _ _ => ⟨multiplier, multiplicand, destLo, destHi, found, low, high⟩
  cases destHi with
  | none => exact pure (by simp)
  | some dest =>
      refine emitStore.mono fun _ stored dest' same => ?_
      cases same
      exact stored

theorem emitShift :
    Ensures (Tase.emitShift i) fun _ =>
      ∃ dest src, shiftOperands i = .ok (dest, src) ∧ dest.Storable (i.size2.getD .q) := by
  refine bind lift fun operands found => ?_
  obtain ⟨dest, src⟩ := operands
  refine bind any fun _ _ => bind any fun _ _ => ?_
  refine bind needSize fun size width => ?_
  rw [width]
  refine bind any fun _ _ => bind any fun _ _ => bind any fun _ _ => bind any fun _ _ => ?_
  refine bind any fun _ _ => ?_
  exact bind emitStore fun _ stored => any.mono fun _ _ => ⟨dest, src, found, stored⟩

theorem emitBittest (modifies : i.testBit.isSome = true) :
    Ensures (Tase.emitBittest i) fun _ => (i.arg 1).Storable i.bits1 := by
  refine bind any fun _ _ => ?_
  refine bind operand fun dest isDest => ?_
  refine bind needSize fun size width => ?_
  rw [isDest, width]
  refine bind any fun _ _ => bind any fun _ _ => bind any fun _ _ => bind any fun _ _ => ?_
  refine bind any fun _ _ => bind any fun _ _ => ?_
  unfold emitBittestModify
  obtain ⟨bit, found⟩ := Option.isSome_iff_exists.mp modifies
  rw [found]
  exact bind any fun _ _ => emitStore

theorem emitLogical {op : ArithOp} :
    Ensures (Tase.emitLogical i op true) fun _ => (i.arg 1).Storable i.bits1 := by
  refine bind any fun _ _ => ?_
  refine bind operand fun dest isDest => ?_
  refine bind needSize fun size width => ?_
  rw [isDest, width]
  refine bind any fun _ _ => bind any fun _ _ => bind any fun _ _ => ?_
  refine bind ?_ fun _ (stored : (i.arg 1).Storable i.bits1) => any.mono fun _ _ => stored
  exact emitStore

theorem single {o : Operand} {size : Size} (stored : o.Storable size) :
    ∀ p ∈ [(o, size)], p.1.Storable p.2 :=
  List.forall_mem_singleton.mpr stored

theorem pair {o o' : Operand} {size size' : Size} (first : o.Storable size)
    (second : o'.Storable size') : ∀ p ∈ [(o, size), (o', size')], p.1.Storable p.2 :=
  List.forall_mem_cons.mpr ⟨first, single second⟩

theorem emitOp : Ensures (Tase.emitOp i) fun _ => ∀ p ∈ i.stores, p.1.Storable p.2 := by
  unfold Tase.emitOp Instruction.stores
  cases found : i.op with
  | nop | cmp | test | cl | st | cmc => exact any.mono fun _ _ => List.forall_mem_nil _
  | other name => exact raise
  | xchg => exact emitXchg.mono fun _ stored => pair stored.1 stored.2
  | xadd => exact bind emitXchg fun _ stored => any.mono fun _ _ => pair stored.1 stored.2
  | lea => exact emitLea.mono fun _ stored => single stored
  | mov => exact emitMov.mono fun _ stored => single stored
  | push | pushf => exact any.mono fun _ _ => pair rspStorable (rspMemStorable _)
  | pop => exact emitPop.mono fun _ stored => pair stored rspStorable
  | popf => exact any.mono fun _ _ => pair ⟨_, rfl⟩ rspStorable
  | enter =>
      exact any.mono fun _ _ =>
        List.forall_mem_cons.mpr ⟨rspStorable, pair (rspMemStorable _) rbpStorable⟩
  | leave => exact any.mono fun _ _ => pair rspStorable rbpStorable
  | add | sub | adc | sbb => exact emitAdd.mono fun _ stored => single (stored.1 rfl)
  | neg => exact emitAdd.mono fun _ stored => single (stored.2 rfl)
  | inc | dec =>
      refine bind operand fun o same => emitAdd.mono fun _ stored => ?_
      rw [same] at stored
      exact single (stored.1 rfl)
  | mul =>
      refine emitMul.mono fun _ stored => ?_
      obtain ⟨multiplier, multiplicand, destLo, destHi, shape, low, high⟩ := stored
      rw [shape]
      cases destHi with
      | none => exact single low
      | some dest => exact pair low (high dest rfl)
  | div =>
      exact any.mono fun _ _ => pair (regOperandStorable .rax _) (divHighStorable _)
  | and | or | xor => exact emitLogical.mono fun _ stored => single stored
  | not =>
      refine bind operand fun dest isDest => bind needSize fun size width => bind any fun _ _ => ?_
      rw [isDest, width]
      exact emitStore.mono fun _ stored => single stored
  | rc | ro | sa | sh | shd =>
      refine emitShift.mono fun _ stored => ?_
      obtain ⟨dest, src, shape, stored⟩ := stored
      rw [shape]
      exact single stored
  | call =>
      exact any.mono fun _ _ =>
        List.forall_mem_cons.mpr ⟨rspStorable, pair (rspMemStorable _) ripStorable⟩
  | ret => exact any.mono fun _ _ => pair ripStorable rspStorable
  | loop =>
      refine bind any fun _ _ => bind any fun _ _ => bind any fun _ _ => bind any fun _ _ => ?_
      refine bind any fun _ _ => bind any fun _ _ => ?_
      exact (emitUnderCond emitMov).mono fun _ stored => pair (regOperandStorable .rcx _) stored
  | j => exact (emitUnderCond emitMov).mono fun _ stored => single stored
  | set =>
      refine bind operand fun dest isDest => bind emitStore fun _ stored => any.mono fun _ _ => ?_
      rw [isDest] at stored
      exact single stored
  | bt =>
      cases modifies : i.testBit.isSome with
      | true => exact (emitBittest modifies).mono fun _ stored => single stored
      | false => exact any.mono fun _ _ => List.forall_mem_nil _
  | cmov =>
      exact bind any fun _ _ => bind emitMov fun _ stored => any.mono fun _ _ => single stored
  | ctd =>
      refine bind any fun _ _ => bind operand fun dest isDest => bind any fun _ _ => ?_
      refine bind needSize fun size width => bind any fun _ _ => bind any fun _ _ => ?_
      rw [isDest, width]
      exact emitStore.mono fun _ stored => single stored
  | bswap =>
      refine bind operand fun reg isReg => bind any fun _ _ => bind any fun _ _ => ?_
      refine bind any fun _ _ => ?_
      rw [isReg]
      exact emitStore.mono fun _ stored => single stored

theorem fetchOne {o : Operand} {size : Size} (fetched : o.Fetchable size) :
    ∀ p ∈ [(o, size)], p.1.Fetchable p.2 :=
  List.forall_mem_singleton.mpr fetched

theorem fetchTwo {o o' : Operand} {size size' : Size} (first : o.Fetchable size)
    (second : o'.Fetchable size') : ∀ p ∈ [(o, size), (o', size')], p.1.Fetchable p.2 :=
  List.forall_mem_cons.mpr ⟨first, fetchOne second⟩

theorem addFetches {left right : Option Operand} {mode : AddMode} :
    Ensures (Tase.emitAdd i left right mode) fun _ =>
      (right.getD (i.arg 0)).Fetchable i.bits1 ∧ (left.getD (i.arg 1)).Fetchable i.bits1 := by
  refine bind operandOr fun argR isR => ?_
  refine bind operandOr fun argL isL => ?_
  refine bind needSize fun size width => ?_
  rw [isR, isL, width]
  exact bind emitFetch fun _ second => bind emitFetch fun _ first => any.mono fun _ _ =>
    ⟨first, second⟩

theorem logicalFetches {op : ArithOp} {writeTarget : Bool} :
    Ensures (Tase.emitLogical i op writeTarget) fun _ =>
      (i.arg 0).Fetchable i.bits1 ∧ (i.arg 1).Fetchable i.bits1 := by
  refine bind operand fun src isSrc => ?_
  refine bind operand fun dest isDest => ?_
  refine bind needSize fun size width => ?_
  rw [isSrc, isDest, width]
  exact bind emitFetch fun _ first => bind emitFetch fun _ second => any.mono fun _ _ =>
    ⟨first, second⟩

theorem mulFetches :
    Ensures (Tase.emitMul i) fun _ =>
      ∃ multiplier multiplicand destLo destHi,
        mulOperands i i.bits1 = .ok (multiplier, multiplicand, destLo, destHi) ∧
        multiplier.Fetchable i.bits1 ∧ multiplicand.Fetchable i.bits1 := by
  refine bind needSize fun size width => ?_
  refine bind lift fun operands found => ?_
  obtain ⟨multiplier, multiplicand, destLo, destHi⟩ := operands
  rw [width] at found ⊢
  exact bind emitFetch fun _ second => bind emitFetch fun _ first => any.mono fun _ _ =>
    ⟨multiplier, multiplicand, destLo, destHi, found, first, second⟩

theorem shiftFetches :
    Ensures (Tase.emitShift i) fun _ =>
      ∃ dest src, shiftOperands i = .ok (dest, src) ∧ (i.arg 0).Fetchable i.bits1 ∧
        src.Fetchable (i.size2.getD .q) := by
  refine bind lift fun operands found => ?_
  obtain ⟨dest, src⟩ := operands
  refine bind operand fun amount isAmount => ?_
  refine bind needSize fun size1 width1 => bind needSize fun size2 width2 => ?_
  rw [isAmount, width1, width2]
  exact bind emitFetch fun _ amount => bind any fun _ _ => bind emitFetch fun _ fetched =>
    any.mono fun _ _ => ⟨dest, src, found, amount, fetched⟩

theorem doubleFetches (double : i.op = .shd) :
    Ensures (Tase.emitShift i) fun _ => (i.arg 1).Fetchable (i.size2.getD .q) := by
  refine bind lift fun operands found => ?_
  refine bind any fun _ _ => bind any fun _ _ => bind needSize fun size width => ?_
  rw [width]
  refine bind any fun _ _ => bind any fun _ _ => bind any fun _ _ => bind any fun _ _ => ?_
  refine bind ?_ fun _ fetched => any.mono fun _ _ => fetched
  unfold Tase.emitShiftFill
  simp only [double, decide_true, Bool.or_true, Emit.when, if_true]
  refine bind operandOr fun origin same => ?_
  rw [same]
  exact bind emitFetch fun _ fetched => any.mono fun _ _ => fetched

theorem movFetches {src dest : Option Operand} {size : Option Size} :
    Ensures (Tase.emitMov i src dest size) fun _ =>
      (src.getD (i.arg 0)).Fetchable ((size <|> i.size1).getD .q) := by
  refine bind operandOr fun source toSource => bind any fun _ _ => bind any fun _ _ => ?_
  refine bind needSize fun size1 width => ?_
  rw [toSource, width]
  exact bind emitFetch fun _ fetched => any.mono fun _ _ => fetched

theorem cmovFetches :
    Ensures (Tase.emitCmov i) fun _ => (i.arg 1).Fetchable i.bits1 ∧ (i.arg 0).Fetchable i.bits1 := by
  refine bind operand fun dest isDest => bind movFetches fun _ old => ?_
  rw [Option.getD_some, isDest] at old
  exact emitUnderCond (movFetches.mono fun _ new => ⟨old, new⟩)

theorem bittestFetches :
    Ensures (Tase.emitBittest i) fun _ => (i.arg 0).Fetchable i.bits1 ∧ (i.arg 1).Fetchable i.bits1 := by
  refine bind operand fun src isSrc => ?_
  refine bind operand fun dest isDest => ?_
  refine bind needSize fun size width => ?_
  rw [isSrc, isDest, width]
  refine bind any fun _ _ => bind emitFetch fun _ offset => bind any fun _ _ => ?_
  exact bind emitFetch fun _ tested => any.mono fun _ _ => ⟨offset, tested⟩

theorem pushFetches : Ensures (Tase.emitPush i none none) fun _ => (i.arg 0).Fetchable i.bits1 := by
  refine bind operandOr fun source toSource => bind needSize fun size width => bind any fun _ _ => ?_
  refine movFetches.mono fun _ fetched => ?_
  rw [toSource, width] at fetched
  exact fetched

theorem opFetches : Ensures (Tase.emitOp i) fun _ => ∀ p ∈ i.fetches, p.1.Fetchable p.2 := by
  unfold Tase.emitOp Instruction.fetches
  cases i.op with
  | add | sub | adc | sbb | cmp => exact addFetches.mono fun _ fetched => fetchTwo fetched.1 fetched.2
  | neg => exact addFetches.mono fun _ fetched => fetchOne fetched.1
  | inc | dec =>
      refine bind operand fun o same => addFetches.mono fun _ fetched => fetchOne ?_
      rw [← same]
      exact fetched.2
  | and | or | xor | test =>
      exact logicalFetches.mono fun _ fetched => fetchTwo fetched.1 fetched.2
  | div =>
      refine bind any fun _ _ => bind needSize fun size width => bind operand fun o same => ?_
      rw [same, width]
      exact bind any fun _ _ => bind any fun _ _ => bind any fun _ _ => bind emitFetch fun _ fetched =>
        any.mono fun _ _ => fetchOne fetched
  | mul =>
      refine mulFetches.mono fun _ fetched => ?_
      obtain ⟨multiplier, multiplicand, destLo, destHi, shape, first, second⟩ := fetched
      rw [shape]
      exact fetchTwo first second
  | rc | ro | sa | sh | shd =>
      refine shiftFetches.mono fun _ fetched => ?_
      obtain ⟨dest, src, shape, first, second⟩ := fetched
      rw [shape]
      exact fetchTwo first second
  | call =>
      refine bind any fun _ _ => bind operand fun o same => bind emitFetch fun _ fetched => ?_
      rw [same] at fetched
      exact any.mono fun _ _ => fetchOne fetched
  | _ => exact any.mono fun _ _ => List.forall_mem_nil _

end Emit.Ensures

section

variable {i : Instruction} {s s' : EmitState} {out : List Code}
  (emitted : emitBody i s = .ok ((), out, s')) (handled : i.nothingToDo = false)

include emitted handled

theorem emitBody_op : ∃ middle code, emitOp i middle = .ok ((), code, s') := by
  obtain ⟨_, _, middle, code, _, rest, _⟩ := Emit.bind_ok emitted
  rw [handled] at rest
  exact ⟨middle, code, rest⟩

theorem emitBody_fetches : ∀ p ∈ i.fetches, p.1.Fetchable p.2 := by
  obtain ⟨middle, code, rest⟩ := emitBody_op emitted handled
  exact Emit.Ensures.opFetches middle () code s' rest

theorem emitBody_stores : ∀ p ∈ i.stores, p.1.Storable p.2 := by
  obtain ⟨middle, code, rest⟩ := emitBody_op emitted handled
  exact Emit.Ensures.emitOp middle () code s' rest

theorem emitBody_lea (lea : i.op = .lea) : ∃ mem, i.arg 0 = .mem mem ∧ ∃ e, mem.addr = .ok e := by
  obtain ⟨middle, code, rest⟩ := emitBody_op emitted handled
  simp only [emitOp, lea] at rest
  exact Emit.Ensures.leaSource middle () code s' rest

theorem emitBody_mul (mul : i.op = .mul) :
    ∃ multiplier multiplicand destLo destHi,
      mulOperands i i.bits1 = .ok (multiplier, multiplicand, destLo, destHi) ∧
      destLo.Storable i.bits1 := by
  obtain ⟨middle, code, rest⟩ := emitBody_op emitted handled
  simp only [emitOp, mul] at rest
  obtain ⟨multiplier, multiplicand, destLo, destHi, found, low, _⟩ :=
    Emit.Ensures.emitMul middle () code s' rest
  exact ⟨multiplier, multiplicand, destLo, destHi, found, low⟩

theorem emitBody_shift (shift : i.op ∈ [.rc, .ro, .sa, .sh, .shd]) :
    ∃ dest src, shiftOperands i = .ok (dest, src) ∧ dest.Storable (i.size2.getD .q) := by
  obtain ⟨middle, code, rest⟩ := emitBody_op emitted handled
  refine Emit.Ensures.emitShift middle () code s' ?_
  simp only [List.mem_cons, List.not_mem_nil, or_false] at shift
  rcases shift with op | op | op | op | op <;> simpa only [emitOp, op] using rest

theorem emitBody_double (double : i.op = .shd) : (i.arg 1).Fetchable (i.size2.getD .q) := by
  obtain ⟨middle, code, rest⟩ := emitBody_op emitted handled
  refine Emit.Ensures.doubleFetches double middle () code s' ?_
  simpa only [emitOp, double] using rest

theorem emitBody_cmov (cmov : i.op = .cmov) :
    (i.arg 1).Fetchable i.bits1 ∧ (i.arg 0).Fetchable i.bits1 := by
  obtain ⟨middle, code, rest⟩ := emitBody_op emitted handled
  refine Emit.Ensures.cmovFetches middle () code s' ?_
  simpa only [emitOp, cmov] using rest

theorem emitBody_bittest (bt : i.op = .bt) :
    (i.arg 0).Fetchable i.bits1 ∧ (i.arg 1).Fetchable i.bits1 := by
  obtain ⟨middle, code, rest⟩ := emitBody_op emitted handled
  refine Emit.Ensures.bittestFetches middle () code s' ?_
  simpa only [emitOp, bt] using rest

theorem emitBody_push (push : i.op = .push) : (i.arg 0).Fetchable i.bits1 := by
  obtain ⟨middle, code, rest⟩ := emitBody_op emitted handled
  refine Emit.Ensures.pushFetches middle () code s' ?_
  simpa only [emitOp, push] using rest

end

end Tase
