import Tase.Translator.Batch

/-! Whether an instruction is emitted depends on the instruction alone: not on `var_count`, not on
`BB_ASSIGNED_REGS`, and not on the names that earlier code was given. -/

namespace Tase

open Cpp

namespace Emit

def Follows {α : Type} (R : α → α → Prop) (m m' : Emit α) : Prop :=
  ∀ s a out t, m s = .ok (a, out, t) → ∀ s', ∃ a' out' t', m' s' = .ok (a', out', t') ∧ R a a'

abbrev Steady {α : Type} (m m' : Emit α) : Prop := Follows (fun _ _ => True) m m'

namespace Follows

variable {α β : Type} {R : α → α → Prop} {S : β → β → Prop} {i : Instruction}

theorem bind {m m' : Emit α} {f f' : α → Emit β} (first : Follows R m m')
    (rest : ∀ a a', R a a' → Follows S (f a) (f' a')) : Follows S (m >>= f) (m' >>= f') := by
  intro s b out t emitted s'
  obtain ⟨a, code, middle, code', found, found', rfl⟩ := bind_ok emitted
  obtain ⟨a', c, t', ok, related⟩ := first s a code middle found s'
  obtain ⟨b', c', t'', ok', related'⟩ := rest a a' related middle b code' t found' t'
  refine ⟨b', c ++ c', t'', ?_, related'⟩
  change Emit.bind m' f' s' = _
  simp [Emit.bind, ok, ok']

theorem pure {a a' : α} (related : R a a') :
    Follows R (Pure.pure a : Emit α) (Pure.pure a') := by
  intro s b out t emitted s'
  cases emitted
  exact ⟨a', [], s', rfl, related⟩

theorem lift {x : Except Error α} : Follows Eq (Emit.lift x) (Emit.lift x) := by
  intro s a out t emitted s'
  obtain ⟨rfl, _⟩ := lift_ok emitted
  exact ⟨a, [], s', rfl, rfl⟩

theorem same {m : Emit α} {f f' : α → Emit β} (first : Follows Eq m m)
    (rest : ∀ a, Follows S (f a) (f' a)) : Follows S (m >>= f) (m >>= f') :=
  bind first fun a _ equal => equal ▸ rest a

theorem any {m m' : Emit α} {f f' : α → Emit β} (first : Steady m m')
    (rest : ∀ a a', Follows S (f a) (f' a')) : Follows S (m >>= f) (m' >>= f') :=
  bind first fun a a' _ => rest a a'

theorem raise {e : Error} {m : Emit α} : Follows R (Emit.raise e) m := by
  intro s a out t emitted
  exact absurd (lift_ok emitted).1 (by simp)

theorem write {stmt stmt' : Code} : Steady (Emit.write stmt) (Emit.write stmt') :=
  fun _ _ _ _ _ s' => ⟨(), [stmt'], s', rfl, trivial⟩

theorem makeVar {stem : String} : Steady (Tase.makeVar stem) (Tase.makeVar stem) :=
  fun _ _ _ _ _ _ => ⟨_, _, _, rfl, trivial⟩

theorem emitVarDecl {stem : String} {ty : Ty} {e e' : Exp} :
    Steady (Tase.emitVarDecl stem ty e) (Tase.emitVarDecl stem ty e') :=
  any makeVar fun _ _ => any write fun _ _ => pure trivial

theorem operandOr {o : Option Operand} {k : Nat} :
    Follows Eq (i.operandOr o k) (i.operandOr o k) := by
  cases o with
  | none => exact lift
  | some o => exact pure rfl

theorem emitFetch {o : Operand} {stem : String} {size : Size} {signed : Bool} :
    Steady (o.emitFetch stem size signed) (o.emitFetch stem size signed) :=
  same lift fun _ => emitVarDecl

theorem regExpL {r : RegName} : Follows Eq (Tase.regExpL r) (Tase.regExpL r) := by
  intro s a out t emitted s'
  unfold Tase.regExpL at emitted ⊢
  cases base : baseReg r with
  | none => simp [base, Emit.raise, Emit.lift] at emitted
  | some g =>
      simp only [base] at emitted
      obtain ⟨_, _, _, _, _, returned, _⟩ := bind_ok emitted
      cases returned
      exact ⟨a, _, _, rfl, rfl⟩

theorem emitStore {o : Operand} {e e' : Exp} {size : Size} :
    Steady (o.emitStore e size) (o.emitStore e' size) := by
  cases o with
  | imm n | addr n symbol => exact raise
  | mem m => exact same lift fun _ => write
  | reg r =>
      refine same lift fun _ => same regExpL fun whole => ?_
      cases size with
      | b =>
          cases r <;> exact any write fun _ _ => write
      | w => exact any write fun _ _ => write
      | l | q => exact write

theorem emitSetFlag {mask : Nat} {e e' : Exp} {clean : Bool} :
    Steady (Tase.emitSetFlag mask e clean) (Tase.emitSetFlag mask e' clean) := by
  refine same regExpL fun _ => ?_
  cases clean <;> exact write

theorem when {condition : Bool} {body body' : Emit Unit} (steady : Steady body body') :
    Steady (Emit.when condition body) (Emit.when condition body') := by
  cases condition with
  | true => exact steady
  | false => exact pure trivial

theorem elseBlock {c c' : Exp} {body body' : Emit Unit} (steady : Steady body body') :
    Steady (Emit.elseBlock c body) (Emit.elseBlock c' body') := by
  intro s a out t emitted s'
  unfold Emit.elseBlock at emitted
  split at emitted
  · cases emitted
  · rename_i inner code last found
    obtain ⟨_, code', t', ok, _⟩ := steady s inner code last found s'
    refine ⟨(), [.ite c' .skip (block code')], t', ?_, trivial⟩
    simp only [Emit.elseBlock, ok]

theorem emitXchg : Steady (Tase.emitXchg i) (Tase.emitXchg i) :=
  same lift fun _ => same lift fun _ => same lift fun _ => any emitFetch fun _ _ =>
    any emitFetch fun _ _ => any emitStore fun _ _ => emitStore

theorem emitZps {v v' r r' : Temp} : Steady (Tase.emitZps i v r) (Tase.emitZps i v' r') :=
  same lift fun _ => any write fun _ _ => any write fun _ _ => write

theorem emitAdd {left right : Option Operand} {mode : AddMode} :
    Steady (Tase.emitAdd i left right mode) (Tase.emitAdd i left right mode) := by
  refine same operandOr fun argR => same operandOr fun argL => same lift fun size => ?_
  refine any emitFetch fun _ _ => any emitFetch fun _ _ => any ?_ fun _ _ => ?_
  · unfold emitAddCarryIn
    split
    · exact any makeVar fun _ _ => any write fun _ _ => pure trivial
    · exact pure trivial
  refine any emitVarDecl fun _ _ => any emitVarDecl fun _ _ => any ?_ fun _ _ => ?_
  · unfold emitAddTarget
    split
    · exact emitStore
    · exact emitStore
    · exact pure trivial
  exact any write fun _ _ => any (when write) fun _ _ => any emitZps fun _ _ => emitSetFlag

theorem emitMul : Steady (Tase.emitMul i) (Tase.emitMul i) := by
  refine same lift fun size => same lift fun operands => ?_
  refine any emitFetch fun _ _ => any emitFetch fun _ _ => any emitVarDecl fun _ _ => ?_
  refine any emitVarDecl fun _ _ => any emitStore fun _ _ => any emitVarDecl fun _ _ => ?_
  refine any ?_ fun _ _ => emitSetFlag
  unfold emitStoreHi
  split
  · exact emitStore
  · exact pure trivial

theorem emitDiv : Steady (Tase.emitDiv i) (Tase.emitDiv i) := by
  refine same lift fun _ => same lift fun _ => same lift fun _ => ?_
  refine any emitFetch fun _ _ => any emitFetch fun _ _ => any emitVarDecl fun _ _ => ?_
  refine any emitFetch fun _ _ => any emitVarDecl fun _ _ => any emitVarDecl fun _ _ => ?_
  exact any emitStore fun _ _ => emitStore

theorem emitLogical {op : ArithOp} {writeTarget : Bool} :
    Steady (Tase.emitLogical i op writeTarget) (Tase.emitLogical i op writeTarget) := by
  refine same lift fun _ => same lift fun _ => same lift fun _ => ?_
  refine any emitFetch fun _ _ => any emitFetch fun _ _ => any emitVarDecl fun _ _ => ?_
  exact any (when emitStore) fun _ _ => any emitVarDecl fun _ _ => any emitZps fun _ _ => emitSetFlag

theorem emitShift : Steady (Tase.emitShift i) (Tase.emitShift i) := by
  refine same lift fun operands => same lift fun _ => same lift fun _ => same lift fun size2 => ?_
  refine any emitFetch fun _ _ => any emitVarDecl fun vAmt vAmt' => any emitFetch fun _ _ => ?_
  refine any emitVarDecl fun vShift vShift' => any (when ?_) fun _ _ => ?_
  · refine same operandOr fun _ => any emitFetch fun _ _ => any (when ?_) fun _ _ => write
    exact any makeVar fun _ _ => any write fun _ _ => write
  refine any emitStore fun _ _ => when (elseBlock ?_)
  exact any emitVarDecl fun _ _ => any emitZps fun _ _ => any write fun _ _ => any write fun _ _ =>
    emitSetFlag

theorem emitMov {src dest : Option Operand} {size : Option Size} :
    Steady (Tase.emitMov i src dest size) (Tase.emitMov i src dest size) := by
  refine same operandOr fun _ => same operandOr fun _ => same lift fun size2 => same lift fun size1 => ?_
  refine any emitFetch fun _ _ => any ?_ fun _ _ => emitStore
  unfold emitConverted
  split
  · exact pure trivial
  · exact emitVarDecl

theorem emitLea {src dest : Option Operand} {size : Option Size} :
    Steady (Tase.emitLea i src dest size) (Tase.emitLea i src dest size) :=
  same operandOr fun _ => same operandOr fun _ => same lift fun _ => same lift fun _ =>
    same lift fun _ => emitStore

theorem emitPush {src : Option Operand} {size : Option Size} :
    Steady (Tase.emitPush i src size) (Tase.emitPush i src size) :=
  same operandOr fun _ => same lift fun _ => any emitLea fun _ _ => emitMov

theorem emitPop {dest : Option Operand} {size : Option Size} :
    Steady (Tase.emitPop i dest size) (Tase.emitPop i dest size) :=
  same operandOr fun _ => same lift fun _ => any emitMov fun _ _ => emitLea

theorem emitUnderCond {body : Emit Unit} (steady : Steady body body) :
    Steady (do let failure ← emitReturnForCond i; emitElse failure body)
      (do let failure ← emitReturnForCond i; emitElse failure body) := by
  have shape : Follows (fun a a' => a.isSome = a'.isSome) (emitReturnForCond i) (emitReturnForCond i) := by
    unfold emitReturnForCond
    split
    · exact pure rfl
    · exact any makeVar fun _ _ => any write fun _ _ => pure rfl
  refine bind shape fun a a' both => ?_
  cases a <;> cases a'
  · exact steady
  · cases both
  · cases both
  · exact elseBlock steady

theorem emitJump : Steady (Tase.emitJump i) (Tase.emitJump i) := emitUnderCond emitMov

theorem emitBittest : Steady (Tase.emitBittest i) (Tase.emitBittest i) := by
  refine same lift fun _ => same lift fun _ => same lift fun _ => same lift fun _ => ?_
  refine any emitFetch fun _ _ => any emitVarDecl fun _ _ => any emitFetch fun _ _ => ?_
  refine any emitVarDecl fun _ _ => any emitSetFlag fun _ _ => ?_
  unfold emitBittestModify
  split
  · exact pure trivial
  · exact any emitVarDecl fun _ _ => emitStore

theorem emitOp : Steady (Tase.emitOp i) (Tase.emitOp i) := by
  unfold Tase.emitOp
  cases i.op with
  | nop => exact pure trivial
  | xchg => exact emitXchg
  | xadd => exact any emitXchg fun _ _ => emitAdd
  | lea => exact emitLea
  | mov => exact emitMov
  | cmov => exact same lift fun _ => any emitMov fun _ _ => emitUnderCond emitMov
  | ctd =>
      exact same lift fun _ => same lift fun _ => same lift fun _ => same lift fun _ =>
        any emitFetch fun _ _ => any emitVarDecl fun _ _ => emitStore
  | push | pushf => exact emitPush
  | pop | popf => exact emitPop
  | enter => exact same lift fun _ => any emitPush fun _ _ => any emitMov fun _ _ => emitLea
  | leave => exact any emitMov fun _ _ => emitPop
  | add | sub | adc | sbb | cmp | neg => exact emitAdd
  | inc | dec => exact same lift fun _ => emitAdd
  | mul => exact emitMul
  | div => exact emitDiv
  | and | or | xor | test => exact emitLogical
  | not => exact same lift fun _ => same lift fun _ => any emitFetch fun _ _ => emitStore
  | rc | ro | sa | sh | shd => exact emitShift
  | call =>
      exact same lift fun _ => same lift fun _ => any emitFetch fun _ _ => any emitPush fun _ _ =>
        emitStore
  | ret => exact same lift fun _ => emitPop
  | loop =>
      exact same lift fun _ => same lift fun _ => any emitFetch fun _ _ => any write fun _ _ =>
        any emitStore fun _ _ => any write fun _ _ => emitJump
  | j => exact emitJump
  | set => exact same lift fun _ => any emitStore fun _ _ => emitUnderCond emitStore
  | bt => exact emitBittest
  | bswap =>
      exact same lift fun _ => same lift fun _ => any emitFetch fun _ _ => any emitVarDecl fun _ _ =>
        emitStore
  | cl | st => exact same lift fun _ => emitSetFlag
  | cmc => exact any emitVarDecl fun _ _ => any write fun _ _ => emitSetFlag
  | other name => exact raise

end Follows

end Emit

theorem Instruction.Emitted.always {i : Instruction} (emitted : i.Emitted) (s : EmitState) :
    ∃ out s', emitBody i s = .ok ((), out, s') := by
  obtain ⟨s₀, out, t, found⟩ := emitted
  have steady : Emit.Steady (emitBody i) (emitBody i) :=
    Emit.Follows.any Emit.Follows.write fun _ _ => Emit.Follows.when Emit.Follows.emitOp
  obtain ⟨_, out', t', found', _⟩ := steady s₀ () out t found s
  exact ⟨out', t', found'⟩

end Tase
