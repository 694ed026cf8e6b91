import Tase.Translator.Decode
import Tase.Translator.Emits

/-! The fields of a decoded record. An emitter fails on a field that is still `None`; the constructor sees to
it that none of the fields it reads is. -/

namespace Tase

open Regex

def Op.sized : Op → Bool
  | .nop | .cl | .st | .cmc | .other _ => false
  | _ => true

structure Instruction.Filled (i : Instruction) : Prop where
  size1 : i.op.sized = true → i.size1.isSome = true
  size2 : i.op ∈ [Op.ctd, .rc, .ro, .sa, .sh, .shd] → i.size2.isSome = true
  flagBit : i.op ∈ [Op.cl, .st] → i.flagBit.isSome = true

namespace Stem

def unsized : List Stem := bare ++ [Stem.cl, .st, .j, .set]

end Stem

structure Reading.Provides (r : Reading) : Prop where
  size1 : r.op ∉ Stem.unsized → r.size1.isSome = true
  flagBit : r.op ∈ [Stem.cl, .st] → r.flagBit.isSome = true

theorem Reading.Provides.ofSize {r : Reading} (sized : r.size1.isSome = true) (other : r.op ∉ [Stem.cl, .st]) :
    r.Provides := ⟨fun _ => sized, fun flag => absurd flag other⟩

theorem Spelling.provides (s : Spelling) (active : s.reading.ignored = false) : s.reading.Provides := by
  cases s with
  | dropped stem rest listed => cases active
  | bare stem listed =>
      have known : ∀ op ∈ Stem.bare, op ∈ Stem.unsized ∧ op ∉ [Stem.cl, .st] := by decide
      exact ⟨fun other => absurd (known stem listed).1 other, fun flag => absurd flag (known stem listed).2⟩
  | sized stem size listed =>
      have known : ∀ op ∈ Stem.sized, (if op = .smov then Stem.movs else op) ∉ [Stem.cl, .st] := by decide
      exact .ofSize rfl (known stem listed)
  | implied stem listed =>
      have known : ∀ op ∈ [Stem.nop, .jmp, .bswap], op ∉ [Stem.cl, .st] := by decide
      exact .ofSize rfl (known stem listed)
  | shift stem left noflag size listed =>
      have known : ∀ op ∈ [Stem.rc, .ro, .sa, .sh], op ∉ [Stem.cl, .st] := by decide
      exact .ofSize rfl (known stem listed)
  | flag sets bit =>
      have known : ∀ sets, (if sets = true then Stem.st else .cl) ∈ Stem.unsized := by decide
      exact ⟨fun other => absurd (known sets) other, fun _ => rfl⟩
  | condition jumps cond ends =>
      have known : ∀ jumps, (if jumps = true then Stem.j else .set) ∈ Stem.unsized ∧
          (if jumps = true then Stem.j else .set) ∉ [Stem.cl, .st] := by decide
      exact ⟨fun other => absurd (known jumps).1 other, fun flag => absurd flag (known jumps).2⟩
  | extending signed size1 size2 => exact .ofSize rfl (by cases signed <;> simp [reading])
  | transaction | double | bitTest | move | loop | loopAlways => exact .ofSize rfl (by simp [reading])

theorem Instruction.Filled.plain {i : Instruction} (sized : i.size1.isSome = true)
    (single : i.op ∉ [Op.ctd, .rc, .ro, .sa, .sh, .shd]) (other : i.op ∉ [Op.cl, .st]) : i.Filled :=
  ⟨fun _ => sized, fun double => absurd double single, fun flag => absurd flag other⟩

theorem Instruction.Filled.bare {i : Instruction} (unsized : i.op.sized = false)
    (flagged : i.op ∈ [Op.cl, .st] → i.flagBit.isSome = true) : i.Filled := by
  have known : ∀ op ∈ [Op.ctd, .rc, .ro, .sa, .sh, .shd], op.sized = true := by decide
  refine ⟨fun sized => ?_, fun double => ?_, flagged⟩
  · cases unsized.symm.trans sized
  · cases unsized.symm.trans (known i.op double)

theorem Instruction.fixupImm32_filled {i i' : Instruction} {op : Op}
    {signed : op.isSigned = true} (fixed : i.fixupImm32 op signed = .ok i')
    (named : i.op = op) (moves : op ∈ [Op.mov, .test]) (sized : i.size1.isSome = true) : i'.Filled := by
  have known : ∀ op ∈ [Op.mov, .test], op ∉ [Op.ctd, .rc, .ro, .sa, .sh, .shd] ∧ op ∉ [Op.cl, .st] := by decide
  obtain ⟨single, other⟩ := known op moves
  have kept : i.Filled := .plain sized (named ▸ single) (named ▸ other)
  unfold fixupImm32 at fixed
  split at fixed
  · split at fixed
    · cases fixed
    · cases fixed
      exact .plain rfl single other
    · cases fixed
      exact kept
  · cases fixed
    exact kept

theorem Instruction.fixupShift_filled {i : Instruction} (named : i.op ∈ [Op.rc, .ro, .sa, .sh, .shd])
    (sized : i.size1.isSome = true) : i.fixupShift.Filled := by
  have known : ∀ op ∈ [Op.rc, .ro, .sa, .sh, .shd], (if op = .sa then Op.sh else op) ∉ [Op.cl, .st] := by decide
  refine ⟨fun _ => ?_, fun _ => sized, fun flag => absurd flag (known i.op named)⟩
  have either : i.fixupShift.size1 = i.size1 ∨ i.fixupShift.size1 = some .b := ite_eq_or_eq _ _ _
  rcases either with same | byte
  · rw [same, sized]
  · rw [byte]
    rfl

theorem Instruction.fixupInstructions_filled {i i' : Instruction} {r : Reading} (provides : r.Provides)
    (named : i.op = r.op.op) (size1 : i.size1 = r.size1) (flagBit : i.flagBit = r.flagBit)
    (fixed : i.fixupInstructions r.op = .ok i') : i'.Filled := by
  obtain ⟨provided, flagged⟩ := provides
  rw [← size1] at provided
  rw [← flagBit] at flagged
  generalize r.op = stem at named fixed provided flagged
  cases stem
  case test => exact fixupImm32_filled fixed named (by decide) (provided (by decide))
  case mov => exact fixupImm32_filled fixed named (by decide) (provided (by decide))
  case rc | ro | sa | sh | shd =>
    cases fixed
    exact fixupShift_filled (by rw [named]; decide) (provided (by decide))
  case cwtd | cltd | cqtd | cqto =>
    cases fixed
    exact ⟨fun _ => rfl, fun _ => rfl, fun flag => absurd flag (by simp [spreading, withSign])⟩
  case cbtw | cwtl | cltq =>
    cases fixed
    exact .plain rfl (by simp [widening, withSign]) (by simp [widening, withSign])
  case j | set =>
    cases fixed
    exact .plain rfl (by rw [named]; decide) (by rw [named]; decide)
  case hlt =>
    cases fixed
    exact .bare rfl (by simp [renamed])
  case cl | st =>
    cases fixed
    exact .bare (by rw [named]; rfl) fun _ => flagged (by decide)
  case cmc | cmpxchg8b | cmpxchg16b =>
    cases fixed
    exact .bare (by rw [named]; rfl) fun flag => absurd flag (by rw [named]; decide)
  case movsx | movz | movabs | idiv | imul | div | mul =>
    cases fixed
    exact .plain (provided (by decide)) (by simp [withSign]) (by simp [withSign])
  case jmp =>
    cases fixed
    exact .plain (provided (by decide)) (by simp [renamed]) (by simp [renamed])
  all_goals
    cases fixed
    exact .plain (provided (by decide)) (by rw [named]; decide) (by rw [named]; decide)

/-! What the constructor makes. -/

section

variable {alnum : Char → Bool} {original : List Char} {groups : Groups LineGroup} {i : Instruction}

theorem readMnemonic_xmm {m : List Char} {r : Reading} {text : String} (vector : textContains text "xmm" = true)
    (read : readMnemonic text m = .ok r) : r.ignored = true := by
  unfold readMnemonic at read
  split at read
  · cases read
  · unfold parseMnemonic canonicalize at read
    rw [if_pos vector] at read
    split at read
    · cases read
    · cases read
      rfl

theorem newInstruction_inv (made : newInstruction alnum original groups = .ok i) : i.ignored = true ∨
    ∃ (s : Spelling) (vaddr length : Nat) (bounded : isLength length = true) (operands : List Operand),
      s.reading.ignored = false ∧
      (s.reading.instruction (String.ofList original) vaddr length bounded operands).fixupInstructions
        s.reading.op = .ok i := by
  unfold newInstruction at made
  split at made
  · cases made
  · simp only at made
    split at made
    · rename_i bounded
      obtain ⟨r, read, made⟩ := bind_ok_iff.mp made
      split at made
      · rename_i ignored
        cases made
        exact .inl ignored
      · rename_i active
        obtain ⟨operands, _, fixed⟩ := bind_ok_iff.mp made
        cases vector : textContains (String.ofList original) "xmm" with
        | true => exact absurd (readMnemonic_xmm vector read) active
        | false =>
            obtain ⟨s, _, rfl⟩ := readMnemonic_spelled vector read
            exact .inr ⟨s, _, _, bounded, operands, Bool.not_eq_true _ ▸ active, fixed⟩
    · cases made

theorem newInstruction_filled (made : newInstruction alnum original groups = .ok i) :
    i.ignored = true ∨ i.Filled := by
  rcases newInstruction_inv made with ignored | ⟨s, vaddr, length, bounds, operands, active, fixed⟩
  · exact .inl ignored
  · exact .inr (Instruction.fixupInstructions_filled (s.provides active) rfl rfl rfl fixed)

end

/-! The exceptions of the emitters. -/

/-- Not a `TypeError` or a `KeyError`. -/
def Error.expected : Error → Bool
  | .type | .key => false
  | .assertion _ | .value _ | .index => true

namespace Emit

def Raises {α : Type} (m : Emit α) : Prop := ∀ s e, m s = .error e → e.expected = true

namespace Raises

variable {α β : Type} {i : Instruction}

theorem bind {m : Emit α} {f : α → Emit β} (first : Raises m) (rest : ∀ a, Raises (f a)) : Raises (m >>= f) := by
  intro s e raised
  change Emit.bind m f s = .error e at raised
  unfold Emit.bind at raised
  split at raised
  · rename_i error found
    cases raised
    exact first s e found
  · split at raised
    · rename_i error found
      cases raised
      exact rest _ _ e found
    · cases raised

theorem pure {a : α} : Raises (Pure.pure a : Emit α) := fun _ _ raised => by cases raised

theorem write {code : Code} : Raises (Emit.write code) := fun _ _ raised => by cases raised

theorem makeVar {stem : String} : Raises (Tase.makeVar stem) := fun _ _ raised => by cases raised

theorem lift {x : Except Error α} (expected : ∀ e, x = .error e → e.expected = true) : Raises (Emit.lift x) := by
  intro s e raised
  cases x with
  | ok a => cases raised
  | error e' =>
      cases raised
      exact expected e rfl

theorem raise {e : Error} (expected : e.expected = true) : Raises (Emit.raise e : Emit α) := by
  refine lift fun e' raised => ?_
  cases raised
  exact expected

theorem when {condition : Bool} {body : Emit Unit} (inner : Raises body) : Raises (Emit.when condition body) := by
  cases condition with
  | true => exact inner
  | false => exact pure

theorem elseBlock {c : Exp} {body : Emit Unit} (inner : Raises body) : Raises (Emit.elseBlock c body) := by
  intro s e raised
  unfold Emit.elseBlock at raised
  split at raised
  · rename_i error found
    cases raised
    exact inner s e found
  · cases raised

theorem checked {condition : Bool} {message : String} : Raises (Emit.lift (check condition message)) := by
  refine lift fun e raised => ?_
  unfold check at raised
  split at raised <;> cases raised
  rfl

theorem operand {k : Nat} : Raises (i.operand k) := by
  refine lift fun e raised => ?_
  split at raised <;> cases raised
  rfl

theorem operandOr {o : Option Operand} {k : Nat} : Raises (i.operandOr o k) := by
  cases o with
  | none => exact operand
  | some o => exact pure

theorem needSize {size : Option Size} (sized : size.isSome = true) : Raises (Instruction.needSize size) := by
  obtain ⟨size, rfl⟩ := Option.isSome_iff_exists.mp sized
  exact lift fun e raised => by cases raised

/-! Operands. -/

theorem regExpR_expected {r : RegName} {e : Error} (raised : regExpR r = .error e) : e.expected = true := by
  unfold regExpR at raised
  split at raised
  · cases raised
    rfl
  · split at raised <;> cases raised

theorem bind_expected {x : Except Error α} {f : α → Except Error β}
    (first : ∀ e, x = .error e → e.expected = true) (rest : ∀ a e, f a = .error e → e.expected = true) :
    ∀ e, x >>= f = .error e → e.expected = true := by
  intro e raised
  cases x with
  | error e' =>
      cases raised
      exact first e rfl
  | ok a => exact rest a e raised

theorem check_expected {condition : Bool} {message : String} {e : Error}
    (raised : check condition message = .error e) : e.expected = true := by
  unfold check at raised
  split at raised <;> cases raised
  rfl

theorem addr_expected (m : MemRef) : ∀ e, m.addr = .error e → e.expected = true := by
  have size : ∀ e, m.addrSize = .error e → e.expected = true := by
    unfold MemRef.addrSize
    split
    · exact bind_expected (fun e => check_expected) fun _ e raised => by cases raised
    all_goals exact fun e raised => by cases raised
  have base (size : Size) : ∀ e, m.baseTerm size = .error e → e.expected = true := by
    unfold MemRef.baseTerm
    split
    · exact fun e raised => by cases raised
    · exact bind_expected (fun e => regExpR_expected) fun _ e raised => by cases raised
  have index (size : Size) : ∀ e, m.indexTerm size = .error e → e.expected = true := by
    unfold MemRef.indexTerm
    split
    · exact fun e raised => by cases raised
    · exact bind_expected (fun e => regExpR_expected) fun _ e raised => by cases raised
  refine bind_expected size fun s => bind_expected (fun e => check_expected) fun _ => ?_
  exact bind_expected (base s) fun _ => bind_expected (index s) fun _ e raised => by cases raised

theorem fetchExp_expected (o : Operand) (size : Size) : ∀ e, o.fetchExp size = .error e → e.expected = true := by
  cases o with
  | reg r => exact bind_expected (fun e => check_expected) fun _ e => regExpR_expected
  | imm n | addr n symbol => exact fun e raised => by cases raised
  | mem m => exact bind_expected (addr_expected m) fun _ e raised => by cases raised

theorem emitVarDecl {stem : String} {t : Cpp.Ty} {e : Exp} : Raises (Tase.emitVarDecl stem t e) :=
  bind makeVar fun _ => bind write fun _ => pure

theorem emitFetch {o : Operand} {stem : String} {size : Size} {signed : Bool} :
    Raises (o.emitFetch stem size signed) :=
  bind (lift (fetchExp_expected o size)) fun _ => emitVarDecl

theorem regExpL {r : RegName} : Raises (Tase.regExpL r) := by
  unfold Tase.regExpL
  split
  · exact raise rfl
  · exact bind (fun _ _ raised => by cases raised) fun _ => pure

theorem emitStore {o : Operand} {e : Exp} {size : Size} : Raises (o.emitStore e size) := by
  cases o with
  | imm n | addr n symbol => exact raise rfl
  | mem m => exact bind (lift (addr_expected m)) fun _ => write
  | reg r =>
      refine bind checked fun _ => bind regExpL fun _ => ?_
      split
      · exact bind write fun _ => write
      · exact bind write fun _ => write
      · exact bind write fun _ => write
      · exact write
      · exact write

theorem emitSetFlag {mask : Nat} {value : Exp} {clean : Bool} : Raises (Tase.emitSetFlag mask value clean) := by
  refine bind regExpL fun _ => ?_
  split <;> exact write

/-! Emitters, each under the sizes it reads. -/

section

variable (sized : i.size1.isSome = true)

include sized

theorem emitXchg : Raises (Tase.emitXchg i) :=
  bind operand fun _ => bind operand fun _ => bind (needSize sized) fun _ => bind emitFetch fun _ =>
    bind emitFetch fun _ => bind emitStore fun _ => emitStore

theorem emitZps {vEfl vRes : Temp} : Raises (Tase.emitZps i vEfl vRes) :=
  bind (needSize sized) fun _ => bind write fun _ => bind write fun _ => write

theorem emitAdd {left right : Option Operand} {mode : AddMode} : Raises (Tase.emitAdd i left right mode) := by
  refine bind operandOr fun argR => bind operandOr fun argL => bind (needSize sized) fun size => ?_
  refine bind emitFetch fun _ => bind emitFetch fun _ => bind ?_ fun _ => bind emitVarDecl fun _ => ?_
  · unfold emitAddCarryIn
    split
    · exact bind makeVar fun _ => bind write fun _ => pure
    · exact pure
  refine bind emitVarDecl fun _ => bind ?_ fun _ => bind write fun _ => ?_
  · unfold emitAddTarget
    split
    · exact emitStore
    · exact emitStore
    · exact pure
  exact bind (when write) fun _ => bind (emitZps sized) fun _ => emitSetFlag

theorem emitMul : Raises (Tase.emitMul i) := by
  refine bind (needSize sized) fun size => bind (lift fun e raised => ?_) fun operands => ?_
  · unfold mulOperands at raised
    split at raised <;> cases raised
    rfl
  refine bind emitFetch fun _ => bind emitFetch fun _ => bind emitVarDecl fun _ => bind emitVarDecl fun _ => ?_
  refine bind emitStore fun _ => bind emitVarDecl fun _ => bind ?_ fun _ => emitSetFlag
  unfold emitStoreHi
  split
  · exact emitStore
  · exact pure

theorem emitDiv : Raises (Tase.emitDiv i) := by
  refine bind checked fun _ => bind (needSize sized) fun _ => bind operand fun _ => bind emitFetch fun _ => ?_
  refine bind emitFetch fun _ => bind emitVarDecl fun _ => bind emitFetch fun _ => bind emitVarDecl fun _ => ?_
  exact bind emitVarDecl fun _ => bind emitStore fun _ => emitStore

theorem emitLogical {op : Cpp.ArithOp} {writeTarget : Bool} : Raises (Tase.emitLogical i op writeTarget) := by
  refine bind operand fun _ => bind operand fun _ => bind (needSize sized) fun _ => bind emitFetch fun _ => ?_
  refine bind emitFetch fun _ => bind emitVarDecl fun _ => bind (when emitStore) fun _ => bind emitVarDecl fun _ => ?_
  exact bind (emitZps sized) fun _ => emitSetFlag

theorem emitNot : Raises (Tase.emitNot i) :=
  bind operand fun _ => bind (needSize sized) fun _ => bind emitFetch fun _ => emitStore

theorem emitBittest : Raises (Tase.emitBittest i) := by
  refine bind operand fun _ => bind operand fun _ => bind (needSize sized) fun _ => bind checked fun _ => ?_
  refine bind emitFetch fun _ => bind emitVarDecl fun _ => bind emitFetch fun _ => bind emitVarDecl fun _ => ?_
  refine bind emitSetFlag fun _ => ?_
  unfold emitBittestModify
  split
  · exact pure
  · exact bind emitVarDecl fun _ => emitStore

theorem emitShift (sized2 : i.size2.isSome = true) : Raises (Tase.emitShift i) := by
  refine bind (lift fun e raised => ?_) fun operands => ?_
  · unfold shiftOperands at raised
    split at raised <;> split at raised <;> cases raised <;> rfl
  refine bind operand fun _ => bind (needSize sized) fun _ => bind (needSize sized2) fun _ => ?_
  refine bind emitFetch fun _ => bind emitVarDecl fun _ => bind emitFetch fun _ => bind emitVarDecl fun _ => ?_
  refine bind (when ?_) fun _ => bind emitStore fun _ => when (elseBlock ?_)
  · refine bind operandOr fun _ => bind emitFetch fun _ => bind (when ?_) fun _ => write
    exact bind makeVar fun _ => bind write fun _ => write
  · refine bind emitVarDecl fun _ => bind (emitZps sized) fun _ => bind write fun _ => bind write fun _ => ?_
    exact emitSetFlag

theorem emitCtd (sized2 : i.size2.isSome = true) : Raises (Tase.emitCtd i) :=
  bind operand fun _ => bind operand fun _ => bind (needSize sized) fun _ => bind (needSize sized2) fun _ =>
    bind emitFetch fun _ => bind emitVarDecl fun _ => emitStore

theorem emitMov {src dest : Option Operand} {size : Option Size} : Raises (Tase.emitMov i src dest size) := by
  have first : (size <|> i.size1).isSome = true := by cases size <;> simp [sized]
  have second : (size <|> i.size2 <|> i.size1).isSome = true := by
    cases size <;> cases i.size2 <;> simp [sized]
  refine bind operandOr fun _ => bind operandOr fun _ => bind (needSize second) fun _ => ?_
  refine bind (needSize first) fun _ => bind emitFetch fun _ => bind ?_ fun _ => emitStore
  unfold emitConverted
  split
  · exact pure
  · exact emitVarDecl

theorem emitLea {src dest : Option Operand} {size : Option Size} : Raises (Tase.emitLea i src dest size) := by
  have width : (size <|> i.size1).isSome = true := by cases size <;> simp [sized]
  refine bind operandOr fun _ => bind operandOr fun _ => bind (needSize width) fun _ => ?_
  refine bind (lift fun e raised => ?_) fun _ => bind (lift (addr_expected _)) fun _ => emitStore
  split at raised <;> cases raised
  rfl

theorem emitPush {src : Option Operand} {size : Option Size} : Raises (Tase.emitPush i src size) := by
  have width : (size <|> i.size1).isSome = true := by cases size <;> simp [sized]
  exact bind operandOr fun _ => bind (needSize width) fun _ => bind (emitLea sized) fun _ => emitMov sized

theorem emitPop {dest : Option Operand} {size : Option Size} : Raises (Tase.emitPop i dest size) := by
  have width : (size <|> i.size1).isSome = true := by cases size <;> simp [sized]
  exact bind operandOr fun _ => bind (needSize width) fun _ => bind (emitMov sized) fun _ => emitLea sized

end

theorem emitReturnForCond : Raises (Tase.emitReturnForCond i) := by
  unfold Tase.emitReturnForCond
  split
  · exact pure
  · exact bind makeVar fun _ => bind write fun _ => pure

theorem emitElse {failure : Option Exp} {body : Emit Unit} (inner : Raises body) :
    Raises (Tase.emitElse failure body) := by
  cases failure with
  | none => exact inner
  | some failure => exact elseBlock inner

theorem emitJump (sized : i.size1.isSome = true) : Raises (Tase.emitJump i) :=
  bind emitReturnForCond fun _ => emitElse (emitMov sized)

theorem emitCmov (sized : i.size1.isSome = true) : Raises (Tase.emitCmov i) :=
  bind operand fun _ => bind (emitMov sized) fun _ => bind emitReturnForCond fun _ => emitElse (emitMov sized)

theorem emitSet : Raises (Tase.emitSet i) :=
  bind operand fun _ => bind emitStore fun _ => bind emitReturnForCond fun _ => emitElse emitStore

theorem emitLoop (sized : i.size1.isSome = true) : Raises (Tase.emitLoop i) :=
  bind operand fun _ => bind checked fun _ => bind emitFetch fun _ => bind write fun _ => bind emitStore fun _ =>
    bind write fun _ => emitJump sized

theorem emitCall (sized : i.size1.isSome = true) : Raises (Tase.emitCall i) :=
  bind checked fun _ => bind operand fun _ => bind emitFetch fun _ => bind (emitPush sized) fun _ => emitStore

theorem emitRet (sized : i.size1.isSome = true) : Raises (Tase.emitRet i) :=
  bind checked fun _ => emitPop sized

theorem emitEnter (sized : i.size1.isSome = true) : Raises (Tase.emitEnter i) := by
  refine bind (lift fun e raised => ?_) fun _ => ?_
  · split at raised <;> cases raised <;> rfl
  · exact bind (emitPush sized) fun _ => bind (emitMov sized) fun _ => emitLea sized

theorem emitBswap : Raises (Tase.emitBswap i) :=
  bind operand fun _ => bind checked fun _ => bind emitFetch fun _ => bind emitVarDecl fun _ => emitStore

theorem emitCmc : Raises Tase.emitCmc := bind emitVarDecl fun _ => bind write fun _ => emitSetFlag

theorem emitFlag {clear : Bool} (some : i.flagBit.isSome = true) (other : i.flagBit ≠ Option.some .i) :
    Raises (Tase.emitFlag i clear) := by
  obtain ⟨bit, found⟩ := Option.isSome_iff_exists.mp some
  refine bind (lift fun e raised => ?_) fun _ => emitSetFlag
  rw [found] at raised other
  cases bit with
  | c => cases raised
  | d => cases raised
  | i => exact absurd rfl other

theorem emitOp (filled : i.Filled) (other : i.op ∈ [Op.cl, .st] → i.flagBit ≠ some .i) :
    Raises (Tase.emitOp i) := by
  obtain ⟨sized, double, flagged⟩ := filled
  unfold Tase.emitOp
  generalize i.op = op at sized double flagged other ⊢
  cases op with
  | nop => exact pure
  | xchg => exact emitXchg (sized rfl)
  | xadd => exact bind (emitXchg (sized rfl)) fun _ => emitAdd (sized rfl)
  | lea => exact emitLea (sized rfl)
  | mov => exact emitMov (sized rfl)
  | cmov => exact emitCmov (sized rfl)
  | ctd => exact emitCtd (sized rfl) (double (by decide))
  | push | pushf => exact emitPush (sized rfl)
  | pop | popf => exact emitPop (sized rfl)
  | enter => exact emitEnter (sized rfl)
  | leave => exact bind (emitMov (sized rfl)) fun _ => emitPop (sized rfl)
  | add | sub | adc | sbb | cmp | neg => exact emitAdd (sized rfl)
  | inc | dec => exact bind operand fun _ => emitAdd (sized rfl)
  | mul => exact emitMul (sized rfl)
  | div => exact emitDiv (sized rfl)
  | and | or | xor | test => exact emitLogical (sized rfl)
  | not => exact emitNot (sized rfl)
  | rc | ro | sa | sh | shd => exact emitShift (sized rfl) (double (by decide))
  | call => exact emitCall (sized rfl)
  | ret => exact emitRet (sized rfl)
  | loop => exact emitLoop (sized rfl)
  | j => exact emitJump (sized rfl)
  | set => exact emitSet
  | bt => exact emitBittest (sized rfl)
  | bswap => exact emitBswap
  | cl | st => exact emitFlag (flagged (by decide)) (other (by decide))
  | cmc => exact emitCmc
  | other name => exact raise rfl

end Raises

end Emit

/-- What the constructor accepts is emitted without an operation on a missing field. Exceptions say that an
operand does not fit or that the operation is not handled; only the interrupt flag is looked up in vain. -/
theorem newInstruction_raises {alnum : Char → Bool} {original : List Char} {groups : Groups LineGroup}
    {i : Instruction} {s : EmitState} {e : Error} (made : newInstruction alnum original groups = .ok i)
    (raised : emitBody i s = .error e) :
    e.expected = true ∨ e = .key ∧ i.op ∈ [Op.cl, .st] ∧ i.flagBit = some .i := by
  by_cases quiet : i.nothingToDo = true
  · have body : Emit.Raises (emitBody i) := Emit.Raises.bind Emit.Raises.write fun _ => by
      rw [quiet]
      exact Emit.Raises.pure
    exact .inl (body s e raised)
  have filled : i.Filled := by
    refine (newInstruction_filled made).resolve_left fun ignored => quiet ?_
    simp [Instruction.nothingToDo, ignored]
  by_cases interrupt : i.op ∈ [Op.cl, .st] ∧ i.flagBit = some .i
  · have active : i.nothingToDo = false := Bool.not_eq_true _ ▸ quiet
    refine .inr ⟨?_, interrupt⟩
    obtain ⟨op, bit⟩ := interrupt
    simp only [List.mem_cons, List.not_mem_nil, or_false] at op
    rcases op with op | op
    all_goals
      simp only [emitBody, active, Bool.not_false, Emit.when, if_true, emitOp, op, emitFlag, bit] at raised
      cases raised
      rfl
  · have body : Emit.Raises (emitBody i) := Emit.Raises.bind Emit.Raises.write fun _ =>
      Emit.Raises.when (Emit.Raises.emitOp filled fun flag => fun bit => interrupt ⟨flag, bit⟩)
    exact .inl (body s e raised)

theorem newInstruction_raises_cli : ∃ groups i,
    newInstruction (fun _ => false) "400760: fa \tcli".toList groups = .ok i ∧ emitBody i .initial = .error .key ∧
      (Error.key.expected = true ∨ Error.key = .key ∧ i.op ∈ [Op.cl, .st] ∧ i.flagBit = some .i) := by
  -- `cli` is accepted, and the look-up of its flag fails.
  let groups : Groups LineGroup := Function.update (Function.update (Function.update (fun _ => none)
    .vaddr (some "400760".toList)) .encoded (some "fa ".toList)) .mnemonic (some "cli".toList)
  let i : Instruction :=
    { original := "400760: fa \tcli", vaddr := 0x400760, length := 1, op := .cl, flagBit := some .i }
  have made : newInstruction (fun _ => false) "400760: fa \tcli".toList groups = .ok i := rfl
  have active : i.nothingToDo = false := by decide
  have raised : emitBody i .initial = .error .key := by
    simp only [emitBody, active]
    rfl
  exact ⟨groups, i, made, raised, newInstruction_raises made raised⟩

end Tase
