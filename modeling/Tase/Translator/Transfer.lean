import Mathlib.Data.BitVec
import Mathlib.Tactic.Ring
import Tase.Translator.Arithmetic
import Tase.Translator.Moves
import Tase.Translator.Writing

/-! `lea` and `cmov`, whose destination may also be part of the address in the source. -/

namespace Tase

open Cpp

namespace MemRef

def uses (r : Option RegName) (whole : Reg) : Nat := if r.bind baseReg = some whole then 1 else 0

def multiple (target : MemRef) (whole : Reg) : Nat :=
  uses target.base whole + uses target.index whole * target.scale.toNat

def low (r : Option RegName) (m : Mach) : BitVec 16 :=
  match r.bind baseReg with
  | some whole => (m.regs whole).setWidth 16
  | none => 0

variable {ub : Undef} {target : MemRef} {e : Exp} {m : Mach} {whole : Reg}

theorem part_low {size : Size} (r : Option RegName) (wide : size = .l ∨ size = .q)
    (width : ∀ name, r = some name → Tase.regSize name = size) : (part r size m).setWidth 16 = low r m := by
  cases r with
  | none => exact BitVec.setWidth_zero ..
  | some name =>
      have width := width name rfl
      subst width
      cases name with
      | other text => exact BitVec.setWidth_zero ..
      | w g | l g | h g => simp [Tase.regSize] at wide
      | q held | d g => simp [part, RegName.read, RegName.field, low, baseReg, Tase.regSize, Size.bits]

theorem effective_low (found : target.addr = .ok e) :
    (target.effective m).setWidth 16 = BitVec.ofInt 16 target.offset + low target.base m +
      low target.index m * BitVec.ofNat 16 target.scale.toNat := by
  obtain ⟨size, sized, found⟩ := except_bind_ok found
  obtain ⟨_, checked, _⟩ := except_bind_ok found
  have wide : size = .l ∨ size = .q := by simpa using check_ok checked
  have bits : target.addrBits = size := by rw [addrBits, sized]
  have enough : 16 ≤ size.bits := by rcases wide with rfl | rfl <;> decide
  rw [effective, bits, BitVec.setWidth_setWidth_of_le _ (by decide), BitVec.setWidth_add _ _ enough,
    BitVec.setWidth_add _ _ enough, BitVec.setWidth_mul _ _ enough, setWidth_ofInt _ enough,
    part_low _ wide fun _ => regSize_base sized, part_low _ wide fun _ => regSize_index sized,
    BitVec.setWidth_ofNat_of_le enough]

theorem low_cleared (r : Option RegName) (x : BitVec 64) (cleared : x.setWidth 16 = 0) :
    low r m = low r (m.setReg whole x) + BitVec.ofNat 16 (uses r whole) * (m.regs whole).setWidth 16 := by
  unfold low uses
  cases found : r.bind baseReg with
  | none => simp
  | some held =>
      by_cases same : held = whole
      · subst same
        simp [cleared]
      · simp [Machine.setReg_regs, same]

theorem effective_cleared (found : target.addr = .ok e) {x : BitVec 64} (cleared : x.setWidth 16 = 0) :
    (target.effective m).setWidth 16 = (target.effective (m.setReg whole x)).setWidth 16 +
      BitVec.ofNat 16 (target.multiple whole) * (m.regs whole).setWidth 16 := by
  rw [effective_low found, effective_low found, low_cleared target.base x cleared,
    low_cleared target.index x cleared, multiple, BitVec.ofNat_add, BitVec.ofNat_mul]
  ring

theorem multiple_zero (k : Nat) (x : BitVec 64) :
    BitVec.ofNat 16 k * x.setWidth 16 = 0 ↔ 2 ^ 16 ∣ k * x.toNat := by
  rw [← BitVec.toNat_inj, BitVec.toNat_mul, BitVec.toNat_ofNat, BitVec.toNat_setWidth, ← Nat.mul_mod,
    Nat.dvd_iff_mod_eq_zero]
  rfl

end MemRef

structure LoadsAddress (target : MemRef) (r : RegName) (m m' : Mach) : Prop where
  result : r.read (regSize r) m' = (target.effective m).setWidth _
  memory : m'.mem = m.mem
  flags : m'.regs .efl = m.regs .efl

section

variable {ub : Undef} {target : MemRef} {e : Exp} {r : RegName} {whole : Reg} {m : Mach}

theorem denoteLea_reg (base : baseReg r = some whole) :
    denoteLea ub (.mem target) (.reg r) (regSize r) m =
      let cleared := m.setReg whole (r.clear (m.regs whole))
      m.setReg whole (r.put (m.regs whole) ((target.address ub cleared).setWidth (regSize r).bits)) := by
  have narrow : (regSize r).bits ≤ 64 := by cases regSize r <;> decide
  have known : (baseReg r).isSome := by simp [base]
  have value (m : Mach) : ((target.addressVal ub m).cast (regSize r).uint).conv (.uint 64) =
      ((target.address ub m).setWidth (regSize r).bits).setWidth 64 := by
    rw [← addressVal_conv, Val.cast_conv_self, Val.conv_setWidth _ _ _ narrow]
    exact Val.conv_unsigned ..
  unfold denoteLea
  simp only
  rw [Operand.store_reg base rfl fun _ => narrow, value, RegName.insert_eq_put known]

theorem loadsAddress_iff (found : target.addr = .ok e) (reach : -2 ^ 31 < target.offset)
    (base : baseReg r = some whole) (general : whole ≠ .efl) (wide : regSize r ≠ .b) :
    LoadsAddress target r m (denoteLea ub (.mem target) (.reg r) (regSize r) m) ↔
      (regSize r = .w → 2 ^ 16 ∣ target.multiple whole * (m.regs whole).toNat) := by
  have known : (baseReg r).isSome := by simp [base]
  rw [denoteLea_reg base]
  simp only
  rw [MemRef.address_effective found reach]
  have flags (x : BitVec 64) : (m.setReg whole x).regs .efl = m.regs .efl := by
    rw [Machine.setReg_regs, if_neg general.symm]
  have field (x : BitVec 64) : r.read (regSize r) (m.setReg whole x) = r.field (regSize r) x := by
    simp [RegName.read, base]
  refine Iff.trans ⟨LoadsAddress.result, fun result => ⟨result, rfl, flags _⟩⟩ ?_
  rw [field, RegName.field_put known]
  cases r with
  | other name => cases base
  | l g | h g => exact absurd rfl wide
  | q held | d g => simp [RegName.clear, regSize]
  | w g =>
      have cleared : ((RegName.w g).clear (m.regs whole)).setWidth 16 = 0 := by
        apply BitVec.eq_of_getLsbD_eq
        intro k inside
        rw [BitVec.getLsbD_setWidth, RegName.clear_bit _ _ _ (by omega)]
        simp [inside]
      change (target.effective _).setWidth 16 = (target.effective m).setWidth 16 ↔ _
      rw [@MemRef.effective_cleared target e m whole found _ cleared, left_eq_add, MemRef.multiple_zero]
      exact ⟨fun zero _ => zero, fun zero => zero rfl⟩

end

/-- The emitted `lea` is right unless it masks a 16-bit register that its own address is taken from. -/
theorem executes_lea_iff {ub : Undef} {i : Instruction} {target : MemRef} {r : RegName} {g : Gpr}
    {m m' : Mach} (op : i.op = .lea) (args : i.operands = [.mem target, .reg r])
    (base : baseReg r = some (.gpr g)) (wide : regSize r ≠ .b) (reach : -2 ^ 31 < target.offset)
    (executed : Executes ub [i] m m') :
    LoadsAddress target r (stepRip i m) m' ↔
      (i.nothingToDo = false ∧
        (regSize r = .w → 2 ^ 16 ∣ target.multiple (.gpr g) * (m.regs (.gpr g)).toNat)) ∨
      i.Idle (LoadsAddress target r (stepRip i m)) m := by
  have first : i.arg 0 = .mem target := by simp [Instruction.arg, args]
  have second : i.arg 1 = .reg r := by simp [Instruction.arg, args]
  refine executed.required_iff (by simp [op]) fun handled => ?_
  obtain ⟨s, out, s', emitted⟩ := executed.emitted i (by simp)
  have width : i.bits1 = regSize r := by
    have stored := executed.stores handled (i.arg 1, i.bits1) (by simp [Instruction.stores, op])
    rw [second] at stored
    exact stored.1
  obtain ⟨source, same, e, found⟩ := emitBody_lea emitted handled op
  cases first.symm.trans same
  rw [executed.single (by simp [op]) handled]
  simp only [denoteOp, op, first, second, width]
  exact loadsAddress_iff found reach base (by simp) wide

def leaTriple : Instruction :=
  { original := "leal   0x4(%rax,%rax,2),%eax", vaddr := 0x1000, length := 4, op := .lea,
    size1 := some .l,
    operands := [.mem ⟨none, 4, some (.q (.gpr .rax)), some (.q (.gpr .rax)), .two⟩, .reg (.d .rax)] }

theorem executes_lea_iff_triple :
    ∃ m', Executes default [leaTriple] onesInRegisters m' ∧
      LoadsAddress ⟨none, 4, some (.q (.gpr .rax)), some (.q (.gpr .rax)), .two⟩ (.d .rax)
        (stepRip leaTriple onesInRegisters) m' := by
  have emitted : EmittedAlone leaTriple ((printed (emitFunction .alone leaTriple)).get rfl) :=
    ⟨.initial, _, rfl⟩
  have executed : Executes default [leaTriple] onesInRegisters _ := .alone emitted .done
  exact ⟨_, executed, (executes_lea_iff rfl rfl rfl (by decide) (by decide) executed).mpr
    (.inl (by decide))⟩

def leaNarrow : Instruction :=
  { original := "leaw   0x4(%rax),%ax", vaddr := 0x1000, length := 4, op := .lea, size1 := some .w,
    operands := [.mem ⟨none, 4, some (.q (.gpr .rax)), none, .one⟩, .reg (.w .rax)] }

theorem lea_masks_base :
    ∃ m', Executes default [leaNarrow] onesInRegisters m' ∧ m'.regs (.gpr .rax) = 4 ∧
      ¬ LoadsAddress ⟨none, 4, some (.q (.gpr .rax)), none, .one⟩ (.w .rax)
        (stepRip leaNarrow onesInRegisters) m' := by
  have emitted : EmittedAlone leaNarrow ((printed (emitFunction .alone leaNarrow)).get rfl) :=
    ⟨.initial, _, rfl⟩
  refine ⟨_, .alone emitted .done, by decide, fun loads => ?_⟩
  have result := loads.result
  revert result
  decide

def Instruction.condition (i : Instruction) (flag : Nat → Bool) : Bool :=
  match i.cond with
  | some code => ((i.cEq && code ≠ .z && flag flagZF) || code.test flag) != i.cNeg
  | none => true

/-- The manual's `cmov`, which zero-extends a 32-bit destination in any case. -/
structure MovesIf (condition : Bool) (src : Operand) (r : RegName) (g : Gpr) (m m' : Mach) : Prop where
  moved : condition = true →
    m'.regs (.gpr g) = r.put (m.regs (.gpr g)) (src.read (regSize r) m)
  kept : condition = false → m'.regs (.gpr g) = r.narrow (m.regs (.gpr g))
  others : ∀ held, held ≠ .gpr g → m'.regs held = m.regs held
  memory : m'.mem = m.mem

section

variable {ub : Undef} {i : Instruction} {src dest : Operand} {size : Size} {r : RegName} {g : Gpr}
  {m : Mach}

theorem condTaken_condition : condTaken ub i m = i.condition (eflBit m) := by
  unfold Instruction.condition
  cases conditional : i.cond with
  | none => simp [condTaken, conditional]
  | some code => exact condTaken_eq ub conditional m

theorem denoteMov_write :
    denoteMov ub false src dest size size m = dest.write ub size ⟨size.uint, src.value ub size m⟩ m := by
  simp [denoteMov, Operand.fetch]

theorem denoteCmov_reg (unsigned : i.signExt = false) (width : i.bits1 = regSize r ∧ i.bits2 = regSize r)
    (second : i.arg 1 = .reg r) (base : baseReg r = some (.gpr g)) :
    denoteCmov ub i m =
      let old := m.regs (.gpr g)
      m.setReg (.gpr g)
        (if i.condition (eflBit m) then
          r.put old ((i.arg 0).value ub (regSize r) (m.setReg (.gpr g) (r.narrow old)))
        else r.narrow old) := by
  have known : (baseReg r).isSome := by simp [base]
  have narrowed : denoteMov ub false (.reg r) (.reg r) (regSize r) (regSize r) m =
      m.setReg (.gpr g) (r.narrow (m.regs (.gpr g))) := by
    rw [denoteMov_write, Operand.write_put base rfl, Operand.value_reg base rfl, RegName.put_field known]
  have flags (x : BitVec 64) : eflBit (m.setReg (.gpr g) x) = eflBit m := rfl
  simp only [denoteCmov, unsigned, width, second, narrowed, condTaken_condition, flags]
  split
  · rw [denoteMov_write, Operand.write_put base rfl]
    simp only [Machine.setReg_setReg, Machine.setReg_regs_self]
    rw [← RegName.put_field known, RegName.put_put known]
  · rfl

theorem field_narrow (name : RegName) (same : regSize name = regSize r) (x : BitVec 64) :
    name.field (regSize r) (r.narrow x) = name.field (regSize r) x := by
  cases r with
  | q held | w held | l held | h held | other text => rfl
  | d held =>
      cases name <;> simp [regSize] at same
      simp [RegName.field, RegName.narrow, RegName.keeps, regSize, Size.bits]

theorem value_narrowed (fetched : src.Fetchable (regSize r))
    (notMem : ∀ target, src ≠ .mem target) :
    src.value ub (regSize r) (m.setReg (.gpr g) (r.narrow (m.regs (.gpr g)))) = src.read (regSize r) m := by
  rw [Operand.value_read fetched fun target same => absurd same (notMem target)]
  cases src with
  | imm n | addr n symbol => rfl
  | mem target => exact absurd rfl (notMem target)
  | reg name =>
      obtain ⟨e, found⟩ := fetched
      obtain ⟨_, checked, _⟩ := except_bind_ok found
      have width : regSize name = regSize r := by simpa [eq_comm] using MemRef.check_ok checked
      simp only [Operand.read, RegName.read]
      cases held : baseReg name with
      | none => rfl
      | some whole =>
          simp only
          by_cases same : whole = .gpr g
          · rw [same, Machine.setReg_regs_self, field_narrow name width]
          · rw [Machine.setReg_regs, if_neg same]

end

/-- The emitted `cmov` is right unless the narrowed destination leads it to other bytes. -/
theorem executes_cmov_iff {ub : Undef} {i : Instruction} {src : Operand} {r : RegName} {g : Gpr}
    {m m' : Mach} (op : i.op = .cmov) (args : i.operands = [src, .reg r])
    (base : baseReg r = some (.gpr g)) (plain : src.Plain) (executed : Executes ub [i] m m') :
    MovesIf (i.condition (eflBit m)) src r g (stepRip i m) m' ↔
      (i.nothingToDo = false ∧ (i.condition (eflBit m) = true → ∀ target, src = .mem target →
        let narrowed := (stepRip i m).setReg (.gpr g) (r.narrow (m.regs (.gpr g)))
        m.mem.load (target.effective narrowed) (regSize r).bits =
          m.mem.load (target.effective (stepRip i m)) (regSize r).bits)) ∨
      i.Idle (MovesIf (i.condition (eflBit m)) src r g (stepRip i m)) m := by
  have first : i.arg 0 = src := by simp [Instruction.arg, args]
  have second : i.arg 1 = .reg r := by simp [Instruction.arg, args]
  have known : (baseReg r).isSome := by simp [base]
  have unsigned : i.signExt = false := Instruction.signExt_eq_false (by simp [op])
  refine executed.required_iff (by simp [op]) fun handled => ?_
  obtain ⟨s, out, s', emitted⟩ := executed.emitted i (by simp)
  obtain ⟨⟨e, old⟩, fetched⟩ := emitBody_cmov emitted handled op
  have width : i.bits1 = regSize r ∧ i.bits2 = regSize r := by
    have stored := executed.stores handled (i.arg 1, i.bits2) (by simp [Instruction.stores, op])
    rw [second] at stored old
    obtain ⟨_, checked, _⟩ := except_bind_ok old
    exact ⟨by simpa using MemRef.check_ok checked, stored.1⟩
  rw [first, width.1] at fetched
  rw [executed.single (by simp [op]) handled]
  simp only [denoteOp, op]
  rw [denoteCmov_reg unsigned width second base, first]
  have flags : eflBit (stepRip i m) = eflBit m := rfl
  have before : (stepRip i m).regs (.gpr g) = m.regs (.gpr g) := rfl
  simp only [flags]
  constructor
  · intro moves holds target memory
    subst memory
    have moved := moves.moved holds
    simp only [holds, if_true, Machine.setReg_regs_self, RegName.put_inj known] at moved
    rwa [Operand.value_read fetched plain.reach] at moved
  · intro right
    refine ⟨fun holds => ?_, fun fails => ?_, fun held other => ?_, rfl⟩
    · simp only [holds, if_true, Machine.setReg_regs_self, RegName.put_inj known]
      by_cases memory : ∃ target, src = .mem target
      · obtain ⟨target, rfl⟩ := memory
        rw [Operand.value_read fetched plain.reach]
        exact right holds target rfl
      · exact value_narrowed fetched fun target same => memory ⟨target, same⟩
    · simp [fails]
    · rw [Machine.setReg_regs, if_neg other]

def cmovThrough : Instruction :=
  { original := "cmovbl 0x8(%rax),%eax", vaddr := 0x1000, length := 4, op := .cmov, size1 := some .l,
    cond := some .c, operands := [.mem ⟨none, 8, some (.q (.gpr .rax)), none, .one⟩, .reg (.d .rax)] }

theorem executes_cmov_iff_through :
    ∃ m', Executes default [cmovThrough] onesInRegisters m' ∧
      MovesIf (cmovThrough.condition (eflBit onesInRegisters))
        (.mem ⟨none, 8, some (.q (.gpr .rax)), none, .one⟩) (.d .rax) .rax
        (stepRip cmovThrough onesInRegisters) m' := by
  have emitted : EmittedAlone cmovThrough ((printed (emitFunction .alone cmovThrough)).get rfl) :=
    ⟨.initial, _, rfl⟩
  have executed : Executes default [cmovThrough] onesInRegisters _ := .alone emitted .done
  refine ⟨_, executed, (executes_cmov_iff rfl rfl rfl (by decide) executed).mpr (.inl ⟨by decide, ?_⟩)⟩
  rintro _ target same
  cases same
  decide

def highPointer : Mach where
  regs r := if r = .gpr .rax then 0x100000000 else 1
  mem a := if a = 8 then 7 else 0

theorem cmov_truncates_pointer :
    cmovThrough.condition (eflBit highPointer) = true ∧
      highPointer.mem.load 0x100000008 32 = 0 ∧
      ∃ m', Executes default [cmovThrough] highPointer m' ∧ m'.regs (.gpr .rax) = 7 ∧
        ¬ MovesIf (cmovThrough.condition (eflBit highPointer))
          (.mem ⟨none, 8, some (.q (.gpr .rax)), none, .one⟩) (.d .rax) .rax
          (stepRip cmovThrough highPointer) m' := by
  have emitted : EmittedAlone cmovThrough ((printed (emitFunction .alone cmovThrough)).get rfl) :=
    ⟨.initial, _, rfl⟩
  refine ⟨by decide, by decide, _, .alone emitted .done, by decide, fun moves => ?_⟩
  have moved := moves.moved (by decide)
  revert moved
  decide

end Tase
