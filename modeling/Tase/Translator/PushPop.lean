import Tase.Translator.Transfer

/-! `push` and `pop` of operands that mention the stack pointer. -/

namespace Tase

open Cpp

def stackDown (size : Size) (m : Mach) : Mach :=
  m.setReg (.gpr .rsp) (m.regs (.gpr .rsp) - BitVec.ofNat 64 size.bytes)

def stackUp (size : Size) (m : Mach) : Mach :=
  m.setReg (.gpr .rsp) (m.regs (.gpr .rsp) + BitVec.ofNat 64 size.bytes)

def stackTop (size : Size) (m : Mach) : BitVec size.bits := m.mem.load (m.regs (.gpr .rsp)) size.bits

/-- The manual's `push`: the source is evaluated first. -/
def afterPush (size : Size) (source : Operand) (m : Mach) : Mach :=
  (stackDown size m).store (m.regs (.gpr .rsp) - BitVec.ofNat 64 size.bytes) (source.read size m)

/-- The manual's `pop`: the destination is found last. -/
def afterPop (size : Size) (dest : Operand) (m : Mach) : Mach :=
  dest.writeAt size (stackUp size m) (stackTop size m) (stackUp size m)

/-- The operand is no part of the stack pointer, and a memory operand is reached with the stack pointer
that the emitted code finds. -/
def StackOperand (op : Op) (size : Size) (o : Operand) (m : Mach) : Prop :=
  o.target ≠ some (.gpr .rsp) ∧ ∀ target, o = .mem target →
    if op = .push then
      m.mem.load (target.effective (stackDown size m)) size.bits =
        m.mem.load (target.effective m) size.bits
    else
      m.mem.store (target.effective m) (stackTop size m) =
        m.mem.store (target.effective (stackUp size m)) (stackTop size m)

section

variable {ub : Undef} {o : Operand} {size : Size} {m : Mach} {r : RegName}

theorem denotePush_down (signed : Bool) :
    denotePush ub signed o size m = (stackDown size m).store
      (m.regs (.gpr .rsp) - BitVec.ofNat 64 size.bytes) (o.value ub size (stackDown size m)) := by
  rw [denotePush_eq]
  simp only [Machine.setReg_regs_self]
  rfl

theorem denotePop_up : denotePop ub false o size m =
    stackUp size (o.write ub size ⟨size.uint, stackTop size m⟩ m) := by
  have read : (rspMem 0).value ub size m = stackTop size m := by
    change (Operand.mem ⟨none, 0, some (.q (.gpr .rsp)), none, .one⟩).value ub size m = _
    rw [Operand.value_mem rfl, rspMem_address (by decide)]
    simp [stackTop]
  rw [denotePop_eq, denoteMov_write, read]
  rfl

theorem field_moved (base : baseReg r = some (.gpr .rsp)) (named : r ≠ .h .rsp) (x : BitVec 64) :
    r.field (regSize r) (x + BitVec.ofNat 64 (regSize r).bytes) ≠ r.field (regSize r) x := by
  have field (y : BitVec 64) : r.field (regSize r) y = y.setWidth _ := by
    cases r with
    | h g =>
        cases base
        exact absurd rfl named
    | _ => rfl
  have narrow : (regSize r).bits ≤ 64 := by cases regSize r <;> decide
  have small : (regSize r).bytes % 2 ^ (regSize r).bits ≠ 0 := by cases regSize r <;> decide
  rw [field, field, BitVec.setWidth_add _ _ narrow, BitVec.setWidth_ofNat_of_le narrow]
  intro same
  have zero := congrArg BitVec.toNat (add_eq_left.mp same)
  rw [BitVec.toNat_ofNat] at zero
  exact small zero

theorem push_iff (fetched : o.Fetchable size) (reach : o.InReach) (named : o ≠ .reg (.h .rsp)) :
    denotePush ub false o size m = afterPush size o m ↔ StackOperand .push size o m := by
  have whole := Operand.bits_whole size
  have source : denotePush ub false o size m = afterPush size o m ↔
      o.value ub size (stackDown size m) = o.read size m := by
    rw [denotePush_down, afterPush, ← @Mem.store_inj _ m.mem
      (m.regs (.gpr .rsp) - BitVec.ofNat 64 size.bytes) _ _ whole.1 whole.2]
    exact ⟨congrArg Machine.mem, congrArg (Machine.mk _)⟩
  rw [source, Operand.value_read fetched reach]
  unfold StackOperand
  cases o with
  | imm n | addr n symbol => simp [Operand.read, Operand.target]
  | mem target =>
      simp only [Operand.target, ne_eq, reduceCtorEq, not_false_eq_true, true_and, if_true,
        Operand.mem.injEq, forall_eq']
      rfl
  | reg r =>
      obtain ⟨e, found⟩ := fetched
      obtain ⟨_, checked, _⟩ := except_bind_ok found
      have width : size = regSize r := by simpa using MemRef.check_ok checked
      subst width
      simp only [Operand.read, Operand.target, reduceCtorEq, false_implies, implies_true, and_true]
      by_cases base : baseReg r = some (.gpr .rsp)
      · have moved := field_moved base (by simpa using named)
          (m.regs (.gpr .rsp) - BitVec.ofNat 64 (regSize r).bytes)
        rw [BitVec.sub_add_cancel] at moved
        simp only [RegName.read, base, stackDown, Machine.setReg_regs_self, ne_eq, not_true_eq_false,
          iff_false]
        exact moved.symm
      · refine iff_of_true ?_ base
        unfold RegName.read
        split
        · rename_i whole held
          rw [stackDown, Machine.setReg_regs, if_neg fun same => base (held.trans (by rw [same]))]
        · rfl

theorem pop_iff (storable : o.Storable size) (reach : o.InReach) (named : o ≠ .reg (.h .rsp)) :
    denotePop ub false o size m = afterPop size o m ↔ StackOperand .pop size o m := by
  rw [denotePop_up]
  unfold StackOperand afterPop
  cases o with
  | imm n | addr n symbol => exact storable.elim
  | mem target =>
      obtain ⟨e, found⟩ := storable
      rw [Operand.write_mem, MemRef.address_effective found (reach target rfl)]
      simp only [Operand.target, ne_eq, reduceCtorEq, not_false_eq_true, true_and, if_false,
        Operand.mem.injEq, forall_eq']
      exact ⟨congrArg Machine.mem, congrArg (Machine.mk _)⟩
  | reg r =>
      obtain ⟨width, known⟩ := storable
      obtain ⟨whole, base⟩ := Option.isSome_iff_exists.mp known
      subst width
      simp only [Operand.target, reduceCtorEq, false_implies, implies_true, and_true]
      rw [Operand.write_put base rfl, Operand.writeAt_reg base, stackUp, stackUp, base]
      by_cases rsp : whole = .gpr .rsp
      · subst rsp
        have moved := field_moved base (by simpa using named)
          (r.put (m.regs (.gpr .rsp)) (stackTop (regSize r) m))
        rw [RegName.field_put known] at moved
        refine iff_of_false (fun same => moved ?_) (by simp)
        have held := congrArg (fun m : Mach => r.field (regSize r) (m.regs (.gpr .rsp))) same
        simpa [RegName.field_put known] using held
      · refine iff_of_true ?_ (by simpa using rsp)
        have kept (x : BitVec 64) : (m.setReg whole x).regs (.gpr .rsp) = m.regs (.gpr .rsp) := by
          rw [Machine.setReg_regs, if_neg fun same => rsp same.symm]
        have other (x : BitVec 64) : (m.setReg (.gpr .rsp) x).regs whole = m.regs whole := by
          rw [Machine.setReg_regs, if_neg rsp]
        rw [kept, other, Machine.setReg_comm _ _ _ _ _ rsp]

end

/-- The emitted `push` and `pop` are right exactly for operands that do not depend on the moment at which
the stack pointer moves. The translator also knows a name `sph`, which the processor does not have. -/
theorem executes_push_pop_iff {ub : Undef} {i : Instruction} {o : Operand} {m m' : Mach}
    (op : i.op = .push ∨ i.op = .pop) (args : i.operands = [o]) (named : o ≠ .reg (.h .rsp))
    (plain : o.Plain) (executed : Executes ub [i] m m') :
    let after := (if i.op = .push then afterPush else afterPop) i.bits1 o (stepRip i m)
    m' = after ↔
      (i.nothingToDo = false ∧ StackOperand i.op i.bits1 o (stepRip i m)) ∨ i.Idle (· = after) m := by
  have notLoop : i.op ≠ .loop := by rcases op with op | op <;> simp [op]
  have first : i.arg 0 = o := by simp [Instruction.arg, args]
  have unsigned : i.signExt = false :=
    Instruction.signExt_eq_false (by rcases op with op | op <;> simp [op])
  intro after
  refine @Executes.required_iff _ _ _ _ (· = after) _ executed notLoop fun handled => ?_
  rw [executed.single notLoop handled]
  simp only [after]
  rcases op with op | op
  · obtain ⟨s, out, s', emitted⟩ := executed.emitted i (by simp)
    have fetched := emitBody_push emitted handled op
    rw [first] at fetched
    simp only [denoteOp, op, first, unsigned, if_true]
    exact push_iff fetched plain.reach named
  · have stored := executed.stores handled (i.arg 0, i.bits1) (by simp [Instruction.stores, op])
    rw [first] at stored
    simp only [denoteOp, op, first, unsigned, reduceCtorEq, if_false]
    exact pop_iff stored plain.reach named

def pushMemory : Instruction :=
  { original := "pushq  0x8(%rdx)", vaddr := 0x1000, length := 3, op := .push, size1 := some .q,
    operands := [.mem ⟨none, 8, some (.q (.gpr .rdx)), none, .one⟩] }

theorem executes_push_pop_iff_pushMemory :
    ∃ m', Executes default [pushMemory] onesInRegisters m' ∧
      m' = afterPush .q (.mem ⟨none, 8, some (.q (.gpr .rdx)), none, .one⟩)
        (stepRip pushMemory onesInRegisters) := by
  have emitted : EmittedAlone pushMemory ((printed (emitFunction .alone pushMemory)).get rfl) :=
    ⟨.initial, _, rfl⟩
  have executed : Executes default [pushMemory] onesInRegisters _ := .alone emitted .done
  refine ⟨_, executed, (executes_push_pop_iff (.inl rfl) rfl (by simp) (by decide) executed).mpr
    (.inl ⟨by decide, by simp [Operand.target], fun target same => ?_⟩)⟩
  cases same
  rw [if_pos (show pushMemory.op = .push from rfl)]
  decide

def pushSlot : Instruction :=
  { original := "pushq  0x8(%rsp)", vaddr := 0x1000, length := 4, op := .push, size1 := some .q,
    operands := [rspMem 8] }

def twoSlots : Mach where
  regs _ := 0x100
  mem a := if a = 0x100 then 5 else if a = 0x108 then 7 else 0

theorem push_reads_moved_slot :
    twoSlots.mem.load 0x108 64 = 7 ∧
      ∃ m', Executes default [pushSlot] twoSlots m' ∧ m'.mem.load (m'.regs (.gpr .rsp)) 64 = 5 ∧
        m' ≠ afterPush .q (rspMem 8) (stepRip pushSlot twoSlots) := by
  have emitted : EmittedAlone pushSlot ((printed (emitFunction .alone pushSlot)).get rfl) :=
    ⟨.initial, _, rfl⟩
  refine ⟨by decide, _, .alone emitted .done, by decide, fun same => ?_⟩
  have slot := congrArg (fun m : Mach => m.mem 0xf8) same
  revert slot
  decide

structure FlagsSaved (size : Size) (m m₁ m₂ m₃ : Mach) : Prop where
  lowered : m₁.regs (.gpr .rsp) = m.regs (.gpr .rsp) - BitVec.ofNat 64 size.bytes
  saved : stackTop size m₁ = (m.regs .efl).setWidth size.bits
  saveOnly (a : BitVec 64) : size.bytes ≤ (a - m₁.regs (.gpr .rsp)).toNat → m₁.mem a = m.mem a
  loaded : (m₃.regs .efl).setWidth size.bits = stackTop size m₂
  loadOnly (a : BitVec 64) : size.bytes ≤ (a - m₂.regs (.gpr .rsp)).toNat → m₃.mem a = m₂.mem a
  restored : m₃.regs .efl = m.regs .efl

structure KeepsTop (ub : Undef) (between : List Instruction) (size : Size) (m m' : Mach) : Prop where
  ran : Executes ub between m m'
  pointer : m'.regs (.gpr .rsp) = m.regs (.gpr .rsp)
  slot : stackTop size m' = stackTop size m

section

variable {ub : Undef} {i : Instruction} {m m' : Mach}

theorem executes_pushf (op : i.op = .pushf) (handled : i.nothingToDo = false)
    (executed : Executes ub [i] m m') :
    m' = (stackDown i.bits1 (stepRip i m)).store
      (m.regs (.gpr .rsp) - BitVec.ofNat 64 i.bits1.bytes) (m.mem.load 0xef i.bits1.bits) := by
  -- The operand that is meant to be the flags is the memory at `0xef`.
  rw [executed.single (by simp [op]) handled]
  simp only [denoteOp, op]
  rw [denotePush_down, eflTextOperand, Operand.value_mem rfl]
  rfl

theorem executes_popf (op : i.op = .popf) (handled : i.nothingToDo = false)
    (executed : Executes ub [i] m m') :
    m' = stackUp i.bits1 ((stepRip i m).store 0xef (stackTop i.bits1 m)) := by
  have unsigned : i.signExt = false := Instruction.signExt_eq_false (by simp [op])
  rw [executed.single (by simp [op]) handled]
  simp only [denoteOp, op, unsigned]
  rw [denotePop_up, eflTextOperand, Operand.write_mem]
  rfl

end

/-- `pushf` and `popf` keep the flags only where memory happens to hold them. -/
theorem flagsSaved_iff {ub : Undef} {i j : Instruction} {between : List Instruction} {size : Size}
    {m m₁ m₂ m₃ : Mach} (save : i.op = .pushf ∧ i.bits1 = size ∧ i.nothingToDo = false)
    (restore : j.op = .popf ∧ j.bits1 = size ∧ j.nothingToDo = false)
    (first : Executes ub [i] m m₁) (kept : KeepsTop ub between size m₁ m₂)
    (last : Executes ub [j] m₂ m₃) :
    FlagsSaved size m m₁ m₂ m₃ ↔
      m.mem.load 0xef size.bits = (m.regs .efl).setWidth size.bits ∧ m₂.regs .efl = m.regs .efl ∧
        ∀ a : BitVec 64, size.bytes ≤ (a - m₂.regs (.gpr .rsp)).toNat →
          m₂.mem.store 0xef ((m.regs .efl).setWidth size.bits) a = m₂.mem a := by
  have pushes := executes_pushf save.1 save.2.2 first
  have pops := executes_popf restore.1 restore.2.2 last
  rw [save.2.1] at pushes
  rw [restore.2.1] at pops
  have bytes : size.bytes = size.bits / 8 := by cases size <;> rfl
  have lowered : m₁.regs (.gpr .rsp) = m.regs (.gpr .rsp) - BitVec.ofNat 64 size.bytes := by
    rw [pushes, Machine.store_regs, stackDown, Machine.setReg_regs_self]
    rfl
  have top : stackTop size m₁ = m.mem.load 0xef size.bits := by
    rw [stackTop, lowered, pushes]
    exact Mem.load_store_same _ _ _ (Operand.bits_whole size).1 (Operand.bits_whole size).2
  have flags : m₃.regs .efl = m₂.regs .efl := by
    rw [pops]
    rfl
  have memory : m₃.mem = m₂.mem.store 0xef (stackTop size m₂) := by
    rw [pops]
    rfl
  rw [kept.slot, top] at memory
  constructor
  · intro done
    have held : m.mem.load 0xef size.bits = (m.regs .efl).setWidth size.bits := top.symm.trans done.saved
    refine ⟨held, flags.symm.trans done.restored, fun a outside => ?_⟩
    rw [← held, ← memory]
    exact done.loadOnly a outside
  · rintro ⟨held, same, untouched⟩
    refine ⟨lowered, top.trans held, fun a outside => ?_, ?_, fun a outside => ?_, flags.trans same⟩
    · rw [lowered] at outside
      rw [pushes]
      exact Mem.store_outside _ _ _ _ (bytes ▸ outside)
    · rw [flags, same, kept.slot, top, held]
    · rw [memory, held]
      exact untouched a outside

def pushFlags : Instruction :=
  { original := "pushfq", vaddr := 0x1000, length := 1, op := .pushf, size1 := some .q }

def popFlags : Instruction :=
  { original := "popfq", vaddr := 0x1001, length := 1, op := .popf, size1 := some .q }

def stackAtFlags : Mach := (onesInRegisters.setReg .efl 0).setReg (.gpr .rsp) 0xf7

theorem flagsSaved_iff_stackAtFlags :
    ∃ m₁ m₃, Executes default [pushFlags] stackAtFlags m₁ ∧ Executes default [popFlags] m₁ m₃ ∧
      FlagsSaved .q stackAtFlags m₁ m₁ m₃ := by
  have saves : EmittedAlone pushFlags ((printed (emitFunction .alone pushFlags)).get rfl) :=
    ⟨.initial, _, rfl⟩
  have restores : EmittedAlone popFlags ((printed (emitFunction .alone popFlags)).get rfl) :=
    ⟨.initial, _, rfl⟩
  have first : Executes default [pushFlags] stackAtFlags _ := .alone saves .done
  refine ⟨_, _, first, .alone restores .done, (@flagsSaved_iff default pushFlags popFlags [] .q _ _ _ _
    ⟨rfl, rfl, by decide⟩ ⟨rfl, rfl, by decide⟩ first ⟨.done, rfl, rfl⟩ (.alone restores .done)).mpr
    ⟨by decide, by decide, fun a outside => ?_⟩⟩
  exact Mem.store_outside _ _ _ _ outside

theorem flags_not_saved :
    ∃ m₁ m₃, Executes default [pushFlags] onesInRegisters m₁ ∧ Executes default [popFlags] m₁ m₃ ∧
      onesInRegisters.regs .efl = 1 ∧ stackTop .q m₁ = 0 ∧
      ¬ FlagsSaved .q onesInRegisters m₁ m₁ m₃ := by
  -- With CF set and zeros in memory, `pushf` saves a zero.
  have saves : EmittedAlone pushFlags ((printed (emitFunction .alone pushFlags)).get rfl) :=
    ⟨.initial, _, rfl⟩
  have restores : EmittedAlone popFlags ((printed (emitFunction .alone popFlags)).get rfl) :=
    ⟨.initial, _, rfl⟩
  refine ⟨_, _, .alone saves .done, .alone restores .done, rfl, by decide, fun done => ?_⟩
  have saved := done.saved
  revert saved
  decide

end Tase
