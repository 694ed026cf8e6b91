import Tase.Translator.Transfer

/-! `xchg` and `xadd`. The second store finds its address after the first. -/

namespace Tase

open Cpp

def brought {n : Nat} (op : Op) (source dest : BitVec n) : BitVec n :=
  if op = .xadd then (Outcome.sum source dest false).result else source

def exchange (op : Op) (size : Size) (a b : Operand) (m : Mach) : Mach :=
  b.writeAt size m (brought op (a.read size m) (b.read size m)) (a.writeAt size m (b.read size m) m)

structure Exchanged (op : Op) (size : Size) (a b : Operand) (m m' : Mach) : Prop where
  dest : b.readAt size m m' = brought op (a.read size m) (b.read size m)
  source : op = .xchg ∨ a ≠ b → a.readAt size m m' = b.read size m
  registers : ∀ r, op = .xchg ∨ r ≠ .efl → m'.regs r = (exchange op size a b m).regs r
  memory : m'.mem = (exchange op size a b m).mem
  flags : op = .xadd → let sum := Outcome.sum (a.read size m) (b.read size m) false
    eflBit m' flagCF = sum.carry ∧ eflBit m' flagOF = sum.overflow ∧
      eflBit m' flagZF = decide (sum.result = 0) ∧ eflBit m' flagSF = sum.result.msb

inductive ExchangeForm (op : Op) : Operand → Operand → Prop
  | registers {r s : RegName} {g h : Gpr} (source : baseReg r = some (.gpr g))
      (dest : baseReg s = some (.gpr h)) : ExchangeForm op (.reg r) (.reg s)
  | toMemory {r : RegName} {g : Gpr} {target : MemRef} (source : baseReg r = some (.gpr g)) :
      ExchangeForm op (.reg r) (.mem target)
  | fromMemory {s : RegName} {h : Gpr} {target : MemRef} (plain : op = .xchg)
      (dest : baseReg s = some (.gpr h)) : ExchangeForm op (.mem target) (.reg s)

/-- A memory operand that comes second is stored to when the first operand already has its new value; there
the store has to have the effect of a store to the operand. -/
def ExchangeLands (op : Op) (size : Size) (a b : Operand) (m : Mach) : Prop :=
  ∀ target, b = .mem target →
    m.mem.store (target.effective (a.writeAt size m (b.read size m) m))
        (brought op (a.read size m) (b.read size m)) =
      m.mem.store (target.effective m) (brought op (a.read size m) (b.read size m))

section

variable {op : Op} {size : Size} {a b : Operand} {m m' : Mach}

theorem exchange_dest (storable : b.Storable size) :
    b.readAt size m (exchange op size a b m) = brought op (a.read size m) (b.read size m) := by
  cases b with
  | imm n | addr n symbol => exact storable.elim
  | mem target => exact Mem.load_store_same _ _ _ (Operand.bits_whole size).1 (Operand.bits_whole size).2
  | reg s =>
      rw [exchange]
      exact (Operand.read_writeAt storable.1 storable).trans (if_pos rfl)

theorem exchange_source (form : ExchangeForm op a b) (stores : a.Storable size ∧ b.Storable size)
    (apart : op = .xchg ∨ a ≠ b) : a.readAt size m (exchange op size a b m) = b.read size m := by
  cases form with
  | fromMemory plain dest =>
      rw [exchange, Operand.writeAt_reg dest]
      exact Mem.load_store_same _ _ _ (Operand.bits_whole size).1 (Operand.bits_whole size).2
  | @registers r s g h source dest =>
      change r.read size (exchange op size (.reg r) (.reg s) m) = _
      rw [exchange, Operand.read_writeAt stores.1.1 stores.2, Operand.read_writeAt stores.1.1 stores.1,
        if_pos rfl]
      split
      · rename_i same
        have plain : op = .xchg := apart.resolve_right fun differ => differ same.symm
        rw [plain, brought, if_neg (by simp), same]
      · rfl
  | @toMemory r g target source =>
      change r.read size (exchange op size (.reg r) (.mem target) m) = _
      rw [exchange, Operand.read_writeAt stores.1.1 stores.2, Operand.read_writeAt stores.1.1 stores.1,
        if_pos rfl, if_neg (by simp)]

theorem Exchanged.of_state (form : ExchangeForm op a b) (stores : a.Storable size ∧ b.Storable size)
    (registers : ∀ r, op = .xchg ∨ r ≠ .efl → m'.regs r = (exchange op size a b m).regs r)
    (memory : m'.mem = (exchange op size a b m).mem)
    (flags : op = .xadd → let sum := Outcome.sum (a.read size m) (b.read size m) false
      eflBit m' flagCF = sum.carry ∧ eflBit m' flagOF = sum.overflow ∧
        eflBit m' flagZF = decide (sum.result = 0) ∧ eflBit m' flagSF = sum.result.msb) :
    Exchanged op size a b m m' := by
  have general {r : RegName} {g : Gpr} (base : baseReg r = some (.gpr g)) :
      r.read size m' = r.read size (exchange op size a b m) := by
    simp only [RegName.read, base]
    rw [registers (.gpr g) (.inr (by simp))]
  have located (target : MemRef) : (Operand.mem target).readAt size m m' =
      (Operand.mem target).readAt size m (exchange op size a b m) := by
    simp only [Operand.readAt, memory]
  refine ⟨?_, fun apart => ?_, registers, memory, flags⟩
  · rw [← @exchange_dest op size a b m stores.2]
    cases form with
    | registers source dest => exact general dest
    | toMemory source => exact located _
    | fromMemory plain dest => exact general dest
  · rw [← @exchange_source op size a b m form stores apart]
    cases form with
    | registers source dest => exact general source
    | toMemory source => exact general source
    | fromMemory plain dest => exact located _

end

section

variable {ub : Undef} {i : Instruction} {op : Op} {size : Size} {a b : Operand} {m : Mach}

def swapped (ub : Undef) (size : Size) (a b : Operand) (v : BitVec size.bits) (m : Mach) : Mach :=
  b.write ub size ⟨size.uint, v⟩ (a.write ub size ⟨size.uint, b.value ub size m⟩ m)

theorem denoteXchg_swapped (first : i.arg 0 = a) (second : i.arg 1 = b) :
    denoteXchg ub i m = swapped ub i.bits1 a b (a.value ub i.bits1 m) m := by
  simp [denoteXchg, swapped, Operand.fetch, first, second]

theorem value_register {r : RegName} (storable : (Operand.reg r).Storable size) :
    (Operand.reg r).value ub size m = r.read size m :=
  Operand.value_read storable.fetchable fun _ same => by cases same

theorem read_swapped {r : RegName} (stores : (Operand.reg r).Storable size ∧ b.Storable size)
    (v : BitVec size.bits) (fits : b = .reg r → v = b.value ub size m) :
    r.read size (swapped ub size (.reg r) b v m) = b.value ub size m := by
  rw [swapped, Operand.read_write stores.1.1 stores.2, Operand.read_write stores.1.1 stores.1,
    if_pos rfl]
  split
  · rename_i same
    exact fits same
  · rfl

theorem denoteXadd_swapped {r : RegName} (first : i.arg 0 = .reg r) (second : i.arg 1 = b)
    (stores : (Operand.reg r).Storable i.bits1 ∧ b.Storable i.bits1) :
    let sum := Outcome.sum (r.read i.bits1 m) (b.value ub i.bits1 m) false
    let m' := denoteXadd ub i m
    (∃ flags, m' = (swapped ub i.bits1 (.reg r) b sum.result m).setReg .efl flags) ∧
      eflBit m' flagCF = sum.carry ∧ eflBit m' flagOF = sum.overflow ∧
      eflBit m' flagZF = decide (sum.result = 0) ∧ eflBit m' flagSF = sum.result.msb := by
  have narrow : i.bits1.uint.width ≤ 64 := (size_cases i.bits1).2
  have old : (Operand.reg r).value ub i.bits1 m = r.read i.bits1 m := value_register stores.1
  have left : b.value ub i.bits1 (denoteXchg ub i m) = r.read i.bits1 m := by
    rw [denoteXchg_swapped first second, swapped, Operand.value_write stores.2 narrow, old]
    simp
  have right : (Operand.reg r).value ub i.bits1 (denoteXchg ub i m) = b.value ub i.bits1 m := by
    rw [value_register stores.1, denoteXchg_swapped first second]
    refine read_swapped stores _ fun same => ?_
    rw [same]
  have outcome (x y : BitVec i.bits1.bits) (c : Bool) :
      (⟨false, false, some true, true, false⟩ : AddMode).outcome x y c = .sum x y false := rfl
  have flags := @denoteAdd_flags ub i (denoteXchg ub i m) none none ⟨false, false, some true, true, false⟩
  obtain ⟨efl, state⟩ := @denoteAdd_eq ub i (denoteXchg ub i m) none none
    ⟨false, false, some true, true, false⟩
  rw [← AddMode.outcome_result] at state
  simp only [Option.getD_none, first, second, left, right, outcome, Bool.true_and, AddMode.target]
    at flags state
  refine ⟨⟨efl, ?_⟩, flags⟩
  rw [denoteXadd, state, denoteXchg_swapped first second, swapped, Operand.write_write stores.2]
  rfl

variable (form : ExchangeForm op a b) (stores : a.Storable size ∧ b.Storable size)
  (reach : a.InReach ∧ b.InReach)
include stores reach

theorem exchange_values :
    a.value ub size m = a.read size m ∧ b.value ub size m = b.read size m :=
  ⟨Operand.value_read stores.1.fetchable reach.1, Operand.value_read stores.2.fetchable reach.2⟩

include form

theorem swapped_parts :
    let done := swapped ub size a b (brought op (a.read size m) (b.read size m)) m
    done.regs = (exchange op size a b m).regs ∧
      (done.mem = (exchange op size a b m).mem ↔ ExchangeLands op size a b m) := by
  have valueB := (@exchange_values ub size a b m stores reach).2
  rw [swapped, exchange, valueB]
  cases form with
  | registers source dest =>
      rw [Operand.write_put source stores.1.1, Operand.write_put dest stores.2.1,
        Operand.writeAt_reg source, Operand.writeAt_reg dest]
      simp [ExchangeLands]
  | @toMemory r g target source =>
      obtain ⟨e, found⟩ := stores.2
      rw [Operand.write_mem, Operand.write_put source stores.1.1,
        MemRef.address_effective found (reach.2 target rfl), ExchangeLands]
      simp only [Operand.mem.injEq, forall_eq', Operand.writeAt_reg source]
      exact ⟨rfl, Iff.rfl⟩
  | @fromMemory s h target plain dest =>
      obtain ⟨e, found⟩ := stores.1
      rw [Operand.write_mem, Operand.write_put dest stores.2.1, Operand.writeAt_reg dest,
        MemRef.address_effective found (reach.1 target rfl)]
      simp only [ExchangeLands, reduceCtorEq, false_implies, implies_true, iff_true]
      exact ⟨rfl, rfl⟩

theorem swapped_eq (lands : ExchangeLands op size a b m) :
    swapped ub size a b (brought op (a.read size m) (b.read size m)) m = exchange op size a b m := by
  obtain ⟨registers, memory⟩ := @swapped_parts ub op size a b m form stores reach
  exact congrArg₂ Machine.mk registers (memory.mpr lands)

end

theorem exchanged_coded {ub : Undef} {i : Instruction} {a b : Operand} {m m' : Mach}
    (op : i.op = .xchg ∨ i.op = .xadd) (args : i.operands = [a, b]) (form : ExchangeForm i.op a b)
    (plain : ∀ o ∈ i.operands, o.Plain) (executed : Executes ub [i] m m') (handled : i.nothingToDo = false) :
    Exchanged i.op i.bits1 a b (stepRip i m) m' ↔ ExchangeLands i.op i.bits1 a b (stepRip i m) := by
  have first : i.arg 0 = a := by simp [Instruction.arg, args]
  have second : i.arg 1 = b := by simp [Instruction.arg, args]
  have reach : a.InReach ∧ b.InReach := by
    rw [← first, ← second]
    exact ⟨(i.arg_plain plain 0).reach, (i.arg_plain plain 1).reach⟩
  have stores : a.Storable i.bits1 ∧ b.Storable i.bits1 := by
    have all : i.stores = [(a, i.bits1), (b, i.bits1)] := by
      rcases op with op | op <;> simp [Instruction.stores, op, first, second]
    have stored := executed.stores handled
    rw [all] at stored
    exact ⟨stored (a, i.bits1) (by simp), stored (b, i.bits1) (by simp)⟩
  have ran := executed.single (by rcases op with op | op <;> simp [op]) handled
  generalize stepRip i m = start at ran
  obtain ⟨valueA, valueB⟩ := @exchange_values ub i.bits1 a b start stores reach
  obtain ⟨registers, memory⟩ := @swapped_parts ub i.op i.bits1 a b start form stores reach
  rw [← memory]
  rcases op with op | op
  · have state : m' = swapped ub i.bits1 a b
        (brought i.op (a.read i.bits1 start) (b.read i.bits1 start)) start := by
      simp only [ran, denoteOp, op, denoteXchg_swapped first second, brought, reduceCtorEq, if_false, valueA]
    rw [← state] at registers ⊢
    constructor
    · exact Exchanged.memory
    · intro same
      refine .of_state form stores (fun r _ => congrFun registers r) same fun add => ?_
      simp [op] at add
  · obtain ⟨r, rfl⟩ : ∃ r, a = .reg r := by
      cases form with
      | registers => exact ⟨_, rfl⟩
      | toMemory => exact ⟨_, rfl⟩
      | fromMemory plain => simp [op] at plain
    obtain ⟨⟨efl, state⟩, flags⟩ := @denoteXadd_swapped ub i b start r first second stores
    rw [show denoteXadd ub i start = m' by simp only [ran, denoteOp, op], valueB] at state flags
    have moved : (Outcome.sum (r.read i.bits1 start) (b.read i.bits1 start) false).result =
        brought i.op ((Operand.reg r).read i.bits1 start) (b.read i.bits1 start) := by
      rw [brought, if_pos op]
      rfl
    rw [moved] at state
    have stored : m'.mem = (swapped ub i.bits1 (.reg r) b
        (brought i.op ((Operand.reg r).read i.bits1 start) (b.read i.bits1 start)) start).mem := by
      rw [state]
      rfl
    rw [← stored]
    constructor
    · exact Exchanged.memory
    · intro same
      refine .of_state form stores (fun held other => ?_) same fun _ => flags
      rw [state, Machine.setReg_regs, if_neg (other.resolve_left (by simp [op]))]
      exact congrFun registers held

theorem executes_exchange_iff {ub : Undef} {i : Instruction} {a b : Operand} {m m' : Mach}
    (op : i.op = .xchg ∨ i.op = .xadd) (args : i.operands = [a, b]) (form : ExchangeForm i.op a b)
    (plain : ∀ o ∈ i.operands, o.Plain) (executed : Executes ub [i] m m') :
    Exchanged i.op i.bits1 a b (stepRip i m) m' ↔
      (i.nothingToDo = false ∧ ExchangeLands i.op i.bits1 a b (stepRip i m)) ∨
      i.Idle (Exchanged i.op i.bits1 a b (stepRip i m)) m :=
  executed.required_iff (by rcases op with op | op <;> simp [op])
    (exchanged_coded op args form plain executed)

def xaddMemory : Instruction :=
  { original := "xaddl  %ecx,0x8(%rdx)", vaddr := 0x1000, length := 4, op := .xadd, size1 := some .l,
    operands := [.reg (.d .rcx), .mem ⟨none, 8, some (.q (.gpr .rdx)), none, .one⟩] }

theorem executes_exchange_iff_xaddMemory :
    ∃ m', Executes default [xaddMemory] onesInRegisters m' ∧
      Exchanged .xadd .l (.reg (.d .rcx)) (.mem ⟨none, 8, some (.q (.gpr .rdx)), none, .one⟩)
        (stepRip xaddMemory onesInRegisters) m' := by
  have emitted : EmittedAlone xaddMemory ((printed (emitFunction .alone xaddMemory)).get rfl) :=
    ⟨.initial, _, rfl⟩
  have executed : Executes default [xaddMemory] onesInRegisters _ := .alone emitted .done
  refine ⟨_, executed, (executes_exchange_iff (.inr rfl) rfl (.toMemory rfl) (by decide) executed).mpr
    (.inl ⟨by decide, fun target same => ?_⟩)⟩
  cases same
  exact congrArg (Mem.store _ · _) (by decide)

def xchgThrough : Instruction :=
  { original := "xchgq  %rax,(%rax)", vaddr := 0x1000, length := 3, op := .xchg, size1 := some .q,
    operands := [.reg (.q (.gpr .rax)), .mem ⟨none, 0, some (.q (.gpr .rax)), none, .one⟩] }

theorem xchg_misses_operand :
    ∃ m', Executes default [xchgThrough] onesInRegisters m' ∧ m'.mem 0 = 1 ∧ m'.mem 1 = 0 ∧
      ¬ Exchanged .xchg .q (.reg (.q (.gpr .rax))) (.mem ⟨none, 0, some (.q (.gpr .rax)), none, .one⟩)
        (stepRip xchgThrough onesInRegisters) m' := by
  -- With `rax` pointing to a zero, the old pointer goes to address 0.
  have emitted : EmittedAlone xchgThrough ((printed (emitFunction .alone xchgThrough)).get rfl) :=
    ⟨.initial, _, rfl⟩
  refine ⟨_, .alone emitted .done, by decide, by decide, fun done => ?_⟩
  have dest := done.dest
  revert dest
  decide

end Tase
