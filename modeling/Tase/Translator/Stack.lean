import Tase.Translator.Execution
import Tase.Translator.Moves

/-! The stack. Code in which every `push`, `call` and `enter` is closed by the `pop`, `ret` or
`leave` that belongs to it gives the stack back as it found it. -/

namespace Tase

open Cpp

def wholeReg (g : Gpr) : Operand := .reg (.q (.gpr g))

inductive Nest
  | empty
  | seq (first second : Nest)
  | frame (opening : Instruction) (body : Nest) (closing : Instruction)

structure Instruction.SavedBy (i j : Instruction) (g g' : Gpr) : Prop where
  push : i.op = .push ∧ i.size1 = some .q ∧ i.operands = [wholeReg g]
  pop : j.op = .pop ∧ j.size1 = some .q ∧ j.operands = [wholeReg g']
  saved : g ≠ .rsp ∧ g ≠ .r14
  loaded : g' ≠ .rsp ∧ g' ≠ .rbp ∧ g' ≠ .r14

def Operand.Callable : Operand → Prop
  | .addr _ _ => True
  | .reg r => ∃ g, r = .q (.gpr g) ∧ g ≠ .r14
  | .mem target => -2 ^ 31 < target.offset
  | .imm _ => False

structure Instruction.CalledBy (i j : Instruction) (t : Operand) : Prop where
  call : i.op = .call ∧ i.operands = [t]
  callable : t.Callable
  ret : j.op = .ret ∧ j.operands = []

structure Instruction.EnteredBy (i j : Instruction) (n : Nat) : Prop where
  enter : i.op = .enter ∧ i.operands = [.imm n, .imm 0]
  small : n < 2 ^ 31
  leave : j.op = .leave ∧ j.operands = []

def Instruction.Pairs (i j : Instruction) : Prop :=
  (∃ g g', i.SavedBy j g g') ∨ (∃ t, i.CalledBy j t) ∨ ∃ n, i.EnteredBy j n

namespace Nest

def code : Nest → List Instruction
  | .empty => []
  | .seq first second => first.code ++ second.code
  | .frame opening body closing => opening :: (body.code ++ [closing])

def Formed : Nest → Prop
  | .empty => True
  | .seq first second => first.Formed ∧ second.Formed
  | .frame i body j =>
      i.Pairs j ∧ i.ignored = false ∧ j.ignored = false ∧ body.Formed

def depth : Nest → Nat
  | .empty => 0
  | .seq first second => max first.depth second.depth
  | .frame i body _ => 8 + (if i.op = .enter then enterAlloc i else 0) + body.depth

/-- Every `pop` delivers what its `push` read, every `call` goes to the target that the registers
give before its push, and every `ret` goes behind its `call`. -/
def Returns (ub : Undef) : Nest → Mach → Prop
  | .empty, _ => True
  | .seq first second, m => first.Returns ub m ∧ second.Returns ub (stepAll ub first.code m)
  | .frame i body j, m =>
      let opened := denote ub i m
      let closed := denote ub j (stepAll ub body.code opened)
      body.Returns ub opened ∧
        (i.op = .push → (j.arg 0).read .q closed = (i.arg 0).read .q m) ∧
        (i.op = .call → opened.regs .rip = (i.arg 0).read .q (stepRip i m) ∧
          closed.regs .rip = m.regs .rip + BitVec.ofNat 64 i.length)

end Nest

structure Balanced (m m' : Mach) : Prop where
  rsp : m'.regs (.gpr .rsp) = m.regs (.gpr .rsp)
  rbp : m'.regs (.gpr .rbp) = m.regs (.gpr .rbp)
  above (a : BitVec 64) : (m.regs (.gpr .rsp)).toNat ≤ a.toNat → m'.mem a = m.mem a

theorem Balanced.refl (m : Mach) : Balanced m m := ⟨rfl, rfl, fun _ _ => rfl⟩

theorem Balanced.trans {m m' m'' : Mach} (first : Balanced m m') (second : Balanced m' m'') :
    Balanced m m'' where
  rsp := second.rsp.trans first.rsp
  rbp := second.rbp.trans first.rbp
  above a high := (second.above a (by rwa [first.rsp])).trans (first.above a high)

/-! The two steps that all six instructions are made of. -/

def pushed (x : BitVec 64) (m : Mach) : Mach :=
  (m.setReg (.gpr .rsp) (m.regs (.gpr .rsp) - 8)).store (m.regs (.gpr .rsp) - 8) x

def popped (r : Reg) (m : Mach) : Mach :=
  (m.setReg r (m.mem.load (m.regs (.gpr .rsp)) 64)).setReg (.gpr .rsp) (m.regs (.gpr .rsp) + 8)

section

variable {ub : Undef} {signed : Bool} {m m' : Mach} {x : BitVec 64} {r : Reg}

theorem pushed_rsp : (pushed x m).regs (.gpr .rsp) = m.regs (.gpr .rsp) - 8 := by
  simp [pushed]

theorem pushed_regs (other : r ≠ .gpr .rsp) : (pushed x m).regs r = m.regs r := by
  simp [pushed, Machine.setReg_regs, other]

theorem pushed_top : (pushed x m).mem.load (m.regs (.gpr .rsp) - 8) 64 = x :=
  Mem.load_store_same _ _ _ (by decide) (by decide)

theorem pushed_above (room : 8 ≤ (m.regs (.gpr .rsp)).toNat) {a : BitVec 64}
    (high : (m.regs (.gpr .rsp)).toNat ≤ a.toNat) : (pushed x m).mem a = m.mem a := by
  refine Mem.store_outside _ _ _ _ ?_
  have bound := a.isLt
  have top : (a - (m.regs (.gpr .rsp) - 8)).toNat = a.toNat - (m.regs (.gpr .rsp)).toNat + 8 := by
    have eight : (8 : BitVec 64).toNat = 8 := rfl
    simp only [BitVec.toNat_sub, eight]
    omega
  omega

theorem value_whole (r : Reg) : (Operand.reg (.q r)).value ub .q m = m.regs r := by
  have base : baseReg (.q r) = some r := rfl
  have width : Size.q = regSize (.q r) := rfl
  rw [Operand.value_reg base width]
  exact BitVec.setWidth_eq _

theorem write_whole {x : Val} (r : Reg) (narrow : x.ty.width ≤ 64) :
    (Operand.reg (.q r)).write ub .q x m = m.setReg r (x.conv (.uint 64)) := by
  have base : baseReg (.q r) = some r := rfl
  have width : Size.q = regSize (.q r) := rfl
  rw [Operand.write_reg base width narrow]
  rfl

theorem fetch_conv (o : Operand) : (o.fetch ub .q signed m).conv (.uint 64) = o.value ub .q m := by
  cases signed <;> simp [Operand.fetch]

theorem denoteMov_whole (src : Operand) (r : Reg) :
    denoteMov ub signed src (.reg (.q r)) .q .q m = m.setReg r (src.value ub .q m) := by
  unfold denoteMov
  simp only [if_true]
  rw [write_whole r (by cases signed <;> exact Nat.le_refl 64), fetch_conv]

theorem top_value : (rspMem 0).value ub .q m = m.mem.load (m.regs (.gpr .rsp)) 64 := by
  rw [rspMem, Operand.value_mem rfl, rspMem_address (by decide)]
  simp

theorem denotePush_whole (other : r ≠ .gpr .rsp) :
    denotePush ub signed (.reg (.q r)) .q m = pushed (m.regs r) m := by
  rw [denotePush_eq]
  simp only [Machine.setReg_regs_self, value_whole]
  rw [Machine.setReg_regs, if_neg other]
  rfl

theorem denotePop_whole (other : r ≠ .gpr .rsp) :
    denotePop ub signed (.reg (.q r)) .q m = popped r m := by
  rw [denotePop_eq]
  simp only [denoteMov_whole, top_value]
  rw [Machine.setReg_regs, if_neg (Ne.symm other)]
  rfl

theorem denoteEnter_eq {i : Instruction} {n : Nat} (alloc : enterAlloc i = n) (small : n < 2 ^ 31) :
    denoteEnter ub i m =
      ((pushed (m.regs (.gpr .rbp)) m).setReg (.gpr .rbp) (m.regs (.gpr .rsp) - 8)).setReg
        (.gpr .rsp) (m.regs (.gpr .rsp) - 8 - BitVec.ofNat 64 n) := by
  have reach : -2 ^ 31 < -(n : Int) := by omega
  unfold denoteEnter
  rw [alloc, rbpOperand, rspOperand, denotePush_whole (by decide), denoteMov_whole, value_whole,
    pushed_rsp]
  have lowered := @denoteLea_rsp ub
    ((pushed (m.regs (.gpr .rbp)) m).setReg (.gpr .rbp) (m.regs (.gpr .rsp) - 8)) _ reach
  rw [BitVec.ofInt_neg, BitVec.ofInt_natCast, ← BitVec.sub_eq_add_neg, Machine.setReg_regs,
    if_neg (by decide), pushed_rsp] at lowered
  exact lowered

theorem denoteLeave_eq {i : Instruction} :
    denoteLeave ub i m = popped (.gpr .rbp) (m.setReg (.gpr .rsp) (m.regs (.gpr .rbp))) := by
  unfold denoteLeave
  rw [rbpOperand, rspOperand, denoteMov_whole, value_whole, denotePop_whole (by decide)]

end

namespace Instruction

variable {i : Instruction}

theorem wholeReg_free {g : Gpr} (other : g ≠ .r14) : (wholeReg g).isInstrumentation = false := by
  simp [wholeReg, Operand.isInstrumentation, Operand.usesR14, Operand.usesR15d, baseReg, regSize,
    other]

theorem callable_free {t : Operand} (callable : t.Callable) : t.isInstrumentation = false := by
  cases t with
  | reg r =>
      obtain ⟨g, rfl, other⟩ := callable
      exact wholeReg_free other
  | imm n | addr n symbol | mem target => rfl

end Instruction

/-- What opening a frame leaves behind: the slot below the old top holds `x`, the new top is
`alloc` bytes below the slot, and all above is as it was. -/
structure Opened (x : BitVec 64) (alloc : Nat) (m m' : Mach) : Prop where
  slot : m'.mem.load (m.regs (.gpr .rsp) - 8) 64 = x
  lowered : (m'.regs (.gpr .rsp)).toNat + 8 + alloc = (m.regs (.gpr .rsp)).toNat
  above (a : BitVec 64) : (m.regs (.gpr .rsp)).toNat ≤ a.toNat → m'.mem a = m.mem a

namespace Opened

variable {x : BitVec 64} {alloc : Nat} {m m' m'' c : Mach}

theorem ofPushed (room : 8 + alloc ≤ (m.regs (.gpr .rsp)).toNat) (mem : m'.mem = (pushed x m).mem)
    (rsp : m'.regs (.gpr .rsp) = m.regs (.gpr .rsp) - 8 - BitVec.ofNat 64 alloc) :
    Opened x alloc m m' where
  slot := by rw [mem, pushed_top]
  lowered := by
    have bound := (m.regs (.gpr .rsp)).isLt
    have eight : (8 : BitVec 64).toNat = 8 := rfl
    rw [rsp]
    simp only [BitVec.toNat_sub, BitVec.toNat_ofNat, eight]
    omega
  above a high := by rw [mem, pushed_above (by omega) high]

theorem kept (opened : Opened x alloc m m') (body : Balanced m' m'') :
    m''.mem.load (m.regs (.gpr .rsp) - 8) 64 = x := by
  have lowered := opened.lowered
  have bound := (m.regs (.gpr .rsp)).isLt
  rw [← opened.slot]
  refine Mem.load_congr _ _ _ _ fun offset here => body.above _ ?_
  have eight : (8 : BitVec 64).toNat = 8 := rfl
  simp only [BitVec.toNat_add, BitVec.toNat_sub, BitVec.toNat_ofNat, eight]
  omega

theorem closed (opened : Opened x alloc m m') (body : Balanced m' m'') {r : Reg}
    (rsp : c.regs (.gpr .rsp) = m.regs (.gpr .rsp) - 8) (mem : c.mem = m''.mem)
    (rbp : (popped r c).regs (.gpr .rbp) = m.regs (.gpr .rbp)) : Balanced m (popped r c) where
  rsp := by simp [popped, rsp]
  rbp := rbp
  above a high := by
    have lowered := opened.lowered
    rw [popped, Machine.setReg_mem, Machine.setReg_mem, mem, body.above a (by omega),
      opened.above a high]

theorem popped_value (opened : Opened x alloc m m') (body : Balanced m' m'') {r : Reg}
    (rsp : c.regs (.gpr .rsp) = m.regs (.gpr .rsp) - 8) (mem : c.mem = m''.mem)
    (other : r ≠ .gpr .rsp) : (popped r c).regs r = x := by
  rw [popped, Machine.setReg_regs, if_neg other, Machine.setReg_regs_self, rsp, mem,
    opened.kept body]

end Opened

theorem popped_regs {m : Mach} {r s : Reg} (other : s ≠ r) (top : s ≠ .gpr .rsp) :
    (popped r m).regs s = m.regs s := by
  rw [popped, Machine.setReg_regs, if_neg top, Machine.setReg_regs, if_neg other]

section

variable {ub : Undef} {i j : Instruction} {m m' : Mach}

theorem denote_handled (active : i.nothingToDo = false) :
    denote ub i m = denoteOp ub i (stepRip i m) := by
  simp [denote, active]

theorem push_frame {g g' : Gpr} (pair : i.SavedBy j g g') (opens : i.nothingToDo = false)
    (closes : j.nothingToDo = false) (room : 8 ≤ (m.regs (.gpr .rsp)).toNat) :
    Opened (m.regs (.gpr g)) 0 m (denote ub i m) ∧
      ∀ m', Balanced (denote ub i m) m' →
        Balanced m (denote ub j m') ∧ (denote ub j m').regs (.gpr g') = m.regs (.gpr g) := by
  -- A frame of `push` and `pop`.
  obtain ⟨⟨pushes, size, args⟩, ⟨pops, size', args'⟩, ⟨saved, _⟩, loaded, notFrame, _⟩ := pair
  have start : denote ub i m = pushed (m.regs (.gpr g)) (stepRip i m) := by
    have arg : i.arg 0 = .reg (.q (.gpr g)) := by simp [Instruction.arg, args, wholeReg]
    have width : i.bits1 = .q := by simp [Instruction.bits1, size]
    rw [denote_handled opens]
    simp only [denoteOp, pushes, arg, width]
    rw [denotePush_whole (by simpa using saved), stepRip_regs (by simp)]
  have finish (m' : Mach) : denote ub j m' = popped (.gpr g') (stepRip j m') := by
    have arg : j.arg 0 = .reg (.q (.gpr g')) := by simp [Instruction.arg, args', wholeReg]
    have width : j.bits1 = .q := by simp [Instruction.bits1, size']
    rw [denote_handled closes]
    simp only [denoteOp, pops, arg, width]
    exact denotePop_whole (by simpa using loaded)
  have opened : Opened (m.regs (.gpr g)) 0 m (denote ub i m) := by
    refine Opened.ofPushed room ?_ ?_
    · rw [start]
      rfl
    · rw [start, pushed_rsp, stepRip_regs (by simp)]
      simp
  refine ⟨opened, fun m' body => ?_⟩
  have top : (stepRip j m').regs (.gpr .rsp) = m.regs (.gpr .rsp) - 8 := by
    rw [stepRip_regs (by simp), body.rsp, start, pushed_rsp, stepRip_regs (by simp)]
  rw [finish]
  refine ⟨opened.closed body top rfl ?_, opened.popped_value body top rfl (by simpa using loaded)⟩
  rw [popped_regs (by simpa using Ne.symm notFrame) (by simp), stepRip_regs (by simp), body.rbp,
    start, pushed_regs (by simp), stepRip_regs (by simp)]

theorem call_frame {t : Operand} (pair : i.CalledBy j t) (opens : i.nothingToDo = false)
    (closes : j.nothingToDo = false) (fetched : t.Fetchable .q)
    (room : 8 ≤ (m.regs (.gpr .rsp)).toNat) :
    let next := m.regs .rip + BitVec.ofNat 64 i.length
    Opened next 0 m (denote ub i m) ∧ (denote ub i m).regs .rip = t.read .q (stepRip i m) ∧
      ∀ m', Balanced (denote ub i m) m' →
        Balanced m (denote ub j m') ∧ (denote ub j m').regs .rip = next := by
  -- A frame of `call` and `ret`.
  intro next
  obtain ⟨⟨calls, args⟩, callable, returns, _⟩ := pair
  have reach : t.InReach := by
    rintro target rfl
    exact callable
  have start : denote ub i m =
      (pushed next (stepRip i m)).setReg .rip (t.read .q (stepRip i m)) := by
    have arg : i.arg 0 = t := by simp [Instruction.arg, args]
    have stepped : (stepRip i m).regs .rip = next := Machine.setReg_regs_self _ _ _
    rw [denote_handled opens]
    simp only [denoteOp, calls, denoteCall, arg, ripOperand]
    rw [write_whole .rip (Nat.le_refl 64), fetch_conv, Operand.value_read fetched reach,
      denotePush_whole (by decide), stepped]
  have finish (m' : Mach) : denote ub j m' = popped .rip (stepRip j m') := by
    rw [denote_handled closes]
    simp only [denoteOp, returns]
    exact denotePop_whole (by decide)
  have lowered : (denote ub i m).regs (.gpr .rsp) = m.regs (.gpr .rsp) - 8 := by
    rw [start, Machine.setReg_regs, if_neg (by decide), pushed_rsp, stepRip_regs (by simp)]
  have opened : Opened next 0 m (denote ub i m) := by
    refine Opened.ofPushed room ?_ ?_
    · rw [start]
      rfl
    · rw [lowered]
      simp
  refine ⟨opened, by rw [start, Machine.setReg_regs_self], fun m' body => ?_⟩
  have top : (stepRip j m').regs (.gpr .rsp) = m.regs (.gpr .rsp) - 8 := by
    rw [stepRip_regs (by simp), body.rsp, lowered]
  rw [finish]
  refine ⟨opened.closed body top rfl ?_, opened.popped_value body top rfl (by decide)⟩
  rw [popped_regs (by decide) (by decide), stepRip_regs (by simp), body.rbp, start,
    Machine.setReg_regs, if_neg (by decide), pushed_regs (by simp), stepRip_regs (by simp)]

theorem enter_frame {n : Nat} (pair : i.EnteredBy j n) (opens : i.nothingToDo = false)
    (closes : j.nothingToDo = false) (room : 8 + n ≤ (m.regs (.gpr .rsp)).toNat) :
    Opened (m.regs (.gpr .rbp)) n m (denote ub i m) ∧
      ∀ m', Balanced (denote ub i m) m' → Balanced m (denote ub j m') := by
  -- A frame of `enter` and `leave`: the frame pointer finds the slot again.
  obtain ⟨⟨enters, args⟩, small, leaves, _⟩ := pair
  have start := @denoteEnter_eq ub (stepRip i m) i n (by simp [enterAlloc, Instruction.arg, args]) small
  simp only [stepRip_regs (show Reg.gpr .rsp ≠ .rip by simp),
    stepRip_regs (show Reg.gpr .rbp ≠ .rip by simp)] at start
  have here : denote ub i m = denoteEnter ub i (stepRip i m) := by
    rw [denote_handled opens]
    simp only [denoteOp, enters]
  rw [← here] at start
  have finish (m' : Mach) : denote ub j m' = popped (.gpr .rbp)
      ((stepRip j m').setReg (.gpr .rsp) ((stepRip j m').regs (.gpr .rbp))) := by
    rw [denote_handled closes]
    simp only [denoteOp, leaves]
    exact denoteLeave_eq
  have opened : Opened (m.regs (.gpr .rbp)) n m (denote ub i m) := by
    refine Opened.ofPushed room ?_ ?_
    · rw [start]
      rfl
    · rw [start, Machine.setReg_regs_self]
  refine ⟨opened, fun m' body => ?_⟩
  have frame : (denote ub i m).regs (.gpr .rbp) = m.regs (.gpr .rsp) - 8 := by
    rw [start, Machine.setReg_regs, if_neg (by decide), Machine.setReg_regs_self]
  have top : ((stepRip j m').setReg (.gpr .rsp) ((stepRip j m').regs (.gpr .rbp))).regs (.gpr .rsp) =
      m.regs (.gpr .rsp) - 8 := by
    rw [Machine.setReg_regs_self, stepRip_regs (by simp), body.rbp, frame]
  rw [finish]
  exact opened.closed body top rfl (opened.popped_value body top rfl (by decide))

end

namespace Instruction

variable {i j : Instruction}

theorem Pairs.free (pair : i.Pairs j) :
    (∀ o ∈ i.operands, o.isInstrumentation = false) ∧
      ∀ o ∈ j.operands, o.isInstrumentation = false := by
  rcases pair with ⟨g, g', push, pop, saved, loaded⟩ | ⟨t, call, callable, ret⟩ | ⟨n, enter, _, leave⟩
  · rw [push.2.2, pop.2.2]
    exact ⟨by simp [wholeReg_free saved.2], by simp [wholeReg_free loaded.2.2]⟩
  · rw [call.2, ret.2]
    exact ⟨by simp [callable_free callable], by simp⟩
  · rw [enter.2, leave.2]
    exact ⟨by simp [Operand.isInstrumentation, Operand.usesR14, Operand.usesR15d], by simp⟩

theorem Pairs.op (pair : i.Pairs j) :
    (i.op = .push ∧ j.op = .pop) ∨ (i.op = .call ∧ j.op = .ret) ∨ (i.op = .enter ∧ j.op = .leave) := by
  rcases pair with ⟨g, g', push, pop, _⟩ | ⟨t, call, _, ret⟩ | ⟨n, enter, _, leave⟩
  · exact .inl ⟨push.1, pop.1⟩
  · exact .inr (.inl ⟨call.1, ret.1⟩)
  · exact .inr (.inr ⟨enter.1, leave.1⟩)

theorem Pairs.handled (pair : i.Pairs j) (active : i.ignored = false) (active' : j.ignored = false)
    (guardless : i.stackguard = false) (guardless' : j.stackguard = false) :
    i.nothingToDo = false ∧ j.nothingToDo = false := by
  have ops : i.op ≠ .nop ∧ j.op ≠ .nop := by
    rcases pair.op with ⟨first, last⟩ | ⟨first, last⟩ | ⟨first, last⟩ <;> simp [first, last]
  exact ⟨Instruction.handled active ops.1 pair.free.1 guardless,
    Instruction.handled active' ops.2 pair.free.2 guardless'⟩

end Instruction

namespace Nest

variable {ub : Undef}

theorem noLoop {n : Nest} (formed : n.Formed) : ∀ i ∈ n.code, i.op ≠ .loop := by
  induction n with
  | empty => simp [code]
  | seq first second ih ih' =>
      intro i member
      exact (List.mem_append.mp member).elim (ih formed.1 i) (ih' formed.2 i)
  | frame i body j ih =>
      obtain ⟨pair, _, _, inner⟩ := formed
      have ops : i.op ≠ .loop ∧ j.op ≠ .loop := by
        rcases Instruction.Pairs.op pair with ⟨first, last⟩ | ⟨first, last⟩ | ⟨first, last⟩ <;>
          simp [first, last]
      intro k member
      simp only [code, List.mem_cons, List.mem_append, List.not_mem_nil, or_false] at member
      rcases member with rfl | inBody | rfl
      · exact ops.1
      · exact ih inner k inBody
      · exact ops.2

theorem returns {n : Nest} (formed : n.Formed) (emitted : ∀ i ∈ n.code, i.Emitted)
    (guardless : ∀ i ∈ n.code, i.stackguard = false) {m : Mach}
    (room : n.depth ≤ (m.regs (.gpr .rsp)).toNat) :
    n.Returns ub m ∧ Balanced m (stepAll ub n.code m) := by
  induction n generalizing m with
  | empty => exact ⟨trivial, Balanced.refl m⟩
  | seq first second ih ih' =>
      have inFirst (i : Instruction) (member : i ∈ first.code) : i ∈ (seq first second).code :=
        List.mem_append_left _ member
      have inSecond (i : Instruction) (member : i ∈ second.code) : i ∈ (seq first second).code :=
        List.mem_append_right _ member
      simp only [depth, Nat.max_le] at room
      obtain ⟨returned, balanced⟩ := ih formed.1 (fun i member => emitted i (inFirst i member))
        (fun i member => guardless i (inFirst i member)) room.1
      obtain ⟨returned', balanced'⟩ := ih' formed.2 (fun i member => emitted i (inSecond i member))
        (fun i member => guardless i (inSecond i member))
        (show second.depth ≤ ((stepAll ub first.code m).regs (.gpr .rsp)).toNat by
          rw [balanced.rsp]; exact room.2)
      rw [code, stepAll_append]
      exact ⟨⟨returned, returned'⟩, balanced.trans balanced'⟩
  | frame i body j ih =>
      obtain ⟨pair, active, active', inner⟩ := formed
      simp only [code, List.mem_cons, List.mem_append, List.not_mem_nil, or_false, or_imp,
        forall_and, forall_eq] at emitted guardless
      obtain ⟨emittedHere, emittedBody, _⟩ := emitted
      obtain ⟨guardlessI, guardlessBody, guardlessJ⟩ := guardless
      obtain ⟨opens, closes⟩ :=
        Instruction.Pairs.handled pair active active' guardlessI guardlessJ
      have ran : stepAll ub (frame i body j).code m =
          denote ub j (stepAll ub body.code (denote ub i m)) := by
        rw [code, stepAll_cons, stepAll_append]
        rfl
      rw [ran]
      simp only [depth] at room
      simp only [Returns]
      rcases pair with ⟨g, g', saved⟩ | ⟨t, called⟩ | ⟨n, entered⟩
      · rw [if_neg (by simp [saved.push.1])] at room
        obtain ⟨opened, closed⟩ := @push_frame ub i j m g g' saved opens closes (by omega)
        have lowered := opened.lowered
        obtain ⟨returned, balanced⟩ := ih inner emittedBody guardlessBody
          (show body.depth ≤ ((denote ub i m).regs (.gpr .rsp)).toNat by omega)
        obtain ⟨whole, value⟩ := closed _ balanced
        refine ⟨⟨returned, fun _ => ?_, by simp [saved.push.1]⟩, whole⟩
        have args : i.arg 0 = wholeReg g ∧ j.arg 0 = wholeReg g' := by
          simp [Instruction.arg, saved.push.2.2, saved.pop.2.2]
        rw [args.1, args.2]
        simpa [wholeReg, Operand.read, RegName.read, RegName.field, baseReg] using value
      · rw [if_neg (by simp [called.call.1])] at room
        have arg : i.arg 0 = t := by simp [Instruction.arg, called.call.2]
        have fetched : t.Fetchable .q := by
          obtain ⟨_, _, _, found⟩ := emittedHere
          refine emitBody_fetches found opens (t, .q) ?_
          simp [Instruction.fetches, called.call.1, arg]
        obtain ⟨opened, target, closed⟩ := @call_frame ub i j m t called opens closes fetched (by omega)
        have lowered := opened.lowered
        obtain ⟨returned, balanced⟩ := ih inner emittedBody guardlessBody
          (show body.depth ≤ ((denote ub i m).regs (.gpr .rsp)).toNat by omega)
        obtain ⟨whole, back⟩ := closed _ balanced
        rw [arg]
        exact ⟨⟨returned, by simp [called.call.1], fun _ => ⟨target, back⟩⟩, whole⟩
      · have alloc : enterAlloc i = n := by simp [enterAlloc, Instruction.arg, entered.enter.2]
        rw [if_pos entered.enter.1, alloc] at room
        obtain ⟨opened, closed⟩ := @enter_frame ub i j m n entered opens closes (by omega)
        have lowered := opened.lowered
        obtain ⟨returned, balanced⟩ := ih inner emittedBody guardlessBody
          (show body.depth ≤ ((denote ub i m).regs (.gpr .rsp)).toNat by omega)
        exact ⟨⟨returned, by simp [entered.enter.1], by simp [entered.enter.1]⟩, closed _ balanced⟩

end Nest

theorem nest_returns_balanced {ub : Undef} {n : Nest} (formed : n.Formed)
    (guardless : ∀ i ∈ n.code, i.stackguard = false) {m m' : Mach}
    (executed : Executes ub n.code m m') (room : n.depth ≤ (m.regs (.gpr .rsp)).toNat) :
    n.Returns ub m ∧ Balanced m m' := by
  rw [executed.eq_stepAll (Nest.noLoop formed)]
  exact Nest.returns formed executed.emitted guardless room

def atStack : Mach where
  regs := fun _ => 0x8000
  mem := fun _ => 0

def callEnterPush : Nest :=
  .frame
    { original := "callq  *0x8(%rsp)", vaddr := 0x1000, length := 4, op := .call, size1 := some .q,
      operands := [.mem ⟨none, 8, some (.q (.gpr .rsp)), none, .one⟩] }
    (.frame
      { original := "enterq $0x10,$0x0", vaddr := 0x2000, length := 4, op := .enter, size1 := some .q,
        operands := [.imm 0x10, .imm 0] }
      (.frame
        { original := "push   %rbx", vaddr := 0x2004, length := 1, op := .push, size1 := some .q,
          operands := [wholeReg .rbx] }
        .empty
        { original := "pop    %rcx", vaddr := 0x2005, length := 1, op := .pop, size1 := some .q,
          operands := [wholeReg .rcx] })
      { original := "leaveq", vaddr := 0x2006, length := 1, op := .leave, size1 := some .q })
    { original := "retq", vaddr := 0x2007, length := 1, op := .ret, size1 := some .q }

theorem nest_returns_balanced_callEnterPush :
    ∃ m', Executes default callEnterPush.code atStack m' ∧
      callEnterPush.Returns default atStack ∧ Balanced atStack m' := by
  have emitted : ∀ i ∈ callEnterPush.code, i.Emitted := by
    simp only [callEnterPush, Nest.code, List.cons_append, List.nil_append, List.forall_mem_cons]
    exact ⟨⟨.initial, _, _, rfl⟩, ⟨.initial, _, _, rfl⟩, ⟨.initial, _, _, rfl⟩, ⟨.initial, _, _, rfl⟩,
      ⟨.initial, _, _, rfl⟩, ⟨.initial, _, _, rfl⟩, List.forall_mem_nil _⟩
  obtain ⟨m', executed⟩ := @Executes.each default callEnterPush.code atStack emitted
  refine ⟨m', executed, nest_returns_balanced ?_ ?_ executed ?_⟩
  · refine ⟨.inr (.inl ⟨_, ⟨rfl, rfl⟩, ?_, rfl, rfl⟩), rfl, rfl, ?_⟩
    · exact (by decide : (-2 ^ 31 : Int) < 8)
    refine ⟨.inr (.inr ⟨0x10, ⟨rfl, rfl⟩, by decide, rfl, rfl⟩), rfl, rfl, ?_⟩
    refine ⟨.inl ⟨.rbx, .rcx, ?_⟩, rfl, rfl, trivial⟩
    exact ⟨⟨rfl, rfl, rfl⟩, ⟨rfl, rfl, rfl⟩, by decide, by decide⟩
  · decide
  · decide

def callThroughGuard : Nest :=
  .frame
    { original := "callq  *%fs:0x28", vaddr := 0x1000, length := 8, op := .call, size1 := some .q,
      operands := [.mem ⟨some "fs", 0x28, none, none, .one⟩] }
    .empty
    { original := "retq", vaddr := 0x2000, length := 1, op := .ret, size1 := some .q }

theorem guard_call_unbalanced :
    ∃ m', callThroughGuard.Formed ∧ Executes default callThroughGuard.code atStack m' ∧
      callThroughGuard.depth ≤ (atStack.regs (.gpr .rsp)).toNat ∧ ¬ Balanced atStack m' := by
  have emitted : EmittedCartridge callThroughGuard.code
      ((printed (emitCartridge callThroughGuard.code)).get rfl) := ⟨.initial, _, rfl⟩
  have executed : Executes default (callThroughGuard.code ++ []) atStack _ := .cartridge emitted .done
  rw [List.append_nil] at executed
  have formed : callThroughGuard.Formed := by
    refine ⟨.inr (.inl ⟨_, ⟨rfl, rfl⟩, ?_, rfl, rfl⟩), rfl, rfl, trivial⟩
    exact (by decide : (-2 ^ 31 : Int) < 0x28)
  refine ⟨_, formed, executed, by decide, ?_⟩
  · intro balanced
    have rsp := balanced.rsp
    revert rsp
    decide

end Tase
