import Tase.Translator.Address

/-! Places that hold a 64-bit word, and what the moving instructions leave in them. -/

namespace Tase

open Cpp

namespace Operand

def Covers (o : Operand) (size : Size) (m : Mach) (a : BitVec 64) : Prop :=
  match o with
  | .mem target => (a - target.effective m).toNat < size.bits / 8
  | .reg _ | .imm _ | .addr _ _ => False

def Found (o : Operand) : Prop :=
  ∀ target, o = .mem target → (∃ e, target.addr = .ok e) ∧ -2 ^ 31 < target.offset

theorem Storable.found {o : Operand} {size : Size} (storable : o.Storable size) (reach : o.InReach) :
    o.Found := by
  rintro target rfl
  exact ⟨storable, reach target rfl⟩

theorem Found.covers {o : Operand} (found : o.Found) {ub : Undef} {size : Size} {m : Mach} {a : BitVec 64} :
    o.Occupies ub size m a ↔ o.Covers size m a := by
  cases o with
  | reg r | imm n | addr n symbol => exact Iff.rfl
  | mem target =>
      obtain ⟨⟨e, addressed⟩, reach⟩ := found target rfl
      rw [Occupies, Covers, MemRef.address_effective addressed reach]

end Operand

inductive Place
  | reg (r : Reg)
  | mem (addr : BitVec 64)
deriving DecidableEq

namespace Place

def read : Place → Mach → BitVec 64
  | .reg r, m => m.regs r
  | .mem addr, m => m.mem.load addr 64

def Meets (p : Place) (o : Operand) (size : Size) (m : Mach) : Prop :=
  match p with
  | .reg r => o.target = some r
  | .mem addr => ∃ a, (a - addr).toNat < 8 ∧ o.Covers size m a

def Apart : Place → Place → Prop
  | .reg r, .reg r' => r ≠ r'
  | .mem addr, .mem addr' => ∀ a : BitVec 64, ¬((a - addr).toNat < 8 ∧ (a - addr').toNat < 8)
  | _, _ => True

theorem Apart.symm {p q : Place} (apart : p.Apart q) : q.Apart p := by
  cases p <;> cases q
  · exact fun same => apart same.symm
  · trivial
  · trivial
  · exact fun a both => apart a both.symm

end Place

def Operand.place (o : Operand) (m : Mach) : Option Place :=
  match o with
  | .reg (.q (.gpr g)) => some (.reg (.gpr g))
  | .mem target => some (.mem (target.effective m))
  | _ => none

section

variable {ub : Undef} {o : Operand} {size : Size} {m m' : Mach} {x : Val} {value : Mach → Val} {p : Place}

theorem Place.read_congr (regs : ∀ r, p = .reg r → m'.regs r = m.regs r)
    (mem : ∀ addr, p = .mem addr → ∀ a : BitVec 64, (a - addr).toNat < 8 → m'.mem a = m.mem a) :
    p.read m' = p.read m := by
  cases p with
  | reg r => exact regs r rfl
  | mem addr =>
      refine Mem.load_congr _ _ _ _ fun offset inside => mem addr rfl _ ?_
      rw [BitVec.add_comm, BitVec.add_sub_cancel, BitVec.toNat_ofNat]
      omega

theorem Place.read_store (found : o.Found) (apart : ¬ p.Meets o size m) :
    p.read (o.store ub size value m) = p.read m := by
  refine Place.read_congr (fun r here => ?_) (fun addr here a inside => ?_)
  · subst here
    exact Operand.store_regs_of_ne apart
  · subst here
    exact Operand.store_mem_outside fun occupied => apart ⟨a, inside, found.covers.mp occupied⟩

theorem Place.read_write (found : o.Found) (apart : ¬ p.Meets o size m) :
    p.read (o.write ub size x m) = p.read m := by
  unfold Operand.write
  exact Place.read_store found apart

theorem Place.meets_congr (same : ∀ target, o = .mem target → target.effective m = target.effective m') :
    p.Meets o size m ↔ p.Meets o size m' := by
  cases o with
  | reg r | imm n | addr n symbol => exact Iff.rfl
  | mem target =>
      cases p with
      | reg r => exact Iff.rfl
      | mem addr =>
          simp only [Place.Meets, Operand.Covers]
          rw [same target rfl]

theorem Place.read_setReg {r : Reg} {v : BitVec 64} (other : p ≠ .reg r) :
    p.read (m.setReg r v) = p.read m := by
  refine Place.read_congr (fun r' here => ?_) (fun _ _ _ _ => rfl)
  have different : r' ≠ r := fun same => other (by rw [here, same])
  rw [Machine.setReg_regs, if_neg different]

theorem Operand.place_cases (placed : o.place m = some p) :
    (∃ g, o = .reg (.q (.gpr g)) ∧ p = .reg (.gpr g)) ∨
      ∃ target, o = .mem target ∧ p = .mem (target.effective m) := by
  unfold place at placed
  split at placed
  · rename_i g
    cases placed
    exact .inl ⟨g, rfl, rfl⟩
  · rename_i target
    cases placed
    exact .inr ⟨target, rfl, rfl⟩
  · cases placed

theorem Operand.place_general (placed : o.place m = some p) :
    p ≠ .reg .rip ∧ p ≠ .reg .efl := by
  rcases place_cases placed with ⟨g, _, rfl⟩ | ⟨target, _, rfl⟩ <;> simp

theorem Operand.read_place (placed : o.place m = some p) : o.read .q m = p.read m := by
  rcases place_cases placed with ⟨g, rfl, rfl⟩ | ⟨target, rfl, rfl⟩
  · exact BitVec.setWidth_eq _
  · rfl

theorem Operand.read_write_place (placed : o.place m = some p) (found : o.Found) (narrow : x.ty.width ≤ 64) :
    p.read (o.write ub .q x m) = x.conv (.uint 64) := by
  rcases place_cases placed with ⟨g, rfl, rfl⟩ | ⟨target, rfl, rfl⟩
  · have base : baseReg (.q (.gpr g)) = some (.gpr g) := rfl
    have width : Size.q = Tase.regSize (.q (.gpr g)) := rfl
    rw [write_reg base width narrow]
    exact Machine.setReg_regs_self _ _ _
  · obtain ⟨⟨e, addressed⟩, reach⟩ := found target rfl
    rw [← @MemRef.address_effective ub _ _ _ addressed reach]
    exact Mem.load_store_same _ _ _ (by decide) (by decide)

theorem Operand.apart_of_place {q : Place} (placed : o.place m = some p) (apart : q.Apart p) :
    ¬ q.Meets o .q m := by
  rcases place_cases placed with ⟨g, rfl, rfl⟩ | ⟨target, rfl, rfl⟩
  · cases q with
    | reg r =>
        rintro held
        cases held
        exact apart rfl
    | mem addr =>
        rintro ⟨a, _, covered⟩
        exact covered
  · cases q with
    | reg r => simp [Place.Meets, Operand.target]
    | mem addr =>
        rintro ⟨a, inside, covered⟩
        exact apart a ⟨inside, covered⟩

end

section

variable {ub : Undef} {signed : Bool} {src dest : Operand} {size : Size} {m : Mach}

theorem addressVal_conv {target : MemRef} :
    ((target.addressVal ub m).cast (.uint 64)).conv (.uint 64) = target.address ub m := by
  rw [Val.cast_conv_self]
  unfold MemRef.addressVal MemRef.address
  cases target.addr <;> rfl

theorem rspMem_address {n : Int} (reach : -2 ^ 31 < n) :
    (⟨none, n, some (.q (.gpr .rsp)), none, .one⟩ : MemRef).address ub m =
      m.regs (.gpr .rsp) + BitVec.ofInt 64 n :=
  MemRef.address_based none (.gpr .rsp) .one reach

theorem denoteLea_rsp {n : Int} (reach : -2 ^ 31 < n) :
    denoteLea ub (rspMem n) rspOperand .q m =
      m.setReg (.gpr .rsp) (m.regs (.gpr .rsp) + BitVec.ofInt 64 n) := by
  rw [← @rspMem_address ub m n reach, ← addressVal_conv]
  rfl

theorem write_top {x : Val} :
    (rspMem 0).write ub size x m = m.store (m.regs (.gpr .rsp)) (x.conv size.uint) := by
  change m.store ((⟨none, 0, some (.q (.gpr .rsp)), none, .one⟩ : MemRef).address ub m) _ = _
  rw [rspMem_address (by decide)]
  simp

theorem bytes_reach (size : Size) : -2 ^ 31 < -(size.bytes : Int) := by
  cases size <;> decide

theorem denotePush_eq :
    denotePush ub signed src size m =
      let lowered := m.setReg (.gpr .rsp) (m.regs (.gpr .rsp) - BitVec.ofNat 64 size.bytes)
      lowered.store (lowered.regs (.gpr .rsp)) (src.value ub size lowered) := by
  have below : m.regs (.gpr .rsp) + BitVec.ofInt 64 (-size.bytes) =
      m.regs (.gpr .rsp) - BitVec.ofNat 64 size.bytes := by
    rw [BitVec.ofInt_neg, BitVec.ofInt_natCast, BitVec.sub_eq_add_neg]
  unfold denotePush
  rw [denoteLea_rsp (bytes_reach size), below, denoteMov]
  simp only [if_true]
  rw [write_top]
  cases signed <;> simp [Operand.fetch]

theorem denotePop_eq :
    denotePop ub signed dest size m =
      let moved := denoteMov ub signed (rspMem 0) dest size size m
      moved.setReg (.gpr .rsp) (moved.regs (.gpr .rsp) + BitVec.ofNat 64 size.bytes) := by
  unfold denotePop
  have reach : -2 ^ 31 < (size.bytes : Int) := by omega
  rw [denoteLea_rsp reach, BitVec.ofInt_natCast]

end

namespace Instruction

def Moves (i : Instruction) : Prop := i.op ∈ [Op.mov, .lea, .push, .pop, .bswap, .xchg]

def targets (i : Instruction) : List (Operand × Size) :=
  match i.op with
  | .mov => [(i.arg 1, i.bits2)]
  | .lea => [(i.arg 1, i.bits1)]
  | .push => [(rspOperand, .q), (rspMem (-i.bits1.bytes), i.bits1)]
  | .pop => [(i.arg 0, i.bits1), (rspOperand, .q)]
  | .bswap => [(i.arg 0, (i.arg 0).regSize)]
  | .xchg => [(i.arg 0, i.bits1), (i.arg 1, i.bits1)]
  | _ => []

/-- A move whose memory operand is addressed through a register that the move itself changes:
the emitted code and the processor compute the address at different moments. -/
def Redirects (i : Instruction) : Prop :=
  match i.op with
  | .xchg => ∃ target r, i.arg 1 = .mem target ∧ (i.arg 0).target = some r ∧ r ∈ target.registers
  | .pop => ∃ target, i.arg 0 = .mem target ∧ .gpr .rsp ∈ target.registers
  | _ => False

def Unrelated (i : Instruction) (m : Mach) (p : Place) : Prop :=
  ∀ t ∈ i.targets, ¬ p.Meets t.1 t.2 (stepRip i m)

end Instruction

section

variable {ub : Undef} {i : Instruction} {m : Mach} {p : Place}

theorem rspMem_found {n : Int} (reach : -2 ^ 31 < n) : (rspMem n).Found := by
  rintro target ⟨⟩
  exact ⟨⟨_, rfl⟩, reach⟩

theorem read_denotePush {signed : Bool} {src : Operand} {size : Size} (register : p ≠ .reg (.gpr .rsp))
    (apart : ¬ p.Meets (rspMem (-size.bytes)) size m) :
    p.read (denotePush ub signed src size m) = p.read m := by
  have lowered := Place.read_setReg (m := m) (v := m.regs (.gpr .rsp) - BitVec.ofNat 64 size.bytes)
    register
  rw [denotePush_eq, ← lowered]
  refine Place.read_congr (fun _ _ => rfl) (fun addr here a inside => ?_)
  subst here
  refine Mem.store_outside _ _ _ _ (Nat.not_lt.mp fun covered => apart ⟨a, inside, ?_⟩)
  refine (@Operand.Found.covers _ (rspMem_found (bytes_reach size)) ub _ _ _).mp ?_
  change (a - (⟨none, -size.bytes, some (.q (.gpr .rsp)), none, .one⟩ : MemRef).address ub m).toNat <
    size.bits / 8
  rw [rspMem_address (bytes_reach size), BitVec.ofInt_neg, BitVec.ofInt_natCast,
    ← BitVec.sub_eq_add_neg]
  simpa using covered

theorem read_denoteMov {signed : Bool} {src dest : Operand} {size1 size2 : Size} (found : dest.Found)
    (apart : ¬ p.Meets dest size2 m) :
    p.read (denoteMov ub signed src dest size1 size2 m) = p.read m := by
  unfold denoteMov
  exact Place.read_write found apart

theorem targets_found (moves : i.Moves) (stores : ∀ p ∈ i.stores, p.1.Storable p.2)
    (plain : ∀ o ∈ i.operands, o.Plain) : ∀ t ∈ i.targets, t.1.Found := by
  have argument (k : Nat) {size : Size} (stored : (i.arg k, size) ∈ i.stores) : (i.arg k).Found :=
    (stores _ stored).found (i.arg_plain plain k).reach
  have pointer : rspOperand.Found := by simp [Operand.Found, rspOperand]
  simp only [Instruction.Moves, List.mem_cons, List.not_mem_nil, or_false] at moves
  rcases moves with op | op | op | op | op | op <;>
    simp only [Instruction.targets, Instruction.stores, op, List.forall_mem_cons] at argument ⊢
  · exact ⟨argument 1 List.mem_cons_self, List.forall_mem_nil _⟩
  · exact ⟨argument 1 List.mem_cons_self, List.forall_mem_nil _⟩
  · exact ⟨pointer, rspMem_found (bytes_reach _), List.forall_mem_nil _⟩
  · exact ⟨argument 0 List.mem_cons_self, pointer, List.forall_mem_nil _⟩
  · exact ⟨argument 0 List.mem_cons_self, List.forall_mem_nil _⟩
  · exact ⟨argument 0 List.mem_cons_self, argument 1 (List.mem_cons_of_mem _ List.mem_cons_self),
      List.forall_mem_nil _⟩

theorem read_denote_moves (moves : i.Moves) (direct : ¬ i.Redirects)
    (stores : i.nothingToDo = false → ∀ p ∈ i.stores, p.1.Storable p.2) (plain : ∀ o ∈ i.operands, o.Plain)
    (counter : p ≠ .reg .rip) (unrelated : i.Unrelated m p) : p.read (denote ub i m) = p.read m := by
  have stepped : p.read (stepRip i m) = p.read m := Place.read_setReg counter
  unfold denote
  split
  · exact stepped
  · rename_i handled
    have found := targets_found moves (stores (Bool.eq_false_iff.mpr handled)) plain
    rw [← stepped]
    unfold Instruction.Unrelated Instruction.targets at unrelated
    unfold Instruction.targets at found
    unfold denoteOp
    have register (member : ¬ p.Meets rspOperand .q (stepRip i m)) : p ≠ .reg (.gpr .rsp) := by
      rintro rfl
      exact member rfl
    simp only [Instruction.Moves, List.mem_cons, List.not_mem_nil, or_false] at moves
    rcases moves with op | op | op | op | op | op <;>
      simp only [op, List.forall_mem_cons, List.not_mem_nil, false_implies, implies_true, and_true]
        at unrelated found ⊢
    · exact read_denoteMov found unrelated
    · unfold denoteLea
      split
      · exact Place.read_store found unrelated
      · rfl
    · exact read_denotePush (register unrelated.1) unrelated.2
    · rw [denotePop_eq]
      exact (Place.read_setReg (register unrelated.2)).trans (read_denoteMov found.1 unrelated.1)
    · unfold denoteBswap
      exact Place.read_write found unrelated
    · unfold denoteXchg
      rw [Place.read_write found.2, Place.read_write found.1 unrelated.1]
      rw [Place.meets_congr fun target memory => MemRef.effective_congr fun r named => ?_]
      · exact unrelated.2
      · refine Operand.write_regs_of_ne fun held => direct ?_
        simp only [Instruction.Redirects, op]
        exact ⟨target, r, memory, held, named⟩

end

end Tase
