import Tase.Cpp.Ints
import Tase.Translator.Footprint

/-! The address that a memory operand stands for, in the machine's own arithmetic. -/

namespace Tase

open Cpp

section

variable {ub : Undef} {m : Mach}

theorem Ty.common_uint64_right (t : Ty) (narrow : t.width ≤ 64) :
    Ty.common t (.uint 64) = .uint 64 := by
  have promoted : t.promote.width ≤ 64 := by
    unfold Ty.promote
    split
    · decide
    · exact narrow
  unfold Ty.common
  simp only [show (Ty.uint 64).promote = .uint 64 from rfl]
  split
  · rfl
  · have width : t.promote.width = 64 := by omega
    cases found : t.promote with
    | mk w s =>
        rw [found] at width
        cases width
        cases s <;> simp

theorem neg_signed {width k : Nat} (positive : 0 < width) (small : 2 * k < 2 ^ width) :
    Val.arithAt ub .sub ⟨width, true⟩ ⟨⟨width, true⟩, 0⟩ ⟨⟨width, true⟩, BitVec.ofNat width k⟩ =
      ⟨⟨width, true⟩, BitVec.ofInt width (-k)⟩ := by
  have value : (BitVec.ofNat width k).toInt = k := by
    rw [BitVec.toInt_eq_toNat_of_lt (by rw [BitVec.toNat_ofNat, Nat.mod_eq_of_lt (by omega)]; exact small),
      BitVec.toNat_ofNat, Nat.mod_eq_of_lt (by omega)]
  have defined : (BitVec.ofNat width 0).ssubOverflow (BitVec.ofNat width k) = false := by
    have half := Nat.two_pow_pred_mul_two positive
    have power : (2 ^ (width - 1) : Int) = (2 ^ (width - 1) : Nat) := by norm_cast
    simp only [BitVec.ssubOverflow, value, BitVec.toInt_zero, Bool.or_eq_false_iff,
      decide_eq_false_iff_not, power]
    omega
  simp only [Val.arithAt, Val.conv_signed, BitVec.signExtend_eq, ArithOp.undefined, ArithOp.compute]
  rw [if_neg (by simp [defined]), BitVec.ofInt_neg, BitVec.ofInt_natCast]
  exact congrArg (Val.mk ⟨width, true⟩) (BitVec.zero_sub _)

theorem neg_unsigned {width k : Nat} :
    Val.arithAt ub .sub (.uint width) ⟨.uint width, 0⟩ ⟨.uint width, BitVec.ofNat width k⟩ =
      ⟨.uint width, BitVec.ofInt width (-k)⟩ := by
  rw [Val.arithAt_unsigned ub .sub width _ _ rfl, BitVec.ofInt_neg, BitVec.ofInt_natCast]
  simp [ArithOp.compute]

theorem neg_lit (k : Nat) :
    Val.un ub .neg (Val.lit .hex k) = ⟨Radix.hex.ty k, BitVec.ofInt _ (-k)⟩ := by
  unfold Val.lit
  rcases Radix.hex.ty_cases k with ⟨found, small⟩ | ⟨found, small⟩ | ⟨found, _⟩ | found
  · rw [found]
    exact neg_signed (by decide) (show 2 * k < 2 ^ 32 by omega)
  · rw [found]
    exact neg_unsigned
  · rw [found]
    exact neg_signed (by decide) (show 2 * k < 2 ^ 64 by omega)
  · rw [found]
    exact neg_unsigned

theorem hex_ty_width (n : Int) : (evalOn ub m (hex n)).ty.width ≤ 64 := by
  unfold hex
  split
  · change (Val.un ub .neg (Val.lit .hex n.natAbs)).ty.width ≤ 64
    rw [neg_lit]
    exact Radix.ty_width .hex n.natAbs
  · exact Radix.ty_width .hex n.natAbs

theorem hex_conv (n : Int) :
    (evalOn ub m (hex n)).conv (.uint 64) =
      BitVec.ofInt 64 (if -2 ^ 32 < n ∧ n ≤ -2 ^ 31 then n + 2 ^ 32 else n) := by
  -- The displacement as `hex` prints it. Where the literal behind the sign is an `unsigned int`, the minus wraps
  -- at 32 bits.
  unfold hex
  split
  · rename_i negative
    change (Val.un ub .neg (Val.lit .hex n.natAbs)).conv (.uint 64) = _
    rw [neg_lit]
    have back : -(n.natAbs : Int) = n := by omega
    rw [back]
    by_cases plain : n.natAbs < 2 ^ 31
    · have type : Radix.hex.ty n.natAbs = .int := if_pos plain
      have value : (BitVec.ofInt 32 n).toInt = n :=
        BitVec.toInt_ofInt_eq_self (by decide) (by omega) (by omega)
      rw [type, if_neg (by omega), Val.conv_eq_ofInt]
      exact congrArg _ value
    by_cases unsigned : n.natAbs < 2 ^ 32
    · have type : Radix.hex.ty n.natAbs = .uint 32 := (if_neg plain).trans (if_pos unsigned)
      have value : ((BitVec.ofInt 32 n).toNat : Int) = n + 2 ^ 32 := by
        rw [BitVec.toNat_ofInt]
        omega
      rw [type, if_pos (by omega), Val.conv_eq_ofInt]
      exact congrArg _ value
    rw [if_neg (by omega)]
    by_cases long : n.natAbs < 2 ^ 63
    · have type : Radix.hex.ty n.natAbs = ⟨64, true⟩ :=
        (if_neg plain).trans ((if_neg unsigned).trans (if_pos long))
      rw [type, Val.conv_signed, BitVec.signExtend_eq]
    · have type : Radix.hex.ty n.natAbs = .uint 64 :=
        (if_neg plain).trans ((if_neg unsigned).trans (if_neg long))
      rw [type, Val.conv_unsigned, BitVec.setWidth_eq]
  · have value : n = (n.natAbs : Int) := by omega
    change (Val.lit .hex n.natAbs).conv (.uint 64) = _
    rw [Val.lit_conv _ _ _ (by decide), if_neg (by omega)]
    conv => rhs; rw [value, BitVec.ofInt_natCast]

theorem hex_conv_low (n : Int) : (evalOn ub m (hex n)).conv (.uint 32) = BitVec.ofInt 32 n := by
  unfold hex
  split
  · have wide : 32 ≤ (Radix.hex.ty n.natAbs).width := by
      rcases Radix.hex.ty_cases n.natAbs with ⟨found, _⟩ | ⟨found, _⟩ | ⟨found, _⟩ | found <;>
        simp [found]
    change (Val.un ub .neg (Val.lit .hex n.natAbs)).conv (.uint 32) = _
    rw [neg_lit, Val.conv_of_le _ _ wide, setWidth_ofInt _ wide]
    congr 1
    omega
  · have value : n = (n.natAbs : Int) := by omega
    change (Val.lit .hex n.natAbs).conv (.uint 32) = _
    rw [Val.lit_conv _ _ _ (by decide)]
    conv => rhs; rw [value, BitVec.ofInt_natCast]

end

def RegName.read (r : RegName) (size : Size) (m : Mach) : BitVec size.bits :=
  match baseReg r with
  | some whole => r.field size (m.regs whole)
  | none => 0

namespace MemRef

def part (r : Option RegName) (size : Size) (m : Mach) : BitVec size.bits :=
  match r with
  | some r => r.read size m
  | none => 0

def addrBits (target : MemRef) : Size :=
  match target.addrSize with
  | .ok size => size
  | .error _ => .q

def effective (target : MemRef) (m : Mach) : BitVec 64 :=
  let size := target.addrBits
  (BitVec.ofInt size.bits target.offset + part target.base size m +
    part target.index size m * BitVec.ofNat size.bits target.scale.toNat).setWidth 64

/-- The displacement that the emitted address is computed with. -/
def displaced (size : Size) (n : Int) : BitVec size.bits :=
  BitVec.ofInt size.bits (if size = .q ∧ -2 ^ 32 < n ∧ n ≤ -2 ^ 31 then n + 2 ^ 32 else n)

variable {ub : Undef} {m : Mach} {size : Size}

theorem displaced_reach {n : Int} (reach : -2 ^ 31 < n) : displaced size n = BitVec.ofInt size.bits n := by
  rw [displaced, if_neg (by omega)]

theorem add_uint {l : Val} {width : Nat} (x : BitVec width)
    (common : Ty.common l.ty (.uint width) = .uint width) :
    Val.arith ub .add l ⟨.uint width, x⟩ = ⟨.uint width, l.conv (.uint width) + x⟩ := by
  rw [Val.arith_unsigned ub .add common rfl]
  simp [ArithOp.compute]

theorem regTerm_eval {r : RegName} {e : Exp} (found : regExpR r = .ok e)
    (wide : size = .l ∨ size = .q) (width : Tase.regSize r = size) :
    evalOn ub m (addrStr size e) = ⟨size.uint, r.read size m⟩ := by
  subst width
  cases r with
  | other name => cases found
  | h g => simp [Tase.regSize] at wide
  | w g | l g => simp [Tase.regSize] at wide
  | q whole =>
      cases found
      change (⟨.uint 64, m.regs whole⟩ : Val).cast (.uint 64) = _
      simp [Val.cast, RegName.read, RegName.field, baseReg, Tase.regSize]
  | d g =>
      cases found
      change ((⟨.uint 64, m.regs (.gpr g)⟩ : Val).cast (.uint 32)).cast (.uint 32) = _
      simp [Val.cast, RegName.read, RegName.field, baseReg, Tase.regSize]

theorem check_ok {condition : Bool} {message : String} {u : Unit}
    (passed : check condition message = .ok u) : condition = true := by
  cases condition with
  | true => rfl
  | false => cases passed

theorem common_self (wide : size = .l ∨ size = .q) : Ty.common size.uint size.uint = size.uint := by
  rcases wide with rfl | rfl <;> rfl

theorem regSize_base {target : MemRef} (sized : target.addrSize = .ok size) {r : RegName}
    (named : target.base = some r) : Tase.regSize r = size := by
  unfold addrSize at sized
  rw [named] at sized
  cases index : target.index with
  | none =>
      rw [index] at sized
      cases sized
      rfl
  | some name =>
      rw [index] at sized
      obtain ⟨_, _, sized⟩ := except_bind_ok sized
      cases sized
      rfl

theorem regSize_index {target : MemRef} (sized : target.addrSize = .ok size) {r : RegName}
    (named : target.index = some r) : Tase.regSize r = size := by
  unfold addrSize at sized
  rw [named] at sized
  cases base : target.base with
  | none =>
      rw [base] at sized
      cases sized
      rfl
  | some name =>
      rw [base] at sized
      obtain ⟨_, same, sized⟩ := except_bind_ok sized
      cases sized
      exact (of_decide_eq_true (check_ok same)).symm

def IsPart (ub : Undef) (m : Mach) (size : Size) (terms : List Exp) (x : BitVec size.bits) : Prop :=
  (terms = [] ∧ x = 0) ∨ ∃ e, terms = [e] ∧ evalOn ub m e = ⟨size.uint, x⟩

theorem baseTerm_part {target : MemRef} {terms : List Exp} (sized : target.addrSize = .ok size)
    (wide : size = .l ∨ size = .q) (found : target.baseTerm size = .ok terms) :
    IsPart ub m size terms (part target.base size m) := by
  unfold baseTerm at found
  cases named : target.base with
  | none =>
      rw [named] at found
      cases found
      exact .inl ⟨rfl, rfl⟩
  | some r =>
      rw [named] at found
      obtain ⟨e, read, found⟩ := except_bind_ok found
      cases found
      exact .inr ⟨_, rfl, regTerm_eval read wide (regSize_base sized named)⟩

theorem indexTerm_part {target : MemRef} {terms : List Exp} (sized : target.addrSize = .ok size)
    (wide : size = .l ∨ size = .q) (found : target.indexTerm size = .ok terms) :
    IsPart ub m size terms
      (part target.index size m * BitVec.ofNat size.bits target.scale.toNat) := by
  unfold indexTerm at found
  cases named : target.index with
  | none =>
      rw [named] at found
      cases found
      exact .inl ⟨rfl, by simp [part]⟩
  | some r =>
      rw [named] at found
      obtain ⟨e, read, found⟩ := except_bind_ok found
      cases found
      refine .inr ⟨_, rfl, ?_⟩
      have value : evalOn ub m (addrStr size e) = _ :=
        regTerm_eval read wide (regSize_index sized named)
      change Val.arith ub .mul (evalOn ub m (addrStr size e)) (Val.lit .dec target.scale.toNat) = _
      have common : Ty.common size.uint (Radix.dec.ty target.scale.toNat) = size.uint := by
        rcases wide with rfl | rfl <;> cases target.scale <;> rfl
      rw [value, Val.arith_unsigned ub .mul common rfl, Val.lit_conv _ _ _ (by cases size <;> decide)]
      simp [ArithOp.compute, part]

theorem offsetTerm_eval (n : Int) (wide : size = .l ∨ size = .q) :
    let v := evalOn ub m (addrStr size (hex n))
    v.conv (.uint 64) = (displaced size n).setWidth 64 ∧
      v.conv size.uint = displaced size n ∧ Ty.common v.ty size.uint = size.uint := by
  rcases wide with rfl | rfl
  · have cast : evalOn ub m (addrStr .l (hex n)) = ⟨.uint 32, displaced .l n⟩ := by
      change (evalOn ub m (hex n)).cast (.uint 32) = _
      rw [Val.cast, hex_conv_low]
      simp [displaced]
    rw [cast]
    exact ⟨rfl, by simp, rfl⟩
  · have plain : evalOn ub m (addrStr .q (hex n)) = evalOn ub m (hex n) := rfl
    have value : (evalOn ub m (hex n)).conv (.uint 64) = displaced .q n := by
      rw [hex_conv]
      simp [displaced]
    rw [plain]
    refine ⟨?_, value, Ty.common_uint64_right _ (hex_ty_width n)⟩
    rw [value, BitVec.setWidth_eq]

theorem address_displaced {target : MemRef} {e : Exp} (found : target.addr = .ok e) :
    target.address ub m =
      (displaced target.addrBits target.offset + part target.base target.addrBits m +
        part target.index target.addrBits m *
          BitVec.ofNat target.addrBits.bits target.scale.toNat).setWidth 64 := by
  rw [address, found]
  obtain ⟨size, sized, found⟩ := except_bind_ok found
  obtain ⟨_, checked, found⟩ := except_bind_ok found
  obtain ⟨base, readBase, found⟩ := except_bind_ok found
  obtain ⟨index, readIndex, found⟩ := except_bind_ok found
  cases found
  have wide : size = .l ∨ size = .q := by simpa using check_ok checked
  have bits : target.addrBits = size := by rw [addrBits, sized]
  rw [bits]
  have basePart : IsPart ub m size base _ := baseTerm_part sized wide readBase
  have indexPart : IsPart ub m size index _ := indexTerm_part sized wide readIndex
  change (evalOn ub m (sum (target.offsetTerm size ++ base ++ index))).conv (.uint 64) = _
  have two (e e' : Exp) (x : BitVec size.bits) (value : evalOn ub m e' = ⟨size.uint, x⟩)
      (common : Ty.common (evalOn ub m e).ty size.uint = size.uint) :
      evalOn ub m (.arith .add e e') = ⟨size.uint, (evalOn ub m e).conv size.uint + x⟩ := by
    change Val.arith ub .add (evalOn ub m e) (evalOn ub m e') = _
    rw [value, add_uint x common]
  by_cases zero : target.offset = 0
  · have nothing : displaced size 0 = 0 := by simp [displaced]
    rw [offsetTerm, if_pos zero, zero, nothing]
    rcases basePart with ⟨rfl, none⟩ | ⟨b, rfl, valueB⟩ <;>
    rcases indexPart with ⟨rfl, none'⟩ | ⟨i, rfl, valueI⟩
    · rw [none, none']
      change (Val.lit .dec 0).conv (.uint 64) = _
      rw [Val.lit_conv _ _ _ (by decide)]
      simp
    · rw [none]
      simp [sum, valueI]
    · rw [none']
      simp [sum, valueB]
    · have value := two b i _ valueI (by rw [valueB]; exact common_self wide)
      simp [sum, value, valueB]
  · rw [offsetTerm, if_neg zero]
    obtain ⟨alone, here, common⟩ := @offsetTerm_eval ub m size target.offset wide
    rcases basePart with ⟨rfl, none⟩ | ⟨b, rfl, valueB⟩ <;>
    rcases indexPart with ⟨rfl, none'⟩ | ⟨i, rfl, valueI⟩
    · rw [none, none']
      simpa [sum] using alone
    · have value := two _ i _ valueI common
      rw [none]
      simp [sum, value, here]
    · have value := two _ b _ valueB common
      rw [none']
      simp [sum, value, here]
    · have first := two _ b _ valueB common
      have value := two _ i _ valueI (by rw [first]; exact common_self wide)
      simp [sum, value, first, here]

theorem address_effective {target : MemRef} {e : Exp} (found : target.addr = .ok e)
    (reach : -2 ^ 31 < target.offset) : target.address ub m = target.effective m := by
  rw [address_displaced found, displaced_reach reach]
  rfl

theorem address_based (seg : Option String) {n : Int} (base : Reg) (scale : Scale)
    (reach : -2 ^ 31 < n) :
    (⟨seg, n, some (.q base), none, scale⟩ : MemRef).address ub m =
      m.regs base + BitVec.ofInt 64 n := by
  rw [address_effective rfl reach]
  change (BitVec.ofInt 64 n + (m.regs base).setWidth 64 + 0#64 * BitVec.ofNat 64 scale.toNat).setWidth
    64 = _
  simp [BitVec.add_comm]

end MemRef

theorem RegName.read_stepRip {r : RegName} {g : Gpr} {size : Size} {i : Instruction} {m : Mach}
    (base : baseReg r = some (.gpr g)) : r.read size (stepRip i m) = r.read size m := by
  rw [RegName.read, RegName.read, base]
  simp only [stepRip_regs (i := i) (m := m) (r := .gpr g) (by simp)]

namespace Operand

/-- What an operand stands for at a width: a register's content, a constant, or the memory at the
effective address. -/
def read (o : Operand) (size : Size) (m : Mach) : BitVec size.bits :=
  match o with
  | .reg r => r.read size m
  | .imm n | .addr n _ => BitVec.ofNat size.bits n
  | .mem target => m.mem.load (target.effective m) size.bits

def InReach (o : Operand) : Prop := ∀ target, o = .mem target → -2 ^ 31 < target.offset

variable {ub : Undef} {o : Operand} {size : Size} {m : Mach}

theorem value_read (fetched : o.Fetchable size) (reach : o.InReach) :
    o.value ub size m = o.read size m := by
  obtain ⟨e, found⟩ := fetched
  cases o with
  | imm n | addr n symbol => exact Val.lit_conv .hex n size.uint (by cases size <;> decide)
  | mem target =>
      obtain ⟨addr, found, _⟩ := except_bind_ok found
      rw [value_mem found, MemRef.address_effective found (reach target rfl)]
      rfl
  | reg r =>
      obtain ⟨_, checked, found⟩ := except_bind_ok found
      have width : size = Tase.regSize r := by simpa using MemRef.check_ok checked
      cases base : baseReg r with
      | some whole =>
          rw [value_reg base width, Operand.read, RegName.read, base]
      | none =>
          cases r with
          | other name => cases found
          | _ => simp [baseReg] at base

end Operand

section

variable {m m' : Mach} {size : Size}

theorem RegName.read_congr {r : RegName} (regs : ∀ whole, baseReg r = some whole → m.regs whole = m'.regs whole) :
    r.read size m = r.read size m' := by
  unfold read
  cases base : baseReg r with
  | none => rfl
  | some whole => simp only [regs whole base]

theorem MemRef.effective_congr {target : MemRef} (regs : ∀ r ∈ target.registers, m.regs r = m'.regs r) :
    target.effective m = target.effective m' := by
  have same (name : Option RegName) (within : ∀ r, name.bind baseReg = some r → r ∈ target.registers) :
      part name target.addrBits m = part name target.addrBits m' := by
    cases name with
    | none => rfl
    | some r => exact RegName.read_congr fun whole base => regs whole (within whole base)
  have first := same target.base fun r base => by simp [registers, base]
  have second := same target.index fun r base => by simp [registers, base]
  simp only [effective, first, second]

theorem Operand.read_congr {o : Operand} (regs : ∀ r ∈ o.reads, m.regs r = m'.regs r)
    (mem : m.mem = m'.mem) : o.read size m = o.read size m' := by
  cases o with
  | imm n | addr n symbol => rfl
  | mem target => simp only [read, mem, MemRef.effective_congr regs]
  | reg r => exact RegName.read_congr fun whole base => regs whole (by simp [reads, base])

end

/-- No segment override, and a displacement that the emitted address computes correctly. The flags
register is no operand. -/
structure Operand.Plain (o : Operand) : Prop where
  unsegmented : ∀ target, o = .mem target → target.seg = none
  reach : o.InReach
  flags : .efl ∉ o.reads

namespace Operand

theorem plain_mem {target : MemRef} :
    (Operand.mem target).Plain ↔
      target.seg = none ∧ -2 ^ 31 < target.offset ∧ .efl ∉ (Operand.mem target).reads := by
  constructor
  · rintro ⟨unsegmented, reach, flags⟩
    exact ⟨unsegmented target rfl, reach target rfl, flags⟩
  · rintro ⟨unsegmented, reach, flags⟩
    refine ⟨?_, ?_, flags⟩
    · rintro _ ⟨⟩
      exact unsegmented
    · rintro _ ⟨⟩
      exact reach

theorem plain_other {o : Operand} (other : ∀ target, o ≠ .mem target) : o.Plain ↔ .efl ∉ o.reads :=
  ⟨Plain.flags, fun flags => ⟨fun target memory => absurd memory (other target),
    fun target memory => absurd memory (other target), flags⟩⟩

instance decidablePlain : (o : Operand) → Decidable o.Plain
  | .mem _ => decidable_of_iff _ plain_mem.symm
  | .reg _ => decidable_of_iff _ (plain_other (by simp)).symm
  | .imm _ => decidable_of_iff _ (plain_other (by simp)).symm
  | .addr _ _ => decidable_of_iff _ (plain_other (by simp)).symm

end Operand

theorem Instruction.arg_plain {i : Instruction} (plain : ∀ o ∈ i.operands, o.Plain) (k : Nat) :
    (i.arg k).Plain := by
  unfold arg
  cases found : i.operands[k]? with
  | none => exact (Operand.plain_other (by simp)).mpr (by simp [Operand.reads])
  | some o => exact plain o (List.mem_of_getElem? found)

end Tase
