import Tase.Translator.Emits
import Tase.Translator.Flags
import Tase.Translator.Writing

/-! The symmetric shifts of `_emit_bswap`. -/

namespace Tase

open Cpp Emit

def swapIndex (bytes k : Nat) : Nat := 8 * (bytes - 1 - k / 8) + k % 8

theorem byteMask_testBit {j : Nat} (small : j < 4) (k : Nat) :
    (byteMask j).testBit k = decide (k / 8 = j) := by
  have masks : ∀ j < 4, byteMask j = 2 ^ (8 * j) * (2 ^ 8 - 1) := by decide
  rw [masks j small, Nat.testBit_two_pow_mul, Nat.testBit_two_pow_sub_one, Bool.eq_iff_iff]
  simp only [Bool.and_eq_true, decide_eq_true_eq]
  omega

section

variable {ub : Undef} {size : Size} {x : BitVec size.bits}

theorem maskedWord_width (wide : size = .l ∨ size = .q) :
    ∀ j < 4, (Ty.common size.uint (Radix.hex.ty (byteMask j))).width = size.bits ∧
      (Ty.common size.uint (Radix.hex.ty (byteMask j))).promote.width = size.bits := by
  rcases wide with rfl | rfl <;> decide

theorem bswapTermVals_bit (wide : size = .l ∨ size = .q) {j k : Nat} (first : j < size.bytes / 2)
    (inside : k < size.bits) :
    (bswapTermVals ub ⟨size.uint, x⟩ size.bytes j).any (·.bit k) =
      ((decide (k / 8 = j) || decide (k / 8 = size.bytes - 1 - j)) && x.getLsbD (swapIndex size.bytes k)) := by
  -- Byte `j` moves down from the other end, and up to it.
  have bounds : size.bits = 8 * size.bytes ∧ (size.bytes = 4 ∨ size.bytes = 8) := by
    rcases wide with rfl | rfl <;> decide
  have promoted : size.uint.promote = size.uint := by rcases wide with rfl | rfl <;> rfl
  obtain ⟨common, masked⟩ := maskedWord_width wide j (by omega)
  have shifted : (Ty.common size.uint.promote (Radix.hex.ty (byteMask j))).width = size.bits := by
    rw [promoted, common]
  have amount : (size.bytes - 2 * j - 1) * 8 < size.bits := by omega
  have down : (Val.arith ub .and
      (Val.shift ub .right ⟨size.uint, x⟩ (.lit .dec ((size.bytes - 2 * j - 1) * 8)))
      (.lit .hex (byteMask j))).bit k =
        (x.getLsbD (k + (size.bytes - 2 * j - 1) * 8) && decide (k / 8 = j)) := by
    rw [Val.arith_bit ub rfl _ _ (by exact shifted ▸ inside),
      Val.shift_right_lit_bit ub _ _ (by rw [promoted]; exact amount) (by omega),
      Val.lit_bit _ _ (by omega), byteMask_testBit (by omega), Val.bit_uint]
  have up : (Val.shift ub .left (Val.arith ub .and ⟨size.uint, x⟩ (.lit .hex (byteMask j)))
      (.lit .dec ((size.bytes - 2 * j - 1) * 8))).bit k =
        (decide ((size.bytes - 2 * j - 1) * 8 ≤ k) &&
          (x.getLsbD (k - (size.bytes - 2 * j - 1) * 8) &&
            decide ((k - (size.bytes - 2 * j - 1) * 8) / 8 = j))) := by
    rw [Val.shift_left_bit ub _ (Val.lit_toInt .dec _ (by omega)) (by exact masked ▸ amount)
        (by exact masked ▸ inside),
      Val.arith_bit ub rfl _ _ (by exact common ▸ (by omega)), Val.lit_bit _ _ (by omega),
      byteMask_testBit (by omega), Val.bit_uint]
  have fromAbove (low : k / 8 = j) : swapIndex size.bytes k = k + (size.bytes - 2 * j - 1) * 8 := by
    unfold swapIndex
    omega
  have fromBelow (high : k / 8 = size.bytes - 1 - j) :
      swapIndex size.bytes k = k - (size.bytes - 2 * j - 1) * 8 := by
    unfold swapIndex
    omega
  simp only [bswapTermVals, List.any_cons, List.any_nil, Bool.or_false, down, up]
  rw [Bool.eq_iff_iff]
  simp only [Bool.or_eq_true, Bool.and_eq_true, decide_eq_true_eq]
  constructor
  · rintro (⟨bit, low⟩ | ⟨above, bit, source⟩)
    · exact ⟨.inl low, fromAbove low ▸ bit⟩
    · have high : k / 8 = size.bytes - 1 - j := by omega
      exact ⟨.inr high, fromBelow high ▸ bit⟩
  · rintro ⟨low | high, bit⟩
    · exact .inl ⟨fromAbove low ▸ bit, low⟩
    · exact .inr ⟨by omega, fromBelow high ▸ bit, by omega⟩

theorem bswapVal_bit (wide : size = .l ∨ size = .q) {k : Nat} (inside : k < size.bits) :
    (bswapVal ub ⟨size.uint, x⟩ size.bytes).bit k = x.getLsbD (swapIndex size.bytes k) := by
  have bounds : size.bits = 8 * size.bytes ∧ (size.bytes = 4 ∨ size.bytes = 8) := by
    rcases wide with rfl | rfl <;> decide
  have chain : (bswapVal ub ⟨size.uint, x⟩ size.bytes).bit k =
      ((List.range (size.bytes / 2)).flatMap (bswapTermVals ub ⟨size.uint, x⟩ size.bytes)).any (·.bit k) := by
    rcases wide with rfl | rfl
    · exact Val.foldl_or_bit ub _ _ (by exact inside)
    · exact Val.foldl_or_bit ub _ _ (by exact inside)
  rw [chain, List.any_flatMap, Bool.eq_iff_iff, List.any_eq_true]
  constructor
  · rintro ⟨j, member, bit⟩
    rw [bswapTermVals_bit wide (List.mem_range.mp member) inside, Bool.and_eq_true] at bit
    exact bit.2
  · intro bit
    by_cases low : k / 8 < size.bytes / 2
    · refine ⟨k / 8, List.mem_range.mpr low, ?_⟩
      rw [bswapTermVals_bit wide low inside]
      simp [bit]
    · have other : size.bytes - 1 - k / 8 < size.bytes / 2 := by omega
      have back : k / 8 = size.bytes - 1 - (size.bytes - 1 - k / 8) := by omega
      refine ⟨size.bytes - 1 - k / 8, List.mem_range.mpr other, ?_⟩
      rw [bswapTermVals_bit wide other inside, ← back]
      simp [bit]

def bswapWord (ub : Undef) (x : BitVec size.bits) : BitVec size.bits :=
  (bswapVal ub ⟨size.uint, x⟩ size.bytes).conv size.uint

theorem bswapWord_bit (wide : size = .l ∨ size = .q) {k : Nat} (inside : k < size.bits) :
    (bswapWord ub x).getLsbD k = x.getLsbD (swapIndex size.bytes k) := by
  rw [bswapWord, Val.conv_getLsbD, bswapVal_bit wide inside]
  simp [inside]

def byteOf {n : Nat} (x : BitVec n) (k : Nat) : BitVec 8 := x.extractLsb' (8 * k) 8

theorem bswapWord_byte (wide : size = .l ∨ size = .q) {k : Nat} (inside : k < size.bytes) :
    byteOf (bswapWord ub x) k = byteOf x (size.bytes - 1 - k) := by
  have bounds : size.bits = 8 * size.bytes := by rcases wide with rfl | rfl <;> rfl
  apply BitVec.eq_of_getLsbD_eq
  intro j small
  have place : swapIndex size.bytes (8 * k + j) = 8 * (size.bytes - 1 - k) + j := by
    unfold swapIndex
    omega
  simp only [byteOf, BitVec.getLsbD_extractLsb', small, decide_true, Bool.true_and]
  rw [bswapWord_bit wide (by omega), place]

theorem bswapWord_bswapWord (wide : size = .l ∨ size = .q) : bswapWord ub (bswapWord ub x) = x := by
  have bounds : size.bits = 8 * size.bytes := by rcases wide with rfl | rfl <;> rfl
  apply BitVec.eq_of_getLsbD_eq
  intro k inside
  have inside : k < size.bits := inside
  have back : swapIndex size.bytes (swapIndex size.bytes k) = k := by
    unfold swapIndex
    omega
  have within : swapIndex size.bytes k < size.bits := by
    unfold swapIndex
    omega
  rw [bswapWord_bit wide inside, bswapWord_bit wide within, back]

end

structure SwapsBytes (r : RegName) (m m' : Mach) : Prop where
  reversed : ∀ k < (regSize r).bytes, byteOf (r.read (regSize r) m') k =
    byteOf (r.read (regSize r) m) ((regSize r).bytes - 1 - k)
  cleared : regSize r = .l → ∀ whole, baseReg r = some whole → (m'.regs whole).extractLsb' 32 32 = 0

section

variable {ub : Undef} {r : RegName} {whole : Reg} {i : Instruction} {m : Mach} {st : CState}

theorem denoteBswap_eq (operand : i.operands = [.reg r]) (base : baseReg r = some whole) :
    denoteBswap ub i m =
      m.setReg whole (r.put (m.regs whole) (bswapWord ub (r.read (regSize r) m))) := by
  have argument : i.arg 0 = .reg r := by simp [Instruction.arg, operand]
  have content : (Operand.reg r).value ub (regSize r) m = r.read (regSize r) m := by
    rw [Operand.value_reg base rfl, RegName.read, base]
  rw [denoteBswap, argument]
  simp only [Operand.regSize, Operand.fetch, content]
  exact Operand.write_put base rfl _

theorem read_bswapped (base : baseReg r = some whole) (x : BitVec (regSize r).bits) :
    r.read (regSize r) (m.setReg whole (r.put (m.regs whole) x)) = x := by
  rw [RegName.read_put rfl rfl base, if_pos rfl]

theorem swapsBytes (base : baseReg r = some whole) (wide : regSize r = .l ∨ regSize r = .q) :
    SwapsBytes r m (m.setReg whole (r.put (m.regs whole) (bswapWord ub (r.read (regSize r) m)))) := by
  refine ⟨fun k inside => ?_, fun narrow held base' => ?_⟩
  · rw [read_bswapped base, bswapWord_byte wide inside]
  · obtain rfl : whole = held := Option.some.inj (base.symm.trans base')
    have known : (baseReg r).isSome := by simp [base]
    cases r with
    | q | w | l | h | other => cases narrow
    | d gpr =>
        apply BitVec.eq_of_getLsbD_eq
        intro k inside
        have unnamed : ¬ (RegName.d gpr).Names (32 + k) := by
          rintro ⟨_, below⟩
          change 32 + k < 0 + 32 at below
          omega
        rw [Machine.setReg_regs_self, BitVec.getLsbD_extractLsb', RegName.put_bit known _ _ (by omega),
          if_neg unnamed]
        simp [RegName.keeps]

theorem emits_bswap (operand : i.operands = [.reg r]) (base : baseReg r = some whole)
    (wide : regSize r = .l ∨ regSize r = .q) : Emits (emitBswap i) := by
  have storable : (Operand.reg r).Storable (regSize r) := ⟨rfl, by simp [base]⟩
  refine Emits.bind_operand (o := .reg r) (by simp [operand]) ?_
  refine Emits.bind_lift (a := ()) ?_ ?_
  · rcases wide with size | size <;> simp [check, Operand.regSize, size]
  · refine Emits.bind (Emits.emitFetch storable.fetchable) fun _ => ?_
    exact Emits.bind (Emits.emitVarDecl _ _ _) fun _ => Emits.emitStore storable

end

/-- `_emit_bswap` reverses the bytes of its register, at the width of the register's name. -/
theorem bswap_reverses {ub : Undef} {r : RegName} {i j : Instruction} {st : CState}
    (known : (baseReg r).isSome) (wide : regSize r = .l ∨ regSize r = .q)
    (first : i.operands = [.reg r]) (second : j.operands = [.reg r]) :
    (∀ v x, st.vars v = ⟨(regSize r).uint, x⟩ → ∀ k < (regSize r).bytes,
      byteOf ((eval ub st (bswapExp v (regSize r).bytes)).conv (regSize r).uint) k =
        byteOf x ((regSize r).bytes - 1 - k)) ∧
    Leads ub (emitBswap i) st (fun _ st' => SwapsBytes r st.machine st'.machine) ∧
    Leads ub (do emitBswap i; emitBswap j) st (fun _ st' =>
      r.read (regSize r) st'.machine = r.read (regSize r) st.machine) := by
  obtain ⟨whole, base⟩ := Option.isSome_iff_exists.mp known
  refine ⟨fun v x held k inside => ?_, ?_, ?_⟩
  · have swapped : eval ub st (bswapExp v (regSize r).bytes) = bswapVal ub (st.vars v) (regSize r).bytes := by
      cases regSize r <;> rfl
    rw [swapped, held]
    exact bswapWord_byte wide inside
  · refine (emits_bswap first base wide).leads fun n => Runs.emitBswap.mono fun _ _ st' done => ?_
    rw [done, denoteBswap_eq first base]
    exact swapsBytes base wide
  · refine (Emits.bind (emits_bswap first base wide) fun _ => emits_bswap second base wide).leads fun n => ?_
    refine Runs.bind (Runs.emitBswap.mono fun _ _ st' done => Runs.emitBswap.mono fun _ _ st'' again => ?_)
    rw [again, done, denoteBswap_eq second base, denoteBswap_eq first base, read_bswapped base,
      read_bswapped base, bswapWord_bswapWord wide]

/-- `objdump` prints no suffix, and `_parse_size` then takes four bytes. -/
def bswapWide : Instruction :=
  { original := "bswap  %rax", vaddr := 0x1000, length := 3, op := .bswap, size1 := some .l,
    operands := [.reg (.q (.gpr .rax))] }

def oneInRax : CState := ⟨⟨fun r => if r = .gpr .rax then 1 else 0, fun _ => 0⟩, fun _ => default⟩

theorem bswap_reverses_bswapWide :
    Leads default (emitBswap bswapWide) oneInRax (fun _ st' =>
      SwapsBytes (.q (.gpr .rax)) oneInRax.machine st'.machine) ∧
    Leads default (do emitBswap bswapWide; emitBswap bswapWide) oneInRax (fun _ st' =>
      (RegName.q (.gpr .rax)).read .q st'.machine = 1) :=
  (@bswap_reverses default (.q (.gpr .rax)) bswapWide bswapWide oneInRax rfl (.inr rfl) rfl rfl).2

end Tase
