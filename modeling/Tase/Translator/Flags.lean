import Tase.Cpp.Bits
import Tase.Cpp.Ints
import Tase.Translator.Denotation

/-! The condition flags: which bits of `efl_tmp` the emitters set, and which they test. -/

namespace Tase

open Cpp

variable (ub : Undef)

/-! Reading. -/

def eflBit (m : Mach) (k : Nat) : Bool := (m.regs .efl).getLsbD k

theorem flagVal_bit (mask : Nat) (m : Mach) {k : Nat} (inside : k < 16) :
    (flagVal ub mask m).bit k = (eflBit m k && mask.testBit k) := by
  rw [flagVal, Val.cast_bit _ _ inside, Val.arith_bit_low ub rfl _ _ (by omega),
    Val.cast_bit _ _ inside, Val.lit_bit _ _ (by omega), Val.bit_uint]
  rfl

theorem arith_int_truthy (op : ArithOp) (l r : Val) (narrow : Ty.common l.ty r.ty = .int) :
    (Val.arith ub op l r).truthy = true ↔ ∃ k < 32, (Val.arith ub op l r).bit k = true := by
  have width : (Val.arith ub op l r).ty.width = 32 := by
    rw [Val.arith_ty, narrow]
  rw [Val.truthy_iff, width]

theorem flagTest_truthy {efl : Val} (short : efl.ty = .uint 16) {n : Nat} (small : n < 16) :
    (flagTest ub n efl).truthy = efl.bit n := by
  have literal : Radix.hex.ty (2 ^ n) = .int := by
    have : 2 ^ n ≤ 2 ^ 15 := Nat.pow_le_pow_right (by decide) (by omega)
    simp only [Radix.ty]
    rw [if_pos (by omega)]
  have narrow : Ty.common efl.ty (Val.lit .hex (2 ^ n)).ty = .int := by
    change Ty.common efl.ty (Radix.hex.ty (2 ^ n)) = .int
    rw [short, literal]
    rfl
  have bit {k : Nat} (inside : k < 32) :
      (flagTest ub n efl).bit k = (efl.bit k && decide (n = k)) := by
    rw [flagTest, Val.arith_bit_low ub rfl _ _ inside, Val.lit_bit _ _ (by omega),
      Nat.testBit_two_pow]
  have found := arith_int_truthy ub .and efl (.lit .hex (2 ^ n)) narrow
  rw [Bool.eq_iff_iff]
  constructor
  · intro set
    obtain ⟨k, inside, here⟩ := found.mp set
    change (flagTest ub n efl).bit k = true at here
    rw [bit inside] at here
    simp only [Bool.and_eq_true, decide_eq_true_eq] at here
    obtain ⟨here, rfl⟩ := here
    exact here
  · intro set
    refine found.mpr ⟨n, by omega, ?_⟩
    change (flagTest ub n efl).bit n = true
    rw [bit (by omega), set]
    simp

theorem lessTest_truthy {efl : Val} (short : efl.ty = .uint 16) :
    (condVal ub .l efl).truthy = (efl.bit flagSF ^^ efl.bit flagOF) := by
  have shifted (n : Nat) (small : n < 32) (k : Nat) :
      (Val.shift ub .right efl (.lit .dec n)).bit k = efl.bit (k + n) := by
    refine Val.shift_right_lit_bit ub efl .dec ?_ (by omega) k
    rw [short]
    exact small
  have bit {k : Nat} (inside : k < 32) : (condVal ub .l efl).bit k =
      ((efl.bit (k + flagSF) ^^ efl.bit (k + flagOF)) && decide (0 = k)) := by
    rw [condVal, Val.arith_bit_low ub rfl _ _ inside, Val.arith_bit_low ub rfl _ _ inside,
      shifted flagSF (by decide), shifted flagOF (by decide), Val.lit_bit _ _ (by omega)]
    congr 1
    exact Nat.testBit_two_pow (n := 0)
  have narrow : Ty.common
      (Val.arith ub .xor (Val.shift ub .right efl (.lit .dec flagSF))
        (Val.shift ub .right efl (.lit .dec flagOF))).ty (Val.lit .hex 1).ty = .int := by
    change Ty.common (Ty.common efl.ty.promote efl.ty.promote) .int = .int
    rw [short]
    rfl
  have found := arith_int_truthy ub .and _ _ narrow
  rw [Bool.eq_iff_iff]
  constructor
  · intro set
    obtain ⟨k, inside, here⟩ := found.mp set
    change (condVal ub .l efl).bit k = true at here
    rw [bit inside] at here
    simp only [Bool.and_eq_true, decide_eq_true_eq] at here
    obtain ⟨here, rfl⟩ := here
    simpa using here
  · intro set
    refine found.mpr ⟨0, by decide, ?_⟩
    change (condVal ub .l efl).bit 0 = true
    rw [bit (by decide)]
    simpa using set

def Cond.test (code : Cond) (flag : Nat → Bool) : Bool :=
  match code with
  | .c => flag flagCF
  | .z => flag flagZF
  | .o => flag flagOF
  | .p => flag flagPF
  | .s => flag flagSF
  | .l => flag flagSF ^^ flag flagOF

theorem condVal_truthy {efl : Val} (short : efl.ty = .uint 16) (code : Cond) :
    (condVal ub code efl).truthy = code.test efl.bit := by
  cases code with
  | l => exact lessTest_truthy ub short
  | c | z | o | p | s => exact flagTest_truthy ub short (by decide)

theorem condTaken_eq {i : Instruction} {code : Cond} (conditional : i.cond = some code) (m : Mach) :
    condTaken ub i m =
      (((i.cEq && code ≠ .z && eflBit m flagZF) || code.test (eflBit m)) != i.cNeg) := by
  have short : (flagVal ub 0xffff m).ty = .uint 16 := rfl
  have read {k : Nat} (inside : k < 16) : (flagVal ub 0xffff m).bit k = eflBit m k := by
    rw [flagVal_bit ub _ _ inside]
    have ones : Nat.testBit 0xffff k = true := by
      have := Nat.testBit_two_pow_sub_one 16 k
      simpa [inside] using this
    rw [ones, Bool.and_true]
  have test : (condVal ub code (flagVal ub 0xffff m)).truthy = code.test (eflBit m) := by
    rw [condVal_truthy ub short]
    cases code <;> simp only [Cond.test, read (show flagCF < 16 by decide),
      read (show flagZF < 16 by decide), read (show flagOF < 16 by decide),
      read (show flagPF < 16 by decide), read (show flagSF < 16 by decide)]
  have zero : (flagTest ub flagZF (flagVal ub 0xffff m)).truthy = eflBit m flagZF := by
    rw [flagTest_truthy ub short (by decide), read (by decide)]
  simp only [condTaken, conditional, eqVal]
  congr 1
  split
  · rename_i both
    rw [Val.lor, Val.ofBool_truthy, zero, test]
    simp_all
  · rename_i other
    rw [test]
    simp_all

/-! Writing. -/

theorem orInto_bit {efl : Val} (short : efl.ty = .uint 16) (value : Val) {k : Nat}
    (inside : k < 16) : (orInto ub efl value).bit k = (efl.bit k || value.bit k) := by
  rw [orInto, Val.cast_bit _ _ (by rw [short]; exact inside), Val.arith_bit_low ub rfl _ _ (by omega)]

theorem orInto_ty (efl value : Val) : (orInto ub efl value).ty = efl.ty := rfl

theorem flagZero_bit {k : Nat} (inside : k < 16) : flagZero.bit k = false := by
  rw [flagZero, Val.cast_bit _ _ inside, Val.lit_bit _ _ (by omega), Nat.zero_testBit]

theorem placed_bit (value : Val) {n k : Nat} (single : ∀ j, 0 < j → j < 32 → value.bit j = false)
    (place : n < 16) (inside : k < 16) :
    (Val.shift ub .left value (.lit .dec n)).bit k = (decide (n = k) && value.bit 0) := by
  rw [Val.shift_left_lit_bit ub _ _ (by omega) (by omega)]
  by_cases here : n = k
  · subst here
    simp
  · by_cases below : n ≤ k
    · rw [single (k - n) (by omega) (by omega)]
      simp [here]
    · simp [here, below]

theorem and_one_bit (v : Val) {radix : Radix} {j : Nat} (positive : 0 < j) (narrow : j < 32) :
    (Val.arith ub .and v (.lit radix 1)).bit j = false := by
  have one := Nat.testBit_two_pow (n := 0) (m := j)
  rw [show (2 : Nat) ^ 0 = 1 from rfl, decide_eq_false (by omega)] at one
  rw [Val.arith_bit_low ub rfl _ _ narrow, Val.lit_bit _ _ (by omega), one, Bool.and_false]

theorem Size.bits_pos (size : Size) : 0 < size.bits := by
  cases size <;> decide

theorem size_cases (size : Size) : 8 ≤ size.bits ∧ size.bits ≤ 64 := by
  cases size <;> decide

theorem masked_word {size : Size} (x : BitVec size.bits) (n : Nat) :
    (Val.arith ub .and ⟨size.uint, x⟩ (.lit .hex n)).cast size.uint =
      ⟨size.uint, x &&& BitVec.ofNat size.bits n⟩ := by
  rw [Val.cast]
  congr 1
  apply BitVec.eq_of_getLsbD_eq
  intro k inside
  have inside : k < size.bits := inside
  have bounds := size_cases size
  have wide : k < (Ty.common size.uint (Radix.hex.ty n)).width := by
    have := Ty.le_promote_width size.uint
    rw [Ty.common_width]
    simp only at this
    omega
  rw [Val.conv_getLsbD, Val.arith_bit ub rfl _ _ wide, Val.lit_bit _ _ (by omega), BitVec.getLsbD_and,
    BitVec.getLsbD_ofNat]
  simp [inside]

theorem masked_toInt {size : Size} (x : BitVec size.bits) {p : Nat} (fits : p ≤ size.bits) :
    ((Val.arith ub .and ⟨size.uint, x⟩ (.lit .hex (2 ^ p - 1))).cast size.uint).toInt =
      ((x.toNat % 2 ^ p : Nat) : Int) := by
  have below : 2 ^ p ≤ 2 ^ size.bits := Nat.pow_le_pow_right (by decide) fits
  have held : 2 ^ p - 1 < 2 ^ size.bits := by
    have := Nat.two_pow_pos p
    omega
  rw [masked_word]
  change ((x &&& BitVec.ofNat size.bits (2 ^ p - 1)).toNat : Int) = _
  rw [BitVec.toNat_and, BitVec.toNat_ofNat, Nat.mod_eq_of_lt held, Nat.and_two_pow_sub_one_eq_mod]

theorem zpsVal_bits {size : Size} {efl res : Val} (short : efl.ty = .uint 16)
    (narrow : res.ty.width ≤ 64) (covers : size.bits ≤ res.ty.promote.width) {k : Nat} (inside : k < 16)
    (parity : k ≠ flagPF) :
    (zpsVal ub size efl res).bit k =
      (efl.bit k || (decide (flagZF = k) && decide (res.bits = 0)) ||
        (decide (flagSF = k) && res.bit (size.bits - 1))) := by
  -- The flags of `_emit_zps` apart from the parity. SF is bit `8 * size1 - 1` of the value, which is its top bit
  -- only where the value is of that size.
  have bounds := size_cases size
  have zero : Val.cmp .eq res (.lit .dec 0) = Val.ofBool (decide (res.bits = 0)) :=
    Val.cmp_zero res narrow
  have sign : (Val.arith ub .and
      (Val.shift ub .right res (.lit .dec (size.bits - flagSF - 1)))
      (.lit .hex (2 ^ flagSF))).bit k = (decide (flagSF = k) && res.bit (size.bits - 1)) := by
    rw [Val.arith_bit_low ub rfl _ _ (by omega), Val.lit_bit _ _ (by omega), Nat.testBit_two_pow,
      Val.shift_right_lit_bit ub _ _ (by omega) (by omega)]
    by_cases here : flagSF = k
    · subst here
      have top : flagSF + (size.bits - flagSF - 1) = size.bits - 1 := by
        simp only [flagSF]
        omega
      rw [top, Bool.and_comm]
    · simp [here]
  unfold zpsVal
  simp only
  rw [orInto_bit ub (by rw [orInto_ty, orInto_ty, short]) _ inside,
    orInto_bit ub (by rw [orInto_ty, short]) _ inside, orInto_bit ub short _ inside, sign,
    placed_bit ub _ (fun j => and_one_bit ub _) (by decide) inside, zero,
    placed_bit ub _ (fun j positive _ => by simp [Val.ofBool_bit, Nat.ne_of_gt positive]) (by decide)
      inside, Val.ofBool_bit]
  simp [parity.symm]

section

variable {size : Size} (x : BitVec size.bits)

theorem zpsVal_bit {efl : Val} (short : efl.ty = .uint 16) {k : Nat} (inside : k < 16)
    (parity : k ≠ flagPF) :
    (zpsVal ub size efl ⟨size.uint, x⟩).bit k =
      (efl.bit k || (decide (flagZF = k) && decide (x = 0)) || (decide (flagSF = k) && x.msb)) := by
  rw [zpsVal_bits ub short (size_cases size).2 (Ty.le_promote_width size.uint) inside parity,
    Val.bit_uint, BitVec.msb_eq_getLsbD_last]

theorem uint_top (size : Size) (y : BitVec size.bits) :
    (⟨size.uint, y⟩ : Val).bit (size.bits - 1) = y.msb := by
  rw [Val.bit_uint, BitVec.msb_eq_getLsbD_last]

theorem overflowVal_bit (mode : AddMode) (a b : BitVec size.bits) {k : Nat} (inside : k < 12) :
    (mode.overflowVal ub size ⟨size.uint, x⟩ ⟨size.uint, a⟩ ⟨size.uint, b⟩).bit k =
      (decide (flagOF = k) &&
        ((x.msb ^^ a.msb) && ((if mode.sub then a.msb else x.msb) ^^ b.msb))) := by
  have bounds := size_cases size
  have wide := Ty.le_promote_width size.uint
  have common := Ty.common_width size.uint size.uint
  have outer := Ty.common_width (Ty.common size.uint size.uint) (Ty.common size.uint size.uint)
  have outerWide := Ty.le_promote_width (Ty.common size.uint size.uint)
  have widest := Ty.le_promote_width
    (Ty.common (Ty.common size.uint size.uint) (Ty.common size.uint size.uint))
  simp only at wide
  have differ (y z : BitVec size.bits) :
      (Val.arith ub .xor ⟨size.uint, y⟩ ⟨size.uint, z⟩).bit (size.bits - 1) = (y.msb ^^ z.msb) := by
    rw [Val.arith_bit ub rfl _ _ (by change _ < (Ty.common size.uint size.uint).width; omega),
      uint_top, uint_top]
  have chosen : (if mode.sub then (⟨size.uint, a⟩ : Val) else ⟨size.uint, x⟩) =
      ⟨size.uint, if mode.sub then a else x⟩ := by
    cases mode.sub <;> rfl
  unfold AddMode.overflowVal
  rw [chosen, Val.shift_left_lit_bit ub _ _ (by decide) (by omega)]
  by_cases here : flagOF = k
  · subst here
    have inner : size.bits - 1 <
        (Ty.common (Ty.common size.uint size.uint) (Ty.common size.uint size.uint)).width := by
      omega
    have shifted : size.bits - 1 <
        (Ty.common (Ty.common size.uint size.uint) (Ty.common size.uint size.uint)).promote.width := by
      omega
    simp only [Nat.le_refl, decide_true, Bool.true_and, Nat.sub_self]
    rw [Val.shift_right_lit_bit ub _ _ ?_ (by omega), Nat.zero_add, Val.arith_bit ub rfl _ _ ?_,
      differ, differ]
    · cases mode.sub <;> rfl
    · exact inner
    · exact shifted
  · have below : ¬flagOF ≤ k := by
      simp only [flagOF] at here ⊢
      omega
    simp [here, below]

end

/-! Sums and differences, with the carry that comes in. -/

theorem flagVal_toInt (m : Mach) :
    (flagVal ub (2 ^ flagCF) m).toInt = (eflBit m flagCF).toNat := by
  have bits : (flagVal ub (2 ^ flagCF) m).bits = BitVec.ofNat 16 (eflBit m flagCF).toNat := by
    apply BitVec.eq_of_getLsbD_eq
    intro k bound
    rw [← Val.bit_of_lt bound, flagVal_bit ub _ _ bound, Nat.testBit_two_pow]
    have bound : k < 16 := bound
    by_cases first : k = 0
    · subst first
      cases set : eflBit m 0 <;> simp [flagCF, set]
    · have above (set : Bool) : (BitVec.ofNat 16 set.toNat).getLsbD k = false := by
        have small : set.toNat < 2 ^ 1 := Bool.toNat_lt set
        rw [BitVec.getLsbD_ofNat, Nat.testBit_lt_two_pow
          (Nat.lt_of_lt_of_le small (Nat.pow_le_pow_right (by decide) (by omega))), Bool.and_false]
      rw [decide_eq_false (by simp only [flagCF]; omega), Bool.and_false]
      exact (above _).symm
  change ((flagVal ub (2 ^ flagCF) m).bits.toNat : Int) = _
  rw [bits]
  cases eflBit m flagCF <;> rfl

theorem flagVal_truthy (m : Mach) :
    (flagVal ub (2 ^ flagCF) m).truthy = eflBit m flagCF := by
  have value := flagVal_toInt ub m
  change ((flagVal ub (2 ^ flagCF) m).bits.toNat : Int) = _ at value
  rw [Val.truthy, Bool.eq_iff_iff, bne_iff_ne, ne_eq, ← BitVec.toNat_inj]
  cases set : eflBit m flagCF with
  | true =>
      rw [set] at value
      simp only [Bool.toNat_true, Nat.cast_one] at value
      simp
      omega
  | false =>
      rw [set] at value
      simp only [Bool.toNat_false] at value
      simp
      omega

namespace AddMode

def carryIn (mode : AddMode) (cf : Bool) : Nat := (mode.carry && cf).toNat

def total {width : Nat} (mode : AddMode) (a b : BitVec width) (cf : Bool) : BitVec width :=
  if mode.sub then a - b - BitVec.ofNat width (mode.carryIn cf)
  else a + b + BitVec.ofNat width (mode.carryIn cf)

def carryOut {width : Nat} (mode : AddMode) (a b : BitVec width) (cf : Bool) : Bool :=
  if mode.sub then decide (a.toNat < b.toNat + mode.carryIn cf)
  else decide (2 ^ width ≤ a.toNat + b.toNat + mode.carryIn cf)

def onInts (mode : AddMode) (x y : Int) : Int := if mode.sub then x - y else x + y

theorem op_onInts (mode : AddMode) : mode.op.onInts = some mode.onInts := by
  unfold op onInts
  cases mode.sub <;> rfl

theorem ofInt_onInts (mode : AddMode) {width : Nat} (x y : Int) :
    BitVec.ofInt width (mode.onInts x y) =
      if mode.sub then BitVec.ofInt width x - BitVec.ofInt width y
      else BitVec.ofInt width x + BitVec.ofInt width y := by
  unfold onInts
  cases mode.sub with
  | true => exact ofInt_sub x y
  | false => exact BitVec.ofInt_add x y

theorem onInts_bounds (mode : AddMode) {x y : Int} (left : -2 ^ 20 ≤ x ∧ x < 2 ^ 20)
    (right : 0 ≤ y ∧ y < 2 ^ 20) : -2 ^ 31 ≤ mode.onInts x y ∧ mode.onInts x y < 2 ^ 31 := by
  unfold onInts
  split <;> omega

end AddMode

section

variable {size : Size} (mode : AddMode) (a b : BitVec size.bits)

theorem small_of_narrow (narrow : size.bits < 32) (y : BitVec size.bits) : y.toNat < 2 ^ 16 := by
  have width : size.bits ≤ 16 := by
    cases size with
    | b | w => decide
    | l | q => exact absurd narrow (by decide)
  exact Nat.lt_of_lt_of_le y.isLt (Nat.pow_le_pow_right (by decide) width)

theorem two_bits :
    (Val.arith ub mode.op ⟨size.uint, a⟩ ⟨size.uint, b⟩).conv size.uint =
      BitVec.ofInt size.bits (mode.onInts a.toNat b.toNat) := by
  have wide : size.bits ≤ (Ty.common size.uint size.uint).width := by
    have := Ty.common_width size.uint size.uint
    have := Ty.le_promote_width size.uint
    simp only at this
    omega
  refine Val.arith_conv ub mode.op_onInts (Ty.inRange_uint (.inr rfl) ?_)
    (Ty.inRange_uint (.inr rfl) ?_) (Ty.inRange_uint (.inr rfl) ?_) size.uint wide
  · intro narrow
    have := small_of_narrow narrow a
    change -2 ^ 31 ≤ (a.toNat : Int) ∧ (a.toNat : Int) < 2 ^ 31
    omega
  · intro narrow
    have := small_of_narrow narrow b
    change -2 ^ 31 ≤ (b.toNat : Int) ∧ (b.toNat : Int) < 2 ^ 31
    omega
  · intro narrow
    have := small_of_narrow narrow a
    have := small_of_narrow narrow b
    exact mode.onInts_bounds (x := a.toNat) (y := b.toNat) (by omega) (by omega)

end

section

variable {size : Size} (mode : AddMode) (a b : BitVec size.bits)

theorem two_range (n : Int) (small : size.bits < 32 → -2 ^ 31 ≤ n ∧ n < 2 ^ 31) :
    (Ty.common (Ty.common size.uint size.uint) (.uint 16)).InRange n := by
  rw [Ty.common_uint_self]
  by_cases narrow : size.bits < 32
  · rw [if_pos narrow]
    exact fun _ => ⟨by decide, small narrow⟩
  · rw [if_neg narrow]
    exact Ty.inRange_uint (.inl (by decide)) small

theorem two_toInt_bounds (narrow : size.bits < 32) :
    -2 ^ 20 ≤ (Val.arith ub mode.op ⟨size.uint, a⟩ ⟨size.uint, b⟩).toInt ∧
      (Val.arith ub mode.op ⟨size.uint, a⟩ ⟨size.uint, b⟩).toInt < 2 ^ 20 := by
  have left := small_of_narrow narrow a
  have right := small_of_narrow narrow b
  have common : Ty.common size.uint size.uint = .int := by
    rw [Ty.common_uint_self, if_pos narrow]
  have range (n : Int) (small : -2 ^ 31 ≤ n ∧ n < 2 ^ 31) :
      (Ty.common size.uint size.uint).InRange n :=
    Ty.inRange_uint (.inr rfl) fun _ => small
  have exactly : (Val.arith ub mode.op ⟨size.uint, a⟩ ⟨size.uint, b⟩).toInt =
      mode.onInts a.toNat b.toNat := by
    refine Val.arith_toInt ub mode.op_onInts (range _ ?_) (range _ ?_) (range _ ?_) (by rw [common])
    · change -2 ^ 31 ≤ (a.toNat : Int) ∧ (a.toNat : Int) < 2 ^ 31
      omega
    · change -2 ^ 31 ≤ (b.toNat : Int) ∧ (b.toNat : Int) < 2 ^ 31
      omega
    · exact mode.onInts_bounds (x := a.toNat) (y := b.toNat) (by omega) (by omega)
  rw [exactly]
  unfold AddMode.onInts
  split <;> omega

variable {cf : Val} {c : Bool}

theorem three_bits (short : cf.ty = .uint 16) (value : cf.toInt = c.toNat) :
    (Val.arith ub mode.op (Val.arith ub mode.op ⟨size.uint, a⟩ ⟨size.uint, b⟩) cf).conv size.uint =
      if mode.sub then BitVec.ofInt size.bits (mode.onInts a.toNat b.toNat) - BitVec.ofNat _ c.toNat
      else BitVec.ofInt size.bits (mode.onInts a.toNat b.toNat) + BitVec.ofNat _ c.toNat := by
  have bit : c.toNat < 2 := Bool.toNat_lt c
  have wide : size.bits ≤ (Ty.common (Ty.common size.uint size.uint) cf.ty).width := by
    have outer := Ty.common_width (Ty.common size.uint size.uint) cf.ty
    have inner := Ty.common_width size.uint size.uint
    have promoted := Ty.le_promote_width (Ty.common size.uint size.uint)
    have start := Ty.le_promote_width size.uint
    simp only at start
    omega
  have sum : (Val.arith ub mode.op (Val.arith ub mode.op ⟨size.uint, a⟩ ⟨size.uint, b⟩) cf).conv
      size.uint = BitVec.ofInt size.bits (mode.onInts
        (Val.arith ub mode.op ⟨size.uint, a⟩ ⟨size.uint, b⟩).toInt cf.toInt) := by
    have range (n : Int) (small : size.bits < 32 → -2 ^ 31 ≤ n ∧ n < 2 ^ 31) :
        (Ty.common (Val.arith ub mode.op ⟨size.uint, a⟩ ⟨size.uint, b⟩).ty cf.ty).InRange n := by
      rw [Val.arith_ty, short]
      exact two_range n small
    refine Val.arith_conv ub mode.op_onInts (range _ ?_) (range _ ?_) (range _ ?_) size.uint wide
    · intro narrow
      have := two_toInt_bounds ub mode a b narrow
      omega
    · intro _
      rw [value]
      omega
    · intro narrow
      refine mode.onInts_bounds (two_toInt_bounds ub mode a b narrow) ?_
      rw [value]
      omega
  have first : BitVec.ofInt size.bits (Val.arith ub mode.op ⟨size.uint, a⟩ ⟨size.uint, b⟩).toInt =
      BitVec.ofInt size.bits (mode.onInts a.toNat b.toNat) := by
    rw [← two_bits ub mode a b, Val.conv_eq_ofInt]
  rw [sum, mode.ofInt_onInts, first, value, BitVec.ofInt_natCast]

theorem sumVal_eq (short : cf.ty = .uint 16) (value : cf.toInt = c.toNat) :
    mode.sumVal ub size ⟨size.uint, a⟩ ⟨size.uint, b⟩ cf = ⟨size.uint, mode.total a b c⟩ := by
  have start : BitVec.ofInt size.bits (mode.onInts a.toNat b.toNat) =
      if mode.sub then a - b else a + b := by
    rw [mode.ofInt_onInts, BitVec.ofInt_natCast, BitVec.ofInt_natCast, BitVec.ofNat_toNat,
      BitVec.ofNat_toNat, BitVec.setWidth_eq, BitVec.setWidth_eq]
  refine congrArg (Val.mk size.uint) ?_
  unfold AddMode.total AddMode.carryIn
  cases carries : mode.carry with
  | true =>
      simp only [Bool.true_and, if_true]
      rw [three_bits ub mode a b short value, start]
      cases mode.sub <;> rfl
  | false =>
      simp only [Bool.false_and, Bool.false_eq_true, if_false, Bool.toNat_false]
      rw [two_bits, start]
      cases mode.sub <;> simp

end

theorem AddMode.total_toNat {size : Size} (mode : AddMode) (a b : BitVec size.bits) (c : Bool) :
    (mode.total a b c).toNat =
      if mode.sub then
        if b.toNat + mode.carryIn c ≤ a.toNat then a.toNat - b.toNat - mode.carryIn c
        else 2 ^ size.bits + a.toNat - b.toNat - mode.carryIn c
      else if a.toNat + b.toNat + mode.carryIn c < 2 ^ size.bits then
        a.toNat + b.toNat + mode.carryIn c
      else a.toNat + b.toNat + mode.carryIn c - 2 ^ size.bits := by
  have left := a.isLt
  have right := b.isLt
  have bit : mode.carryIn c ≤ 1 := Bool.toNat_le (mode.carry && c)
  unfold total
  generalize mode.carryIn c = n at *
  cases mode.sub with
  | true =>
      simp only [if_true, BitVec.toNat_sub, BitVec.toNat_ofNat]
      cases size <;> simp only [Size.bits] at left right ⊢ <;> split <;> omega
  | false =>
      simp only [Bool.false_eq_true, if_false, BitVec.toNat_add, BitVec.toNat_ofNat]
      cases size <;> simp only [Size.bits] at left right ⊢ <;> split <;> omega

theorem AddMode.compare_carry {size : Size} (mode : AddMode) (a b : BitVec size.bits) (c : Bool) :
    (if mode.carry && c then
      CmpOp.onNats (if mode.sub then .ge else .le) (mode.total a b c).toNat a.toNat
    else CmpOp.onNats (if mode.sub then .gt else .lt) (mode.total a b c).toNat a.toNat) =
      mode.carryOut a b c := by
  have left := a.isLt
  have right := b.isLt
  have total := mode.total_toNat a b c
  unfold carryOut
  unfold carryIn at total ⊢
  cases subtracts : mode.sub with
  | true =>
      simp only [subtracts, if_true] at total ⊢
      cases carried : mode.carry && c with
      | true =>
          simp only [carried, if_true, Bool.toNat_true, CmpOp.onNats, decide_eq_decide] at total ⊢
          split at total <;> omega
      | false =>
          simp only [carried, Bool.false_eq_true, if_false, Bool.toNat_false, CmpOp.onNats,
            decide_eq_decide] at total ⊢
          split at total <;> omega
  | false =>
      simp only [subtracts, Bool.false_eq_true, if_false] at total ⊢
      cases carried : mode.carry && c with
      | true =>
          simp only [carried, if_true, Bool.toNat_true, CmpOp.onNats, decide_eq_decide] at total ⊢
          split at total <;> omega
      | false =>
          simp only [carried, Bool.false_eq_true, if_false, Bool.toNat_false, CmpOp.onNats,
            decide_eq_decide] at total ⊢
          split at total <;> omega

section

variable {size : Size} (mode : AddMode) (a b : BitVec size.bits) {cf : Val} {c : Bool}

theorem cond_ofBool (test : Val) (p q : Bool) :
    Val.cond test (Val.ofBool p) (Val.ofBool q) = Val.ofBool (if test.truthy then p else q) := by
  unfold Val.cond
  cases test.truthy <;> cases p <;> cases q <;> rfl

theorem carryVal_eq (set : cf.truthy = c) :
    mode.carryVal ⟨size.uint, mode.total a b c⟩ ⟨size.uint, a⟩ cf =
      Val.ofBool (mode.carryOut a b c) := by
  rw [← mode.compare_carry a b c]
  unfold AddMode.carryVal
  simp only [Val.cmp_uint, cond_ofBool, set]
  cases mode.carry <;> cases c <;> rfl

end

theorem AddMode.flagsVal_bit {size : Size} (mode : AddMode) (a b : BitVec size.bits) {cf : Val}
    {c : Bool} (set : cf.truthy = c) {k : Nat} (inside : k < 12) (parity : k ≠ flagPF) :
    (mode.flagsVal ub size ⟨size.uint, mode.total a b c⟩ ⟨size.uint, a⟩ ⟨size.uint, b⟩ cf).bit k =
      ((decide (flagOF = k) && (((mode.total a b c).msb ^^ a.msb) &&
          ((if mode.sub then a.msb else (mode.total a b c).msb) ^^ b.msb))) ||
        (mode.setCarry && decide (k = flagCF) && mode.carryOut a b c) ||
        (decide (flagZF = k) && decide (mode.total a b c = 0)) ||
        (decide (flagSF = k) && (mode.total a b c).msb)) := by
  have overflow : (orInto ub flagZero (mode.overflowVal ub size ⟨size.uint, mode.total a b c⟩
      ⟨size.uint, a⟩ ⟨size.uint, b⟩)).bit k = (decide (flagOF = k) &&
        (((mode.total a b c).msb ^^ a.msb) &&
          ((if mode.sub then a.msb else (mode.total a b c).msb) ^^ b.msb))) := by
    rw [orInto_bit ub rfl _ (by omega), flagZero_bit (by omega), overflowVal_bit ub _ _ _ _ inside,
      Bool.false_or]
  unfold flagsVal
  simp only
  cases mode.setCarry with
  | true =>
      simp only [if_true]
      rw [zpsVal_bit ub _ rfl (by omega) parity, orInto_bit ub rfl _ (by omega), overflow,
        carryVal_eq mode a b set, Val.ofBool_bit, Bool.true_and, Bool.and_comm (mode.carryOut a b c)]
      rfl
  | false =>
      simp only [Bool.false_eq_true, if_false]
      rw [zpsVal_bit ub _ rfl (by omega) parity, overflow, Bool.false_and, Bool.false_and,
        Bool.or_false]

theorem eflBit_setFlag {mask : Nat} {value : Val} {clobber : Bool} {m : Mach} {k : Nat}
    (inside : k < 32) (masked : mask.testBit k = true) :
    eflBit (setFlag ub mask value clobber m) k = value.bit k := by
  have narrow : k < 64 := by omega
  unfold eflBit setFlag
  rw [Machine.setReg_regs_self, Val.conv_getLsbD]
  cases clobber with
  | true => simp [narrow]
  | false =>
      simp only [narrow, decide_true, Bool.true_and, Bool.false_eq_true, if_false]
      rw [Val.arith_bit_low ub rfl _ _ inside, Val.arith_bit_low ub rfl _ _ inside,
        Val.un_not_bit ub _ inside, Val.lit_bit _ _ narrow, masked]
      simp

theorem eflBit_setFlag_all {mask : Nat} {value : Val} {m : Mach} {k : Nat} (inside : k < 64)
    (small : mask < 2 ^ 31) :
    eflBit (setFlag ub mask value false m) k =
      ((eflBit m k && !mask.testBit k) || value.bit k) := by
  have type : Radix.hex.ty mask = .int := if_pos small
  have masked : (Val.un ub .not (.lit .hex mask)).ty = .int := by
    change (Radix.hex.ty mask).promote = _
    rw [type]
    rfl
  have kept : Ty.common (.uint 64) (Val.un ub .not (.lit .hex mask)).ty = .uint 64 := by
    rw [masked]
    rfl
  have wide : k < (Ty.common (.uint 64) value.ty).width := by
    have := Ty.common_width (.uint 64) value.ty
    have : (Ty.promote (.uint 64)).width = 64 := rfl
    omega
  unfold eflBit setFlag
  rw [Machine.setReg_regs_self, Val.conv_getLsbD]
  simp only [inside, decide_true, Bool.true_and, Bool.false_eq_true, if_false]
  rw [Val.arith_bit ub rfl _ _ (by rw [Val.arith_ty, kept]; exact wide),
    Val.arith_bit ub rfl _ _ (by rw [kept]; exact inside), Val.un_not_bit_int ub (by exact type),
    Val.lit_bit _ _ inside, Val.bit_uint]

theorem cozpsMask_bit {k : Nat}
    (flag : k = flagCF ∨ k = flagZF ∨ k = flagSF ∨ k = flagOF) :
    k < 12 ∧ k ≠ flagPF ∧ cozpsMask.testBit k = true := by
  rcases flag with rfl | rfl | rfl | rfl <;> decide

theorem eflBit_denoteAdd {i : Instruction} {left right : Option Operand} {mode : AddMode} {m : Mach}
    {k : Nat} (flag : k = flagCF ∨ k = flagZF ∨ k = flagSF ∨ k = flagOF) :
    eflBit (denoteAdd ub i left right mode m) k =
      let a := (left.getD (i.arg 1)).value ub i.bits1 m
      let b := (right.getD (i.arg 0)).value ub i.bits1 m
      let res := mode.total a b (eflBit m flagCF)
      ((decide (flagOF = k) && ((res.msb ^^ a.msb) && ((if mode.sub then a.msb else res.msb) ^^ b.msb))) ||
        (mode.setCarry && decide (k = flagCF) && mode.carryOut a b (eflBit m flagCF)) ||
        (decide (flagZF = k) && decide (res = 0)) || (decide (flagSF = k) && res.msb)) := by
  -- The flags that `_emit_add` leaves.
  obtain ⟨inside, parity, masked⟩ := cozpsMask_bit flag
  have sum := sumVal_eq ub mode ((left.getD (i.arg 1)).value ub i.bits1 m)
    ((right.getD (i.arg 0)).value ub i.bits1 m) rfl (flagVal_toInt ub m)
  unfold denoteAdd
  simp only
  rw [eflBit_setFlag ub (by omega) masked]
  simp only [Operand.fetch]
  rw [sum]
  exact mode.flagsVal_bit ub _ _ (flagVal_truthy ub m) inside parity

theorem logicalVal_eq {i : Instruction} {op : ArithOp} {f : Bool → Bool → Bool}
    (bitwise : op.onBits = some f) (m : Mach) :
    logicalVal ub i op m = ⟨i.bits1.uint, op.compute i.bits1.uint
      ((i.arg 1).value ub i.bits1 m) ((i.arg 0).value ub i.bits1 m)⟩ := by
  refine congrArg (Val.mk i.bits1.uint) (BitVec.eq_of_getLsbD_eq fun k bound => ?_)
  have wide : k < (Ty.common i.bits1.uint i.bits1.uint).width := by
    have common := Ty.common_width i.bits1.uint i.bits1.uint
    have start := Ty.le_promote_width i.bits1.uint
    simp only at start bound
    omega
  rw [Val.conv_getLsbD, Val.arith_bit ub bitwise _ _ (by exact wide)]
  have bound : k < i.bits1.bits := bound
  simp only [bound, decide_true, Bool.true_and, Operand.fetch, Val.bit_uint]
  cases op with
  | and | or | xor =>
      cases bitwise
      simp [ArithOp.compute]
  | add | sub | mul | div | rem => cases bitwise

theorem eflBit_denoteLogical {i : Instruction} {op : ArithOp} {f : Bool → Bool → Bool}
    (bitwise : op.onBits = some f) {writeTarget : Bool} {m : Mach} {k : Nat}
    (flag : k = flagCF ∨ k = flagZF ∨ k = flagSF ∨ k = flagOF) :
    eflBit (denoteLogical ub i op writeTarget m) k =
      let res := op.compute i.bits1.uint ((i.arg 1).value ub i.bits1 m)
        ((i.arg 0).value ub i.bits1 m)
      ((decide (flagZF = k) && decide (res = 0)) || (decide (flagSF = k) && res.msb)) := by
  obtain ⟨inside, parity, masked⟩ := cozpsMask_bit flag
  unfold denoteLogical
  rw [eflBit_setFlag ub (by omega) masked, logicalVal_eq ub bitwise,
    zpsVal_bit ub _ rfl (by omega) parity, flagZero_bit (by omega), Bool.false_or]

theorem denoteAdd_eq {ub : Undef} {i : Instruction} {m : Mach} (left right : Option Operand)
    (mode : AddMode) :
    ∃ flags : BitVec 64, denoteAdd ub i left right mode m =
      (mode.target (left.getD (i.arg 1)) (right.getD (i.arg 0)) m
        (Operand.write ub · i.bits1 ⟨i.bits1.uint, mode.total ((left.getD (i.arg 1)).value ub i.bits1 m)
          ((right.getD (i.arg 0)).value ub i.bits1 m) (eflBit m flagCF)⟩)).setReg .efl flags := by
  have sum := sumVal_eq ub mode ((left.getD (i.arg 1)).value ub i.bits1 m)
    ((right.getD (i.arg 0)).value ub i.bits1 m) rfl (flagVal_toInt ub m)
  rw [← sum]
  exact ⟨_, rfl⟩

end Tase
