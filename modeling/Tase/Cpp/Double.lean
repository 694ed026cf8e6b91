import Mathlib.Tactic.Ring
import Tase.Cpp.Bits
import Tase.Cpp.Ints

/-! Values of double width: the product of two words, the halves of a value, and the value that two
words make. -/

namespace Cpp

/-- Signed products that are out of range wrap. -/
def Undef.MulWraps (ub : Undef) : Prop :=
  ∀ l r : Val, BitVec.ofInt (Ty.common l.ty r.ty).width (ub.arith .mul l r) =
    BitVec.ofInt (Ty.common l.ty r.ty).width (l.toInt * r.toInt)

theorem Ty.common_self (t : Ty) : common t t = t.promote := by
  unfold common
  simp

theorem Val.arith_mul_bits {ub : Undef} {l r : Val}
    (defined : ub.MulWraps ∨ ArithOp.mul.undefined _ (l.conv (Ty.common l.ty r.ty))
      (r.conv (Ty.common l.ty r.ty)) = false) :
    (arith ub .mul l r).bits = BitVec.ofInt (Ty.common l.ty r.ty).width (l.toInt * r.toInt) := by
  have computed : ArithOp.mul.compute _ (l.conv (Ty.common l.ty r.ty)) (r.conv (Ty.common l.ty r.ty)) =
      BitVec.ofInt (Ty.common l.ty r.ty).width (l.toInt * r.toInt) := by
    rw [ArithOp.compute, conv_eq_ofInt, conv_eq_ofInt, BitVec.ofInt_mul]
  unfold arith arithAt
  simp only
  rcases defined with wraps | defined
  · split
    · exact wraps l r
    · exact computed
  · rw [if_neg (by simp [defined])]
    exact computed

def double {n : Nat} (signed : Bool) (x : BitVec n) : Val :=
  (⟨.uint n, x⟩ : Val).cast ⟨n * 2, signed⟩

/-- The product is computed in `int`, or it stays below the sign bit. -/
def ProductFits {n : Nat} (a b : BitVec n) : Prop :=
  n * 2 < 32 ∨ a.toNat * b.toNat < 2 ^ (n * 2 - 1)

section

variable {n : Nat}

theorem two_pow_double (n : Nat) : 2 ^ (n * 2) = 2 ^ n * 2 ^ n := by
  rw [Nat.mul_two, Nat.pow_add]

theorem product_lt (a b : BitVec n) : a.toNat * b.toNat < 2 ^ (n * 2) := by
  rw [two_pow_double]
  exact Nat.mul_lt_mul'' a.isLt b.isLt

theorem product_high (a b : BitVec n) :
    (BitVec.ofNat n (a.toNat * b.toNat / 2 ^ n)).toNat = a.toNat * b.toNat / 2 ^ n := by
  have bound := product_lt a b
  rw [two_pow_double] at bound
  rw [BitVec.toNat_ofNat, Nat.mod_eq_of_lt (Nat.div_lt_of_lt_mul bound)]

theorem product_high_eq_zero_iff (a b : BitVec n) :
    BitVec.ofNat n (a.toNat * b.toNat / 2 ^ n) = 0 ↔ a.toNat * b.toNat < 2 ^ n := by
  rw [← BitVec.toNat_inj, product_high]
  change _ = 0 % 2 ^ n ↔ _
  rw [Nat.zero_mod, Nat.div_eq_zero_iff_lt (Nat.two_pow_pos n)]

def join (hi lo : BitVec n) : BitVec (n * 2) := BitVec.ofNat (n * 2) (hi.toNat * 2 ^ n + lo.toNat)

theorem join_toNat (hi lo : BitVec n) : (join hi lo).toNat = hi.toNat * 2 ^ n + lo.toNat := by
  have room : (hi.toNat + 1) * 2 ^ n ≤ 2 ^ n * 2 ^ n := Nat.mul_le_mul_right _ hi.isLt
  have low := lo.isLt
  rw [Nat.add_mul, Nat.one_mul] at room
  rw [join, BitVec.toNat_ofNat, Nat.mod_eq_of_lt (by rw [two_pow_double]; omega)]

theorem join_getLsbD (hi lo : BitVec n) (k : Nat) :
    (join hi lo).getLsbD k = (lo.getLsbD k || (decide (n ≤ k) && hi.getLsbD (k - n))) := by
  have bits := Nat.testBit_two_pow_mul_add hi.toNat lo.isLt k
  rw [BitVec.getLsbD, join_toNat, Nat.mul_comm, bits]
  by_cases low : k < n
  · have notHigh : ¬n ≤ k := by omega
    simp [low, notHigh, BitVec.getLsbD]
  · have high : n ≤ k := by omega
    rw [if_neg low, BitVec.getLsbD_of_ge lo k high]
    simp [high, BitVec.getLsbD]

theorem join_halves (x : BitVec (n * 2)) :
    join (BitVec.ofNat n (x.toNat / 2 ^ n)) (BitVec.ofNat n x.toNat) = x := by
  have bound := x.isLt
  rw [two_pow_double] at bound
  apply BitVec.eq_of_toNat_eq
  rw [join_toNat, BitVec.toNat_ofNat, BitVec.toNat_ofNat,
    Nat.mod_eq_of_lt (Nat.div_lt_of_lt_mul bound), Nat.mul_comm, Nat.div_add_mod]

theorem join_val (ub : Undef) (positive : 0 < n) (small : n ≤ 64) (signed : Bool) (hi lo : BitVec n) :
    (Val.arith ub .or ⟨.uint n, lo⟩ (Val.shift ub .left (double signed hi) (.lit .dec n))).cast
      ⟨n * 2, signed⟩ = ⟨⟨n * 2, signed⟩, join hi lo⟩ := by
  have literal : (Val.lit .dec n).toInt = n := Val.lit_toInt .dec n (by omega)
  have wide := Ty.le_promote_width (double signed hi).ty
  have width : (double signed hi).ty.width = n * 2 := rfl
  refine congrArg (Val.mk _) (BitVec.eq_of_getLsbD_eq fun k inside => ?_)
  have inside : k < n * 2 := inside
  have common : k < (Ty.common (.uint n) (Val.shift ub .left (double signed hi) (.lit .dec n)).ty).width := by
    have shifted := Ty.le_promote_width (double signed hi).ty.promote
    rw [Ty.common_width]
    change k < max _ (double signed hi).ty.promote.promote.width
    omega
  have placed : (double signed hi).bit (k - n) = hi.getLsbD (k - n) := by
    rw [double, Val.cast_bit _ _ (by change k - n < n * 2; omega), Val.bit_uint]
  rw [Val.conv_getLsbD, Val.arith_bit ub rfl _ _ common, Val.bit_uint,
    Val.shift_left_bit ub _ literal (by omega) (by omega), placed, join_getLsbD]
  simp [inside]

theorem signed_bit (x : BitVec n) (k : Nat) :
    ((⟨.uint n, x⟩ : Val).cast ⟨n, true⟩).bit k = if k < n then x.getLsbD k else x.msb := by
  simp [Val.cast, Val.bit]

theorem filled_getLsbD (b : Bool) (k : Nat) :
    (if b then BitVec.allOnes n else 0).getLsbD k = (decide (k < n) && b) := by
  cases b <;> simp

variable (positive : 0 < n)

include positive

theorem double_toInt (signed : Bool) (x : BitVec n) : (double signed x).toInt = x.toNat := by
  have bound := x.isLt
  have half : 2 ^ n ≤ 2 ^ (n * 2 - 1) := Nat.pow_le_pow_right (by decide) (by omega)
  have whole := Nat.two_pow_pred_mul_two (w := n * 2) (by omega)
  have same : (x.setWidth (n * 2)).toNat = x.toNat := by
    rw [BitVec.toNat_setWidth, Nat.mod_eq_of_lt (by omega)]
  unfold double Val.cast Val.toInt
  simp only [Val.conv_unsigned]
  split
  · rw [BitVec.toInt_eq_toNat_of_lt (by omega), same]
  · rw [same]

theorem double_conv_toInt (signed : Bool) (x : BitVec n)
    (isSigned : (Ty.promote ⟨n * 2, signed⟩).signed = true) :
    ((double signed x).conv (Ty.promote ⟨n * 2, signed⟩)).toInt = x.toNat := by
  have bound := x.isLt
  have range : (Ty.promote ⟨n * 2, signed⟩).InRange x.toNat := by
    intro _
    have wide := Ty.le_promote_width ⟨n * 2, signed⟩
    simp only at wide
    have half : 2 ^ n ≤ 2 ^ ((Ty.promote ⟨n * 2, signed⟩).width - 1) :=
      Nat.pow_le_pow_right (by decide) (by omega)
    have power : (2 ^ ((Ty.promote ⟨n * 2, signed⟩).width - 1) : Int) =
        (2 ^ ((Ty.promote ⟨n * 2, signed⟩).width - 1) : Nat) := by norm_cast
    rw [power]
    omega
  rw [Val.conv_eq_ofInt, double_toInt positive, range.ofInt_toInt isSigned]

theorem product_undefined (signed : Bool) (a b : BitVec n) :
    ArithOp.mul.undefined _ ((double signed a).conv (Ty.promote ⟨n * 2, signed⟩))
      ((double signed b).conv (Ty.promote ⟨n * 2, signed⟩)) = true ↔
      signed = true ∧ ¬ProductFits a b := by
  have left := double_conv_toInt positive signed a
  have right := double_conv_toInt positive signed b
  have natural : (a.toNat : Int) * b.toNat = (a.toNat * b.toNat : Nat) := (Int.natCast_mul ..).symm
  have bound := product_lt a b
  unfold ProductFits
  by_cases narrow : n * 2 < 32
  · have ty : Ty.promote ⟨n * 2, signed⟩ = .int := if_pos narrow
    have small : 2 ^ (n * 2) ≤ 2 ^ 31 := Nat.pow_le_pow_right (by decide) (by omega)
    rw [ty] at left right ⊢
    simp only [ArithOp.undefined, BitVec.smulOverflow, left, right, narrow, true_or, not_true,
      and_false, iff_false, Bool.true_and, Bool.or_eq_true, decide_eq_true_eq, natural]
    omega
  · have ty : Ty.promote ⟨n * 2, signed⟩ = ⟨n * 2, signed⟩ := if_neg narrow
    rw [ty] at left right ⊢
    cases signed with
    | false => simp [ArithOp.undefined]
    | true =>
        have power : (2 ^ (n * 2 - 1) : Int) = (2 ^ (n * 2 - 1) : Nat) := by norm_cast
        simp only [ArithOp.undefined, BitVec.smulOverflow, left, right, narrow, false_or, true_and,
          Bool.true_and, Bool.or_eq_true, decide_eq_true_eq, natural, power]
        omega

theorem product_val {ub : Undef} (signed : Bool) {a b : BitVec n}
    (defined : ub.MulWraps ∨ (signed = true → ProductFits a b)) :
    (Val.arith ub .mul (double signed a) (double signed b)).cast ⟨n * 2, signed⟩ =
      ⟨⟨n * 2, signed⟩, BitVec.ofNat (n * 2) (a.toNat * b.toNat)⟩ := by
  have common : Ty.common (double signed a).ty (double signed b).ty = Ty.promote ⟨n * 2, signed⟩ :=
    Ty.common_self _
  have bits := @Val.arith_mul_bits ub (double signed a) (double signed b) <| by
    rw [common]
    refine defined.imp_right fun fits => ?_
    rw [Bool.eq_false_iff, Ne, product_undefined positive]
    exact fun overflows => overflows.2 (fits overflows.1)
  have wide : n * 2 ≤ (Ty.common (double signed a).ty (double signed b).ty).width := by
    rw [common]
    exact Ty.le_promote_width ⟨n * 2, signed⟩
  refine congrArg (Val.mk _) ?_
  rw [Val.conv_of_le _ _ wide, bits, double_toInt positive, double_toInt positive]
  refine (setWidth_ofInt _ wide).trans ?_
  rw [← Int.natCast_mul, BitVec.ofInt_natCast]

theorem low_val (signed : Bool) (x : BitVec (n * 2)) :
    (⟨⟨n * 2, signed⟩, x⟩ : Val).cast (.uint n) = ⟨.uint n, BitVec.ofNat n x.toNat⟩ := by
  refine congrArg (Val.mk _) ?_
  rw [Val.conv_of_le _ _ (by simp only; omega)]
  exact (BitVec.ofNat_toNat ..).symm

theorem high_val (ub : Undef) (small : n ≤ 64) (signed : Bool) (x : BitVec (n * 2)) :
    (Val.shift ub .right ⟨⟨n * 2, signed⟩, x⟩ (.lit .dec n)).cast (.uint n) =
      ⟨.uint n, BitVec.ofNat n (x.toNat / 2 ^ n)⟩ := by
  have literal : (Val.lit .dec n).toInt = n := Val.lit_toInt .dec n (by omega)
  have wide := Ty.le_promote_width ⟨n * 2, signed⟩
  simp only at wide
  refine congrArg (Val.mk _) (BitVec.eq_of_getLsbD_eq fun k inside => ?_)
  have inside : k < n := inside
  rw [Val.conv_getLsbD, Val.shift_right_bit ub _ literal (by simp only; omega),
    Val.bit_of_lt (by simp only; omega), BitVec.getLsbD_ofNat, Nat.testBit_div_two_pow]
  rfl

theorem sign_shift (ub : Undef) (small : n ≤ 64) (x : BitVec n) (k : Nat) :
    (Val.shift ub .right ⟨⟨n, true⟩, x⟩ (.lit .dec (n - 1))).bit k = x.msb := by
  have literal : (Val.lit .dec (n - 1)).toInt = (n - 1 : Nat) := Val.lit_toInt .dec _ (by omega)
  have wide := Ty.le_promote_width ⟨n, true⟩
  simp only at wide
  rw [Val.shift_right_bit ub _ literal (by simp only; omega), Val.bit]
  split
  · have inside : k + (n - 1) < n := by assumption
    have last : k + (n - 1) = n - 1 := by omega
    rw [last, BitVec.msb_eq_getLsbD_last]
  · rfl

theorem sign_cmp (ub : Undef) (small : n ≤ 64) (lo hi : BitVec n) :
    (Val.cmp .eq (Val.shift ub .right ((⟨.uint n, lo⟩ : Val).cast ⟨n, true⟩) (.lit .dec (n - 1)))
      ((⟨.uint n, hi⟩ : Val).cast ⟨n, true⟩)).truthy =
      decide (hi = if lo.msb then BitVec.allOnes n else 0) := by
  have wide := Ty.le_promote_width ⟨n, true⟩
  simp only at wide
  have cast : (⟨.uint n, lo⟩ : Val).cast ⟨n, true⟩ = ⟨⟨n, true⟩, lo⟩ := by simp [Val.cast]
  have sign := sign_shift positive ub small lo
  rw [cast]
  generalize Val.shift ub .right ⟨⟨n, true⟩, lo⟩ (.lit .dec (n - 1)) = l at sign ⊢
  have bits {w : Nat} {x y : BitVec w} : x = y ↔ ∀ k < w, x.getLsbD k = y.getLsbD k :=
    ⟨by rintro rfl _ _; rfl, BitVec.eq_of_getLsbD_eq⟩
  have inner : n ≤ (Ty.common l.ty ⟨n, true⟩).width := by
    rw [Ty.common_width]
    omega
  rw [Val.cmp, Val.cmpAt, Val.ofBool_truthy, Bool.eq_iff_iff, decide_eq_true_iff, CmpOp.holds,
    beq_iff_eq, bits, bits]
  change (∀ k < (Ty.common l.ty ⟨n, true⟩).width, _) ↔ _
  simp only [Val.conv_getLsbD, sign, signed_bit, filled_getLsbD]
  constructor
  · intro same k inside
    have here := same k (by omega)
    simpa [inside, Nat.lt_of_lt_of_le inside inner] using here.symm
  · intro same k inside
    refine congrArg _ ?_
    split
    · rename_i low
      rw [same k low, decide_eq_true low, Bool.true_and]
    · have top := same (n - 1) (by omega)
      rw [hi.msb_eq_getLsbD_last, top, decide_eq_true (by omega), Bool.true_and]

theorem product_extends_iff (a b : BitVec n) :
    BitVec.ofNat n (a.toNat * b.toNat / 2 ^ n) =
      (if (BitVec.ofNat n (a.toNat * b.toNat)).msb then BitVec.allOnes n else 0) ↔
      a.toNat * b.toNat < 2 ^ (n - 1) := by
  have half := Nat.two_pow_pred_mul_two positive
  have square : a.toNat * b.toNat ≤ (2 ^ n - 1) * (2 ^ n - 1) :=
    Nat.mul_le_mul (Nat.le_sub_one_of_lt a.isLt) (Nat.le_sub_one_of_lt b.isLt)
  have bound := product_lt a b
  rw [two_pow_double] at bound
  have high : a.toNat * b.toNat / 2 ^ n < 2 ^ n := Nat.div_lt_of_lt_mul bound
  have parts := Nat.div_add_mod (a.toNat * b.toNat) (2 ^ n)
  have low := Nat.mod_lt (a.toNat * b.toNat) (Nat.two_pow_pos n)
  generalize a.toNat * b.toNat = product at *
  have sign : (BitVec.ofNat n product).msb = decide (2 ^ (n - 1) ≤ product % 2 ^ n) := by
    rw [BitVec.msb_eq_decide, BitVec.toNat_ofNat]
  rw [sign, ← BitVec.toNat_inj, BitVec.toNat_ofNat, Nat.mod_eq_of_lt high]
  have halfPositive := Nat.two_pow_pos (n - 1)
  by_cases negative : 2 ^ (n - 1) ≤ product % 2 ^ n
  · -- a high half of ones would make the product larger than the largest one
    have notOnes : product / 2 ^ n ≠ 2 ^ n - 1 := by
      intro ones
      have room : (2 ^ n - 1) * (2 ^ n - 1) ≤ 2 ^ n * (2 ^ n - 1) :=
        Nat.mul_le_mul_right _ (Nat.sub_le ..)
      rw [ones] at parts
      omega
    have large : ¬product < 2 ^ (n - 1) := by
      have := Nat.mod_le product (2 ^ n)
      omega
    rw [if_pos (decide_eq_true negative), BitVec.toNat_allOnes]
    exact iff_of_false notOnes large
  · rw [if_neg (by simpa using negative)]
    change product / 2 ^ n = 0 % 2 ^ n ↔ _
    rw [Nat.zero_mod]
    constructor
    · intro zero
      rw [zero, Nat.mul_zero] at parts
      omega
    · intro small
      exact Nat.div_eq_of_lt (by omega)

omit positive in
theorem ofInt_eq_iff {w : Nat} {x y : Int} :
    BitVec.ofInt w x = BitVec.ofInt w y ↔ ((2 ^ w : Nat) : Int) ∣ x - y := by
  have nonzero : ((2 ^ w : Nat) : Int) ≠ 0 := Int.natCast_ne_zero.mpr (Nat.two_pow_pos w).ne'
  have left := Int.emod_nonneg x nonzero
  have right := Int.emod_nonneg y nonzero
  rw [← BitVec.toNat_inj, BitVec.toNat_ofInt, BitVec.toNat_ofInt, Int.dvd_iff_emod_eq_zero,
    ← Int.emod_eq_emod_iff_emod_sub_eq_zero]
  omega

def SameProduct (a b : BitVec n) : Prop :=
  (a.msb = false ∧ b.msb = false) ∨ a = 0 ∨ b = 0 ∨ (a = BitVec.intMin n ∧ b = BitVec.intMin n)

theorem product_signed_iff (a b : BitVec n) :
    BitVec.ofNat (n * 2) (a.toNat * b.toNat) = BitVec.ofInt (n * 2) (a.toInt * b.toInt) ↔
      SameProduct a b := by
  have half := Nat.two_pow_pred_mul_two positive
  have left := a.isLt
  have right := b.isLt
  have zero {x : BitVec n} : x = 0 ↔ x.toNat = 0 := by
    rw [← BitVec.toNat_inj]
    rfl
  have minimum {x : BitVec n} : x = BitVec.intMin n ↔ x.toNat = 2 ^ (n - 1) := by
    rw [← BitVec.toNat_inj, BitVec.toNat_intMin, Nat.mod_eq_of_lt (by omega)]
  have multiple {z : Int} (lower : 0 ≤ z) (upper : z < (2 ^ n : Nat)) :
      ((2 ^ n : Nat) : Int) * (2 ^ n : Nat) ∣ (2 ^ n : Nat) * z ↔ z = 0 := by
    have nonzero : ((2 ^ n : Nat) : Int) ≠ 0 := Int.natCast_ne_zero.mpr (Nat.two_pow_pos n).ne'
    rw [Int.mul_dvd_mul_iff_left nonzero]
    refine ⟨fun divides => Int.eq_zero_of_dvd_of_nonneg_of_lt lower upper divides, ?_⟩
    rintro rfl
    exact Int.dvd_zero _
  rw [← BitVec.ofInt_natCast, ofInt_eq_iff, Int.natCast_mul, two_pow_double, Int.natCast_mul]
  unfold SameProduct
  rw [zero, zero, minimum, minimum, BitVec.toInt_eq_msb_cond, BitVec.toInt_eq_msb_cond,
    BitVec.msb_eq_decide, BitVec.msb_eq_decide]
  generalize a.toNat = x at *
  generalize b.toNat = y at *
  generalize 2 ^ n = word at *
  by_cases negX : 2 ^ (n - 1) ≤ x <;> by_cases negY : 2 ^ (n - 1) ≤ y <;>
    simp only [negX, negY, decide_true, decide_false, if_true, if_false, Bool.false_eq_true,
      Bool.true_eq_false, and_self, and_true, and_false, true_or, false_or, iff_true]
  · have difference : (x : Int) * y - (x - word) * (y - word) = word * (x + y - word) := by ring
    rw [difference, multiple (by omega) (by omega)]
    omega
  · have difference : (x : Int) * y - (x - word) * y = word * y := by ring
    rw [difference, multiple (by omega) (by omega)]
    omega
  · have difference : (x : Int) * y - x * (y - word) = word * x := by ring
    rw [difference, multiple (by omega) (by omega)]
    omega
  · rw [Int.sub_self]
    exact Int.dvd_zero _

theorem SameProduct.fits {a b : BitVec n} (same : SameProduct a b) : ProductFits a b := by
  have square : 2 ^ (n - 1) * 2 ^ (n - 1) < 2 ^ (n * 2 - 1) := by
    rw [← Nat.pow_add]
    exact Nat.pow_lt_pow_right (by decide) (by omega)
  have small {x y : Nat} (left : x ≤ 2 ^ (n - 1)) (right : y ≤ 2 ^ (n - 1)) :
      x * y < 2 ^ (n * 2 - 1) := Nat.lt_of_le_of_lt (Nat.mul_le_mul left right) square
  have minimum : (BitVec.intMin n).toNat ≤ 2 ^ (n - 1) := by
    rw [BitVec.toNat_intMin]
    exact Nat.mod_le ..
  refine .inr ?_
  rcases same with ⟨signA, signB⟩ | rfl | rfl | ⟨rfl, rfl⟩
  · rw [BitVec.msb_eq_decide, decide_eq_false_iff_not, Nat.not_le] at signA signB
    exact small (Nat.le_of_lt signA) (Nat.le_of_lt signB)
  · simp
  · simp
  · exact small minimum minimum

theorem join_sign (x : BitVec n) : (join (if x.msb then BitVec.allOnes n else 0) x).toInt = x.toInt := by
  have half := Nat.two_pow_pred_mul_two positive
  have double := Nat.two_pow_pred_mul_two (w := n * 2) (by omega)
  have more : 2 ^ n ≤ 2 ^ (n * 2 - 1) := Nat.pow_le_pow_right (by decide) (by omega)
  have bound := x.isLt
  have sign := BitVec.msb_eq_decide x
  have value := join_toNat (if x.msb then BitVec.allOnes n else 0) x
  rw [BitVec.toInt_eq_toNat_cond, BitVec.toInt_eq_msb_cond, value]
  cases found : x.msb with
  | false =>
      have zero : (0 : BitVec n).toNat = 0 := by simp
      simp only [Bool.false_eq_true, if_false, zero, Nat.zero_mul, Nat.zero_add]
      rw [if_pos (by omega)]
  | true =>
      have square := two_pow_double n
      have ones : (2 ^ n - 1) * 2 ^ n + 2 ^ n = 2 ^ n * 2 ^ n := by
        rw [Nat.sub_one_mul, Nat.sub_add_cancel (Nat.le_mul_self _)]
      simp only [if_true, BitVec.toNat_allOnes]
      rw [if_neg (by omega), square]
      omega

end

end Cpp
