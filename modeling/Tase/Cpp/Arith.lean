import Tase.Cpp.Value

/-! Rules that take the operators from typed values to bit vectors. -/

namespace Cpp

theorem Radix.ty_cases (radix : Radix) (n : Nat) :
    radix.ty n = .int ∧ n < 2 ^ 31 ∨ radix.ty n = .uint 32 ∧ n < 2 ^ 32 ∨
      radix.ty n = ⟨64, true⟩ ∧ n < 2 ^ 63 ∨ radix.ty n = .uint 64 := by
  -- A literal has one of four types and fits it, except that `uint64_t` may truncate.
  have wide (t : Ty) (found : t = if n < 2 ^ 63 then ⟨64, true⟩ else .uint 64) :
      t = ⟨64, true⟩ ∧ n < 2 ^ 63 ∨ t = .uint 64 := by
    split at found
    · rename_i large
      exact .inl ⟨found, large⟩
    · exact .inr found
  cases radix with
  | dec =>
      by_cases small : n < 2 ^ 31
      · exact .inl ⟨if_pos small, small⟩
      · exact .inr (.inr (wide _ (if_neg small)))
  | hex =>
      by_cases small : n < 2 ^ 31
      · exact .inl ⟨if_pos small, small⟩
      · by_cases middle : n < 2 ^ 32
        · exact .inr (.inl ⟨(if_neg small).trans (if_pos middle), middle⟩)
        · exact .inr (.inr (wide _ ((if_neg small).trans (if_neg middle))))
  | hexUll => exact .inr (.inr (.inr rfl))

namespace Val

theorem lit_conv (radix : Radix) (n : Nat) (t : Ty) (narrow : t.width ≤ 64) :
    (lit radix n).conv t = BitVec.ofNat t.width n := by
  unfold lit
  rcases radix.ty_cases n with ⟨found, small⟩ | ⟨found, small⟩ | ⟨found, _⟩ | found
  · rw [found]
    have positive : (BitVec.ofNat 32 n).msb = false := by
      rw [BitVec.msb_eq_false_iff_two_mul_lt, BitVec.toNat_ofNat]
      omega
    rw [conv_signed, BitVec.signExtend_eq_setWidth_of_msb_false positive]
    apply BitVec.eq_of_toNat_eq
    rw [BitVec.toNat_setWidth, BitVec.toNat_ofNat, BitVec.toNat_ofNat,
      Nat.mod_eq_of_lt (by omega : n < 2 ^ 32)]
  · rw [found, conv_unsigned]
    apply BitVec.eq_of_toNat_eq
    rw [BitVec.toNat_setWidth, BitVec.toNat_ofNat, BitVec.toNat_ofNat, Nat.mod_eq_of_lt small]
  · rw [found, conv_signed, BitVec.signExtend_eq_setWidth_of_le _ narrow,
      BitVec.setWidth_ofNat_of_le narrow]
  · rw [found, conv_unsigned, BitVec.setWidth_ofNat_of_le narrow]

theorem lit_toInt (radix : Radix) (n : Nat) (bound : n < 2 ^ 64) : (lit radix n).toInt = n := by
  have signed (width : Nat) (small : 2 * n < 2 ^ width) :
      (⟨⟨width, true⟩, BitVec.ofNat width n⟩ : Val).toInt = n := by
    have fits : n % 2 ^ width = n := Nat.mod_eq_of_lt (by omega)
    simp only [toInt, if_true]
    rw [BitVec.toInt_eq_toNat_of_lt (by rw [BitVec.toNat_ofNat, fits]; exact small),
      BitVec.toNat_ofNat, fits]
  have unsigned (width : Nat) (small : n < 2 ^ width) :
      (⟨.uint width, BitVec.ofNat width n⟩ : Val).toInt = n := by
    simp [toInt, Nat.mod_eq_of_lt small]
  unfold lit
  rcases radix.ty_cases n with ⟨found, small⟩ | ⟨found, small⟩ | ⟨found, small⟩ | found
  · rw [found]
    exact signed 32 (by omega)
  · rw [found]
    exact unsigned 32 small
  · rw [found]
    exact signed 64 (by omega)
  · rw [found]
    exact unsigned 64 bound

end Val

def ArithOp.total : ArithOp → Bool
  | .div | .rem => false
  | _ => true

namespace Val

theorem arithAt_unsigned (ub : Undef) (op : ArithOp) (width : Nat) (l r : Val)
    (total : op.total = true) :
    arithAt ub op (.uint width) l r =
      ⟨.uint width, op.compute (.uint width) (l.conv (.uint width)) (r.conv (.uint width))⟩ := by
  cases op <;> simp_all [arithAt, ArithOp.undefined, ArithOp.total]

theorem arith_unsigned (ub : Undef) (op : ArithOp) {width : Nat} {l r : Val}
    (common : Ty.common l.ty r.ty = .uint width) (total : op.total = true) :
    arith ub op l r =
      ⟨.uint width, op.compute (.uint width) (l.conv (.uint width)) (r.conv (.uint width))⟩ := by
  rw [arith, common, arithAt_unsigned ub op width l r total]

end Val

theorem Ty.common_uint64_left (t : Ty) (narrow : t.width ≤ 64) :
    Ty.common (.uint 64) t = .uint 64 := by
  have promoted : t.promote.width ≤ 64 := by
    unfold promote
    split
    · decide
    · exact narrow
  unfold common
  have here : (Ty.uint 64).promote = .uint 64 := rfl
  simp only [here, Bool.false_and]
  split
  · omega
  · split <;> rfl

theorem Radix.ty_width (radix : Radix) (n : Nat) : (radix.ty n).width ≤ 64 := by
  rcases radix.ty_cases n with ⟨found, _⟩ | ⟨found, _⟩ | ⟨found, _⟩ | found <;> rw [found] <;> decide

namespace Val

theorem conv_of_le (v : Val) (t : Ty) (narrow : t.width ≤ v.ty.width) :
    v.conv t = v.bits.setWidth t.width := by
  unfold conv
  split
  · exact BitVec.signExtend_eq_setWidth_of_le _ narrow
  · rfl

theorem cast_conv_of_le (v : Val) (t t' : Ty) (narrow : t'.width ≤ t.width) :
    (v.cast t).conv t' = v.conv t' := by
  rw [conv_of_le (v.cast t) t' narrow]
  change (v.conv t).setWidth t'.width = v.conv t'
  unfold conv
  split
  · apply BitVec.eq_of_getLsbD_eq
    intro k bound
    have inner : k < t.width := by omega
    rw [BitVec.getLsbD_setWidth, BitVec.getLsbD_signExtend, BitVec.getLsbD_signExtend]
    simp only [bound, inner, decide_true, Bool.true_and]
  · exact BitVec.setWidth_setWidth_of_le _ narrow

theorem arith_add_u64 (ub : Undef) (x : BitVec 64) (v : Val) (narrow : v.ty.width ≤ 64) :
    arith ub .add ⟨.uint 64, x⟩ v = ⟨.uint 64, x + v.conv (.uint 64)⟩ := by
  rw [arith_unsigned ub .add (Ty.common_uint64_left v.ty narrow) rfl]
  simp [ArithOp.compute]

end Val

theorem Ty.promote_width (t : Ty) : 32 ≤ t.promote.width := by
  unfold promote
  split
  · decide
  · omega

theorem Ty.le_promote_width (t : Ty) : t.width ≤ t.promote.width := by
  unfold promote
  split
  · exact Nat.le_of_lt (by assumption)
  · exact Nat.le_refl _

theorem Val.shift_lit (ub : Undef) (op : ShiftOp) (v : Val) (radix : Radix) (n : Nat)
    (small : n < 32) :
    Val.shift ub op v (.lit radix n) =
      ⟨v.ty.promote, match op with
        | .left => v.conv v.ty.promote <<< n
        | .right => if v.ty.promote.signed then (v.conv v.ty.promote).sshiftRight n
            else v.conv v.ty.promote >>> n⟩ := by
  have amount : (Val.lit radix n).toInt = n := Val.lit_toInt radix n (by omega)
  have wide := v.ty.promote_width
  unfold shift shiftAt
  rw [amount]
  have inRange : 0 ≤ (n : Int) ∧ (n : Int) < v.ty.promote.width := by omega
  cases op <;>
  · rw [if_pos inRange, Int.toNat_natCast]

theorem Val.conv_setWidth (v : Val) (t : Ty) (width : Nat) (narrow : width ≤ t.width) :
    (v.conv t).setWidth width = v.conv (.uint width) := by
  have through := Val.cast_conv_of_le v t (.uint width) narrow
  rw [Val.conv_of_le _ _ narrow] at through
  exact through

theorem setWidth_shiftLeft {width : Nat} (x : BitVec width) (n narrow : Nat)
    (le : narrow ≤ width) : (x <<< n).setWidth narrow = x.setWidth narrow <<< n := by
  apply BitVec.eq_of_getLsbD_eq
  intro k bound
  have inner : k < width := by omega
  have shifted : k - n < narrow := by omega
  rw [BitVec.getLsbD_setWidth, BitVec.getLsbD_shiftLeft, BitVec.getLsbD_shiftLeft,
    BitVec.getLsbD_setWidth]
  simp only [bound, inner, shifted, decide_true, Bool.true_and]

theorem Val.shift_left_conv (ub : Undef) (v : Val) (radix : Radix) (n : Nat) (t : Ty)
    (small : n < 32) (narrow : t.width ≤ 32) :
    (Val.shift ub .left v (.lit radix n)).conv t = v.conv t <<< n := by
  have wide : t.width ≤ v.ty.promote.width := Nat.le_trans narrow v.ty.promote_width
  rw [Val.shift_lit ub .left v radix n small, Val.conv_of_le _ _ wide]
  change (v.conv v.ty.promote <<< n).setWidth t.width = _
  rw [setWidth_shiftLeft _ _ _ wide, Val.conv_setWidth _ _ _ wide]
  rfl

end Cpp
