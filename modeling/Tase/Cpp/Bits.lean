import Tase.Cpp.Arith

/-! Values as infinite strings of bits: conversions keep the bits that fit, and the
bitwise operators and shifts act on the strings. -/

namespace Cpp

def evenParity (x : BitVec 8) : Bool := (List.range 8).countP x.getLsbD % 2 = 0

namespace Val

def bit (v : Val) (k : Nat) : Bool :=
  if k < v.ty.width then v.bits.getLsbD k else v.ty.signed && v.bits.msb

theorem bit_of_lt {v : Val} {k : Nat} (inside : k < v.ty.width) : v.bit k = v.bits.getLsbD k :=
  if_pos inside

theorem bit_of_unsigned {v : Val} {k : Nat} (unsigned : v.ty.signed = false)
    (beyond : v.ty.width ≤ k) : v.bit k = false := by
  rw [bit, if_neg (by omega), unsigned, Bool.false_and]

@[simp] theorem bit_uint (width : Nat) (x : BitVec width) (k : Nat) :
    (⟨.uint width, x⟩ : Val).bit k = x.getLsbD k := by
  unfold bit
  split
  · rfl
  · rename_i beyond
    simp [BitVec.getLsbD_of_ge x k (by simpa using beyond)]

theorem conv_getLsbD (v : Val) (t : Ty) (k : Nat) :
    (v.conv t).getLsbD k = (decide (k < t.width) && v.bit k) := by
  unfold conv bit
  cases signed : v.ty.signed with
  | true =>
      simp only [if_true, BitVec.getLsbD_signExtend, Bool.true_and]
  | false =>
      simp only [Bool.false_eq_true, if_false, BitVec.getLsbD_setWidth, Bool.false_and]
      split
      · rfl
      · rename_i beyond
        rw [BitVec.getLsbD_of_ge _ _ (by omega)]

theorem cast_bit (v : Val) (t : Ty) {k : Nat} (inside : k < t.width) :
    (v.cast t).bit k = v.bit k := by
  rw [bit_of_lt (by exact inside)]
  exact (v.conv_getLsbD t k).trans (by simp [inside])

theorem promote_bit (v : Val) (k : Nat) : (v.cast v.ty.promote).bit k = v.bit k := by
  by_cases narrow : v.ty.width < 32
  · have promoted : v.ty.promote = .int := if_pos narrow
    rw [promoted]
    by_cases inside : k < 32
    · exact v.cast_bit .int inside
    · have top : (v.cast .int).bits.msb = v.bit 31 := by
        rw [BitVec.msb_eq_getLsbD_last]
        exact v.conv_getLsbD .int 31
      have sign : v.bit 31 = v.bit k := by
        rw [bit, bit, if_neg (by omega), if_neg (by omega)]
      rw [bit, if_neg (by simpa using inside), top, sign]
      rfl
  · have promoted : v.ty.promote = v.ty := if_neg narrow
    rw [promoted]
    congr 1
    obtain ⟨⟨width, signed⟩, bits⟩ := v
    cases signed <;> simp [cast]

theorem lit_bit (radix : Radix) (n : Nat) {k : Nat} (inside : k < 64) :
    (lit radix n).bit k = n.testBit k := by
  have read := (lit radix n).conv_getLsbD (.uint 64) k
  rw [lit_conv _ _ _ (Nat.le_refl 64), BitVec.getLsbD_ofNat] at read
  simpa only [inside, decide_true, Bool.true_and] using read.symm

theorem ofBool_bit (b : Bool) (k : Nat) : (ofBool b).bit k = (b && decide (k = 0)) := by
  cases b with
  | false => simp [ofBool, bit]
  | true =>
      unfold ofBool bit
      by_cases first : k = 0
      · subst first
        rfl
      · simp [first]

theorem bit_beyond {v : Val} {k : Nat} (beyond : v.ty.width ≤ k) (positive : 0 < v.ty.width) :
    v.bit k = (v.ty.signed && v.bit (v.ty.width - 1)) := by
  rw [bit, if_neg (by omega), bit_of_lt (by omega), BitVec.msb_eq_getLsbD_last]

theorem un_not_bit_wide (ub : Undef) (v : Val) {k : Nat} (inside : k < v.ty.promote.width) :
    (un ub .not v).bit k = !v.bit k := by
  rw [bit_of_lt (by exact inside)]
  change (~~~(v.conv v.ty.promote)).getLsbD k = _
  rw [BitVec.getLsbD_not, conv_getLsbD]
  simp [inside]

theorem un_not_bit (ub : Undef) (v : Val) {k : Nat} (inside : k < 32) :
    (un ub .not v).bit k = !v.bit k :=
  un_not_bit_wide ub v (Nat.lt_of_lt_of_le inside v.ty.promote_width)

theorem un_not_bit_int (ub : Undef) {v : Val} (type : v.ty = .int) (k : Nat) :
    (un ub .not v).bit k = !v.bit k := by
  -- The complement of an `int` is sign-extended like the `int`.
  by_cases inside : k < 32
  · exact un_not_bit ub v inside
  · have promoted : (un ub .not v).ty = .int := by
      change v.ty.promote = _
      rw [type]
      rfl
    have beyond : 32 ≤ k := Nat.not_lt.mp inside
    rw [bit_beyond (by rw [promoted]; exact beyond) (by rw [promoted]; decide),
      bit_beyond (v := v) (by rw [type]; exact beyond) (by rw [type]; decide), promoted, type]
    exact un_not_bit ub v (by decide)

end Val

def ArithOp.onBits : ArithOp → Option (Bool → Bool → Bool)
  | .and => some Bool.and
  | .or => some Bool.or
  | .xor => some Bool.xor
  | _ => none

theorem Ty.common_width (l r : Ty) :
    (Ty.common l r).width = max l.promote.width r.promote.width := by
  unfold common
  simp only
  split
  · omega
  · split
    · omega
    · simp only
      omega

namespace Val

theorem arith_bit (ub : Undef) {op : ArithOp} {f : Bool → Bool → Bool} (bitwise : op.onBits = some f)
    (l r : Val) {k : Nat} (inside : k < (Ty.common l.ty r.ty).width) :
    (arith ub op l r).bit k = f (l.bit k) (r.bit k) := by
  rw [bit_of_lt (by exact inside)]
  have left := l.conv_getLsbD (Ty.common l.ty r.ty) k
  have right := r.conv_getLsbD (Ty.common l.ty r.ty) k
  simp only [inside, decide_true, Bool.true_and] at left right
  cases op with
  | and | or | xor =>
      cases bitwise
      rw [← left, ← right]
      simp [arith, arithAt, ArithOp.undefined, ArithOp.compute]
  | add | sub | mul | div | rem => cases bitwise

theorem arith_ty (ub : Undef) (op : ArithOp) (l r : Val) :
    (arith ub op l r).ty = Ty.common l.ty r.ty := rfl

theorem arith_bit_low (ub : Undef) {op : ArithOp} {f : Bool → Bool → Bool}
    (bitwise : op.onBits = some f) (l r : Val) {k : Nat} (inside : k < 32) :
    (arith ub op l r).bit k = f (l.bit k) (r.bit k) := by
  refine arith_bit ub bitwise l r ?_
  have wide := l.ty.promote_width
  rw [Ty.common_width]
  omega

theorem foldl_or_bit (ub : Undef) (first : Val) (rest : List Val) {k : Nat}
    (inside : k < first.ty.promote.width) :
    (rest.foldl (arith ub .or) first).bit k = (first :: rest).any (·.bit k) := by
  -- A chain of `|` has the bits of all its parts.
  induction rest generalizing first with
  | nil => simp
  | cons v rest ih =>
      have common := Ty.common_width first.ty v.ty
      have wide := (Ty.common first.ty v.ty).le_promote_width
      have here : k < (Ty.common first.ty v.ty).width := by omega
      rw [List.foldl_cons, ih _ (Nat.lt_of_lt_of_le here wide), List.any_cons, arith_bit ub rfl _ _ here]
      simp [Bool.or_assoc]

section Shifts

variable (ub : Undef) (v : Val) {r : Val} {n : Nat}

theorem shift_left_bit (amount : r.toInt = n) (small : n < v.ty.promote.width) {k : Nat}
    (inside : k < v.ty.promote.width) :
    (shift ub .left v r).bit k = (decide (n ≤ k) && v.bit (k - n)) := by
  have inRange : 0 ≤ (n : Int) ∧ (n : Int) < v.ty.promote.width := by omega
  rw [bit_of_lt (by exact inside)]
  simp only [shift, shiftAt, amount, if_pos inRange, Int.toNat_natCast]
  rw [BitVec.getLsbD_shiftLeft, conv_getLsbD]
  have before : k - n < v.ty.promote.width := by omega
  simp only [inside, before, decide_true, Bool.true_and]
  by_cases low : n ≤ k <;> simp [low]

theorem shift_right_bit (amount : r.toInt = n) (small : n < v.ty.promote.width) (k : Nat) :
    (shift ub .right v r).bit k = v.bit (k + n) := by
  have inRange : 0 ≤ (n : Int) ∧ (n : Int) < v.ty.promote.width := by omega
  rw [← v.promote_bit (k + n)]
  simp only [shift, shiftAt, amount, if_pos inRange, Int.toNat_natCast, cast]
  cases signed : v.ty.promote.signed with
  | true =>
      simp only [bit, if_true, signed, BitVec.msb_sshiftRight, BitVec.getLsbD_sshiftRight,
        Bool.true_and]
      by_cases inside : k < v.ty.promote.width
      · have notBeyond : ¬v.ty.promote.width ≤ k := by omega
        by_cases shifted : n + k < v.ty.promote.width
        · simp [inside, shifted, notBeyond, Nat.add_comm k n]
        · have shifted' : ¬k + n < v.ty.promote.width := by omega
          simp [inside, shifted, shifted', notBeyond]
      · have beyond : ¬k + n < v.ty.promote.width := by omega
        simp [inside, beyond]
  | false =>
      simp only [bit, Bool.false_eq_true, if_false, signed, Bool.false_and,
        BitVec.getLsbD_ushiftRight]
      by_cases inside : k + n < v.ty.promote.width
      · have inside' : k < v.ty.promote.width := by omega
        rw [if_pos inside', if_pos inside, Nat.add_comm]
      · simp only [if_neg inside]
        split
        · rw [BitVec.getLsbD_of_ge _ _ (by omega)]
        · rfl

end Shifts

theorem shift_left_lit_bit (ub : Undef) (v : Val) (radix : Radix) {n k : Nat} (small : n < 32)
    (inside : k < 32) :
    (shift ub .left v (lit radix n)).bit k = (decide (n ≤ k) && v.bit (k - n)) := by
  have wide := v.ty.promote_width
  exact shift_left_bit ub v (lit_toInt radix n (by omega)) (by omega) (by omega)

theorem shift_right_lit_bit (ub : Undef) (v : Val) (radix : Radix) {n : Nat}
    (small : n < v.ty.promote.width) (narrow : n < 64) (k : Nat) :
    (shift ub .right v (lit radix n)).bit k = v.bit (k + n) :=
  shift_right_bit ub v (lit_toInt radix n (by omega)) small k

theorem cond_bit (c l r : Val) {k : Nat} (inside : k < 32) :
    (cond c l r).bit k = if c.truthy then l.bit k else r.bit k := by
  have wide := l.ty.promote_width
  have common := Ty.common_width l.ty r.ty
  rw [cond, cast_bit _ _ (by omega)]
  split <;> rfl

theorem conv_eq_zero_iff (v : Val) (t : Ty) (wide : v.ty.width ≤ t.width) :
    v.conv t = 0 ↔ v.bits = 0 := by
  constructor
  · intro zero
    have back : (v.conv t).setWidth v.ty.width = v.bits := by
      rw [conv_setWidth _ _ _ wide, conv_of_le v (.uint v.ty.width) (Nat.le_refl _)]
      exact BitVec.setWidth_eq _
    rw [← back, zero]
    exact BitVec.setWidth_zero ..
  · intro zero
    rw [conv, zero]
    split
    · simp [BitVec.signExtend]
    · simp

theorem ofBool_truthy (b : Bool) : (ofBool b).truthy = b := by cases b <;> rfl

theorem cmp_zero (v : Val) (narrow : v.ty.width ≤ 64) :
    cmp .eq v (.lit .dec 0) = ofBool (decide (v.bits = 0)) := by
  have common := Ty.common_width v.ty (Radix.dec.ty 0)
  have left : v.ty.width ≤ v.ty.promote.width := v.ty.le_promote_width
  have right : (Ty.promote (Radix.dec.ty 0)).width = 32 := rfl
  have bound : v.ty.promote.width ≤ 64 := by
    unfold Ty.promote
    split
    · decide
    · exact narrow
  have literal : (lit .dec 0).conv (Ty.common v.ty (Radix.dec.ty 0)) = 0 :=
    lit_conv _ _ _ (by omega)
  have zero := conv_eq_zero_iff v (Ty.common v.ty (Radix.dec.ty 0)) (by omega)
  rw [cmp, cmpAt]
  congr 1
  change (v.conv _ == (lit .dec 0).conv (Ty.common v.ty (Radix.dec.ty 0))) = _
  rw [literal, Bool.eq_iff_iff, beq_iff_eq, decide_eq_true_iff, zero]

theorem truthy_iff (v : Val) : v.truthy = true ↔ ∃ k < v.ty.width, v.bit k = true := by
  have zero : v.bits = 0 ↔ ∀ k < v.ty.width, v.bit k = false := by
    constructor
    · intro none k inside
      rw [bit_of_lt inside, none]
      exact BitVec.getLsbD_zero
    · intro all
      apply BitVec.eq_of_getLsbD_eq
      intro k inside
      rw [← bit_of_lt inside, all k inside]
      exact BitVec.getLsbD_zero.symm
  rw [truthy, bne_iff_ne, ne_eq, zero]
  simp

end Val

end Cpp
