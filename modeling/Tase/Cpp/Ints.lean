import Tase.Cpp.Arith

/-! Values as integers: a conversion takes the integer modulo the width, and sums,
differences and products that stay in range are those of the integers. -/

namespace Cpp

theorem Val.conv_eq_ofInt (v : Val) (t : Ty) : v.conv t = BitVec.ofInt t.width v.toInt := by
  unfold conv toInt
  split
  · rfl
  · rw [BitVec.ofInt_natCast, BitVec.ofNat_toNat]

theorem setWidth_ofInt {width narrow : Nat} (n : Int) (le : narrow ≤ width) :
    (BitVec.ofInt width n).setWidth narrow = BitVec.ofInt narrow n := by
  have divides : ((2 ^ narrow : Nat) : Int) ∣ ((2 ^ width : Nat) : Int) :=
    Int.natCast_dvd_natCast.mpr (Nat.pow_dvd_pow 2 le)
  have lower : 0 ≤ n % ((2 ^ width : Nat) : Int) :=
    Int.emod_nonneg n (Int.natCast_ne_zero.mpr (Nat.two_pow_pos width).ne')
  apply BitVec.eq_of_toNat_eq
  rw [BitVec.toNat_setWidth, BitVec.toNat_ofInt, BitVec.toNat_ofInt,
    ← Int.emod_emod_of_dvd n divides, Int.toNat_emod lower (Int.natCast_nonneg _),
    Int.toNat_natCast]

theorem ofInt_sub {width : Nat} (x y : Int) :
    BitVec.ofInt width (x - y) = BitVec.ofInt width x - BitVec.ofInt width y := by
  rw [BitVec.eq_sub_iff_add_eq, ← BitVec.ofInt_add, Int.sub_add_cancel]

def ArithOp.onInts : ArithOp → Option (Int → Int → Int)
  | .add => some fun x y => x + y
  | .sub => some fun x y => x - y
  | .mul => some fun x y => x * y
  | _ => none

def Ty.InRange (t : Ty) (n : Int) : Prop :=
  t.signed = true → 0 < t.width ∧ -2 ^ (t.width - 1) ≤ n ∧ n < 2 ^ (t.width - 1)

theorem Ty.InRange.ofInt_toInt {t : Ty} {n : Int} (range : t.InRange n) (signed : t.signed = true) :
    (BitVec.ofInt t.width n).toInt = n :=
  BitVec.toInt_ofInt_eq_self (range signed).1 (range signed).2.1 (range signed).2.2

theorem Ty.common_uint_signed {width : Nat} {t : Ty} (other : t.width ≤ 32 ∨ t = .uint width)
    (signed : (Ty.common (.uint width) t).signed = true) :
    width < 32 ∧ Ty.common (.uint width) t = .int := by
  have narrow : width < 32 := by
    by_contra wide
    have left : (Ty.uint width).promote = .uint width := if_neg wide
    have right : t.promote.width ≤ width := by
      unfold promote
      rcases other with short | rfl
      · split
        · exact Nat.not_lt.mp wide
        · omega
      · simp [wide]
    have keeps : ¬width < t.promote.width := by omega
    simp only [common, left, if_neg keeps] at signed
    split at signed <;> simp at signed
  have left : (Ty.uint width).promote = .int := if_pos narrow
  have right : t.promote.width = 32 := by
    unfold promote
    rcases other with short | rfl
    · split
      · rfl
      · omega
    · simp [narrow]
  refine ⟨narrow, ?_⟩
  simp only [common, left, right, Nat.lt_irrefl, if_false] at signed ⊢
  rw [signed]

theorem Ty.inRange_uint {width : Nat} {t : Ty} {n : Int} (other : t.width ≤ 32 ∨ t = .uint width)
    (small : width < 32 → -2 ^ 31 ≤ n ∧ n < 2 ^ 31) : (Ty.common (.uint width) t).InRange n := by
  intro signed
  obtain ⟨narrow, common⟩ := common_uint_signed other signed
  rw [common]
  exact ⟨by decide, small narrow⟩

namespace Val

variable {op : ArithOp} {f : Int → Int → Int} {l r : Val}

theorem arith_bits (ub : Undef) (exact : op.onInts = some f)
    (left : (Ty.common l.ty r.ty).InRange l.toInt) (right : (Ty.common l.ty r.ty).InRange r.toInt)
    (result : (Ty.common l.ty r.ty).InRange (f l.toInt r.toInt)) :
    (arith ub op l r).bits =
      BitVec.ofInt (Ty.common l.ty r.ty).width (f l.toInt r.toInt) := by
  have defined : op.undefined _ (l.conv (Ty.common l.ty r.ty)) (r.conv (Ty.common l.ty r.ty)) =
      false := by
    cases signed : (Ty.common l.ty r.ty).signed with
    | false => cases op <;> simp_all [ArithOp.undefined, ArithOp.onInts]
    | true =>
        have range := result signed
        rw [conv_eq_ofInt, conv_eq_ofInt]
        cases op with
        | add | sub | mul =>
            cases exact
            simp only [ArithOp.undefined, BitVec.saddOverflow, BitVec.ssubOverflow,
              BitVec.smulOverflow, left.ofInt_toInt signed, right.ofInt_toInt signed, signed,
              Bool.true_and, Bool.or_eq_false_iff, decide_eq_false_iff_not]
            simp only at range
            omega
        | and | or | xor | div | rem => cases exact
  simp only [arith, arithAt, defined, Bool.false_eq_true, if_false]
  rw [conv_eq_ofInt, conv_eq_ofInt]
  cases op with
  | add =>
      cases exact
      exact (BitVec.ofInt_add _ _).symm
  | sub =>
      cases exact
      exact (ofInt_sub _ _).symm
  | mul =>
      cases exact
      exact (BitVec.ofInt_mul _ _).symm
  | and | or | xor | div | rem => cases exact

theorem arith_conv (ub : Undef) (exact : op.onInts = some f)
    (left : (Ty.common l.ty r.ty).InRange l.toInt) (right : (Ty.common l.ty r.ty).InRange r.toInt)
    (result : (Ty.common l.ty r.ty).InRange (f l.toInt r.toInt)) (t : Ty)
    (narrow : t.width ≤ (Ty.common l.ty r.ty).width) :
    (arith ub op l r).conv t = BitVec.ofInt t.width (f l.toInt r.toInt) := by
  have wide : t.width ≤ (arith ub op l r).ty.width := narrow
  rw [conv_of_le _ _ wide, arith_bits ub exact left right result]
  exact setWidth_ofInt _ narrow

theorem arith_toInt (ub : Undef) (exact : op.onInts = some f)
    (left : (Ty.common l.ty r.ty).InRange l.toInt) (right : (Ty.common l.ty r.ty).InRange r.toInt)
    (result : (Ty.common l.ty r.ty).InRange (f l.toInt r.toInt))
    (signed : (Ty.common l.ty r.ty).signed = true) :
    (arith ub op l r).toInt = f l.toInt r.toInt := by
  have isSigned : (arith ub op l r).ty.signed = true := signed
  rw [toInt, if_pos isSigned, arith_bits ub exact left right result]
  exact result.ofInt_toInt signed

theorem arith_toInt_unsigned (ub : Undef) (exact : op.onInts = some f)
    (unsigned : (Ty.common l.ty r.ty).signed = false) :
    (arith ub op l r).toInt = f l.toInt r.toInt % ((2 ^ (Ty.common l.ty r.ty).width : Nat) : Int) := by
  have free (n : Int) : (Ty.common l.ty r.ty).InRange n := by
    intro signed
    rw [unsigned] at signed
    cases signed
  have isUnsigned : ¬(arith ub op l r).ty.signed = true := by
    change ¬(Ty.common l.ty r.ty).signed = true
    rw [unsigned]
    decide
  have bits := congrArg BitVec.toNat (arith_bits ub exact (free _) (free _) (free _))
  have positive : ((2 ^ (Ty.common l.ty r.ty).width : Nat) : Int) ≠ 0 :=
    Int.natCast_ne_zero.mpr (Nat.two_pow_pos _).ne'
  rw [toInt, if_neg isUnsigned, ← Int.toNat_of_nonneg (Int.emod_nonneg _ positive)]
  exact congrArg Int.ofNat (bits.trans (BitVec.toNat_ofInt _))

end Val

def Ty.Holds (t : Ty) (n : Int) : Prop :=
  if t.signed then 0 < t.width ∧ -2 ^ (t.width - 1) ≤ n ∧ n < 2 ^ (t.width - 1)
  else 0 ≤ n ∧ n < 2 ^ t.width

theorem Ty.Holds.ofInt {t : Ty} {n : Int} (holds : t.Holds n) :
    (⟨t, BitVec.ofInt t.width n⟩ : Val).toInt = n := by
  unfold Holds at holds
  simp only [Val.toInt]
  split at holds
  · rename_i signed
    rw [if_pos signed]
    exact BitVec.toInt_ofInt_eq_self holds.1 holds.2.1 holds.2.2
  · rename_i unsigned
    have power : (2 ^ t.width : Int) = (2 ^ t.width : Nat) := by norm_cast
    rw [power] at holds
    rw [if_neg unsigned, BitVec.toNat_ofInt, Int.emod_eq_of_lt holds.1 holds.2, Int.toNat_of_nonneg holds.1]

theorem Ty.Holds.widen {width wide : Nat} {signed : Bool} {n : Int}
    (holds : (⟨width, signed⟩ : Ty).Holds n) (le : width ≤ wide) : (⟨wide, signed⟩ : Ty).Holds n := by
  unfold Holds at *
  simp only at *
  split
  · rename_i isSigned
    rw [if_pos isSigned] at holds
    have more : (2 ^ (width - 1) : Int) ≤ 2 ^ (wide - 1) := by
      exact_mod_cast Nat.pow_le_pow_right (by decide : 0 < 2) (by omega)
    omega
  · rename_i unsigned
    rw [if_neg unsigned] at holds
    have more : (2 ^ width : Int) ≤ 2 ^ wide := by
      exact_mod_cast Nat.pow_le_pow_right (by decide : 0 < 2) le
    omega

namespace Val

theorem holds (v : Val) (positive : 0 < v.ty.width) : v.ty.Holds v.toInt := by
  unfold Ty.Holds toInt
  split
  · exact ⟨positive, BitVec.le_toInt _, BitVec.toInt_lt⟩
  · have bound := v.bits.isLt
    refine ⟨Int.natCast_nonneg _, ?_⟩
    exact_mod_cast bound

theorem cast_toInt {v : Val} {t : Ty} (holds : t.Holds v.toInt) : (v.cast t).toInt = v.toInt := by
  rw [cast, conv_eq_ofInt, holds.ofInt]

theorem arith_div (ub : Undef) {l r : Val} (left : (Ty.common l.ty r.ty).Holds l.toInt)
    (right : (Ty.common l.ty r.ty).Holds r.toInt) (nonzero : r.toInt ≠ 0)
    (result : (Ty.common l.ty r.ty).Holds (l.toInt.tdiv r.toInt)) :
    (arith ub .div l r).toInt = l.toInt.tdiv r.toInt ∧ (arith ub .rem l r).toInt = l.toInt.tmod r.toInt := by
  have first := cast_toInt left
  have second := cast_toInt right
  simp only [arith, arithAt]
  simp only [cast] at first second
  generalize Ty.common l.ty r.ty = t at *
  generalize l.conv t = x at *
  generalize r.conv t = y at *
  rw [← first, ← second] at result ⊢
  rw [← second] at nonzero
  have divisor : (y == 0) = false := by
    rw [beq_eq_false_iff_ne]
    rintro rfl
    simp [toInt] at nonzero
  cases signed : t.signed with
  | false =>
      have defined (op : ArithOp) (divides : op = .div ∨ op = .rem) : op.undefined t x y = false := by
        rcases divides with rfl | rfl <;>
          simp only [ArithOp.undefined, divisor, signed, Bool.false_or, Bool.false_and]
      rw [defined .div (.inl rfl), defined .rem (.inr rfl)]
      simp only [toInt, signed, ArithOp.compute, Bool.false_eq_true, if_false, BitVec.toNat_udiv,
        BitVec.toNat_umod]
      exact ⟨Int.ofNat_tdiv _ _, Int.ofNat_tmod _ _⟩
  | true =>
      -- the one quotient that overflows is out of range
      have apart : x ≠ BitVec.intMin t.width ∨ y ≠ -1#t.width := by
        by_contra both
        obtain ⟨rfl, rfl⟩ : x = BitVec.intMin t.width ∧ y = -1#t.width := by simpa using both
        simp only [Ty.Holds, toInt, signed, if_true] at result
        rw [BitVec.toInt_intMin_of_pos result.1, BitVec.neg_one_eq_allOnes, BitVec.toInt_allOnes,
          if_pos result.1, Int.tdiv_neg, Int.tdiv_one] at result
        omega
      have defined (op : ArithOp) (divides : op = .div ∨ op = .rem) : op.undefined t x y = false := by
        have overflow : (x == BitVec.intMin t.width && y == -1) = false := by
          rw [Bool.and_eq_false_iff, beq_eq_false_iff_ne, beq_eq_false_iff_ne]
          exact apart
        rcases divides with rfl | rfl <;>
          simp only [ArithOp.undefined, divisor, signed, Bool.false_or, Bool.true_and, overflow]
      rw [defined .div (.inl rfl), defined .rem (.inr rfl)]
      simp only [toInt, signed, ArithOp.compute, Bool.false_eq_true, if_false, if_true]
      exact ⟨BitVec.toInt_sdiv_of_ne_or_ne x y apart, BitVec.toInt_srem x y⟩

end Val

def CmpOp.onNats (op : CmpOp) (x y : Nat) : Bool :=
  match op with
  | .eq => decide (x = y)
  | .lt => decide (x < y)
  | .gt => decide (y < x)
  | .le => decide (x ≤ y)
  | .ge => decide (y ≤ x)

theorem Ty.common_uint_self (width : Nat) :
    Ty.common (.uint width) (.uint width) = if width < 32 then .int else .uint width := by
  unfold common promote
  simp only [Nat.lt_irrefl, if_false, Bool.and_self]

theorem Val.cmp_uint (op : CmpOp) {width : Nat} (x y : BitVec width) :
    cmp op ⟨.uint width, x⟩ ⟨.uint width, y⟩ = ofBool (op.onNats x.toNat y.toNat) := by
  -- Unsigned values of one type compare as numbers, also after promotion to `int`.
  rw [cmp, Ty.common_uint_self, cmpAt]
  by_cases narrow : width < 32
  · have small (z : BitVec width) : (z.setWidth 32).toInt = z.toNat := by
      have bound : z.toNat < 2 ^ 31 :=
        Nat.lt_of_lt_of_le z.isLt (Nat.pow_le_pow_right (by decide) (by omega))
      have same : z.toNat % 2 ^ 32 = z.toNat := Nat.mod_eq_of_lt (by omega)
      rw [BitVec.toInt_eq_toNat_of_msb, BitVec.toNat_setWidth, same]
      rw [BitVec.msb_eq_decide, BitVec.toNat_setWidth, same]
      simp only [decide_eq_false_iff_not]
      omega
    rw [if_pos narrow, conv_unsigned, conv_unsigned]
    congr 1
    cases op with
    | eq =>
        change (x.setWidth 32 == y.setWidth 32) = decide (x.toNat = y.toNat)
        rw [Bool.eq_iff_iff, beq_iff_eq, decide_eq_true_iff, ← BitVec.toInt_inj, small, small]
        omega
    | lt | gt | le | ge =>
        simp only [CmpOp.holds, CmpOp.onNats, if_true, BitVec.slt, BitVec.sle]
        rw [small, small]
        simp
  · rw [if_neg narrow, conv_unsigned, conv_unsigned, BitVec.setWidth_eq, BitVec.setWidth_eq]
    congr 1
    cases op with
    | eq =>
        change (x == y) = decide (x.toNat = y.toNat)
        rw [Bool.eq_iff_iff, beq_iff_eq, decide_eq_true_iff, BitVec.toNat_inj]
    | lt | gt | le | ge => simp [CmpOp.holds, CmpOp.onNats, BitVec.ult, BitVec.ule]

end Cpp
