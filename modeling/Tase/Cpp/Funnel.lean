import Tase.Cpp.Bits
import Tase.Cpp.Ints

/-! Two words that are shifted as one, rotations, and the C++ expressions they are built from. -/

namespace Cpp

section Words

variable {n : Nat}

def funnelLeft (x y : BitVec n) (c : Nat) : BitVec n := x <<< c ||| y >>> (n - c)

def funnelRight (x y : BitVec n) (c : Nat) : BitVec n := x >>> c ||| y <<< (n - c)

theorem funnelLeft_bit (x y : BitVec n) {c k : Nat} (small : c ≤ n) (inside : k < n) :
    (funnelLeft x y c).getLsbD k =
      if c ≤ k then x.getLsbD (k - c) else y.getLsbD (n + k - c) := by
  rw [funnelLeft, BitVec.getLsbD_or, BitVec.getLsbD_shiftLeft, BitVec.getLsbD_ushiftRight]
  by_cases above : c ≤ k
  · have beyond : y.getLsbD (n - c + k) = false := BitVec.getLsbD_of_ge _ _ (by omega)
    have notBelow : ¬k < c := by omega
    simp [above, beyond, notBelow, inside]
  · have below : k < c := by omega
    have place : n - c + k = n + k - c := by omega
    simp [above, below, place]

theorem funnelRight_bit (x y : BitVec n) {c k : Nat} (small : c ≤ n) (inside : k < n) :
    (funnelRight x y c).getLsbD k =
      if k + c < n then x.getLsbD (k + c) else y.getLsbD (k + c - n) := by
  rw [funnelRight, BitVec.getLsbD_or, BitVec.getLsbD_shiftLeft, BitVec.getLsbD_ushiftRight,
    Nat.add_comm c k]
  by_cases low : k + c < n
  · have below : k < n - c := by omega
    simp [low, below]
  · have beyond : x.getLsbD (k + c) = false := BitVec.getLsbD_of_ge _ _ (by omega)
    have notBelow : ¬k < n - c := by omega
    have place : k - (n - c) = k + c - n := by omega
    simp [low, beyond, notBelow, inside, place]

theorem rotateLeft_funnel (x : BitVec n) {c : Nat} (small : c < n) :
    x.rotateLeft c = funnelLeft x x c :=
  BitVec.rotateLeft_eq_rotateLeftAux_of_lt small

theorem rotateRight_funnel (x : BitVec n) {c : Nat} (small : c < n) :
    x.rotateRight c = funnelRight x x c :=
  BitVec.rotateRight_eq_rotateRightAux_of_lt small

theorem rotateRight_rotateLeft (x : BitVec n) {c : Nat} (small : c < n) :
    (x.rotateLeft c).rotateRight c = x := by
  rw [rotateRight_funnel _ small, rotateLeft_funnel _ small]
  apply BitVec.eq_of_getLsbD_eq
  intro k inside
  rw [funnelRight_bit _ _ (Nat.le_of_lt small) inside]
  split
  · rename_i low
    rw [funnelLeft_bit _ _ (Nat.le_of_lt small) low, if_pos (by omega), Nat.add_sub_cancel]
  · rename_i high
    rw [funnelLeft_bit _ _ (Nat.le_of_lt small) (by omega), if_neg (by omega)]
    congr 1
    omega

theorem rotateLeft_rotateRight (x : BitVec n) {c : Nat} (small : c < n) :
    (x.rotateRight c).rotateLeft c = x := by
  rw [rotateLeft_funnel _ small, rotateRight_funnel _ small]
  apply BitVec.eq_of_getLsbD_eq
  intro k inside
  rw [funnelLeft_bit _ _ (Nat.le_of_lt small) inside]
  split
  · rename_i above
    rw [funnelRight_bit _ _ (Nat.le_of_lt small) (by omega), if_pos (by omega),
      Nat.sub_add_cancel above]
  · rename_i below
    rw [funnelRight_bit _ _ (Nat.le_of_lt small) (by omega), if_neg (by omega)]
    congr 1
    omega

def carryAbove (cf : Bool) (x : BitVec n) : BitVec n := (BitVec.cons cf x >>> 1).setWidth n

def carryBelow (cf : Bool) (x : BitVec n) : BitVec n := (BitVec.concat x cf).setWidth n

theorem carryAbove_bit (cf : Bool) (x : BitVec n) {k : Nat} (inside : k < n) :
    (carryAbove cf x).getLsbD k = if k + 1 = n then cf else x.getLsbD (k + 1) := by
  rw [carryAbove, BitVec.getLsbD_setWidth, BitVec.getLsbD_ushiftRight, BitVec.getLsbD_cons,
    Nat.add_comm 1 k]
  simp [inside]

theorem carryBelow_bit (cf : Bool) (x : BitVec n) {k : Nat} (inside : k < n) :
    (carryBelow cf x).getLsbD k = if k = 0 then cf else x.getLsbD (k - 1) := by
  rw [carryBelow, BitVec.getLsbD_setWidth, BitVec.getLsbD_concat]
  simp [inside]

theorem rotateLeft_cons (cf : Bool) (x : BitVec n) {c : Nat} (moves : 0 < c) (small : c ≤ n) :
    (BitVec.cons cf x).rotateLeft c =
      BitVec.cons (x.getLsbD (n - c)) (funnelLeft x (carryAbove cf x) c) := by
  apply BitVec.eq_of_getLsbD_eq
  intro k inside
  rw [BitVec.getLsbD_rotateLeft, Nat.mod_eq_of_lt (by omega), BitVec.getLsbD_cons,
    BitVec.getLsbD_cons, BitVec.getLsbD_cons, Bool.cond_decide]
  by_cases top : k = n
  · subst top
    have notBelow : ¬k < c := by omega
    have other : ¬k - c = k := by omega
    simp [notBelow, other]
  · have within : k < n := by omega
    rw [if_neg top, funnelLeft_bit _ _ small within]
    by_cases above : c ≤ k
    · have notBelow : ¬k < c := by omega
      have other : ¬k - c = n := by omega
      simp [above, notBelow, other, inside]
    · have below : k < c := by omega
      rw [if_pos below, if_neg above, carryAbove_bit _ _ (by omega)]
      have place : n + 1 - c + k = n + k - c + 1 := by omega
      rw [place]

theorem rotateRight_cons (cf : Bool) (x : BitVec n) {c : Nat} (moves : 0 < c) (small : c ≤ n) :
    (BitVec.cons cf x).rotateRight c =
      BitVec.cons (x.getLsbD (c - 1)) (funnelRight x (carryBelow cf x) c) := by
  apply BitVec.eq_of_getLsbD_eq
  intro k inside
  rw [BitVec.getLsbD_rotateRight, Nat.mod_eq_of_lt (by omega), BitVec.getLsbD_cons,
    BitVec.getLsbD_cons, BitVec.getLsbD_cons, Bool.cond_decide]
  by_cases top : k = n
  · subst top
    have beyond : ¬k < k + 1 - c := by omega
    have other : ¬k - (k + 1 - c) = k := by omega
    have place : k - (k + 1 - c) = c - 1 := by omega
    rw [if_neg beyond, if_neg other, place]
    simp
  · have within : k < n := by omega
    rw [if_neg top, funnelRight_bit _ _ small within]
    by_cases low : k + c < n
    · have below : k < n + 1 - c := by omega
      have other : ¬c + k = n := by omega
      rw [if_pos below, if_neg other, if_pos low, Nat.add_comm c k]
    · rw [if_neg low, carryBelow_bit _ _ (by omega)]
      by_cases edge : k + c = n
      · have below : k < n + 1 - c := by omega
        rw [if_pos below, if_pos (by omega), if_pos (by omega)]
      · have beyond : ¬k < n + 1 - c := by omega
        have place : k - (n + 1 - c) = k + c - n - 1 := by omega
        rw [if_neg beyond, if_neg (by omega), if_neg (by omega), place]
        simp [inside]

end Words

/-! The expressions. -/

namespace Val

variable (ub : Undef) {n c : Nat} {r : Val}

theorem shift_left_word {signed : Bool} {x : BitVec n} (amount : r.toInt = c)
    (small : c < (Ty.promote ⟨n, signed⟩).width) :
    (shift ub .left ⟨⟨n, signed⟩, x⟩ r).conv (.uint n) = x <<< c := by
  have wide := Ty.le_promote_width ⟨n, signed⟩
  apply BitVec.eq_of_getLsbD_eq
  intro k inside
  have inside : k < n := inside
  simp only at wide
  rw [conv_getLsbD, shift_left_bit ub _ amount small (by simp only; omega), BitVec.getLsbD_shiftLeft]
  by_cases above : c ≤ k
  · have within : k - c < n := by omega
    have notBelow : ¬k < c := by omega
    rw [bit_of_lt (by exact within)]
    simp [inside, above, notBelow]
  · have below : k < c := by omega
    simp [above, below]

theorem shift_right_word {signed : Bool} {x : BitVec n} (amount : r.toInt = c)
    (small : c < (Ty.promote ⟨n, signed⟩).width) :
    (shift ub .right ⟨⟨n, signed⟩, x⟩ r).conv (.uint n) =
      if signed then x.sshiftRight c else x >>> c := by
  apply BitVec.eq_of_getLsbD_eq
  intro k inside
  have inside : k < n := inside
  rw [conv_getLsbD, shift_right_bit ub _ amount small]
  have notBeyond : ¬n ≤ k := by omega
  cases signed with
  | true =>
      simp only [if_true, BitVec.getLsbD_sshiftRight, inside, decide_true, Bool.true_and, bit,
        notBeyond, decide_false, Bool.not_false, Nat.add_comm c k]
  | false =>
      have plain := bit_uint n x (k + c)
      simp only [inside, decide_true, Bool.true_and, Bool.false_eq_true, if_false,
        BitVec.getLsbD_ushiftRight, Nat.add_comm c k]
      exact plain

theorem or_word {l r : Val} :
    ((arith ub .or l r).cast l.ty).conv (.uint l.ty.width) =
      l.conv (.uint l.ty.width) ||| r.conv (.uint l.ty.width) := by
  -- `|=` into a variable.
  apply BitVec.eq_of_getLsbD_eq
  intro k inside
  have inside : k < l.ty.width := inside
  have wide : k < (Ty.common l.ty r.ty).width := by
    have := Ty.le_promote_width l.ty
    rw [Ty.common_width]
    omega
  rw [conv_getLsbD, cast_bit _ _ inside, arith_bit ub rfl _ _ wide, BitVec.getLsbD_or, conv_getLsbD,
    conv_getLsbD]
  simp [inside]

theorem shift_undefined {op : ShiftOp} {v : Val}
    (outside : ¬(0 ≤ r.toInt ∧ r.toInt < v.ty.promote.width)) :
    shift ub op v r = ⟨v.ty.promote, BitVec.ofInt _ (ub.shift op v r)⟩ := by
  simp only [shift, shiftAt, if_neg outside]

theorem eq_int {v : Val} (type : v.ty = .int) : v = ⟨.int, BitVec.ofInt 32 v.toInt⟩ := by
  obtain ⟨ty, bits⟩ := v
  cases type
  exact congrArg (Val.mk .int) (BitVec.ofInt_toInt).symm

theorem sub_small {l r : Val} (left : l.ty = .int ∨ l.ty = .uint 8) (right : r.ty = .int ∨ r.ty = .uint 8)
    (low : 0 ≤ l.toInt ∧ l.toInt < 2 ^ 8) (low' : 0 ≤ r.toInt ∧ r.toInt < 2 ^ 8) :
    (arith ub .sub l r).toInt = l.toInt - r.toInt := by
  -- Differences of small numbers are taken in `int`.
  have common : Ty.common l.ty r.ty = .int := by
    rcases left with h | h <;> rcases right with h' | h' <;> rw [h, h'] <;> rfl
  have range (k : Int) (bounds : -2 ^ 31 ≤ k ∧ k < 2 ^ 31) : (Ty.common l.ty r.ty).InRange k := by
    rw [common]
    exact fun _ => ⟨by decide, bounds⟩
  have exactly : ArithOp.sub.onInts = some fun x y => x - y := rfl
  exact arith_toInt ub exactly (range _ (by omega)) (range _ (by omega)) (range _ (by omega))
    (by rw [common])

end Val

end Cpp
