import Tase.Translator.Accepted

/-! What a store through a register name does to the whole register. -/

namespace Tase

open Cpp

namespace RegName

def clear : RegName → BitVec 64 → BitVec 64
  | .h _, x => x &&& 0xFFFFFFFFFFFF00FF#64
  | .l _, x => x &&& 0xFFFFFFFFFFFFFF00#64
  | .w _, x => x &&& 0xFFFFFFFFFFFF0000#64
  | .q _, x | .d _, x | .other _, x => x

def insert (r : RegName) (old c : BitVec 64) : BitVec 64 :=
  match r with
  | .h _ => r.clear old + (c.setWidth 16 <<< 8).setWidth 64
  | .l _ | .w _ => r.clear old + c
  | .d _ => (c.setWidth 32).setWidth 64
  | .q _ => c
  | .other _ => old

def holds : RegName → Nat → Bool
  | .q _, _ | .d _, _ => true
  | .w _, k => k < 16
  | .l _, k => k < 8
  | .h _, k => 8 ≤ k && k < 16
  | .other _, _ => false

/-- The narrow low forms add the value as it is, so it has to be in range. -/
def Fits : RegName → BitVec 64 → Prop
  | .w _, c => c.toNat < 2 ^ 16
  | .l _, c => c.toNat < 2 ^ 8
  | .q _, _ | .d _, _ | .h _, _ | .other _, _ => True

end RegName

namespace Operand

variable {ub : Undef} {r : RegName} {whole : Reg} {size : Size} {m : Mach}

theorem store_reg {value : Mach → Val} (base : baseReg r = some whole) (width : size = Tase.regSize r)
    (narrow : ∀ m, (value m).ty.width ≤ 64) :
    (Operand.reg r).store ub size value m = m.setReg whole (r.insert (m.regs whole)
      ((value (m.setReg whole (r.clear (m.regs whole)))).conv (.uint 64))) := by
  cases r with
  | other name => cases base
  | q reg =>
      cases base
      subst width
      simp [store, baseReg, Tase.regSize, RegName.insert, RegName.clear]
  | d g =>
      cases base
      subst width
      have truncated := Val.conv_setWidth (value m) (.uint 64) 32 (by decide)
      simp [store, baseReg, Tase.regSize, RegName.insert, RegName.clear, Val.cast, truncated]
  | w g | l g =>
      cases base
      subst width
      simp [store, baseReg, Tase.regSize, RegName.insert, RegName.clear, Val.arith_add_u64, narrow]
  | h g =>
      cases base
      subst width
      simp only [store, baseReg, Tase.regSize, RegName.insert, RegName.clear,
        Machine.setReg_regs_self, Machine.setReg_setReg]
      rw [Val.arith_add_u64 _ _ _ (by simp), Val.conv_unsigned, BitVec.setWidth_eq, Val.cast,
        Val.conv_unsigned, Val.shift_left_conv _ _ _ _ _ (by decide) (by decide),
        Val.conv_setWidth _ _ _ (by decide)]

theorem write_reg {x : Val} (base : baseReg r = some whole) (width : size = Tase.regSize r)
    (narrow : x.ty.width ≤ 64) :
    (Operand.reg r).write ub size x m =
      m.setReg whole (r.insert (m.regs whole) (x.conv (.uint 64))) :=
  store_reg base width fun _ => narrow

end Operand

namespace RegName

theorem clear_bit (r : RegName) (x : BitVec 64) (k : Nat) (bound : k < 64) :
    (r.clear x).getLsbD k =
      (x.getLsbD k && match r with
        | .h _ => !(8 ≤ k && k < 16)
        | .l _ => decide (8 ≤ k)
        | .w _ => decide (16 ≤ k)
        | .q _ | .d _ | .other _ => true) := by
  have high : ∀ k < 64, (0xFFFFFFFFFFFF00FF#64).getLsbD k = !(8 ≤ k && k < 16) := by decide
  have byte : ∀ k < 64, (0xFFFFFFFFFFFFFF00#64).getLsbD k = decide (8 ≤ k) := by decide
  have word : ∀ k < 64, (0xFFFFFFFFFFFF0000#64).getLsbD k = decide (16 ≤ k) := by decide
  cases r with
  | q reg | d g | other name => simp [clear]
  | h g => rw [clear, BitVec.getLsbD_and, high k bound]
  | l g => rw [clear, BitVec.getLsbD_and, byte k bound]
  | w g => rw [clear, BitVec.getLsbD_and, word k bound]

theorem getLsbD_of_small {width : Nat} {c : BitVec width} {low k : Nat} (small : c.toNat < 2 ^ low)
    (above : low ≤ k) : c.getLsbD k = false := by
  rw [BitVec.getLsbD, Nat.testBit_lt_two_pow]
  exact Nat.lt_of_lt_of_le small (Nat.pow_le_pow_right (by decide) above)

theorem add_bit {x y : BitVec 64} {k : Nat}
    (apart : ∀ j < 64, x.getLsbD j = true → y.getLsbD j = false) :
    (x + y).getLsbD k = (x.getLsbD k || y.getLsbD k) := by
  have disjoint : x &&& y = 0#64 := by
    apply BitVec.eq_of_getLsbD_eq
    intro j inside
    rw [BitVec.getLsbD_and, BitVec.getLsbD_zero]
    cases set : x.getLsbD j with
    | false => rfl
    | true => exact apart j inside set
  rw [BitVec.add_eq_or_of_and_eq_zero _ _ disjoint, BitVec.getLsbD_or]

theorem high_bit (c : BitVec 64) (k : Nat) :
    ((c.setWidth 16 <<< 8).setWidth 64).getLsbD k =
      (decide (8 ≤ k ∧ k < 16) && c.getLsbD (k - 8)) := by
  rw [BitVec.getLsbD_setWidth, BitVec.getLsbD_shiftLeft, BitVec.getLsbD_setWidth]
  by_cases inside : 8 ≤ k ∧ k < 16
  · have widths : k < 64 ∧ k < 16 ∧ ¬ k < 8 ∧ k - 8 < 16 := by omega
    simp [inside, widths]
  · by_cases low : k < 8
    · simp [low]
    · have above : ¬ k < 16 := by omega
      simp [above]

theorem insert_outside (r : RegName) (old c : BitVec 64) (fits : r.Fits c) (k : Nat)
    (bound : k < 64) (outside : r.holds k = false) :
    (r.insert old c).getLsbD k = old.getLsbD k := by
  cases r with
  | q reg | d g => simp [holds] at outside
  | other name => rfl
  | l g =>
      have above : 8 ≤ k := by simpa [holds] using outside
      rw [insert, add_bit, clear_bit _ _ k bound, getLsbD_of_small fits above]
      · simp [above]
      · intro j inside set
        rw [clear_bit _ _ j inside] at set
        simp only [Bool.and_eq_true, decide_eq_true_eq] at set
        exact getLsbD_of_small fits set.2
  | w g =>
      have above : 16 ≤ k := by simpa [holds] using outside
      rw [insert, add_bit, clear_bit _ _ k bound, getLsbD_of_small fits above]
      · simp [above]
      · intro j inside set
        rw [clear_bit _ _ j inside] at set
        simp only [Bool.and_eq_true, decide_eq_true_eq] at set
        exact getLsbD_of_small fits set.2
  | h g =>
      have away : ¬ (8 ≤ k ∧ k < 16) := by simpa [holds] using outside
      rw [insert, add_bit, clear_bit _ _ k bound, high_bit]
      · have stays : (!(decide (8 ≤ k) && decide (k < 16))) = true := by
          simp only [Bool.not_eq_true', Bool.and_eq_false_iff, decide_eq_false_iff_not]
          omega
        simp [away, stays]
      · intro j inside set
        rw [clear_bit _ _ j inside] at set
        simp only [Bool.and_eq_true, Bool.not_eq_true', Bool.and_eq_false_iff,
          decide_eq_false_iff_not] at set
        have outside : ¬ (8 ≤ j ∧ j < 16) := by omega
        rw [high_bit, decide_eq_false outside, Bool.false_and]

theorem insert_cleared (g : Gpr) (old c : BitVec 64) (k : Nat) (upper : 32 ≤ k) :
    ((RegName.d g).insert old c).getLsbD k = false := by
  rw [insert, BitVec.getLsbD_setWidth, BitVec.getLsbD_setWidth]
  simp [Nat.not_lt.mpr upper]

theorem eq_upper_of_bits {x y : BitVec 64} {low : Nat}
    (same : ∀ k, low ≤ k → k < 64 → x.getLsbD k = y.getLsbD k) :
    x.toNat / 2 ^ low = y.toNat / 2 ^ low := by
  apply Nat.eq_of_testBit_eq
  intro j
  rw [Nat.testBit_div_two_pow, Nat.testBit_div_two_pow]
  by_cases inside : low + j < 64
  · have bit := same (low + j) (by omega) inside
    simpa [BitVec.getLsbD, Nat.add_comm] using bit
  · have left := BitVec.getLsbD_of_ge x (low + j) (by omega)
    have right := BitVec.getLsbD_of_ge y (low + j) (by omega)
    rw [BitVec.getLsbD] at left right
    rw [Nat.add_comm j low, left, right]

theorem toNat_of_cleared {x y : BitVec 64} {low : Nat}
    (cleared : ∀ k < 64, y.getLsbD k = (x.getLsbD k && decide (low ≤ k))) :
    y.toNat = x.toNat / 2 ^ low * 2 ^ low := by
  apply Nat.eq_of_testBit_eq
  intro k
  rw [Nat.testBit_mul_two_pow, Nat.testBit_div_two_pow]
  by_cases inside : k < 64
  · have bit := cleared k inside
    rw [BitVec.getLsbD, BitVec.getLsbD] at bit
    rw [bit]
    by_cases above : low ≤ k
    · simp [above]
    · simp [above]
  · have outside := BitVec.getLsbD_of_ge y k (by omega)
    have outside' := BitVec.getLsbD_of_ge x k (by omega)
    rw [BitVec.getLsbD] at outside outside'
    rw [outside]
    by_cases above : low ≤ k
    · simp [above, outside']
    · simp [above]

theorem fits_of_outside {x y c : BitVec 64} {low : Nat} (narrow : low = 8 ∨ low = 16)
    (cleared : ∀ k < 64, y.getLsbD k = (x.getLsbD k && decide (low ≤ k)))
    (same : ∀ k, low ≤ k → k < 64 → (y + c).getLsbD k = x.getLsbD k) : c.toNat < 2 ^ low := by
  have upper := eq_upper_of_bits same
  have lower := toNat_of_cleared cleared
  have bound := c.isLt
  have bound' := x.isLt
  rw [BitVec.toNat_add, lower] at upper
  rcases narrow with rfl | rfl <;> omega

theorem insert_outside_iff (r : RegName) (old c : BitVec 64) :
    (∀ k, k < 64 → r.holds k = false → (r.insert old c).getLsbD k = old.getLsbD k) ↔ r.Fits c := by
  constructor
  · intro same
    cases r with
    | q reg | d g | h g | other name => trivial
    | l g =>
        refine fits_of_outside (.inl rfl) (fun k bound => clear_bit (.l g) old k bound) ?_
        exact fun k above bound => same k bound (by simp [holds, above])
    | w g =>
        refine fits_of_outside (.inr rfl) (fun k bound => clear_bit (.w g) old k bound) ?_
        exact fun k above bound => same k bound (by simp [holds, above])
  · exact fun fits k bound outside => insert_outside r old c fits k bound outside

end RegName

/-! Reading an operand back. -/

namespace RegName

def field (r : RegName) (size : Size) (x : BitVec 64) : BitVec size.bits :=
  match r with
  | .h _ => (x >>> 8).setWidth size.bits
  | _ => x.setWidth size.bits

theorem field_insert (r : RegName) (known : (baseReg r).isSome) (old c : BitVec 64) :
    r.field (Tase.regSize r) (r.insert old c) = c.setWidth (Tase.regSize r).bits := by
  cases r with
  | q reg => rfl
  | d g =>
      apply BitVec.eq_of_getLsbD_eq
      intro k bound
      have bound : k < 32 := bound
      simp only [field, insert, Tase.regSize, BitVec.getLsbD_setWidth, bound, decide_true,
        Bool.true_and]
      simp [show k < 64 by omega]
  | w g =>
      have cleared : ((RegName.w g).clear old).setWidth 16 = 0 := by
        apply BitVec.eq_of_getLsbD_eq
        intro k bound
        rw [BitVec.getLsbD_setWidth, clear_bit _ _ k (by omega)]
        simp [show ¬16 ≤ k by omega]
      change ((RegName.w g).clear old + c).setWidth 16 = c.setWidth 16
      rw [BitVec.setWidth_add _ _ (by decide), cleared]
      simp
  | l g =>
      have cleared : ((RegName.l g).clear old).setWidth 8 = 0 := by
        apply BitVec.eq_of_getLsbD_eq
        intro k bound
        rw [BitVec.getLsbD_setWidth, clear_bit _ _ k (by omega)]
        simp [show ¬8 ≤ k by omega]
      change ((RegName.l g).clear old + c).setWidth 8 = c.setWidth 8
      rw [BitVec.setWidth_add _ _ (by decide), cleared]
      simp
  | h g =>
      apply BitVec.eq_of_getLsbD_eq
      intro k bound
      have bound : k < 8 := bound
      change ((insert (.h g) old c >>> 8).setWidth 8).getLsbD k = (c.setWidth 8).getLsbD k
      rw [BitVec.getLsbD_setWidth, BitVec.getLsbD_ushiftRight, insert, add_bit, high_bit,
        clear_bit _ _ _ (by omega), BitVec.getLsbD_setWidth]
      · have inside : 8 ≤ 8 + k ∧ 8 + k < 16 := by omega
        simp [bound, inside]
      · intro j inside set
        rw [clear_bit _ _ j inside] at set
        simp only [Bool.and_eq_true, Bool.not_eq_true', Bool.and_eq_false_iff,
          decide_eq_false_iff_not] at set
        have outside : ¬ (8 ≤ j ∧ j < 16) := by omega
        rw [high_bit, decide_eq_false outside, Bool.false_and]
  | other name => simp [baseReg] at known

end RegName

namespace Operand

variable {ub : Undef} {o : Operand} {r : RegName} {whole : Reg} {size : Size} {m : Mach} {x : Val}

theorem value_reg (base : baseReg r = some whole) (width : size = Tase.regSize r) :
    (Operand.reg r).value ub size m = r.field size (m.regs whole) := by
  subst width
  cases r with
  | other name => simp [baseReg] at base
  | q held =>
      cases base
      change ((⟨.uint 64, m.regs _⟩ : Val).cast (.uint 64)).conv (.uint 64) = _
      simp [RegName.field, Tase.regSize]
  | d g =>
      cases base
      change ((⟨.uint 64, m.regs (.gpr g)⟩ : Val).cast (.uint 32)).conv (.uint 32) = _
      simp [RegName.field, Tase.regSize]
  | w g =>
      cases base
      change ((⟨.uint 64, m.regs (.gpr g)⟩ : Val).cast (.uint 16)).conv (.uint 16) = _
      simp [RegName.field, Tase.regSize]
  | l g =>
      cases base
      change ((⟨.uint 64, m.regs (.gpr g)⟩ : Val).cast (.uint 8)).conv (.uint 8) = _
      simp [RegName.field, Tase.regSize]
  | h g =>
      cases base
      change ((Val.shift ub .right ⟨.uint 64, m.regs (.gpr g)⟩ (.lit .dec 8)).cast (.uint 8)).conv
        (.uint 8) = _
      rw [Val.cast_conv_self, Val.shift_lit ub .right _ .dec 8 (by decide)]
      rfl

theorem value_mem {target : MemRef} {e : Exp} (found : target.addr = .ok e) :
    (Operand.mem target).value ub size m = m.mem.load (target.address ub m) size.bits := by
  unfold value fetchExp MemRef.address
  simp only [found]
  change Val.conv ⟨size.uint, m.mem.load ((evalOn ub m e).conv (.uint 64)) size.bits⟩ size.uint = _
  simp

theorem bits_whole (size : Size) : 8 * (size.bits / 8) = size.bits ∧ size.bits / 8 < 2 ^ 64 := by
  cases size <;> decide

theorem value_write (storable : o.Storable size) (narrow : x.ty.width ≤ 64) :
    o.value ub size (o.write ub size x m) = x.conv size.uint := by
  have truncated : (x.conv (.uint 64)).setWidth size.bits = x.conv size.uint :=
    Val.conv_setWidth x (.uint 64) size.bits (by cases size <;> decide)
  cases o with
  | imm n | addr n symbol => exact storable.elim
  | reg r =>
      obtain ⟨width, known⟩ := storable
      obtain ⟨whole, base⟩ := Option.isSome_iff_exists.mp known
      rw [value_reg base width, write_reg base width narrow, Machine.setReg_regs_self]
      subst width
      rw [RegName.field_insert r known, truncated]
  | mem target =>
      obtain ⟨e, found⟩ := storable
      have kept : target.address ub ((Operand.mem target).write ub size x m) = target.address ub m :=
        MemRef.address_congr fun _ _ => rfl
      rw [value_mem found, kept]
      exact Mem.load_store_same _ _ _ (bits_whole size).1 (bits_whole size).2

end Operand

end Tase
