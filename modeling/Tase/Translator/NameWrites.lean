import Tase.Translator.Accepted
import Tase.Translator.Lens

/-! The general registers under an instruction: writes through register names, and which
emitters store only values that are in range for the name. -/

namespace Tase

open Cpp

def Operand.names : Operand → List RegName
  | .reg r => [r]
  | _ => []

def Instruction.destinations (i : Instruction) : List RegName :=
  i.stores.flatMap fun p => p.1.names

def gprs (m : Mach) : Gpr → BitVec 64 := fun g => m.regs (.gpr g)

def writeName (w : RegName × BitVec 64) (regs : Gpr → BitVec 64) : Gpr → BitVec 64 := fun g =>
  if baseReg w.1 = some (.gpr g) then w.1.insert (regs g) w.2 else regs g

def writeNames (ws : List (RegName × BitVec 64)) (regs : Gpr → BitVec 64) : Gpr → BitVec 64 :=
  ws.foldl (fun regs w => writeName w regs) regs

theorem writeName_bit (w : RegName × BitVec 64) (regs : Gpr → BitVec 64) (fits : w.1.Fits w.2)
    (g : Gpr) (k : Nat) (bound : k < 64)
    (outside : (decide (baseReg w.1 = some (.gpr g)) && w.1.holds k) = false) :
    (writeName w regs g).getLsbD k = (regs g).getLsbD k := by
  unfold writeName
  split
  · rename_i base
    have away : w.1.holds k = false := by simpa [base] using outside
    exact (RegName.insert_outside_iff w.1 (regs g) w.2).mpr fits k bound away
  · rfl

theorem writeNames_bit (ws : List (RegName × BitVec 64)) (regs : Gpr → BitVec 64)
    (fits : ∀ w ∈ ws, w.1.Fits w.2) (g : Gpr) (k : Nat) (bound : k < 64)
    (outside : ∀ w ∈ ws, (decide (baseReg w.1 = some (.gpr g)) && w.1.holds k) = false) :
    (writeNames ws regs g).getLsbD k = (regs g).getLsbD k := by
  induction ws generalizing regs with
  | nil => rfl
  | cons w rest ih =>
      have later := ih (writeName w regs) (fun w' member => fits w' (by simp [member]))
        fun w' member => outside w' (by simp [member])
      rw [← writeName_bit w regs (fits w (by simp)) g k bound (outside w (by simp))]
      exact later

theorem writeNames_append (first second : List (RegName × BitVec 64)) (regs : Gpr → BitVec 64) :
    writeNames (first ++ second) regs = writeNames second (writeNames first regs) := by
  simp [writeNames]

theorem writeNames_cleared (ws : List (RegName × BitVec 64)) (regs : Gpr → BitVec 64) (g : Gpr)
    (k : Nat) (upper : 32 ≤ k)
    (only : ∀ w ∈ ws, baseReg w.1 = some (.gpr g) → w.1 = .d g)
    (start : (∃ w ∈ ws, w.1 = .d g) ∨ (regs g).getLsbD k = false) :
    (writeNames ws regs g).getLsbD k = false := by
  induction ws generalizing regs with
  | nil => simpa [writeNames] using start
  | cons w rest ih =>
      refine ih (writeName w regs) (fun w' member => only w' (by simp [member])) ?_
      by_cases here : baseReg w.1 = some (.gpr g)
      · have named := only w (by simp) here
        right
        rw [writeName, if_pos here, named]
        exact RegName.insert_cleared g _ _ k upper
      · have kept : writeName w regs g = regs g := if_neg here
        rw [kept]
        rcases start with ⟨w', member, named⟩ | already
        · rcases List.mem_cons.mp member with rfl | later
          · rw [named] at here
            simp [baseReg] at here
          · exact .inl ⟨w', later, named⟩
        · exact .inr already

def WritesNames (ws : List (RegName × BitVec 64)) (m m' : Mach) : Prop :=
  gprs m' = writeNames ws (gprs m)

theorem WritesNames.refl {m : Mach} : WritesNames [] m m := rfl

theorem WritesNames.trans {first second : List (RegName × BitVec 64)} {m m' m'' : Mach}
    (head : WritesNames first m m') (tail : WritesNames second m' m'') :
    WritesNames (first ++ second) m m'' := by
  unfold WritesNames at head tail ⊢
  rw [writeNames_append, ← head, tail]

theorem gprs_setReg_other (m : Mach) (r : Reg) (x : BitVec 64) (other : ∀ g, r ≠ .gpr g) :
    gprs (m.setReg r x) = gprs m := by
  funext g
  simp [gprs, Machine.setReg_regs, (other g).symm]

theorem writesNames_setFlag (ub : Undef) (mask : Nat) (value : Val) (clobber : Bool) (m : Mach) :
    WritesNames [] m (setFlag ub mask value clobber m) :=
  gprs_setReg_other m .efl _ (by simp)

theorem writesNames_stepRip (i : Instruction) (m : Mach) : WritesNames [] m (stepRip i m) :=
  gprs_setReg_other m .rip _ (by simp)

theorem writesNames_store {ub : Undef} {o : Operand} {size : Size} {value : Mach → Val}
    (storable : o.Storable size) (narrow : ∀ m, (value m).ty.width ≤ 64) (m : Mach) :
    ∃ m₀, WritesNames (o.names.map fun r => (r, (value m₀).conv (.uint 64))) m
      (o.store ub size value m) := by
  cases o with
  | imm n | addr n symbol => exact storable.elim
  | mem target => exact ⟨m, rfl⟩
  | reg r =>
      obtain ⟨width, found⟩ := storable
      obtain ⟨whole, base⟩ := Option.isSome_iff_exists.mp found
      refine ⟨m.setReg whole (r.clear (m.regs whole)), ?_⟩
      rw [WritesNames, Operand.store_reg base width narrow]
      funext g
      simp only [Operand.names, List.map_cons, List.map_nil, writeNames, List.foldl_cons,
        List.foldl_nil, writeName, base, gprs, Machine.setReg_regs]
      by_cases here : whole = .gpr g
      · simp [here]
      · simp [here, Ne.symm here]

theorem writesNames_write {ub : Undef} {o : Operand} {size : Size} {x : Val}
    (storable : o.Storable size) (narrow : x.ty.width ≤ 64) (m : Mach) :
    WritesNames (o.names.map fun r => (r, x.conv (.uint 64))) m (o.write ub size x m) := by
  obtain ⟨_, written⟩ := writesNames_store storable (fun _ => narrow) m
  exact written

/-! The values that the emitters store. -/

namespace RegName

/-- The forms that `emit_store` masks and adds without truncating the value. -/
def isLow : RegName → Bool
  | .w _ | .l _ => true
  | .q _ | .d _ | .h _ | .other _ => false

theorem fits_of_not_low {r : RegName} (c : BitVec 64) (wide : r.isLow = false) : r.Fits c := by
  cases r with
  | w g | l g => simp [isLow] at wide
  | q _ | d _ | h _ | other _ => trivial

theorem fits_iff_of_low {r : RegName} (c : BitVec 64) (low : r.isLow = true) :
    r.Fits c ↔ c.toNat < 2 ^ (Tase.regSize r).bits := by
  cases r with
  | w g | l g => rfl
  | q _ | d _ | h _ | other _ => simp [isLow] at low

theorem fits_unsigned {r : RegName} {x : Val} (unsigned : x.ty = (Tase.regSize r).uint) :
    r.Fits (x.conv (.uint 64)) := by
  cases low : r.isLow with
  | false => exact fits_of_not_low _ low
  | true =>
      rw [fits_iff_of_low _ low]
      obtain ⟨ty, bits⟩ := x
      cases unsigned
      rw [Val.conv_unsigned, BitVec.toNat_setWidth]
      exact Nat.lt_of_le_of_lt (Nat.mod_le _ _) bits.isLt

theorem low_narrow {r : RegName} (low : r.isLow = true) : (Tase.regSize r).bits < 32 := by
  cases r with
  | w g | l g => simp [Tase.regSize, Size.bits]
  | q _ | d _ | h _ | other _ => simp [isLow] at low

theorem fits_signed {r : RegName} {size : Size} (x : BitVec size.bits)
    (width : size = Tase.regSize r) :
    r.Fits ((⟨⟨size.bits, true⟩, x⟩ : Val).conv (.uint 64)) ↔ ¬(r.isLow = true ∧ x.msb = true) := by
  subst width
  cases low : r.isLow with
  | false => simp [fits_of_not_low _ low]
  | true =>
      have narrow := low_narrow low
      have bound := x.isLt
      have power : 2 ^ (Tase.regSize r).bits ≤ 2 ^ 32 := Nat.pow_le_pow_right (by omega) (by omega)
      rw [fits_iff_of_low _ low, Val.conv_signed, BitVec.toNat_signExtend]
      cases negative : x.msb with
      | false =>
          simp only [Bool.false_eq_true, if_false, and_false, not_false_eq_true, iff_true,
            Nat.add_zero, BitVec.toNat_setWidth]
          exact Nat.lt_of_le_of_lt (Nat.mod_le _ _) bound
      | true =>
          simp only [if_true, and_self, not_true_eq_false, iff_false]
          omega

theorem fits_not {r : RegName} {size : Size} (ub : Undef) (x : BitVec size.bits)
    (width : size = Tase.regSize r) :
    r.Fits ((Val.un ub .not ⟨size.uint, x⟩).conv (.uint 64)) ↔ r.isLow = false := by
  -- The complement is computed as an `int`, which is always negative here.
  subst width
  cases low : r.isLow with
  | false => simp [fits_of_not_low _ low]
  | true =>
      have narrow := low_narrow low
      have promoted : (Tase.regSize r).uint.promote = .int := if_pos narrow
      have bound := x.isLt
      have power : 2 ^ (Tase.regSize r).bits ≤ 2 ^ 31 := Nat.pow_le_pow_right (by omega) (by omega)
      rw [fits_iff_of_low _ low]
      have complement : Val.un ub .not ⟨(Tase.regSize r).uint, x⟩ = ⟨.int, ~~~(x.setWidth 32)⟩ := by
        change (fun t : Ty => (⟨t, ~~~(x.setWidth t.width)⟩ : Val)) (Tase.regSize r).uint.promote = _
        rw [promoted]
      have negative : (~~~(x.setWidth 32)).msb = true := by
        have small : x.toNat % 2 ^ 32 = x.toNat := Nat.mod_eq_of_lt (by omega)
        rw [BitVec.msb_not, BitVec.msb_eq_decide, BitVec.toNat_setWidth, small]
        simp
        omega
      rw [complement, Val.conv_signed, BitVec.toNat_signExtend, negative]
      simp only [if_true, Bool.true_eq_false, iff_false]
      omega

end RegName

/-! Writes of values in range. -/

def Keeps (names : List RegName) (m m' : Mach) : Prop :=
  ∃ ws, (∀ w ∈ ws, w.1 ∈ names ∧ w.1.Fits w.2) ∧ (∀ g, .d g ∈ names → ∃ w ∈ ws, w.1 = .d g) ∧
    WritesNames ws m m'

namespace Keeps

variable {ub : Undef} {o : Operand} {size : Size} {m m' m'' : Mach}

theorem refl : Keeps [] m m := ⟨[], by simp, by simp, .refl⟩

theorem trans {first second : List RegName} (head : Keeps first m m') (tail : Keeps second m' m'') :
    Keeps (first ++ second) m m'' := by
  obtain ⟨ws, within, written, here⟩ := head
  obtain ⟨ws', within', written', there⟩ := tail
  refine ⟨ws ++ ws', ?_, ?_, here.trans there⟩
  · intro w member
    rcases List.mem_append.mp member with member | member
    · exact ⟨List.mem_append_left _ (within w member).1, (within w member).2⟩
    · exact ⟨List.mem_append_right _ (within' w member).1, (within' w member).2⟩
  · intro g member
    rcases List.mem_append.mp member with member | member
    · obtain ⟨w, found, named⟩ := written g member
      exact ⟨w, List.mem_append_left _ found, named⟩
    · obtain ⟨w, found, named⟩ := written' g member
      exact ⟨w, List.mem_append_right _ found, named⟩

theorem mono {names names' : List RegName} (keeps : Keeps names m m')
    (more : ∀ r ∈ names, r ∈ names') (same : ∀ g, .d g ∈ names' → .d g ∈ names) :
    Keeps names' m m' := by
  obtain ⟨ws, within, written, here⟩ := keeps
  exact ⟨ws, fun w member => ⟨more _ (within w member).1, (within w member).2⟩,
    fun g member => written g (same g member), here⟩

theorem of_writesNames {names : List RegName} {value : RegName → BitVec 64}
    (fits : ∀ r ∈ names, r.Fits (value r))
    (written : WritesNames (names.map fun r => (r, value r)) m m') : Keeps names m m' := by
  refine ⟨_, ?_, ?_, written⟩
  · intro w member
    obtain ⟨r, found, rfl⟩ := List.mem_map.mp member
    exact ⟨found, fits r found⟩
  · intro g member
    exact ⟨_, List.mem_map_of_mem member, rfl⟩

theorem setFlag (mask : Nat) (value : Val) (clobber : Bool) :
    Keeps [] m (Tase.setFlag ub mask value clobber m) :=
  ⟨[], by simp, by simp, writesNames_setFlag ub mask value clobber m⟩

theorem flagged {names : List RegName} {mask : Nat} {value : Val} {clobber : Bool}
    (keeps : Keeps names m m') : Keeps names m (Tase.setFlag ub mask value clobber m') := by
  simpa using keeps.trans (setFlag mask value clobber)

theorem width {r : RegName} (storable : o.Storable size) (member : r ∈ o.names) :
    size = regSize r := by
  cases o with
  | reg r' =>
      obtain rfl : r = r' := by simpa [Operand.names] using member
      exact storable.1
  | imm _ | addr _ _ | mem _ => simp [Operand.names] at member

theorem write {x : Val} (storable : o.Storable size) (narrow : x.ty.width ≤ 64)
    (fits : ∀ r ∈ o.names, r.Fits (x.conv (.uint 64))) : Keeps o.names m (o.write ub size x m) :=
  of_writesNames fits (writesNames_write storable narrow m)

theorem bits_le (size : Size) : size.bits ≤ 64 := by cases size <;> decide

theorem store_unsigned {value : Mach → Val} (storable : o.Storable size)
    (unsigned : ∀ m, (value m).ty = size.uint) : Keeps o.names m (o.store ub size value m) := by
  have narrow (m : Mach) : (value m).ty.width ≤ 64 := by
    rw [unsigned m]
    exact bits_le size
  obtain ⟨m₀, written⟩ := writesNames_store storable narrow m
  refine of_writesNames (fun r member => RegName.fits_unsigned ?_) written
  rw [unsigned, width storable member]

theorem write_unsigned {x : Val} (storable : o.Storable size) (unsigned : x.ty = size.uint) :
    Keeps o.names m (o.write ub size x m) :=
  store_unsigned storable fun _ => unsigned

/-! The moves. -/

theorem mov {src : Operand} {size1 : Size} (storable : o.Storable size) :
    Keeps o.names m (denoteMov ub false src o size1 size m) := by
  refine write_unsigned storable ?_
  split
  · rename_i same
    rw [same]
    rfl
  · rfl

theorem lea {mem : MemRef} (storable : o.Storable size) :
    Keeps o.names m (denoteLea ub (.mem mem) o size m) := by
  rw [denoteLea]
  exact store_unsigned storable fun _ => rfl

end Keeps

theorem Keeps.push {ub : Undef} {src : Operand} {size : Size} {m : Mach} :
    Keeps rspOperand.names m (denotePush ub false src size m) :=
  (lea rspStorable).trans (mov (rspMemStorable size))

theorem Keeps.pop {ub : Undef} {dest : Operand} {size : Size} {m : Mach}
    (storable : dest.Storable size) :
    Keeps (dest.names ++ rspOperand.names) m (denotePop ub false dest size m) :=
  (mov storable).trans (lea rspStorable)


/-! One rule for each emitter whose stored values are unsigned. -/

namespace Keeps

variable {ub : Undef} {i : Instruction} {m : Mach}

theorem xchg (first : (i.arg 0).Storable i.bits1) (second : (i.arg 1).Storable i.bits1) :
    Keeps ((i.arg 0).names ++ (i.arg 1).names) m (denoteXchg ub i m) :=
  (write_unsigned first rfl).trans (write_unsigned second rfl)

theorem enter (unsigned : i.signExt = false) :
    Keeps [.q (.gpr .rsp), .q (.gpr .rbp)] m (denoteEnter ub i m) := by
  unfold denoteEnter
  rw [unsigned]
  refine Keeps.mono ((push.trans (mov rbpStorable)).trans (lea rspStorable)) ?_ ?_
  · simp [Operand.names, rspOperand, rbpOperand]
  · simp

theorem leave (unsigned : i.signExt = false) :
    Keeps [.q (.gpr .rsp), .q (.gpr .rbp)] m (denoteLeave ub i m) := by
  unfold denoteLeave
  rw [unsigned]
  refine Keeps.mono ((mov rspStorable).trans (pop rbpStorable)) ?_ ?_
  · simp [Operand.names, rspOperand, rbpOperand]
  · simp

theorem call (unsigned : i.signExt = false) :
    Keeps [.q (.gpr .rsp), .q .rip] m (denoteCall ub i m) := by
  unfold denoteCall
  rw [unsigned]
  exact push.trans (write_unsigned ripStorable rfl)

theorem jump {size : Size} (storable : ripOperand.Storable size) (width : i.bits2 = size)
    (unsigned : i.signExt = false) : Keeps [.q .rip] m (denoteJump ub i m) := by
  unfold denoteJump
  rw [unsigned, width]
  split
  · exact mov storable
  · exact refl.mono (by simp) (by simp)

theorem set (storable : (i.arg 0).Storable .b) : Keeps (i.arg 0).names m (denoteSet ub i m) := by
  have bit (n : Nat) (small : n < 2) (m : Mach) :
      Keeps (i.arg 0).names m ((i.arg 0).write ub .b (.lit .dec n) m) := by
    have narrow := Radix.ty_width .dec n
    refine write storable narrow fun r member => ?_
    have width := width storable member
    cases low : r.isLow with
    | false => exact RegName.fits_of_not_low _ low
    | true =>
        rw [RegName.fits_iff_of_low _ low, Val.lit_conv _ _ _ (Nat.le_refl 64), ← width]
        exact Nat.lt_of_le_of_lt (Nat.mod_le _ _) (Nat.lt_trans small (by decide))
  unfold denoteSet
  simp only
  split
  · exact ((bit 0 (by decide) m).trans (bit 1 (by decide) _)).mono (by simp) (by simp)
  · exact bit 0 (by decide) m

theorem cmov (storable : (i.arg 1).Storable i.bits2) (unsigned : i.signExt = false) :
    Keeps (i.arg 1).names m (denoteCmov ub i m) := by
  unfold denoteCmov
  rw [unsigned]
  simp only
  split
  · exact ((mov storable).trans (mov storable)).mono (by simp) (by simp)
  · exact mov storable

theorem add_left {left right : Option Operand} {mode : AddMode} {dest : Operand}
    (target : mode.targetL = some true) (isDest : left.getD (i.arg 1) = dest)
    (storable : dest.Storable i.bits1) : Keeps dest.names m (denoteAdd ub i left right mode m) := by
  unfold denoteAdd AddMode.target
  rw [target, isDest]
  exact (write_unsigned storable rfl).flagged

theorem add_right {left right : Option Operand} {mode : AddMode} {dest : Operand}
    (target : mode.targetL = some false) (isDest : right.getD (i.arg 0) = dest)
    (storable : dest.Storable i.bits1) : Keeps dest.names m (denoteAdd ub i left right mode m) := by
  unfold denoteAdd AddMode.target
  rw [target, isDest]
  exact (write_unsigned storable rfl).flagged

theorem compare {left right : Option Operand} {mode : AddMode} (target : mode.targetL = none) :
    Keeps [] m (denoteAdd ub i left right mode m) := by
  unfold denoteAdd AddMode.target
  rw [target]
  exact setFlag _ _ _

theorem logical {op : ArithOp} (storable : (i.arg 1).Storable i.bits1) :
    Keeps (i.arg 1).names m (denoteLogical ub i op true m) :=
  (write_unsigned storable rfl).flagged

theorem xadd (first : (i.arg 0).Storable i.bits1) (second : (i.arg 1).Storable i.bits1) :
    Keeps ((i.arg 0).names ++ (i.arg 1).names) m (denoteXadd ub i m) := by
  have added (m : Mach) : Keeps (i.arg 1).names m
      (denoteAdd ub i none none ⟨false, false, some true, true, false⟩ m) := add_left rfl rfl second
  exact ((xchg first second).trans (added _)).mono (by simp) (by simp)

theorem mul {multiplier multiplicand destLo : Operand} {destHi : Option Operand}
    (found : mulOperands i i.bits1 = .ok (multiplier, multiplicand, destLo, destHi))
    (low : destLo.Storable i.bits1) (high : ∀ o, destHi = some o → o.Storable i.bits1) :
    Keeps (destLo.names ++ (destHi.map Operand.names).getD []) m (denoteMul ub i m) := by
  unfold denoteMul
  rw [found]
  simp only
  cases destHi with
  | none => exact ((write_unsigned low rfl).trans refl).flagged
  | some dest =>
      exact ((write_unsigned low rfl).trans (write_unsigned (high dest rfl) rfl)).flagged

theorem div (low : (regOperand .rax i.bits1).Storable i.bits1)
    (high : (divHigh i.bits1).Storable i.bits1) (unsigned : i.signExt = false) :
    Keeps ((regOperand .rax i.bits1).names ++ (divHigh i.bits1).names) m (denoteDiv ub i m) := by
  have part (op : ArithOp) : (divPart ub op i m).ty = i.bits1.uint := by simp [divPart, unsigned]
  exact (write_unsigned low (part .div)).trans (write_unsigned high (part .rem))

theorem bittest : i.testBit = none → Keeps [] m (denoteBittest ub i m) := by
  intro tested
  unfold denoteBittest
  rw [tested]
  exact setFlag _ _ _

theorem bitModify (modifies : i.testBit.isSome = true) (storable : (i.arg 1).Storable i.bits1) :
    Keeps (i.arg 1).names m (denoteBittest ub i m) := by
  obtain ⟨bit, tested⟩ := Option.isSome_iff_exists.mp modifies
  unfold denoteBittest
  rw [tested]
  exact (setFlag _ _ _).trans (write_unsigned storable rfl)

theorem flag {clear : Bool} : Keeps [] m (denoteFlag ub i clear m) := by
  unfold denoteFlag
  simp only
  split
  · exact setFlag _ _ _
  · exact setFlag _ _ _
  · exact refl
  · exact refl

theorem shift {dest src : Operand} (found : shiftOperands i = .ok (dest, src))
    (storable : dest.Storable (i.size2.getD .q)) (unsigned : i.signExt = false) :
    Keeps dest.names m (denoteShift ub i m) := by
  have result : (shiftVal ub i dest src i.bits1 (i.size2.getD .q) m).ty = (i.size2.getD .q).uint := by
    unfold shiftVal shiftFilled
    simp only [unsigned]
    split <;> rfl
  unfold denoteShift
  rw [found]
  simp only
  split
  · exact write_unsigned storable result
  · exact (write_unsigned storable result).flagged

end Keeps

theorem keeps_denoteOp {ub : Undef} {i : Instruction} {m : Mach}
    (stores : ∀ p ∈ i.stores, p.1.Storable p.2)
    (source : i.op = .lea → ∃ mem, i.arg 0 = .mem mem) (plain : i.op ∉ [Op.not, .ctd, .loop])
    (unsigned : i.op ∈ [Op.mov, .sh, .div] → i.signExt = false) :
    Keeps i.destinations m (denoteOp ub i m) := by
  have flat (other : i.op ∉ [Op.test, .mul]) : i.signExt = false := by
    by_cases signable : i.op ∈ [Op.mov, .sh, .div]
    · exact unsigned signable
    · refine i.signExt_eq_false ?_
      simp only [List.mem_cons, List.not_mem_nil, or_false, not_or] at plain other signable ⊢
      exact ⟨signable.1, other.1, plain.2.1, other.2, signable.2.2, signable.2.1⟩
  unfold Instruction.destinations denoteOp
  unfold Instruction.stores at stores ⊢
  cases found : i.op with
  | not | ctd | loop => simp [found] at plain
  | nop | other name => exact .refl
  | cl | st => exact .flag
  | cmc => exact .setFlag _ _ _
  | cmp => exact .compare rfl
  | test => exact .setFlag _ _ _
  | push | pushf =>
      rw [flat (by simp [found])]
      exact .push
  | popf =>
      rw [flat (by simp [found])]
      exact .pop ⟨_, rfl⟩
  | enter => exact .enter (flat (by simp [found]))
  | leave => exact .leave (flat (by simp [found]))
  | call => exact .call (flat (by simp [found]))
  | ret =>
      rw [flat (by simp [found])]
      exact .pop ripStorable
  | xchg =>
      simp only [found, List.forall_mem_cons, List.flatMap_cons, List.flatMap_nil,
        List.append_nil] at stores ⊢
      exact .xchg stores.1 stores.2.1
  | xadd =>
      simp only [found, List.forall_mem_cons, List.flatMap_cons, List.flatMap_nil,
        List.append_nil] at stores ⊢
      exact .xadd stores.1 stores.2.1
  | div =>
      simp only [found, List.forall_mem_cons, List.flatMap_cons, List.flatMap_nil,
        List.append_nil] at stores ⊢
      exact .div stores.1 stores.2.1 (flat (by simp [found]))
  | pop =>
      rw [flat (by simp [found])]
      simp only [found, List.forall_mem_cons, List.flatMap_cons, List.flatMap_nil,
        List.append_nil] at stores ⊢
      exact .pop stores.1
  | lea =>
      obtain ⟨mem, isMem⟩ := source found
      simp only [found, List.forall_mem_singleton, List.flatMap_singleton] at stores ⊢
      rw [isMem]
      exact .lea stores
  | mov =>
      rw [flat (by simp [found])]
      simp only [found, List.forall_mem_singleton, List.flatMap_singleton] at stores ⊢
      exact .mov stores
  | cmov =>
      simp only [found, List.forall_mem_singleton, List.flatMap_singleton] at stores ⊢
      exact .cmov stores (flat (by simp [found]))
  | add | sub | adc | sbb | inc | dec =>
      simp only [found, List.forall_mem_singleton, List.flatMap_singleton] at stores ⊢
      exact .add_left rfl rfl stores
  | neg =>
      simp only [found, List.forall_mem_singleton, List.flatMap_singleton] at stores ⊢
      exact .add_right rfl rfl stores
  | and | or | xor =>
      simp only [found, List.forall_mem_singleton, List.flatMap_singleton] at stores ⊢
      exact .logical stores
  | j =>
      simp only [found, List.forall_mem_singleton, List.flatMap_singleton] at stores ⊢
      exact .jump stores rfl (flat (by simp [found]))
  | set =>
      simp only [found, List.forall_mem_singleton, List.flatMap_singleton] at stores ⊢
      exact .set stores
  | bswap =>
      simp only [found, List.forall_mem_singleton, List.flatMap_singleton] at stores ⊢
      exact .write_unsigned stores rfl
  | bt =>
      simp only [found] at stores ⊢
      split
      · rename_i modifies
        simp only [modifies, if_true, List.forall_mem_singleton, List.flatMap_singleton] at stores ⊢
        exact .bitModify modifies stores
      · rename_i tested
        exact .bittest (by simpa using tested)
  | mul =>
      simp only [found] at stores ⊢
      cases shape : mulOperands i i.bits1 with
      | error _ =>
          rw [denoteMul, shape]
          exact .refl
      | ok operands =>
          obtain ⟨multiplier, multiplicand, destLo, destHi⟩ := operands
          cases destHi with
          | none =>
              simp only [shape, List.forall_mem_singleton, List.flatMap_singleton] at stores ⊢
              simpa using Keeps.mul shape stores (by simp)
          | some dest =>
              simp only [shape, List.forall_mem_cons] at stores
              simpa using Keeps.mul shape stores.1 (by simpa using stores.2.1)
  | rc | ro | sa | sh | shd =>
      simp only [found] at stores ⊢
      cases shape : shiftOperands i with
      | error _ =>
          rw [denoteShift, shape]
          exact .refl
      | ok operands =>
          simp only [shape, List.forall_mem_singleton, List.flatMap_singleton] at stores ⊢
          exact .shift shape stores (flat (by simp [found]))

end Tase
