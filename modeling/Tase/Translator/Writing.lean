import Tase.Translator.Address

/-! Writing to an operand as the manual has it: the named part of a register changes, or memory from an
address on that was computed at a given moment. -/

namespace Tase

open Cpp

namespace RegName

def low : RegName → Nat
  | .h _ => 8
  | .q _ | .d _ | .w _ | .l _ | .other _ => 0

def keeps : RegName → Bool
  | .d _ => false
  | .q _ | .w _ | .l _ | .h _ | .other _ => true

def put {n : Nat} (r : RegName) (old : BitVec 64) (v : BitVec n) : BitVec 64 :=
  match r with
  | .q _ => v.setWidth 64
  | .d _ => (v.setWidth 32).setWidth 64
  | .w _ => old.extractLsb' 16 48 ++ v.setWidth 16
  | .l _ => old.extractLsb' 8 56 ++ v.setWidth 8
  | .h _ => old.extractLsb' 16 48 ++ v.setWidth 8 ++ old.setWidth 8
  | .other _ => old

def narrow (r : RegName) (x : BitVec 64) : BitVec 64 :=
  if r.keeps then x else (x.setWidth 32).setWidth 64

def Names (r : RegName) (k : Nat) : Prop := r.low ≤ k ∧ k < r.low + (Tase.regSize r).bits

instance (r : RegName) (k : Nat) : Decidable (r.Names k) := inferInstanceAs (Decidable (_ ∧ _))

theorem low_bound (r : RegName) : r.low + (Tase.regSize r).bits ≤ 64 := by
  cases r <;> simp [low, Tase.regSize, Size.bits]

theorem append_bit {w : Nat} (old : BitVec 64) (v : BitVec w) {high k : Nat} :
    (old.extractLsb' w high ++ v).getLsbD k =
      if k < w then v.getLsbD k else decide (k < w + high) && old.getLsbD k := by
  rw [BitVec.getLsbD_append, BitVec.getLsbD_extractLsb']
  by_cases below : k < w
  · simp [below]
  · have place : w + (k - w) = k := by omega
    have range : k - w < high ↔ k < w + high := by omega
    simp [below, place, range]

theorem put_bit {r : RegName} (known : (baseReg r).isSome) (old : BitVec 64)
    (v : BitVec (Tase.regSize r).bits) {k : Nat} (inside : k < 64) :
    (r.put old v).getLsbD k =
      if r.Names k then v.getLsbD (k - r.low) else r.keeps && old.getLsbD k := by
  cases r with
  | other name => cases known
  | q reg =>
      have named : (RegName.q reg).Names k := ⟨Nat.zero_le k, by simpa [low, Tase.regSize, Size.bits]⟩
      rw [if_pos named]
      simp [put, low, inside]
  | d g =>
      have named : (RegName.d g).Names k ↔ k < 32 := by simp [Names, low, Tase.regSize, Size.bits]
      by_cases below : k < 32
      · rw [if_pos (named.mpr below)]
        simp [put, low, inside, below]
      · rw [if_neg (named.not.mpr below)]
        simp [put, keeps, BitVec.getLsbD_setWidth, below]
  | w g =>
      have named : (RegName.w g).Names k ↔ k < 16 := by simp [Names, low, Tase.regSize, Size.bits]
      refine (append_bit old _).trans ?_
      by_cases below : k < 16
      · rw [if_pos (named.mpr below)]
        simp [low, below]
      · rw [if_neg (named.not.mpr below)]
        simp [keeps, below, inside]
  | l g =>
      have named : (RegName.l g).Names k ↔ k < 8 := by simp [Names, low, Tase.regSize, Size.bits]
      refine (append_bit old _).trans ?_
      by_cases below : k < 8
      · rw [if_pos (named.mpr below)]
        simp [low, below]
      · rw [if_neg (named.not.mpr below)]
        simp [keeps, below, inside]
  | h g =>
      have named : (RegName.h g).Names k ↔ 8 ≤ k ∧ k < 16 := by simp [Names, low, Tase.regSize, Size.bits]
      change (old.extractLsb' 16 48 ++ v.setWidth 8 ++ old.setWidth 8).getLsbD k = _
      rw [BitVec.getLsbD_append, BitVec.getLsbD_append, BitVec.getLsbD_extractLsb']
      by_cases here : 8 ≤ k ∧ k < 16
      · have part : ¬k < 8 ∧ k - 8 < 8 := by omega
        rw [if_pos (named.mpr here)]
        simp [low, part]
      · rw [if_neg (named.not.mpr here)]
        by_cases below : k < 8
        · simp [keeps, below, inside]
        · have part : ¬k - 8 < 8 ∧ k - 8 - 8 < 48 ∧ 16 + (k - 8 - 8) = k := by omega
          simp [keeps, below, part]

theorem put_put {r : RegName} (known : (baseReg r).isSome) (old : BitVec 64)
    (v w : BitVec (Tase.regSize r).bits) : r.put (r.put old v) w = r.put old w := by
  apply BitVec.eq_of_getLsbD_eq
  intro k inside
  rw [put_bit known _ _ inside, put_bit known _ _ inside, put_bit known _ _ inside]
  split
  · rfl
  · cases r.keeps <;> simp

theorem field_bit (r : RegName) (size : Size) (x : BitVec 64) {k : Nat} (inside : k < size.bits) :
    (r.field size x).getLsbD k = x.getLsbD (r.low + k) := by
  cases r <;> simp [field, low, inside]

theorem field_put {r : RegName} (known : (baseReg r).isSome) (old : BitVec 64)
    (v : BitVec (Tase.regSize r).bits) : r.field (Tase.regSize r) (r.put old v) = v := by
  have bound := r.low_bound
  apply BitVec.eq_of_getLsbD_eq
  intro k inside
  have named : r.Names (r.low + k) := ⟨by omega, by omega⟩
  rw [field_bit _ _ _ inside, put_bit known _ _ (by omega), if_pos named]
  congr 1
  omega

theorem insert_eq_put {r : RegName} (known : (baseReg r).isSome) (old : BitVec 64)
    (v : BitVec (Tase.regSize r).bits) : r.insert old (v.setWidth 64) = r.put old v := by
  -- `emit_store` of an unsigned variable replaces the named part.
  have bound := r.low_bound
  have fits : r.Fits (v.setWidth 64) := by
    have small := v.isLt
    cases r with
    | q reg | d g | h g | other name => trivial
    | w g | l g =>
        change (v.setWidth 64).toNat < _
        rw [BitVec.toNat_setWidth]
        exact Nat.lt_of_le_of_lt (Nat.mod_le _ _) small
  have inserted := field_insert r known old (v.setWidth 64)
  apply BitVec.eq_of_getLsbD_eq
  intro k inside
  rw [put_bit known _ _ inside]
  split
  · rename_i named
    have here : k - r.low < (Tase.regSize r).bits := by
      have := named.1
      have := named.2
      omega
    have place : r.low + (k - r.low) = k := by
      have := named.1
      omega
    have bit := congrArg (BitVec.getLsbD · (k - r.low)) inserted
    simp only [field_bit _ _ _ here, place, BitVec.getLsbD_setWidth, here, decide_true,
      Bool.true_and] at bit
    rw [bit, decide_eq_true (by omega), Bool.true_and]
  · rename_i away
    have outside (apart : r.holds k = false) := insert_outside r old (v.setWidth 64) fits k inside apart
    cases r with
    | other name => cases known
    | q reg => exact absurd ⟨Nat.zero_le k, by simpa [low, Tase.regSize, Size.bits]⟩ away
    | d g =>
        have above : 32 ≤ k := by simpa [Names, low, Tase.regSize, Size.bits] using away
        rw [insert_cleared g old _ k above]
        rfl
    | w g | l g =>
        have above := away
        simp only [Names, low, Tase.regSize, Size.bits, Nat.zero_le, Nat.zero_add, true_and] at above
        exact outside (by simp [holds, above])
    | h g =>
        have above := away
        simp only [Names, low, Tase.regSize, Size.bits] at above
        exact outside (by simp only [holds, Bool.and_eq_false_iff, decide_eq_false_iff_not]; omega)

theorem put_field {r : RegName} (known : (baseReg r).isSome) (x : BitVec 64) :
    r.put x (r.field (Tase.regSize r) x) = r.narrow x := by
  unfold narrow
  apply BitVec.eq_of_getLsbD_eq
  intro k inside
  rw [put_bit known _ _ inside]
  by_cases named : r.Names k
  · have here : k - r.low < (Tase.regSize r).bits := by
      have := named.1
      have := named.2
      omega
    have place : r.low + (k - r.low) = k := Nat.add_sub_cancel' named.1
    rw [if_pos named, field_bit _ _ _ here, place]
    split
    · rfl
    · rename_i cleared
      cases r with
      | d g =>
          have below : k < 32 := by simpa [Names, low, Tase.regSize, Size.bits] using named.2
          simp [inside, below]
      | _ => exact absurd rfl cleared
  · rw [if_neg named]
    cases r with
    | d g =>
        have above : ¬k < 32 := by simpa [Names, low, Tase.regSize, Size.bits] using named
        simp [keeps, BitVec.getLsbD_setWidth, above]
    | _ => simp [keeps]

theorem put_inj {r : RegName} (known : (baseReg r).isSome) {old : BitVec 64}
    {v w : BitVec (Tase.regSize r).bits} : r.put old v = r.put old w ↔ v = w := by
  constructor
  · intro same
    rw [← field_put known old v, same, field_put known]
  · rintro rfl
    rfl

theorem names_apart {r s : RegName} (distinct : r ≠ s) (width : Tase.regSize r = Tase.regSize s)
    (same : baseReg r = baseReg s) (known : (baseReg s).isSome) :
    s.keeps = true ∧ ∀ k, r.Names k → ¬ s.Names k := by
  cases r <;> cases s <;>
    simp_all [baseReg, Tase.regSize, keeps, Names, low, Size.bits]

theorem read_put {r s : RegName} {whole : Reg} {size : Size} {m : Mach} (first : size = Tase.regSize r)
    (second : size = Tase.regSize s) (base : baseReg s = some whole) (v : BitVec size.bits) :
    r.read size (m.setReg whole (s.put (m.regs whole) v)) = if r = s then v else r.read size m := by
  have known : (baseReg s).isSome := by simp [base]
  subst second
  unfold read
  by_cases same : r = s
  · subst same
    simp only [base, Machine.setReg_regs_self, if_true]
    exact field_put known _ v
  · rw [if_neg same]
    cases held : baseReg r with
    | none => rfl
    | some other =>
        simp only
        by_cases one : other = whole
        · subst one
          obtain ⟨kept, apart⟩ := names_apart same first.symm (held.trans base.symm) known
          have bound := r.low_bound
          rw [← first] at bound
          rw [Machine.setReg_regs_self]
          apply BitVec.eq_of_getLsbD_eq
          intro k inside
          have named : r.Names (r.low + k) := ⟨by omega, by rw [← first]; omega⟩
          rw [field_bit _ _ _ inside, field_bit _ _ _ inside, put_bit known _ _ (by omega),
            if_neg (apart _ named), kept, Bool.true_and]
        · rw [Machine.setReg_regs, if_neg one]

end RegName

namespace Operand

/-- The state with the operand replaced, where a memory operand is where it was `before`. -/
def writeAt (o : Operand) (size : Size) (before : Mach) (v : BitVec size.bits) (m : Mach) : Mach :=
  match o with
  | .reg r =>
      match baseReg r with
      | some whole => m.setReg whole (r.put (m.regs whole) v)
      | none => m
  | .mem target => m.store (target.effective before) v
  | .imm _ | .addr _ _ => m

def readAt (o : Operand) (size : Size) (before m : Mach) : BitVec size.bits :=
  match o with
  | .mem target => m.mem.load (target.effective before) size.bits
  | .reg _ | .imm _ | .addr _ _ => o.read size m

variable {ub : Undef} {r : RegName} {whole : Reg} {size : Size} {m before : Mach}

theorem writeAt_reg (base : baseReg r = some whole) (v : BitVec size.bits) :
    (Operand.reg r).writeAt size before v m = m.setReg whole (r.put (m.regs whole) v) := by
  simp only [writeAt, base]

theorem write_put (base : baseReg r = some whole) (width : size = Tase.regSize r)
    (v : BitVec size.bits) :
    (Operand.reg r).write ub size ⟨size.uint, v⟩ m = m.setReg whole (r.put (m.regs whole) v) := by
  subst width
  have known : (baseReg r).isSome := by simp [base]
  rw [write_reg base rfl (by cases r <;> simp [Tase.regSize, Size.bits]), Val.conv_unsigned,
    RegName.insert_eq_put known]

theorem write_mem (target : MemRef) (v : BitVec size.bits) :
    (Operand.mem target).write ub size ⟨size.uint, v⟩ m = m.store (target.address ub m) v := by
  change m.store (target.address ub m) ((⟨size.uint, v⟩ : Val).conv size.uint) = _
  simp

theorem read_write {o : Operand} {v : BitVec size.bits} (width : size = Tase.regSize r)
    (storable : o.Storable size) :
    r.read size (o.write ub size ⟨size.uint, v⟩ m) = if o = .reg r then v else r.read size m := by
  cases o with
  | imm n | addr n symbol => exact storable.elim
  | mem target =>
      rw [write_mem, if_neg (by simp)]
      rfl
  | reg s =>
      obtain ⟨whole, base⟩ := Option.isSome_iff_exists.mp storable.2
      rw [write_put base storable.1, RegName.read_put width storable.1 base]
      simp [eq_comm]

theorem read_writeAt {o : Operand} {v : BitVec size.bits} (width : size = Tase.regSize r)
    (storable : o.Storable size) :
    r.read size (o.writeAt size before v m) = if o = .reg r then v else r.read size m := by
  cases o with
  | imm n | addr n symbol => exact storable.elim
  | mem target =>
      rw [if_neg (by simp)]
      rfl
  | reg s =>
      obtain ⟨whole, base⟩ := Option.isSome_iff_exists.mp storable.2
      rw [writeAt_reg base, RegName.read_put width storable.1 base]
      simp [eq_comm]

theorem write_write {o : Operand} (storable : o.Storable size) (v w : BitVec size.bits) :
    o.write ub size ⟨size.uint, w⟩ (o.write ub size ⟨size.uint, v⟩ m) =
      o.write ub size ⟨size.uint, w⟩ m := by
  cases o with
  | imm n | addr n symbol => exact storable.elim
  | mem target =>
      have kept : target.address ub (m.store (target.address ub m) v) = target.address ub m :=
        MemRef.address_congr fun _ _ => rfl
      rw [write_mem, write_mem, write_mem, kept]
      exact congrArg (Machine.mk m.regs) (Mem.store_store ..)
  | reg r =>
      obtain ⟨width, known⟩ := storable
      obtain ⟨whole, base⟩ := Option.isSome_iff_exists.mp known
      subst width
      rw [write_put base rfl, write_put base rfl, write_put base rfl, Machine.setReg_setReg,
        Machine.setReg_regs_self, RegName.put_put known]

end Operand

end Tase
