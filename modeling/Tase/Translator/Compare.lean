import Tase.Translator.Address
import Tase.Translator.Execution
import Tase.Translator.Flags

/-! Conditions after a comparison. The suffix of a jump is parsed into a flag test, and after
`cmp` or `test x,x` that test decides the order of the two numbers. -/

namespace Tase

open Cpp

structure CondFields where
  cond : Option Cond := none
  cNeg : Bool := false
  cEq : Bool := false
deriving DecidableEq, Repr

def suffixCondNE : List Char := ['a', 'b', 'g', 'l']

def suffixCondN : List Char := ['c', 'e', 'o', 'p', 's', 'z']

def suffixCondP : List (List Char) := [['p', 'e'], ['p', 'o']]

/-- The simplifications by `COND_DEMORGAN` and `COND_ALIAS`. -/
def simplifyCond (letter : Char) (neg eq : Bool) : CondFields :=
  match letter with
  | 'a' => ⟨some .c, !neg, !eq⟩
  | 'g' => ⟨some .l, !neg, !eq⟩
  | 'b' | 'c' => ⟨some .c, neg, eq⟩
  | 'e' | 'z' => ⟨some .z, neg, eq⟩
  | 'l' => ⟨some .l, neg, eq⟩
  | 'o' => ⟨some .o, neg, eq⟩
  | 'p' => ⟨some .p, neg, eq⟩
  | 's' => ⟨some .s, neg, eq⟩
  | _ => ⟨none, neg, eq⟩

def parsePrimary (neg : Bool) : List Char → Except Error (CondFields × List Char)
  | [] => .error (.assertion "A known primary condition is required")
  | letter :: rest =>
      if letter ∈ suffixCondN ++ suffixCondNE then
        if letter ∈ suffixCondNE ∧ rest.head? = some 'e' then
          .ok (simplifyCond letter neg true, rest.tail)
        else .ok (simplifyCond letter neg (letter = 'e'), rest)
      else .error (.assertion "Cannot use this suffix with a conditional")

def parseCond (op : Op) (suffix : List Char) : Except Error (CondFields × List Char) :=
  if suffix = [] then .error (.assertion "A condition fragment is required")
  else if suffix.head? = some 'q' ∧ op = .loop then .ok ({}, suffix)
  else if 2 < suffix.length ∧ suffix.take 2 ∈ suffixCondP then
    .ok (⟨some .p, suffix.take 2 = ['p', 'o'], false⟩, suffix.drop 2)
  else if suffix.head? = some 'n' then parsePrimary true suffix.tail
  else parsePrimary false suffix

inductive CondName
  | a | ae | b | be | c | e | g | ge | l | le | o | s | z
deriving DecidableEq, Repr

namespace CondName

def text : CondName → List Char
  | .a => ['a'] | .ae => ['a', 'e'] | .b => ['b'] | .be => ['b', 'e'] | .c => ['c'] | .e => ['e']
  | .g => ['g'] | .ge => ['g', 'e'] | .l => ['l'] | .le => ['l', 'e'] | .o => ['o'] | .s => ['s']
  | .z => ['z']

def suffix (neg : Bool) (name : CondName) : List Char :=
  if neg then 'n' :: name.text else name.text

def holds {width : Nat} (name : CondName) (x y : BitVec width) : Bool :=
  match name with
  | .a => decide (y.toNat < x.toNat)
  | .ae => decide (y.toNat ≤ x.toNat)
  | .b | .c => decide (x.toNat < y.toNat)
  | .be => decide (x.toNat ≤ y.toNat)
  | .e | .z => decide (x = y)
  | .g => decide (y.toInt < x.toInt)
  | .ge => decide (y.toInt ≤ x.toInt)
  | .l => decide (x.toInt < y.toInt)
  | .le => decide (x.toInt ≤ y.toInt)
  | .s => decide ((x - y).toInt < 0)
  | .o => decide (x.toInt - y.toInt < -2 ^ (width - 1) ∨ 2 ^ (width - 1) ≤ x.toInt - y.toInt)

def fields (neg : Bool) : CondName → CondFields
  | .a => ⟨some .c, !neg, true⟩
  | .ae => ⟨some .c, !neg, false⟩
  | .b | .c => ⟨some .c, neg, false⟩
  | .be => ⟨some .c, neg, true⟩
  | .e => ⟨some .z, neg, true⟩
  | .z => ⟨some .z, neg, false⟩
  | .g => ⟨some .l, !neg, true⟩
  | .ge => ⟨some .l, !neg, false⟩
  | .l => ⟨some .l, neg, false⟩
  | .le => ⟨some .l, neg, true⟩
  | .o => ⟨some .o, neg, false⟩
  | .s => ⟨some .s, neg, false⟩

end CondName

theorem parsePrimary_text (neg : Bool) (name : CondName) :
    parsePrimary neg name.text = .ok (name.fields neg, []) := by
  cases name <;> cases neg <;> decide

theorem parsePrimary_name {neg : Bool} {suffix : List Char} {fields : CondFields}
    (parsed : parsePrimary neg suffix = .ok (fields, [])) (notParity : fields.cond ≠ some .p) :
    ∃ name : CondName, suffix = name.text ∧ fields = name.fields neg := by
  -- Which names there are is what `_parse_cond` uses up.
  cases suffix with
  | nil => cases parsed
  | cons letter rest =>
      simp only [parsePrimary] at parsed
      split at parsed
      · rename_i known
        split at parsed
        · rename_i withEq
          obtain ⟨head, tail⟩ : rest.head? = some 'e' ∧ rest.tail = [] := by
            simp only [Except.ok.injEq, Prod.mk.injEq] at parsed
            exact ⟨withEq.2, parsed.2⟩
          have only : rest = ['e'] := by
            cases rest with
            | nil => cases head
            | cons first later =>
                cases head
                rw [show later = [] from tail]
          simp only [Except.ok.injEq, Prod.mk.injEq] at parsed
          obtain ⟨rfl, _⟩ := parsed
          subst only
          obtain ⟨inList, _⟩ := withEq
          simp only [suffixCondNE, List.mem_cons, List.not_mem_nil, or_false] at inList
          rcases inList with rfl | rfl | rfl | rfl
          · exact ⟨.ae, rfl, by cases neg <;> rfl⟩
          · exact ⟨.be, rfl, rfl⟩
          · exact ⟨.ge, rfl, by cases neg <;> rfl⟩
          · exact ⟨.le, rfl, rfl⟩
        · simp only [Except.ok.injEq, Prod.mk.injEq] at parsed
          obtain ⟨rfl, rfl⟩ := parsed
          simp only [suffixCondN, suffixCondNE, List.cons_append, List.nil_append, List.mem_cons,
            List.not_mem_nil, or_false] at known
          rcases known with rfl | rfl | rfl | rfl | rfl | rfl | rfl | rfl | rfl | rfl
          · exact ⟨.c, rfl, rfl⟩
          · exact ⟨.e, rfl, rfl⟩
          · exact ⟨.o, rfl, rfl⟩
          · exact absurd rfl notParity
          · exact ⟨.s, rfl, rfl⟩
          · exact ⟨.z, rfl, rfl⟩
          · exact ⟨.a, rfl, by cases neg <;> rfl⟩
          · exact ⟨.b, rfl, rfl⟩
          · exact ⟨.g, rfl, by cases neg <;> rfl⟩
          · exact ⟨.l, rfl, rfl⟩
      · cases parsed

theorem parseCond_iff {op : Op} (notLoop : op ≠ .loop) {suffix : List Char} {fields : CondFields} :
    (parseCond op suffix = .ok (fields, []) ∧ fields.cond ≠ some .p) ↔
      ∃ (neg : Bool) (name : CondName), suffix = name.suffix neg ∧ fields = name.fields neg := by
  constructor
  · rintro ⟨parsed, notParity⟩
    unfold parseCond at parsed
    split at parsed
    · cases parsed
    · split at parsed
      · rename_i _ looping
        exact absurd looping.2 notLoop
      · split at parsed
        · simp only [Except.ok.injEq, Prod.mk.injEq] at parsed
          exact absurd (by rw [← parsed.1]) notParity
        · split at parsed
          · rename_i _ negated
            obtain ⟨name, shape, found⟩ := parsePrimary_name parsed notParity
            refine ⟨true, name, ?_, found⟩
            cases suffix with
            | nil => cases negated
            | cons first rest =>
                cases negated
                exact congrArg (List.cons 'n') shape
          · obtain ⟨name, shape, found⟩ := parsePrimary_name parsed notParity
            exact ⟨false, name, shape, found⟩
  · rintro ⟨neg, name, rfl, rfl⟩
    have notQ : (name.suffix neg).head? ≠ some 'q' := by cases name <;> cases neg <;> decide
    have parsed : parseCond op (name.suffix neg) = parsePrimary neg name.text := by
      unfold parseCond
      rw [if_neg (by cases name <;> cases neg <;> decide), if_neg (fun looping => notQ looping.1),
        if_neg (by cases name <;> cases neg <;> decide)]
      cases neg with
      | true => exact if_pos rfl
      | false => exact if_neg (by cases name <;> decide)
    exact ⟨parsed.trans (parsePrimary_text neg name), by cases name <;> simp [CondName.fields]⟩

structure Compared {width : Nat} (x y : BitVec width) (flag : Nat → Bool) : Prop where
  carry : flag flagCF = decide (x.toNat < y.toNat)
  zero : flag flagZF = decide (x - y = 0)
  sign : flag flagSF = (x - y).msb
  overflow : flag flagOF = (((x - y).msb ^^ x.msb) && (x.msb ^^ y.msb))

namespace Compared

variable {width : Nat} {x y : BitVec width} {flag : Nat → Bool}

theorem sub_toNat (x y : BitVec width) :
    (y.toNat ≤ x.toNat ∧ (x - y).toNat = x.toNat - y.toNat) ∨
      (x.toNat < y.toNat ∧ (x - y).toNat = 2 ^ width + x.toNat - y.toNat) := by
  have left := x.isLt
  have right := y.isLt
  rw [BitVec.toNat_sub]
  by_cases order : y.toNat ≤ x.toNat
  · refine .inl ⟨order, ?_⟩
    rw [show 2 ^ width - y.toNat + x.toNat = x.toNat - y.toNat + 2 ^ width by omega,
      Nat.add_mod_right, Nat.mod_eq_of_lt (by omega)]
  · refine .inr ⟨by omega, ?_⟩
    rw [Nat.mod_eq_of_lt (by omega)]
    omega

theorem signed_cases (positive : 0 < width) (z : BitVec width) :
    (z.msb = false ∧ z.toNat < 2 ^ (width - 1) ∧ z.toInt = z.toNat) ∨
      (z.msb = true ∧ 2 ^ (width - 1) ≤ z.toNat ∧ z.toInt = z.toNat - 2 * (2 ^ (width - 1) : Nat)) := by
  have half := Nat.two_pow_pred_mul_two positive
  rw [BitVec.msb_eq_decide, BitVec.toInt_eq_toNat_cond, decide_eq_false_iff_not, decide_eq_true_iff]
  split <;> omega

theorem equal (compared : Compared x y flag) : flag flagZF = decide (x = y) := by
  rw [compared.zero, Bool.eq_iff_iff, decide_eq_true_iff, decide_eq_true_iff, BitVec.ofNat_eq_ofNat,
    ← BitVec.toNat_inj, ← BitVec.toNat_inj]
  have left := x.isLt
  have right := y.isLt
  simp only [BitVec.toNat_ofNat, Nat.zero_mod]
  rcases sub_toNat x y with ⟨order, value⟩ | ⟨order, value⟩ <;> omega

theorem negative (compared : Compared x y flag) : flag flagSF = decide ((x - y).toInt < 0) := by
  rw [compared.sign, BitVec.msb_eq_toInt]

theorem outOfRange (compared : Compared x y flag) (positive : 0 < width) :
    flag flagOF =
      decide (x.toInt - y.toInt < -2 ^ (width - 1) ∨ 2 ^ (width - 1) ≤ x.toInt - y.toInt) := by
  have half := Nat.two_pow_pred_mul_two positive
  have left := x.isLt
  have right := y.isLt
  have power : (2 ^ (width - 1) : Int) = (2 ^ (width - 1) : Nat) := by norm_cast
  have difference := sub_toNat x y
  rw [compared.overflow, Bool.eq_iff_iff, decide_eq_true_iff, power]
  rcases signed_cases positive x with ⟨signX, rangeX, valueX⟩ | ⟨signX, rangeX, valueX⟩ <;>
  rcases signed_cases positive y with ⟨signY, rangeY, valueY⟩ | ⟨signY, rangeY, valueY⟩ <;>
  rcases signed_cases positive (x - y) with ⟨sign, range, _⟩ | ⟨sign, range, _⟩ <;>
  · simp only [signX, signY, sign, valueX, valueY, bne_self_eq_false, Bool.and_self, Bool.and_false,
      Bool.and_true, Bool.bne_true, Bool.bne_false, Bool.not_false, Bool.false_eq_true, false_iff,
      true_iff]
    omega

theorem less (compared : Compared x y flag) (positive : 0 < width) :
    (flag flagSF ^^ flag flagOF) = decide (x.toInt < y.toInt) := by
  have half := Nat.two_pow_pred_mul_two positive
  have left := x.isLt
  have right := y.isLt
  have difference := sub_toNat x y
  rw [compared.sign, compared.overflow, Bool.eq_iff_iff, decide_eq_true_iff]
  rcases signed_cases positive x with ⟨signX, rangeX, valueX⟩ | ⟨signX, rangeX, valueX⟩ <;>
  rcases signed_cases positive y with ⟨signY, rangeY, valueY⟩ | ⟨signY, rangeY, valueY⟩ <;>
  rcases signed_cases positive (x - y) with ⟨sign, range, _⟩ | ⟨sign, range, _⟩ <;>
  · simp only [signX, signY, sign, valueX, valueY, bne_self_eq_false, Bool.and_self, Bool.and_false,
      Bool.and_true, Bool.bne_true, Bool.bne_false, Bool.not_false, Bool.false_eq_true, false_iff,
      true_iff]
    omega

theorem le_test {α : Type} [LinearOrder α] (p q : α) :
    (decide (p = q) || decide (p < q)) = decide (p ≤ q) := by
  rw [← Bool.decide_or, decide_eq_decide, le_iff_eq_or_lt]

theorem ge_test {α : Type} [LinearOrder α] (p q : α) : decide (q ≤ p) = !decide (p < q) := by
  rw [← decide_not, decide_eq_decide, not_lt]

theorem gt_test {α : Type} [LinearOrder α] (p q : α) : decide (q < p) = !decide (p ≤ q) := by
  rw [← decide_not, decide_eq_decide, not_le]

theorem decides (compared : Compared x y flag) (positive : 0 < width) (neg : Bool)
    (name : CondName) {code : Cond} (named : (name.fields neg).cond = some code) :
    ((((name.fields neg).cEq && code ≠ .z && flag flagZF) || code.test flag) !=
      (name.fields neg).cNeg) = (name.holds x y != neg) := by
  have below : (flag flagZF || flag flagCF) = decide (x.toNat ≤ y.toNat) := by
    simp only [compared.equal, compared.carry, ← BitVec.toNat_inj, le_test]
  have notAbove : (flag flagZF || (flag flagSF ^^ flag flagOF)) = decide (x.toInt ≤ y.toInt) := by
    simp only [compared.equal, compared.less positive, ← BitVec.toInt_inj, le_test]
  cases name with
  | c | b | ae =>
      cases named
      simp [CondName.fields, CondName.holds, Cond.test, compared.carry, ge_test x.toNat y.toNat]
  | be | a =>
      cases named
      simp [CondName.fields, CondName.holds, Cond.test, below, gt_test x.toNat y.toNat]
  | z | e =>
      cases named
      simp [CondName.fields, CondName.holds, Cond.test, compared.equal]
  | l | ge =>
      cases named
      simp [CondName.fields, CondName.holds, Cond.test, compared.less positive, ge_test x.toInt y.toInt]
  | le | g =>
      cases named
      simp [CondName.fields, CondName.holds, Cond.test, notAbove, gt_test x.toInt y.toInt]
  | o =>
      cases named
      simp [CondName.fields, CondName.holds, Cond.test, compared.outOfRange positive]
  | s =>
      cases named
      simp [CondName.fields, CondName.holds, Cond.test, compared.negative]

end Compared

def Instruction.Compares (i : Instruction) : Prop :=
  i.op = .cmp ∨ (i.op = .test ∧ i.arg 0 = i.arg 1)

/-- The number before the comma in the manual's order, and the one it is compared with:
`cmp b,a` compares `a` with `b` and `test x,x` compares `x` with zero. -/
def comparands (i : Instruction) (m : Mach) : BitVec i.bits1.bits × BitVec i.bits1.bits :=
  ((i.arg 1).read i.bits1 (stepRip i m),
    if i.op = .test then 0 else (i.arg 0).read i.bits1 (stepRip i m))

def Instruction.HasSuffix (i : Instruction) (suffix : List Char) : Prop :=
  parseCond i.op suffix = .ok (⟨i.cond, i.cNeg, i.cEq⟩, [])

def FollowsOrder (ub : Undef) (first branch : Instruction) (suffix : List Char) (m m' : Mach) :
    Prop :=
  ∃ (neg : Bool) (name : CondName), suffix = name.suffix neg ∧
    let decided := name.holds (comparands first m).1 (comparands first m).2 != neg
    (branch.op = .j → m'.regs .rip =
      if decided then jumpTarget ub branch (denote ub first m)
      else m.regs .rip + BitVec.ofNat 64 first.length + BitVec.ofNat 64 branch.length) ∧
    (branch.op = .set → (branch.arg 0).read .b m' = if decided then 1 else 0)

section

variable {ub : Undef} {first branch : Instruction} {m : Mach}

theorem compare_fetches (compares : first.Compares) (handled : first.nothingToDo = false)
    (plain : ∀ o ∈ first.operands, o.Plain) (emitted : first.Emitted) :
    (first.arg 0).value ub first.bits1 (stepRip first m) = (first.arg 0).read first.bits1 (stepRip first m) ∧
      (first.arg 1).value ub first.bits1 (stepRip first m) =
        (first.arg 1).read first.bits1 (stepRip first m) := by
  obtain ⟨s, out, s', found⟩ := emitted
  have fetches := emitBody_fetches found handled
  have pair : first.fetches = [(first.arg 0, first.bits1), (first.arg 1, first.bits1)] := by
    rcases compares with op | ⟨op, _⟩ <;> simp only [Instruction.fetches, op]
  rw [pair] at fetches
  exact ⟨Operand.value_read (fetches (first.arg 0, first.bits1) (by simp)) (first.arg_plain plain 0).reach,
    Operand.value_read (fetches (first.arg 1, first.bits1) (by simp)) (first.arg_plain plain 1).reach⟩

theorem compared_denote (compares : first.Compares) (handled : first.nothingToDo = false)
    (plain : ∀ o ∈ first.operands, o.Plain) (emitted : first.Emitted) :
    Compared (comparands first m).1 (comparands first m).2 (eflBit (denote ub first m)) := by
  obtain ⟨source, destination⟩ := @compare_fetches ub first m compares handled plain emitted
  rw [show (comparands first m).1 = (first.arg 1).value ub first.bits1 (stepRip first m) from
    destination.symm]
  rcases compares with cmp | ⟨test, same⟩
  · have run : denote ub first m =
        denoteAdd ub first none none ⟨false, true, none, true, true⟩ (stepRip first m) := by
      simp [denote, handled, denoteOp, cmp]
    have second : (comparands first m).2 = (first.arg 0).value ub first.bits1 (stepRip first m) := by
      simp [comparands, cmp, source]
    rw [run]
    constructor
    · rw [eflBit_denoteAdd ub (.inl rfl), second]
      simp [AddMode.carryOut, AddMode.carryIn, flagCF, flagOF, flagZF, flagSF]
    · rw [eflBit_denoteAdd ub (.inr (.inl rfl)), second]
      simp [AddMode.total, AddMode.carryIn, flagCF, flagOF, flagZF, flagSF]
    · rw [eflBit_denoteAdd ub (.inr (.inr (.inl rfl))), second]
      simp [AddMode.total, AddMode.carryIn, flagCF, flagOF, flagZF, flagSF]
    · rw [eflBit_denoteAdd ub (.inr (.inr (.inr rfl))), second]
      simp [AddMode.total, AddMode.carryIn, flagCF, flagOF, flagZF, flagSF]
  · have run : denote ub first m = denoteLogical ub first .and false (stepRip first m) := by
      simp [denote, handled, denoteOp, test]
    have second : (comparands first m).2 = 0 := by simp [comparands, test]
    rw [run]
    constructor
    · rw [eflBit_denoteLogical ub rfl (.inl rfl), second]
      simp [flagCF, flagZF, flagSF]
    · rw [eflBit_denoteLogical ub rfl (.inr (.inl rfl)), second, same]
      simp [ArithOp.compute, flagZF, flagSF]
    · rw [eflBit_denoteLogical ub rfl (.inr (.inr (.inl rfl))), second, same]
      simp [ArithOp.compute, flagZF, flagSF]
    · rw [eflBit_denoteLogical ub rfl (.inr (.inr (.inr rfl))), second]
      simp [flagOF, flagZF, flagSF]

theorem denote_compare_rip (compares : first.Compares) (handled : first.nothingToDo = false) :
    (denote ub first m).regs .rip = m.regs .rip + BitVec.ofNat 64 first.length := by
  rcases compares with cmp | ⟨test, _⟩
  · simp [denote, handled, denoteOp, cmp, denoteAdd, AddMode.target, setFlag, stepRip,
      Machine.setReg_regs]
  · simp [denote, handled, denoteOp, test, denoteLogical, setFlag, stepRip, Machine.setReg_regs]

theorem condTaken_of_compared {width : Nat} {x y : BitVec width} {neg : Bool} {name : CondName}
    (positive : 0 < width) (fields : (⟨branch.cond, branch.cNeg, branch.cEq⟩ : CondFields) =
      name.fields neg) (compared : Compared x y (eflBit m)) :
    condTaken ub branch m = (name.holds x y != neg) := by
  obtain ⟨code, named⟩ : ∃ code, (name.fields neg).cond = some code := by
    cases name <;> exact ⟨_, rfl⟩
  have cond : branch.cond = some code := by rw [← named, ← fields]
  rw [condTaken_eq ub cond, ← compared.decides positive neg name named, ← fields]

theorem byte_target (o : Operand) (storable : o.Storable .b) (r : Reg) (special : ∀ g, r ≠ .gpr g) :
    o.target ≠ some r := by
  cases o with
  | imm n | addr n symbol | mem target => simp [Operand.target]
  | reg name =>
      cases name with
      | l g | h g => simpa [Operand.target, baseReg, eq_comm] using special g
      | q whole | d g | w g => exact absurd storable.1 (by simp [Tase.regSize])
      | other text => simp [Operand.target, baseReg]

theorem set_value {m : Mach} (storable : (branch.arg 0).Storable .b) (reach : (branch.arg 0).InReach) :
    (branch.arg 0).read .b (denoteSet ub branch m) = if condTaken ub branch m then 1 else 0 := by
  have efl : condTaken ub branch ((branch.arg 0).write ub .b (.lit .dec 0) m) =
      condTaken ub branch m := by
    have kept : ((branch.arg 0).write ub .b (.lit .dec 0) m).regs .efl = m.regs .efl :=
      Operand.write_regs_of_ne (byte_target _ storable .efl (by simp))
    simp only [condTaken, flagVal, kept]
  rw [← @Operand.value_read ub _ _ _ storable.fetchable reach]
  unfold denoteSet
  simp only [efl]
  split
  · exact Operand.value_write storable (by decide)
  · exact Operand.value_write storable (by decide)

end

/-- A conditional jump or `set` right after a comparison is decided by the order of the numbers. -/
theorem condition_follows_order {ub : Undef} {first branch : Instruction} {suffix : List Char}
    {m m' : Mach} (compares : first.Compares) (handled : first.nothingToDo = false)
    (conditional : branch.op = .j ∨ branch.op = .set) (acts : branch.nothingToDo = false)
    (parsed : branch.HasSuffix suffix) (notParity : branch.cond ≠ some .p)
    (plain : ∀ o ∈ first.operands ++ branch.operands, o.Plain)
    (executed : Executes ub [first, branch] m m') : FollowsOrder ub first branch suffix m m' := by
  have notLoop : branch.op ≠ .loop := by rcases conditional with op | op <;> simp [op]
  obtain ⟨neg, name, shape, fields⟩ := (parseCond_iff notLoop).mp ⟨parsed, notParity⟩
  have positive : 0 < first.bits1.bits := by cases first.bits1 <;> decide
  obtain ⟨plainFirst, plainBranch⟩ := List.forall_mem_append.mp plain
  have compared : Compared _ _ (eflBit (denote ub first m)) :=
    compared_denote compares handled plainFirst (executed.emitted first (by simp))
  have ran : m' = denote ub branch (denote ub first m) := by
    refine executed.eq_stepAll ?_
    rintro i (_ | ⟨_, _ | ⟨_, none⟩⟩)
    · rcases compares with op | ⟨op, _⟩ <;> simp [op]
    · exact notLoop
    · cases none
  have emitted : branch.Emitted := executed.emitted branch (by simp)
  have decided : condTaken ub branch (stepRip branch (denote ub first m)) =
      (name.holds (comparands first m).1 (comparands first m).2 != neg) :=
    condTaken_of_compared positive fields compared
  refine ⟨neg, name, shape, ?_, ?_⟩
  · intro jump
    have leads := IsJump.denote ⟨jump, emitted⟩ ub (denote ub first m)
    rw [ran, leads, Machine.setReg_regs_self, leadsTo, taken, acts, decided,
      denote_compare_rip compares handled]
    rfl
  · intro set
    obtain ⟨s, out, s', found⟩ := emitted
    have storable := emitBody_stores found acts (branch.arg 0, .b) (by simp [Instruction.stores, set])
    rw [ran, denote, acts, if_neg (by simp), denoteOp, set]
    simp only
    rw [set_value storable (branch.arg_plain plainBranch 0).reach, decided]

def compareRegisters : Instruction :=
  { original := "cmp    %rbx,%rax", vaddr := 0xffd, length := 3, op := .cmp, size1 := some .q,
    operands := [.reg (.q (.gpr .rbx)), .reg (.q (.gpr .rax))] }

theorem condition_follows_order_registers :
    ∃ m', Executes default [compareRegisters, jumpIfEqual] (atJumps 0) m' ∧
      FollowsOrder default compareRegisters jumpIfEqual ['e'] (atJumps 0) m' := by
  have emitted : EmittedCartridge [compareRegisters, jumpIfEqual]
      ((printed (emitCartridge [compareRegisters, jumpIfEqual])).get rfl) := ⟨.initial, _, rfl⟩
  have executed : Executes default [compareRegisters, jumpIfEqual] (atJumps 0) _ :=
    .cartridge emitted .done
  exact ⟨_, executed, condition_follows_order (.inl rfl) (by decide) (.inl rfl) (by decide)
    rfl (by decide) (by decide) executed⟩

def compareGuard : Instruction :=
  { original := "cmp    %fs:0x28,%rax", vaddr := 0xff7, length := 9, op := .cmp, size1 := some .q,
    operands := [.mem ⟨some "fs", 0x28, none, none, .one⟩, .reg (.q (.gpr .rax))] }

theorem guard_comparison_dropped :
    (∀ o ∈ compareGuard.operands, o.isInstrumentation = false) ∧ compareGuard.op = .cmp ∧
      jumpIfEqual.HasSuffix ['e'] ∧
      ∃ m', Executes default [compareGuard, jumpIfEqual] (atJumps 0) m' ∧
        ¬ FollowsOrder default compareGuard jumpIfEqual ['e'] (atJumps 0) m' := by
  -- The translator drops instructions that mention the stack guard, so `je` does not see that zero was compared
  -- with zero.
  have emitted : EmittedCartridge [compareGuard, jumpIfEqual]
      ((printed (emitCartridge [compareGuard, jumpIfEqual])).get rfl) := ⟨.initial, _, rfl⟩
  refine ⟨by decide, rfl, rfl, _, .cartridge emitted .done, ?_⟩
  rintro ⟨neg, name, shape, jump, _⟩
  obtain ⟨rfl, rfl⟩ : neg = false ∧ name = .e := by
    revert shape
    cases neg <;> cases name <;> decide
  have rip := jump rfl
  revert rip
  decide

end Tase
