import Tase.Translator.BitTest
import Tase.Translator.Modest
import Tase.Translator.Parity
import Tase.Translator.Rotate

/-! Which of the shifts that the emitted code executes are in range. -/

namespace Tase

open Cpp

namespace Emit

/-- The shifts that the code of `m` executes from `st` are in range exactly when `P`. -/
def Exact {α : Type} (ub : Undef) (m : Emit α) (n : Nat) (st : CState) (P : Prop) : Prop :=
  ∀ s a out s', s.varCount = n → m s = .ok (a, out, s') → ((block out).InRange ub st ↔ P)

namespace Exact

variable {α β : Type} {ub : Undef} {n : Nat} {st : CState} {P R : Prop} {i : Instruction}

theorem of_modest {Q : α → Prop} {m : Emit α} (modest : Modest m Q) : Exact ub m n st True := by
  intro s a out s' _ emitted
  exact iff_true_intro (Stmt.inRange_of_modest (block_modest (modest s a out s' emitted).1))

theorem congr {m : Emit α} (exact : Exact ub m n st P) (same : P ↔ R) : Exact ub m n st R := by
  intro s a out s' count emitted
  exact (exact s a out s' count emitted).trans same

theorem bind {m : Emit α} {f : α → Emit β} (first : Exact ub m n st P)
    (rest : Runs ub m n st fun a n' st' => Exact ub (f a) n' st' R) : Exact ub (m >>= f) n st (P ∧ R) := by
  intro s b out s' count emitted
  obtain ⟨a, code, middle, code', found, found', rfl⟩ := bind_ok emitted
  obtain ⟨st', ran, later⟩ := rest s a code middle count found
  rw [block_inRange_append, ran]
  exact and_congr (first s a code middle count found) (later middle b code' s' rfl found')

theorem safely {m : Emit α} {f : α → Emit β} (safe : Exact ub m n st True)
    (rest : Runs ub m n st fun a n' st' => Exact ub (f a) n' st' P) : Exact ub (m >>= f) n st P :=
  (bind safe rest).congr (and_iff_right trivial)

theorem before {m : Emit α} {f : α → Emit β} (range : Exact ub m n st P)
    (rest : Runs ub m n st fun a n' st' => Exact ub (f a) n' st' True) : Exact ub (m >>= f) n st P :=
  (bind range rest).congr (and_iff_left trivial)

theorem after {Q : α → Prop} {m : Emit α} {f : α → Emit β} (modest : Modest m Q)
    (rest : Runs ub m n st fun a n' st' => Exact ub (f a) n' st' P) : Exact ub (m >>= f) n st P :=
  safely (of_modest modest) rest

theorem nothing {a : α} : Exact ub (Pure.pure a : Emit α) n st True :=
  of_modest (Q := fun _ => True) (Modest.pure trivial)

theorem write {stmt : Code} (range : stmt.InRange ub st ↔ P) : Exact ub (Emit.write stmt) n st P := by
  intro s a out s' _ emitted
  simp only [Emit.write, Except.ok.injEq, Prod.mk.injEq] at emitted
  obtain ⟨_, rfl, rfl⟩ := emitted
  exact block_inRange_single.trans range

theorem emitVarDecl {stem : String} {t : Ty} {e : Exp} (range : e.InRange ub st ↔ P) :
    Exact ub (Tase.emitVarDecl stem t e) n st P := by
  refine after Modest.makeVar (Runs.makeVar ?_)
  exact before (f := fun _ => Pure.pure _) (write range) (Runs.write rfl nothing)

theorem lift {x : Except Error α} {f : α → Emit β} (rest : ∀ a, x = .ok a → Exact ub (f a) n st P) :
    Exact ub (Emit.lift x >>= f) n st P :=
  after (Q := fun _ => True) (Modest.lift fun _ _ => trivial) (Runs.lift rest)

theorem operand {k : Nat} {f : Operand → Emit β} (rest : Exact ub (f (i.arg k)) n st P) :
    Exact ub (i.operand k >>= f) n st P :=
  after Modest.operand (Runs.operand rest)

theorem operandOr {o : Option Operand} {k : Nat} {f : Operand → Emit β}
    (rest : Exact ub (f (o.getD (i.arg k))) n st P) : Exact ub (i.operandOr o k >>= f) n st P :=
  after Modest.operandOr (Runs.operandOr rest)

theorem needSize {size : Option Size} {f : Size → Emit β} (rest : Exact ub (f (size.getD .q)) n st P) :
    Exact ub (Instruction.needSize size >>= f) n st P :=
  after Modest.needSize (Runs.needSize rest)

theorem needSize1 {f : Size → Emit β} (rest : Exact ub (f i.bits1) n st P) :
    Exact ub (Instruction.needSize i.size1 >>= f) n st P :=
  needSize rest

theorem fetch {o : Operand} {stem : String} {size : Size} {signed : Bool} {f : Temp → Emit β}
    (rest : Exact ub (f ⟨stem, n⟩) (n + 1) (st.bind ⟨stem, n⟩ (o.fetch ub size signed st.machine)) P) :
    Exact ub (o.emitFetch stem size signed >>= f) n st P :=
  after Modest.emitFetch (Runs.emitFetch rest)

theorem declare {stem : String} {t : Ty} {e : Exp} {f : Temp → Emit β} (modest : e.modest = true)
    (rest : Exact ub (f ⟨stem, n⟩) (n + 1) (st.bind ⟨stem, n⟩ ((eval ub st e).cast t)) P) :
    Exact ub (Tase.emitVarDecl stem t e >>= f) n st P :=
  after (Modest.emitVarDecl modest) (Runs.emitVarDecl rest)

theorem store {o : Operand} {v : Temp} {size : Size} {f : Unit → Emit β}
    (rest : Exact ub (f ()) n (st.withMachine (o.write ub size (st.vars v) st.machine)) P) :
    Exact ub (o.emitStore (.var v) size >>= f) n st P :=
  after (Modest.emitStore rfl) (Runs.emitStoreVar rest)

theorem when {condition : Bool} {body : Emit Unit} (yes : condition = true → Exact ub body n st P)
    (no : condition = false → P) : Exact ub (Emit.when condition body) n st P := by
  cases condition with
  | true => exact yes rfl
  | false => exact nothing.congr (iff_of_true trivial (no rfl))

theorem elseBlock {c : Exp} {body : Emit Unit} (test : c.modest = true)
    (skipped : (eval ub st c).truthy = true → P)
    (taken : (eval ub st c).truthy = false → Exact ub body n st P) :
    Exact ub (Emit.elseBlock c body) n st P := by
  intro s a out s' count emitted
  unfold Emit.elseBlock at emitted
  split at emitted
  · simp at emitted
  · rename_i inner code last found
    simp only [Except.ok.injEq, Prod.mk.injEq] at emitted
    obtain ⟨_, rfl, rfl⟩ := emitted
    rw [block_inRange_single, Stmt.InRange]
    refine (and_iff_right (Expr.inRange_of_modest test)).trans ?_
    cases truth : (eval ub st c).truthy with
    | true => exact iff_of_true trivial (skipped truth)
    | false => exact taken truth s inner code last count found

end Exact

end Emit

/-! Amounts that depend on a type alone. -/

theorem promoted_bits (size : Size) (signed : Bool) : size.bits ≤ (Ty.promote ⟨size.bits, signed⟩).width :=
  Ty.le_promote_width ⟨size.bits, signed⟩

theorem doubled_bits (size : Size) (signed : Bool) : size.bits < (Ty.promote ⟨size.bits * 2, signed⟩).width := by
  have bounds := size_cases size
  have wide : size.bits * 2 ≤ (Ty.promote ⟨size.bits * 2, signed⟩).width :=
    Ty.le_promote_width ⟨size.bits * 2, signed⟩
  omega

theorem shiftable_top {v : Val} {size : Size} {k : Nat} (wide : size.bits ≤ v.ty.promote.width)
    (inside : k < size.bits) : v.Shiftable (.lit .dec k) := by
  have bounds := size_cases size
  exact Val.shiftable_lit v (by omega) (by omega)

theorem nibble_shiftable {ub : Undef} {v : Val} (narrow : v.ty.width ≤ 64) :
    (Val.lit .hex 0x6996).Shiftable (Val.arith ub .and
      (Val.arith ub .xor (Val.shift ub .right v (.lit .dec 4)) v) (.lit .hex 0xf)) := by
  have small : ((v.conv (.uint 8) >>> 4 ^^^ v.conv (.uint 8)) &&& 0xf#8).toNat < 16 := by
    rw [BitVec.toNat_and]
    exact Nat.lt_of_le_of_lt Nat.and_le_right (by decide)
  rw [Val.Shiftable, nibble_toInt ub narrow]
  change 0 ≤ _ ∧ _ < (32 : Int)
  omega

namespace Emit.Exact

variable {ub : Undef} {n : Nat} {st : CState} {i : Instruction}

theorem emitSetFlag {mask : Nat} {value : Exp} {clobber : Bool} {P : Prop} (range : value.InRange ub st ↔ P) :
    Exact ub (Tase.emitSetFlag mask value clobber) n st P := by
  refine after Modest.regExpL (Runs.regExpL fun r _ => ?_)
  cases clobber with
  | true => exact write range
  | false => exact write ((and_iff_right ⟨trivial, trivial⟩).trans range)

theorem emitZps {vEfl vRes : Temp} (different : vRes ≠ vEfl) (narrow : (st.vars vRes).ty.width ≤ 64) :
    Exact ub (Tase.emitZps i vEfl vRes) n st
      (i.bits1.bits - flagSF - 1 < (st.vars vRes).ty.promote.width) := by
  refine needSize1 ?_
  have bounds := size_cases i.bits1
  refine safely (write (iff_true_intro ?_)) (Runs.orSet ?_)
  · refine ⟨⟨⟨trivial, ⟨⟨⟨trivial, trivial, Val.shiftable_small _ (by decide)⟩, trivial⟩, trivial⟩, ?_⟩, trivial⟩,
      trivial, Val.shiftable_small _ (by decide)⟩
    exact nibble_shiftable narrow
  refine after (Modest.write rfl) (Runs.orSet (write ?_))
  have kept (x y : Val) : ((st.bind vEfl x).bind vEfl y).vars vRes = st.vars vRes := by
    rw [State.bind_vars_ne _ _ _ _ different, State.bind_vars_ne _ _ _ _ different]
  have literal := Val.lit_toInt .dec (i.bits1.bits - flagSF - 1) (by omega)
  constructor
  · rintro ⟨⟨_, _, _, below⟩, _⟩
    simp only [eval, dec, kept, literal] at below
    omega
  · intro below
    refine ⟨⟨trivial, trivial, ?_⟩, trivial⟩
    simp only [eval, dec, kept]
    exact Val.shiftable_lit _ below (by omega)

theorem emitZps_sized {vEfl vRes : Temp} (different : vRes ≠ vEfl)
    (sized : (st.vars vRes).ty = i.bits1.uint) : Exact ub (Tase.emitZps i vEfl vRes) n st True := by
  have bounds := size_cases i.bits1
  have wide := promoted_bits i.bits1 false
  refine (emitZps different (by rw [sized]; exact bounds.2)).congr (iff_true_intro ?_)
  rw [sized]
  change _ < (Ty.promote ⟨i.bits1.bits, false⟩).width
  omega

theorem storeZps {vEfl vRes : Temp} {clobber : Bool} (different : vRes ≠ vEfl)
    (sized : (st.vars vRes).ty = i.bits1.uint) :
    Exact ub (Tase.emitZps i vEfl vRes >>= fun _ => emitStoreCozps vEfl clobber) n st True :=
  safely (emitZps_sized different sized) (Runs.emitZps different (of_modest (Modest.emitSetFlag rfl)))

theorem emitLogical {op : ArithOp} {writeTarget : Bool} :
    Exact ub (Tase.emitLogical i op writeTarget) n st True := by
  refine operand (operand ?_)
  refine needSize1 (fetch ?_)
  refine fetch (declare rfl ?_)
  refine after (Modest.when (Modest.emitStore rfl)) (Runs.when (fun _ => Runs.emitStoreVar ?_) fun _ => ?_)
  · exact declare rfl (storeZps (by simp) (by simp))
  · exact declare rfl (storeZps (by simp) (by simp))

theorem arith_wide {op : ArithOp} {l r : Val} {k : Nat} (wide : k ≤ l.ty.promote.width) :
    k ≤ (Val.arith ub op l r).ty.promote.width := by
  have common := Ty.common_width l.ty r.ty
  have promoted := Ty.le_promote_width (Ty.common l.ty r.ty)
  rw [Val.arith_ty]
  omega

theorem overflowExp_inRange {mode : AddMode} {vRes vAug vAdd : Temp} {size : Size}
    (sized : (st.vars vRes).ty = size.uint) : (mode.overflowExp vRes vAug vAdd size).InRange ub st := by
  have bounds := size_cases size
  have wide := promoted_bits size false
  refine ⟨⟨⟨⟨trivial, trivial⟩, trivial, trivial⟩, trivial, ?_⟩, trivial, Val.shiftable_small _ (by decide)⟩
  refine shiftable_top (arith_wide (arith_wide ?_)) (show size.bits - 1 < size.bits by omega)
  rw [eval, sized]
  exact wide

theorem carryExp_modest (mode : AddMode) (vCf : Option Temp) (vRes vAug : Temp) :
    (mode.carryExp vCf vRes vAug).modest = true := by
  cases vCf <;> rfl

theorem sumExp_modest (mode : AddMode) (vCf : Option Temp) (vAug vAdd : Temp) :
    (mode.sumExp vCf vAug vAdd).modest = true := by
  cases vCf <;> rfl

theorem emitAdd {left right : Option Operand} {mode : AddMode} :
    Exact ub (Tase.emitAdd i left right mode) n st True := by
  refine operandOr (operandOr ?_)
  refine needSize1 (fetch ?_)
  refine fetch (after Modest.emitAddCarryIn (Runs.emitAddCarryIn ?_))
  intro vCf k st₁ _ _ _ _ _
  refine declare (sumExp_modest mode vCf _ _) (declare rfl ?_)
  refine after Modest.emitAddTarget (Runs.emitAddTarget ?_)
  refine safely (write (iff_true_intro (overflowExp_inRange ?_))) (Runs.orSet ?_)
  · simp
  refine after (Modest.when (Modest.write (carryExp_modest mode vCf _ _)))
    (Runs.when (fun _ => Runs.orSet ?_) fun _ => ?_)
  · exact storeZps (by simp) (by simp)
  · exact storeZps (by simp) (by simp)

theorem emitXadd : Exact ub (Tase.emitXadd i) n st True :=
  after Modest.emitXchg (Runs.emitXchg.mono fun _ _ _ _ => emitAdd)

theorem emitMul : Exact ub (Tase.emitMul i) n st True := by
  have bounds := size_cases i.bits1
  refine needSize1 (lift fun operands _ => ?_)
  obtain ⟨multiplier, multiplicand, destLo, destHi⟩ := operands
  refine fetch (fetch ?_)
  refine declare rfl (declare rfl (store ?_))
  refine safely (emitVarDecl (iff_true_intro ?_)) (Runs.emitVarDecl ?_)
  · refine ⟨trivial, trivial, Val.shiftable_lit _ ?_ (by omega)⟩
    simpa [eval] using doubled_bits i.bits1 i.signExt
  refine after Modest.emitStoreHi (Runs.emitStoreHi (emitSetFlag (iff_true_intro ?_)))
  unfold mulFlagExp
  split
  · have top : i.bits1.bits - 1 < i.bits1.bits := by omega
    exact ⟨⟨⟨trivial, trivial, shiftable_top (promoted_bits i.bits1 true) top⟩, trivial⟩, by split <;> trivial⟩
  · exact Expr.inRange_of_modest rfl

theorem emitDiv : Exact ub (Tase.emitDiv i) n st True := by
  have bounds := size_cases i.bits1
  refine lift fun _ _ => needSize1 (operand ?_)
  refine fetch (fetch ?_)
  refine safely (emitVarDecl (iff_true_intro ?_)) (Runs.emitVarDecl ?_)
  · refine ⟨trivial, trivial, trivial, Val.shiftable_lit _ ?_ (by omega)⟩
    exact doubled_bits i.bits1 i.signExt
  refine fetch (declare rfl (declare rfl ?_))
  exact of_modest (Modest.bind (Modest.emitStore rfl) fun _ _ => Modest.emitStore rfl)

theorem emitCtd : Exact ub (Tase.emitCtd i) n st True := by
  have bounds := size_cases i.bits1
  refine operand (operand ?_)
  refine needSize1 (needSize ?_)
  refine fetch (safely (emitVarDecl (iff_true_intro ?_)) (Runs.emitVarDecl ?_))
  · refine ⟨trivial, trivial, shiftable_top ?_ (show i.bits1.bits - 1 < i.bits1.bits by omega)⟩
    rw [eval, State.bind_vars_self]
    exact promoted_bits i.bits1 true
  · exact of_modest (Modest.emitStore rfl)

theorem bswapTerms_inRange {v : Temp} {size : Size} {k : Nat} (sized : (st.vars v).ty = size.uint) :
    ∀ e ∈ bswapTerms v size.bytes k, e.InRange ub st := by
  have amount : (size.bytes - 2 * k - 1) * 8 < size.bits := by
    cases size with
    | b | w | l | q =>
        simp only [Size.bytes, Size.bits]
        omega
  have wide : size.bits ≤ (st.vars v).ty.promote.width := by
    rw [sized]
    exact promoted_bits size false
  intro e member
  simp only [bswapTerms, List.mem_cons, List.not_mem_nil, or_false] at member
  rcases member with rfl | rfl
  · exact ⟨⟨trivial, trivial, shiftable_top wide amount⟩, trivial⟩
  · exact ⟨⟨trivial, trivial⟩, trivial, shiftable_top (arith_wide wide) amount⟩

theorem emitBswap : Exact ub (Tase.emitBswap i) n st True := by
  refine operand (lift fun _ _ => ?_)
  refine fetch (safely (emitVarDecl (iff_true_intro ?_)) (Runs.emitVarDecl ?_))
  · unfold bswapExp
    split
    · trivial
    · rename_i first rest terms
      have all : ∀ e ∈ first :: rest, e.InRange ub (st.bind ⟨"src", n⟩
          ((i.arg 0).fetch ub (i.arg 0).regSize false st.machine)) := by
        rw [← terms]
        intro e member
        obtain ⟨k, _, inside⟩ := List.mem_flatMap.mp member
        exact bswapTerms_inRange (by rw [State.bind_vars_self]; rfl) e inside
      exact Expr.foldl_inRange (all first List.mem_cons_self) fun e member => all e (List.mem_cons_of_mem _ member)
  · exact of_modest (Modest.emitStore rfl)

theorem offset_shiftable {v offset : Val} {size : Size} {x : BitVec size.bits} (place : offset = bitOffset ub x)
    (wide : size.bits ≤ v.ty.promote.width) : v.Shiftable offset := by
  have bounds := size_cases size
  have small : x.toNat % size.bits < size.bits := Nat.mod_lt _ (by omega)
  rw [place, Val.Shiftable, bitOffset_toInt]
  omega

theorem emitBittestModify {dest : Operand} {vOrig vOffset : Temp} {size : Size} {x : BitVec size.bits}
    (place : st.vars vOffset = bitOffset ub x) :
    Exact ub (Tase.emitBittestModify i dest vOrig vOffset size) n st True := by
  have mask : Expr.InRange ub st (.shift .left (.lit .hexUll 1) (.var vOffset)) :=
    ⟨trivial, trivial, offset_shiftable place (size_cases size).2⟩
  unfold Tase.emitBittestModify
  split
  · exact nothing
  · rename_i bit _
    refine safely (emitVarDecl (iff_true_intro ?_)) (Runs.emitVarDecl (of_modest (Modest.emitStore rfl)))
    cases bit with
    | c | s => exact ⟨trivial, mask⟩
    | r => exact ⟨trivial, mask⟩

theorem emitBittest : Exact ub (Tase.emitBittest i) n st True := by
  have bounds := size_cases i.bits1
  have wide := promoted_bits i.bits1 false
  have mask (st : CState) : eval ub st (hex (i.bits1.bits - 1)) = .lit .hex (i.bits1.bits - 1) := by
    cases i.bits1 <;> rfl
  let x := (i.arg 0).value ub i.bits1 st.machine
  refine operand (operand ?_)
  refine needSize1 ?_
  refine lift fun _ _ => ?_
  refine fetch ?_
  refine declare (hex_modest _) (fetch ?_)
  refine safely (emitVarDecl (iff_true_intro ⟨trivial, trivial, trivial, ?_⟩)) (Runs.emitVarDecl ?_)
  · refine @offset_shiftable ub _ _ _ x ?_ bounds.2
    simp [eval, mask, bitOffset, Operand.fetch, x]
  refine safely (emitSetFlag (iff_true_intro ⟨⟨trivial, trivial, ?_⟩, trivial, ?_⟩)) (Runs.emitSetFlag ?_)
  · refine @offset_shiftable ub _ _ _ x ?_ ?_
    · simp [eval, mask, bitOffset, Operand.fetch, x]
    · simpa [eval] using wide
  · exact Val.shiftable_small _ (by decide)
  · refine @emitBittestModify ub _ _ _ _ _ _ _ x ?_
    simp [eval, mask, bitOffset, Operand.fetch, x]

end Emit.Exact

def Instruction.count (ub : Undef) (i : Instruction) (m : Mach) : Nat :=
  maskedCount (i.size2.getD .q) ((i.arg 0).value ub i.bits1 m)

def FillFits (size : Size) (count : Nat) : Prop := count ≤ size.bits ∧ (count = 0 → size.bits ≤ 16)

/-- Flags are computed when the word moves. `_fixup_instructions` makes `size1` a byte where there are any. -/
def Instruction.FlagsFit (ub : Undef) (i : Instruction) (m : Mach) : Prop :=
  i.cNoflag = false → i.count ub m ≠ 0 →
    (i.bits1 = .q → i.size2.getD .q = .q) ∧ (i.cLeft = true → i.count ub m ≤ (i.size2.getD .q).bits)

def Instruction.ShiftsFit (ub : Undef) (i : Instruction) (m : Mach) : Prop :=
  match i.op with
  | .rc => (i.cLeft = true → i.size2.getD .q ≠ .q) ∧ FillFits (i.size2.getD .q) (i.count ub m) ∧ i.FlagsFit ub m
  | .ro | .shd => FillFits (i.size2.getD .q) (i.count ub m) ∧ i.FlagsFit ub m
  | .sa | .sh => i.FlagsFit ub m
  | _ => True

theorem fillFits_iff {size : Size} {c : Nat} :
    FillFits size c ↔ c ≤ size.bits ∧ size.bits - c < size.uint.promote.width := by
  refine and_congr_right fun _ => ?_
  cases size with
  | b | w => exact iff_of_true (fun _ => by decide) (Nat.lt_of_le_of_lt (Nat.sub_le _ _) (by decide))
  | l =>
      change (c = 0 → 32 ≤ 16) ↔ 32 - c < 32
      omega
  | q =>
      change (c = 0 → 64 ≤ 16) ↔ 64 - c < 64
      omega

namespace Emit.Exact

variable {ub : Undef} {n : Nat} {st : CState} {i : Instruction}

theorem emitShiftCarryIn {v : Temp} {size : Size} :
    Exact ub (Tase.emitShiftCarryIn i v size) n st (i.op = .rc → i.cLeft = true → size ≠ .q) := by
  -- The carry is moved as an `int`.
  refine when (fun isRc => ?_) fun notRc isRc => absurd isRc (of_decide_eq_false notRc)
  refine after Modest.makeVar (Runs.makeVar (after Modest.emitGetFlag (Runs.emitGetFlag (write ?_))))
  rw [forall_prop_of_true (of_decide_eq_true isRc)]
  cases i.cLeft with
  | false => exact iff_of_true (Expr.inRange_of_modest rfl) (fun impossible => by cases impossible)
  | true =>
      constructor
      · rintro ⟨_, _, _, _, below⟩ _ rfl
        simp only [eval, State.bind_vars_self] at below
        change (63 : Int) < 32 at below
        omega
      · intro narrow
        refine ⟨⟨trivial, trivial, Val.shiftable_small _ (by decide)⟩,
          ⟨trivial, trivial, Val.shiftable_small _ (by decide)⟩, trivial, Val.shiftable_small _ ?_⟩
        revert narrow
        cases size <;> decide

theorem emitShiftFill {dest : Operand} {vAmt vShift : Temp} {size : Size} {c : Nat} (earlier : vAmt.index < n)
    (count : (st.vars vAmt).toInt = c) (small : c ≤ 64) :
    Exact ub (Tase.emitShiftFill i dest vAmt vShift size) n st
      (i.op = .rc ∨ i.op = .ro ∨ i.op = .shd →
        (i.op = .rc → i.cLeft = true → size ≠ .q) ∧ FillFits size c) := by
  have bounds := size_cases size
  have fresh : vAmt ≠ ⟨"bit_exp", n⟩ := by rintro rfl; simp at earlier
  refine when (fun fills => ?_) fun plain fills => ?_
  · rw [forall_prop_of_true (by simpa [or_assoc] using fills)]
    refine operandOr (fetch ?_)
    refine bind emitShiftCarryIn (Runs.emitShiftCarryIn (by simp) fun k st₁ _ _ bits older => write ?_)
    have amt : (st₁.vars vAmt).toInt = c := by
      rw [older vAmt (by omega) fresh, State.bind_vars_ne _ _ _ _ fresh]
      exact count
    have type : (st₁.vars ⟨"bit_exp", n⟩).ty = size.uint := by
      rw [bits, State.bind_vars_self]
      unfold shiftFillBits
      split <;> rfl
    have range := @Val.shiftable_sub ub (st₁.vars ⟨"bit_exp", n⟩) (.lit .dec size.bits) _ _ _
      (by rw [type]; exact bounds.2) (Val.lit_toInt .dec size.bits (by omega)) amt bounds.2 small
    rw [fillFits_iff, ← type, ← range]
    exact ⟨fun inside => inside.2.2, fun fits => ⟨trivial, ⟨trivial, trivial⟩, fits⟩⟩
  · rcases fills with isRc | isRo | isShd
    · simp [isRc] at plain
    · simp [isRo] at plain
    · simp [isShd] at plain

theorem overflow_inRange {vSrc vShift : Temp} {size : Size} {signed : Bool}
    (sized : (st.vars vShift).ty = ⟨size.bits, signed⟩) : (shiftOverflowExp vSrc vShift size).InRange ub st := by
  have bounds := size_cases size
  refine ⟨⟨⟨⟨trivial, trivial⟩, trivial, ?_⟩, trivial⟩, trivial, Val.shiftable_small _ (by decide)⟩
  refine shiftable_top (arith_wide ?_) (show size.bits - 1 < size.bits by omega)
  rw [eval, sized]
  exact promoted_bits size signed

theorem carry_inRange {vAmt vSrc : Temp} {size : Size} {signed : Bool} {c : Nat}
    (sized : (st.vars vSrc).ty = ⟨size.bits, signed⟩) (count : (st.vars vAmt).toInt = c) (moves : c ≠ 0)
    (small : c < (Ty.promote ⟨size.bits, signed⟩).width) :
    (shiftCarryExp i.cLeft vAmt vSrc size).InRange ub st ↔ (i.cLeft = true → c ≤ size.bits) := by
  have bounds := size_cases size
  have wide := promoted_bits size signed
  have narrow : (st.vars vSrc).ty.width ≤ 64 := by
    rw [sized]
    exact bounds.2
  have top : (Ty.promote ⟨size.bits, signed⟩).width ≤ 64 := by
    unfold Ty.promote
    split
    · decide
    · exact bounds.2
  cases i.cLeft with
  | true =>
      have range := @Val.shiftable_sub ub (st.vars vSrc) (.lit .dec size.bits) _ _ _ narrow
        (Val.lit_toInt .dec size.bits (by omega)) count bounds.2 (by omega)
      rw [sized] at range
      constructor
      · rintro ⟨⟨⟨_, _, inside⟩, _⟩, _⟩ _
        exact (range.mp inside).1
      · intro fits
        refine ⟨⟨⟨trivial, ⟨trivial, trivial⟩, range.mpr ⟨fits rfl, ?_⟩⟩, trivial⟩, trivial,
          Val.shiftable_small _ (by decide)⟩
        omega
  | false =>
      have range := @Val.shiftable_sub ub (st.vars vSrc) _ (.lit .dec 1) _ _ narrow count
        (Val.lit_toInt .dec 1 (by omega)) (by omega) (by omega)
      rw [sized] at range
      refine iff_of_true ⟨⟨⟨trivial, ⟨trivial, trivial⟩, range.mpr ?_⟩, trivial⟩, trivial,
        Val.shiftable_small _ (by decide)⟩ (fun impossible => by cases impossible)
      omega

theorem sign_position {size1 size2 : Size} {signed : Bool} :
    size1.bits - flagSF - 1 < (Ty.promote ⟨size2.bits, signed⟩).width ↔ (size1 = .q → size2 = .q) := by
  cases signed <;> cases size1 <;> cases size2 <;> decide

theorem emitShiftFlags {vAmt vSrc vShift : Temp} {size : Size} {c : Nat} (amtEarlier : vAmt.index < n)
    (srcEarlier : vSrc.index < n) (shiftEarlier : vShift.index < n)
    (sized : (st.vars vSrc).ty = ⟨size.bits, i.signExt⟩) (shifted : (st.vars vShift).ty = ⟨size.bits, i.signExt⟩)
    (count : (st.vars vAmt).toInt = c) (moves : c ≠ 0) (small : c < (Ty.promote ⟨size.bits, i.signExt⟩).width) :
    Exact ub (Tase.emitShiftFlags i vAmt vSrc vShift size) n st
      ((i.bits1 = .q → size = .q) ∧ (i.cLeft = true → c ≤ size.bits)) := by
  have amtFresh : vAmt ≠ ⟨"efl", n⟩ := by rintro rfl; simp at amtEarlier
  have srcFresh : vSrc ≠ ⟨"efl", n⟩ := by rintro rfl; simp at srcEarlier
  have shiftFresh : vShift ≠ ⟨"efl", n⟩ := by rintro rfl; simp at shiftEarlier
  have bounds := size_cases size
  refine declare rfl ?_
  refine bind ((emitZps shiftFresh ?_).congr ?_) (Runs.emitZps shiftFresh ?_)
  · rw [State.bind_vars_ne _ _ _ _ shiftFresh, shifted]
    exact bounds.2
  · rw [State.bind_vars_ne _ _ _ _ shiftFresh, shifted]
    exact sign_position
  refine safely (write (iff_true_intro (@overflow_inRange ub _ _ _ _ i.signExt ?_))) (Runs.orSet ?_)
  · simpa [shiftFresh] using shifted
  refine before (write ?_) (Runs.orSet (of_modest (Modest.emitSetFlag rfl)))
  refine @carry_inRange ub _ i _ _ _ i.signExt c ?_ ?_ moves small
  · simpa [srcFresh] using sized
  · simpa [amtFresh] using count

theorem emitShift : Exact ub (Tase.emitShift i) n st
    ((i.op = .rc ∨ i.op = .ro ∨ i.op = .shd →
      (i.op = .rc → i.cLeft = true → i.size2.getD .q ≠ .q) ∧ FillFits (i.size2.getD .q) (i.count ub st.machine)) ∧
      i.FlagsFit ub st.machine) := by
  have small := maskedCount_bound (i.size2.getD .q) ((i.arg 0).value ub i.bits1 st.machine)
  have below := maskedCount_lt (i.size2.getD .q) ((i.arg 0).value ub i.bits1 st.machine) i.signExt
  have count := @shiftAmount_toInt ub i st.machine i.bits1 (i.size2.getD .q)
  have still := @amount_truthy ub i st.machine i.bits1 (i.size2.getD .q)
  refine lift fun operands found => ?_
  obtain ⟨dest, src⟩ := operands
  refine operand (needSize1 ?_)
  refine needSize (fetch ?_)
  refine declare rfl (fetch ?_)
  refine safely (emitVarDecl (iff_true_intro ⟨trivial, trivial, ?_⟩)) (Runs.emitVarDecl ?_)
  · simp only [eval, State.bind_vars_self, State.bind_machine, ne_eq, Temp.mk.injEq, String.reduceEq, false_and,
      not_false_eq_true, State.bind_vars_ne]
    change Val.Shiftable _ (shiftAmount ub i i.bits1 (i.size2.getD .q) st.machine)
    rw [Val.Shiftable, count]
    exact ⟨Int.natCast_nonneg _, Int.ofNat_lt.mpr below⟩
  refine bind (emitShiftFill (by simp) ?_ (Nat.le_of_lt small))
    (Runs.emitShiftFill (by simp) (by simp) fun k st₁ later machine filled older => ?_)
  · simp only [eval, State.bind_vars_self, ne_eq, Temp.mk.injEq, String.reduceEq, false_and,
      not_false_eq_true, State.bind_vars_ne]
    exact count
  have amt := older ⟨"amt", n + 1⟩ (by simp) (by simp)
  have source := older ⟨"src", n + 1 + 1⟩ (by simp) (by simp)
  simp only [eval, State.bind_vars_self, State.bind_machine, ne_eq, Temp.mk.injEq, String.reduceEq,
    false_and, not_false_eq_true, State.bind_vars_ne] at filled amt source
  have shifted : st₁.vars ⟨"shift", n + 1 + 1 + 1⟩ =
      shiftVal ub i dest src i.bits1 (i.size2.getD .q) st.machine := filled
  have amount : st₁.vars ⟨"amt", n + 1⟩ = shiftAmount ub i i.bits1 (i.size2.getD .q) st.machine := amt
  refine store ?_
  refine when (fun flags => elseBlock rfl (fun zero => ?_) fun nonzero => ?_) fun noflag flags => ?_
  · simp only [eval, dec, State.withMachine_vars, amount, still, decide_eq_true_eq] at zero
    exact fun _ moves => absurd zero moves
  · simp only [eval, dec, State.withMachine_vars, amount, still, decide_eq_false_iff_not] at nonzero
    simp only [Bool.not_eq_true'] at flags
    have fitting : i.FlagsFit ub st.machine ↔ _ := ⟨fun fits => fits flags nonzero, fun fits _ _ => fits⟩
    refine congr (emitShiftFlags ?_ ?_ ?_ ?_ ?_ ?_ nonzero below) fitting.symm
    · simp only
      omega
    · simp only
      omega
    · simp only
      omega
    · rw [State.withMachine_vars, source]
      rfl
    · rw [State.withMachine_vars, shifted]
      exact shiftVal_ty
    · rw [State.withMachine_vars, amount]
      exact count
  · rw [flags] at noflag
    cases noflag

theorem emitOp : Exact ub (Tase.emitOp i) n st (i.ShiftsFit ub st.machine) := by
  unfold Tase.emitOp Instruction.ShiftsFit
  cases found : i.op with
  | nop => exact nothing
  | other name => exact of_modest (Q := fun _ => True) Modest.raise
  | xchg => exact of_modest Modest.emitXchg
  | lea => exact of_modest Modest.emitLea
  | mov => exact of_modest Modest.emitMov
  | push | pushf => exact of_modest Modest.emitPush
  | pop | popf => exact of_modest Modest.emitPop
  | enter => exact of_modest Modest.emitEnter
  | leave => exact of_modest Modest.emitLeave
  | add | sub | adc | sbb | cmp | neg => exact emitAdd
  | inc | dec => exact operand emitAdd
  | and | or | xor | test => exact emitLogical
  | rc => exact emitShift.congr (by simp [found, and_assoc])
  | ro | shd => exact emitShift.congr (by simp [found])
  | sa | sh => exact emitShift.congr (by simp [found])
  | cl | st => exact of_modest Modest.emitFlag
  | loop => exact of_modest Modest.emitLoop
  | xadd => exact emitXadd
  | cmov => exact of_modest Modest.emitCmov
  | ctd => exact emitCtd
  | mul => exact emitMul
  | div => exact emitDiv
  | not => exact of_modest Modest.emitNot
  | call => exact of_modest Modest.emitCall
  | ret => exact of_modest Modest.emitRet
  | j => exact of_modest Modest.emitJump
  | set => exact of_modest Modest.emitSet
  | bt => exact emitBittest
  | bswap => exact emitBswap
  | cmc => exact of_modest Modest.emitCmc

theorem emitBody : Exact ub (Tase.emitBody i) n st
    (i.nothingToDo = false → i.ShiftsFit ub (stepRip i st.machine)) := by
  refine after (Modest.write rfl) (Runs.stepRip (when (fun handled => ?_) fun skipped handled => ?_))
  · simp only [Bool.not_eq_true'] at handled
    exact emitOp.congr ⟨fun fits _ => fits, fun fits => fits handled⟩
  · rw [handled] at skipped
    cases skipped

end Emit.Exact

/-- Wherever the code of an instruction stands and whatever it starts from, its shifts have amounts from 0 to
below the width exactly when the instruction is not a shift or its count is one that it is written for. -/
theorem shifts_inRange_iff {ub : Undef} {i : Instruction} {s s' : EmitState} {out : List Code}
    (emitted : emitBody i s = .ok ((), out, s')) (st : CState) :
    (block out).InRange ub st ↔ (i.nothingToDo = false → i.ShiftsFit ub (stepRip i st.machine)) :=
  Emit.Exact.emitBody s () out s' rfl emitted

theorem shifts_inRange_iff_rclNarrow :
    ∃ out s', emitBody rclNarrow.fixupShift .initial = .ok ((), out, s') ∧
      (block out).InRange default ⟨onesInRegisters, fun _ => default⟩ := by
  have emits : ∃ out s', emitBody rclNarrow.fixupShift .initial = .ok ((), out, s') := ⟨_, _, rfl⟩
  obtain ⟨out, s', emitted⟩ := emits
  refine ⟨out, s', emitted, (shifts_inRange_iff emitted _).mpr fun _ => ⟨fun _ => by decide, ?_, fun _ _ => ?_⟩⟩
  · exact ⟨by decide, by decide⟩
  · exact ⟨by decide, fun _ => by decide⟩

def rolByCl : Instruction :=
  { original := "roll   %cl,%eax", vaddr := 0x1000, length := 2, op := .ro, cLeft := true, size1 := some .l,
    operands := [.reg (.l .rcx), .reg (.d .rax)] }

def shlByCl : Instruction :=
  { original := "shlb   %cl,%al", vaddr := 0x1000, length := 2, op := .sh, cLeft := true, size1 := some .b,
    operands := [.reg (.l .rcx), .reg (.l .rax)] }

def counting (c : BitVec 64) : CState := ⟨onesInRegisters.setReg (.gpr .rcx) c, fun _ => default⟩

theorem outside_of_unfit {i : Instruction} {st : CState}
    (emits : ∃ out s', emitBody i .initial = .ok ((), out, s')) (handled : i.nothingToDo = false) (unfit : ¬ i.ShiftsFit default (stepRip i st.machine)) :
    ∃ out s', emitBody i .initial = .ok ((), out, s') ∧ ¬ (block out).InRange default st := by
  obtain ⟨out, s', emitted⟩ := emits
  refine ⟨out, s', emitted, fun range => unfit ?_⟩
  exact (Emit.Exact.emitBody .initial () out s' rfl emitted).mp range handled

theorem shifts_outside :
    (∃ out s', emitBody rolByCl.fixupShift .initial = .ok ((), out, s') ∧
      ¬ (block out).InRange default (counting 0)) ∧
    (∃ out s', emitBody shlByCl.fixupShift .initial = .ok ((), out, s') ∧
      ¬ (block out).InRange default (counting 9)) ∧
    ∃ out s', emitBody rclWide.fixupShift .initial = .ok ((), out, s') ∧
      ¬ (block out).InRange default (counting 1) := by
  -- A rotation by 0 shifts by the whole width, a byte that moves by 9 has its carry at -1, and a 64-bit `rcl`
  -- moves the carry as an `int` by 63.
  refine ⟨?_, ?_, ?_⟩
  · refine outside_of_unfit ⟨_, _, rfl⟩ (by decide) fun fits => ?_
    exact absurd (fits.1.2 (by decide)) (by decide)
  · refine outside_of_unfit ⟨_, _, rfl⟩ (by decide) fun fits => ?_
    exact absurd ((fits rfl (by decide)).2 rfl) (by decide)
  · exact outside_of_unfit ⟨_, _, rfl⟩ (by decide) fun fits => fits.1 rfl rfl

end Tase
