import Tase.Processor.Moves

/-! The instructions that compute: their results, and the flags that are relied on behind them. PF is not
among these. -/

namespace Tase

open Cpp

namespace Instruction

variable {ub : Undef} {i : Instruction} {m m' after : Mach} {width : Nat} {o : Outcome width}

structure Shows (m' : Mach) (o : Outcome width) : Prop where
  overflow : eflBit m' flagOF = o.overflow
  zero : eflBit m' flagZF = decide (o.result = 0)
  sign : eflBit m' flagSF = o.result.msb

theorem Shows.becomes (shows : Shows m' o) (carry : eflBit m' flagCF = o.carry) {f : Status} (notParity : f ≠ .pf) :
    ∃ b, (Action.setting o after).fate f = .becomes b ∧ eflBit m' f.bit = b := by
  cases f with
  | cf => exact ⟨_, rfl, carry⟩
  | pf => exact absurd rfl notParity
  | zf => exact ⟨_, rfl, shows.zero⟩
  | sf => exact ⟨_, rfl, shows.sign⟩
  | of => exact ⟨_, rfl, shows.overflow⟩

theorem realizes_setting (state : ∃ flags, m' = after.setReg .efl flags) (shows : Shows m' o)
    (carry : eflBit m' flagCF = o.carry) (exact : ∀ f, i.exact f = true → f ≠ .pf)
    (none : ∀ f, i.carries f = false) : i.Realizes (.setting o after) m m' := by
  refine ⟨state, fun f right => shows.becomes carry (exact f right), fun f kept => ?_⟩
  rw [none] at kept
  cases kept

section

variable {left right : Option Operand} {mode : AddMode}
  (ready : ∀ o, o = left.getD (i.arg 1) ∨ o = right.getD (i.arg 0) → o.Plain ∧ o.Fetchable i.bits1)
  (stores : ∀ o, mode.goesTo (left.getD (i.arg 1)) (right.getD (i.arg 0)) = some o → o.Storable i.bits1)

include ready

theorem denoteAdd_shows :
    let o := mode.outcome ((left.getD (i.arg 1)).read i.bits1 m) ((right.getD (i.arg 0)).read i.bits1 m)
      (eflBit m flagCF)
    Shows (denoteAdd ub i left right mode m) o ∧
      eflBit (denoteAdd ub i left right mode m) flagCF = (mode.setCarry && o.carry) := by
  obtain ⟨plainL, fetchedL⟩ := ready _ (.inl rfl)
  obtain ⟨plainR, fetchedR⟩ := ready _ (.inr rfl)
  rw [← @Operand.value_read ub _ _ m fetchedL plainL.reach, ← @Operand.value_read ub _ _ m fetchedR plainR.reach]
  obtain ⟨carry, overflow, zero, sign⟩ := @denoteAdd_flags ub i m left right mode
  exact ⟨⟨overflow, zero, sign⟩, carry⟩

include stores

theorem denoteAdd_state :
    ∃ flags, denoteAdd ub i left right mode m =
      (deliver (mode.goesTo (left.getD (i.arg 1)) (right.getD (i.arg 0))) i.bits1
        (mode.outcome ((left.getD (i.arg 1)).read i.bits1 m) ((right.getD (i.arg 0)).read i.bits1 m)
          (eflBit m flagCF)).result m).setReg .efl flags := by
  obtain ⟨plainL, fetchedL⟩ := ready _ (.inl rfl)
  obtain ⟨plainR, fetchedR⟩ := ready _ (.inr rfl)
  obtain ⟨flags, state⟩ := @denoteAdd_eq ub i m left right mode
  refine ⟨flags, state.trans ?_⟩
  rw [Operand.value_read fetchedL plainL.reach, Operand.value_read fetchedR plainR.reach,
    ← AddMode.outcome_result]
  cases goes : mode.goesTo (left.getD (i.arg 1)) (right.getD (i.arg 0)) with
  | none =>
      unfold AddMode.goesTo at goes
      split at goes
      · cases goes
      · cases goes
      · rename_i nowhere
        simp only [AddMode.target, nowhere, deliver]
  | some dest =>
      obtain ⟨plain, _⟩ := ready dest (AddMode.goesTo_cases goes)
      rw [AddMode.target_eq goes, Operand.write_unsigned (stores dest goes) plain.reach, deliver]

end

def addMode (i : Instruction) : AddMode where
  carry := i.op = .adc ∨ i.op = .sbb
  sub := i.op ≠ .add ∧ i.op ≠ .adc
  targetL := if i.op = .cmp then none else some true
  setCarry := true
  cleanClobberFlags := i.op = .cmp

def bitOp (i : Instruction) : ArithOp :=
  if i.op = .or then .or else if i.op = .xor then .xor else .and

theorem bitOp_onBits (i : Instruction) : ∃ f, i.bitOp.onBits = some f := by
  unfold bitOp
  split
  · exact ⟨_, rfl⟩
  · split <;> exact ⟨_, rfl⟩

namespace Ready

variable (ready : i.Ready)

include ready

theorem pair (both : i.fetches = [(i.arg 0, i.bits1), (i.arg 1, i.bits1)]) (o : Operand)
    (either : o = i.arg 1 ∨ o = i.arg 0) : o.Plain ∧ o.Fetchable i.bits1 := by
  rcases either with rfl | rfl
  · exact ⟨(ready.arg 1).toPlain, ready.fetches (by simp [both])⟩
  · exact ⟨(ready.arg 0).toPlain, ready.fetches (by simp [both])⟩

theorem sums (left right : Option Operand) (mode : AddMode)
    (shape : denoteOp ub i m = denoteAdd ub i left right mode m) (sets : mode.setCarry = true)
    (goes : i.destination = mode.goesTo (left.getD (i.arg 1)) (right.getD (i.arg 0)))
    (fetched : ∀ o, o = left.getD (i.arg 1) ∨ o = right.getD (i.arg 0) → o.Plain ∧ o.Fetchable i.bits1)
    (stored : ∀ o, i.destination = some o → (o, i.bits1) ∈ i.stores)
    (exact : ∀ f, i.exact f = true → f ≠ .pf) (none : ∀ f, i.carries f = false) :
    i.Realizes (i.computes m (mode.outcome ((left.getD (i.arg 1)).read i.bits1 m)
      ((right.getD (i.arg 0)).read i.bits1 m) (eflBit m flagCF))) m (denoteOp ub i m) := by
  rw [shape]
  obtain ⟨shows, carry⟩ := @denoteAdd_shows ub i m left right mode fetched
  obtain ⟨flags, state⟩ := @denoteAdd_state ub i m left right mode fetched
    fun o isDest => ready.stores (stored o (goes.trans isDest))
  rw [sets, Bool.true_and] at carry
  refine realizes_setting ⟨flags, ?_⟩ shows carry exact none
  rw [state, goes]

theorem combines (op : ArithOp) {f : Bool → Bool → Bool} (bitwise : op.onBits = some f) (writeTarget : Bool)
    (shape : denoteOp ub i m = denoteLogical ub i op writeTarget m)
    (goes : i.destination = if writeTarget then some (i.arg 1) else none)
    (fetched : ∀ o, o = i.arg 1 ∨ o = i.arg 0 → o.Plain ∧ o.Fetchable i.bits1)
    (stored : ∀ o, i.destination = some o → (o, i.bits1) ∈ i.stores)
    (exact : ∀ f, i.exact f = true → f ≠ .pf) (none : ∀ f, i.carries f = false) :
    i.Realizes (i.computes m (.logical (op.compute i.bits1.uint ((i.arg 1).read i.bits1 m)
      ((i.arg 0).read i.bits1 m)))) m (denoteOp ub i m) := by
  rw [shape]
  obtain ⟨plainL, fetchedL⟩ := fetched _ (.inl rfl)
  obtain ⟨plainR, fetchedR⟩ := fetched _ (.inr rfl)
  rw [← @Operand.value_read ub _ _ m fetchedL plainL.reach, ← @Operand.value_read ub _ _ m fetchedR plainR.reach]
  obtain ⟨carry, overflow, zero, sign⟩ := @denoteLogical_flags ub i m op f bitwise writeTarget
  refine realizes_setting ?_ ⟨overflow, zero, sign⟩ carry exact none
  rw [denoteLogical, logicalVal_eq ub bitwise, goes]
  cases writeTarget with
  | false => exact ⟨_, rfl⟩
  | true =>
      have storable := ready.stores (stored (i.arg 1) goes)
      simp only [if_true]
      rw [Operand.write_unsigned storable plainL.reach]
      exact ⟨_, rfl⟩

theorem outcome {o : Outcome i.bits1.bits}
    (known : i.op.outcome ((i.arg 1).read i.bits1 m) ((i.arg 0).read i.bits1 m) (eflBit m flagCF) = some o) :
    i.Realizes (i.computes m o) m (denoteOp ub i m) := by
  unfold Op.outcome at known
  cases op : i.op with
  | add | adc | sub | sbb | cmp =>
      obtain rfl : i.addMode.outcome ((i.arg 1).read i.bits1 m) ((i.arg 0).read i.bits1 m)
          (eflBit m flagCF) = o := by
        simpa [op, addMode, AddMode.outcome] using known
      refine ready.sums none none i.addMode (by simp [denoteOp, op, addMode]) rfl ?_ ?_ ?_ ?_ ?_
      · simp [destination, op, AddMode.goesTo, addMode]
      · exact ready.pair (by simp only [Instruction.fetches, op])
      · simp [destination, Instruction.stores, op]
      · simp [Instruction.exact, op]
      · simp [Instruction.carries, op]
  | neg =>
      rw [op] at known
      cases known
      refine ready.sums (some (.imm 0)) none ⟨false, true, some false, true, false⟩
        (by simp only [denoteOp, op]) rfl ?_ ?_ ?_ ?_ ?_
      · simp [destination, op, AddMode.goesTo]
      · rintro o (rfl | rfl)
        · exact ⟨⟨by simp, by simp [Operand.InReach], by simp [Operand.reads]⟩, _, rfl⟩
        · exact ⟨(ready.arg 0).toPlain, ready.fetches (by simp [Instruction.fetches, op])⟩
      · simp [destination, Instruction.stores, op]
      · simp [Instruction.exact, op]
      · simp [Instruction.carries, op]
  | and | or | xor | test =>
      obtain ⟨f, bitwise⟩ := i.bitOp_onBits
      obtain rfl : .logical (i.bitOp.compute i.bits1.uint ((i.arg 1).read i.bits1 m)
          ((i.arg 0).read i.bits1 m)) = o := by
        simpa [op, bitOp, ArithOp.compute] using known
      refine ready.combines i.bitOp bitwise (i.op ≠ .test) (by simp [denoteOp, op, bitOp]) ?_ ?_ ?_ ?_ ?_
      · simp [destination, op]
      · exact ready.pair (by simp only [Instruction.fetches, op])
      · simp [destination, Instruction.stores, op]
      · simp [Instruction.exact, op]
      · simp [Instruction.carries, op]
  | _ =>
      rw [op] at known
      cases known

theorem counts (op : i.op = .inc ∨ i.op = .dec) : i.Realizes (i.counts m) m (denoteOp ub i m) := by
  have storable : (i.arg 0).Storable i.bits1 :=
    ready.stores (by rcases op with op | op <;> simp [Instruction.stores, op])
  have shape : denoteOp ub i m = denoteAdd ub i (some (i.arg 0)) (some (.imm 1)) i.countMode m := by
    rcases op with op | op <;> simp [denoteOp, op, countMode]
  have fetched (o : Operand) (either : o = i.arg 0 ∨ o = .imm 1) : o.Plain ∧ o.Fetchable i.bits1 := by
    rcases either with rfl | rfl
    · exact ⟨(ready.arg 0).toPlain, storable.fetchable⟩
    · exact ⟨⟨by simp, by simp [Operand.InReach], by simp [Operand.reads]⟩, _, rfl⟩
  obtain ⟨shows, _⟩ := @denoteAdd_shows ub i m (some (i.arg 0)) (some (.imm 1)) i.countMode fetched
  obtain ⟨flags, state⟩ := @denoteAdd_state ub i m (some (i.arg 0)) (some (.imm 1)) i.countMode fetched
    fun o isDest => by
      cases isDest
      exact storable
  have one : (Operand.imm 1).read i.bits1 m = 1 := rfl
  simp only [Option.getD_some, one, ← counted_eq] at shows state
  rw [shape]
  refine ⟨⟨flags, state⟩, fun f exact => ?_, fun f kept => ?_⟩
  · have which : f = .zf ∨ f = .sf ∨ f = .of := by
      rcases op with op | op <;> simpa [Instruction.exact, op, or_assoc] using exact
    rcases which with rfl | rfl | rfl
    · exact ⟨_, rfl, shows.zero⟩
    · exact ⟨_, rfl, shows.sign⟩
    · exact ⟨_, rfl, shows.overflow⟩
  · rcases op with op | op <;> simp [Instruction.carries, op] at kept

theorem xadd (op : i.op = .xadd) :
    i.Realizes (.setting (.sum ((i.arg 0).read i.bits1 m) ((i.arg 1).read i.bits1 m) false)
      (exchange .xadd i.bits1 (i.arg 0) (i.arg 1) m)) m (denoteOp ub i m) := by
  obtain ⟨form, stores, lands⟩ := @exchanges i m ready (.inr op)
  rw [op] at form lands
  have reach : (i.arg 0).InReach ∧ (i.arg 1).InReach := ⟨(ready.arg 0).reach, (ready.arg 1).reach⟩
  have second := (@exchange_values ub _ _ _ m stores reach).2
  have same := @swapped_eq ub _ _ _ _ _ form stores reach lands
  obtain ⟨r, first⟩ : ∃ r, i.arg 0 = .reg r := by
    generalize i.arg 0 = a at form
    generalize i.arg 1 = b at form
    cases form with
    | registers => exact ⟨_, rfl⟩
    | toMemory => exact ⟨_, rfl⟩
    | fromMemory plain => cases plain
  rw [first] at stores same ⊢
  obtain ⟨state, carry, overflow, zero, sign⟩ := @denoteXadd_swapped ub i (i.arg 1) m r first rfl stores
  rw [second] at state carry overflow zero sign
  have shape : denoteOp ub i m = denoteXadd ub i m := by simp only [denoteOp, op]
  rw [shape]
  refine realizes_setting ?_ ⟨overflow, zero, sign⟩ carry ?_ ?_
  · rw [← same]
    exact state
  · simp [Instruction.exact, op]
  · simp [Instruction.carries, op]

end Ready

end Instruction

end Tase
