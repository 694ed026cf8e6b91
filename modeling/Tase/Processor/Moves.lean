import Tase.Processor.Realizes
import Tase.Translator.Stack

/-! The instructions that leave the flags alone. -/

namespace Tase

open Cpp

namespace Emit.Ensures

variable {i : Instruction}

theorem jumpFetches : Ensures (Tase.emitJump i) fun _ => (i.arg 0).Fetchable i.bits1 :=
  emitUnderCond movFetches

theorem ctdFetches : Ensures (Tase.emitCtd i) fun _ => (i.arg 0).Fetchable i.bits1 := by
  refine bind operand fun src isSrc => bind any fun _ _ => ?_
  refine bind needSize fun size1 width => bind any fun _ _ => ?_
  rw [isSrc, width]
  exact bind emitFetch fun _ fetched => any.mono fun _ _ => fetched

end Emit.Ensures

structure Instruction.Ready (i : Instruction) : Prop where
  emitted : i.Emitted
  handled : i.nothingToDo = false
  own : ∀ o ∈ i.operands, o.Own
  suits : i.suits = true

namespace Instruction.Ready

variable {ub : Undef} {i : Instruction} {m : Mach} (ready : i.Ready)

include ready

theorem stores {o : Operand} {size : Size} (member : (o, size) ∈ i.stores) : o.Storable size := by
  obtain ⟨s, out, s', emitted⟩ := ready.emitted
  exact emitBody_stores emitted ready.handled _ member

theorem fetches {o : Operand} {size : Size} (member : (o, size) ∈ i.fetches) : o.Fetchable size := by
  obtain ⟨s, out, s', emitted⟩ := ready.emitted
  exact emitBody_fetches emitted ready.handled _ member

theorem arg (k : Nat) : (i.arg k).Own := by
  unfold Instruction.arg
  cases found : i.operands[k]? with
  | none => exact Operand.isOwn_own rfl
  | some o => exact ready.own o (List.mem_of_getElem? found)

theorem plain : ∀ o ∈ i.operands, o.Plain := fun o member => (ready.own o member).toPlain

theorem ensures {Q : Unit → Prop} (ensured : Emit.Ensures (emitOp i) Q) : Q () := by
  obtain ⟨s, out, s', emitted⟩ := ready.emitted
  obtain ⟨middle, code, rest⟩ := emitBody_op emitted ready.handled
  exact ensured middle () code s' rest

end Instruction.Ready

section

variable {ub : Undef} {i : Instruction} {src dest : Operand} {size1 size2 : Size} {signed : Bool} {m : Mach}

theorem denoteMov_writeAt (fetched : src.Fetchable size1) (storable : dest.Storable size2)
    (reach : src.InReach ∧ dest.InReach) (wide : (signed && dest.isLow) = false) :
    denoteMov ub signed src dest size1 size2 m = dest.writeAt size2 m
      (if signed then (src.read size1 m).signExtend _ else (src.read size1 m).setWidth _) m := by
  unfold denoteMov
  have value : src.fetch ub size1 signed m = ⟨⟨size1.bits, signed⟩, src.read size1 m⟩ := by
    rw [Operand.fetch, Operand.value_read fetched reach.1]
  rw [value]
  have kept (s : Size) : (⟨s.bits, signed⟩ : Ty).width ≤ 64 := (size_cases s).2
  have fits (x : Val) (ty : x.ty = ⟨size2.bits, signed⟩) (r : RegName) (same : dest = .reg r) :
      r.Fits (x.conv (.uint 64)) := by
    subst same
    cases signed with
    | true =>
        refine RegName.fits_of_not_low _ ?_
        simpa [Operand.isLow] using wide
    | false =>
        obtain ⟨rfl, _⟩ := storable
        exact RegName.fits_unsigned ty
  simp only
  split
  · rename_i same
    subst same
    rw [Operand.write_writeAt storable reach.2 (kept _) (fits _ rfl)]
    cases signed <;> rfl
  · rw [Operand.write_writeAt storable reach.2 (kept _) (fits _ rfl),
      Val.cast_conv_of_le _ ⟨size2.bits, signed⟩ size2.uint (Nat.le_refl size2.bits)]
    cases signed <;> rfl

theorem sign_filled (ub : Undef) {size : Size} (x : BitVec size.bits) (size' : Size) :
    ((Val.shift ub .right ⟨⟨size.bits, true⟩, x⟩ (.lit .dec (size.bits - 1))).cast ⟨size'.bits, true⟩).conv
      size'.uint = if x.msb then BitVec.allOnes _ else 0 := by
  rw [Val.cast_conv_of_le _ ⟨size'.bits, true⟩ size'.uint (Nat.le_refl size'.bits)]
  apply BitVec.eq_of_getLsbD_eq
  intro k inside
  rw [Val.conv_getLsbD, sign_shift size.bits_pos ub (size_cases size).2]
  cases x.msb <;> simp [inside]

theorem afterPush_efl {size : Size} : (afterPush size src m).regs .efl = m.regs .efl := rfl

theorem afterPop_efl {size : Size} (apart : .efl ∉ dest.reads) :
    (afterPop size dest m).regs .efl = m.regs .efl := by
  rw [afterPop, Operand.writeAt_efl apart]
  rfl

theorem denotePush_after {size : Size} (fetched : src.Fetchable size) (reach : src.InReach)
    (apart : .gpr .rsp ∉ src.reads) : denotePush ub signed src size m = afterPush size src m := by
  rw [denotePush_down, afterPush, Operand.value_read fetched reach, stackDown, Operand.read_setReg apart]

theorem denotePop_after {size : Size} (storable : dest.Storable size) (reach : dest.InReach)
    (apart : .gpr .rsp ∉ dest.reads) : denotePop ub false dest size m = afterPop size dest m := by
  rw [denotePop_up, Operand.write_unsigned storable reach, afterPop]
  cases dest with
  | imm n | addr n symbol => exact storable.elim
  | mem target =>
      have same : target.effective (stackUp size m) = target.effective m :=
        MemRef.effective_setReg apart
      change stackUp size (m.store (target.effective m) _) =
        (stackUp size m).store (target.effective (stackUp size m)) _
      rw [same]
      rfl
  | reg r =>
      obtain ⟨whole, base⟩ := Option.isSome_iff_exists.mp storable.2
      have other : whole ≠ .gpr .rsp := by
        rintro rfl
        simp [Operand.reads, base] at apart
      have kept (x : BitVec 64) : (m.setReg whole x).regs (.gpr .rsp) = m.regs (.gpr .rsp) := by
        rw [Machine.setReg_regs, if_neg other.symm]
      rw [Operand.writeAt_reg base, Operand.writeAt_reg base, stackUp, stackUp, kept,
        Machine.setReg_comm _ _ _ _ _ other, Machine.setReg_regs, if_neg other]

end

namespace Instruction

variable {ub : Undef} {i : Instruction} {m after : Mach}

theorem realizes_after (same : denoteOp ub i m = after) (flags : after.regs .efl = m.regs .efl)
    (none : ∀ f, i.exact f = false) : i.Realizes (.keeping after) m (denoteOp ub i m) := by
  subst same
  exact realizes_keeping flags none

theorem realizes_leave (op : i.op = .leave) :
    i.Realizes (.keeping (afterPop .q rbpOperand (m.setReg (.gpr .rsp) (m.regs (.gpr .rbp))))) m
      (denoteOp ub i m) := by
  have same (m : Mach) : popped (.gpr .rbp) m = afterPop .q rbpOperand m := by
    rw [← @denotePop_whole default false m (.gpr .rbp) (by decide)]
    exact denotePop_after ⟨rfl, rfl⟩ (by simp [Operand.InReach]) (by decide)
  refine realizes_after ?_ ?_ (by simp [Instruction.exact, op])
  · simp only [denoteOp, op]
    rw [denoteLeave_eq, same]
  · exact afterPop_efl (by decide)

theorem realizes_ret (op : i.op = .ret) : i.Realizes (.keeping (afterPop .q ripOperand m)) m (denoteOp ub i m) := by
  have unsigned : i.signExt = false := signExt_eq_false (by simp [op])
  refine realizes_after ?_ (afterPop_efl (by decide)) (by simp [Instruction.exact, op])
  simp only [denoteOp, op, unsigned]
  exact denotePop_after ⟨rfl, rfl⟩ (by simp [Operand.InReach, ripOperand]) (by decide)

namespace Ready

variable (ready : i.Ready)

include ready

theorem mov (op : i.op = .mov) :
    i.Realizes (.keeping ((i.arg 1).writeAt i.bits2 m (i.extended m) m)) m (denoteOp ub i m) := by
  have fetched : (i.arg 0).Fetchable i.bits1 :=
    ready.ensures (by simpa only [emitOp, op] using Emit.Ensures.movFetches)
  have stored : (i.arg 1).Storable i.bits2 := ready.stores (by simp [Instruction.stores, op])
  have wide : (i.signExt && (i.arg 1).isLow) = false := by
    simpa only [Instruction.suits, op, Bool.not_eq_true'] using ready.suits
  refine realizes_after ?_ (Operand.writeAt_efl (ready.arg 1).flags) (by simp [Instruction.exact, op])
  simp only [denoteOp, op]
  exact denoteMov_writeAt fetched stored ⟨(ready.arg 0).reach, (ready.arg 1).reach⟩ wide

theorem lea {target : MemRef} (op : i.op = .lea) (source : i.arg 0 = .mem target) :
    i.Realizes (.keeping ((i.arg 1).writeAt i.bits1 m ((target.effective m).setWidth i.bits1.bits) m)) m
      (denoteOp ub i m) := by
  refine realizes_after ?_ (Operand.writeAt_efl (ready.arg 1).flags) (by simp [Instruction.exact, op])
  obtain ⟨e, found⟩ : ∃ e, target.addr = .ok e := by
    obtain ⟨s, out, s', emitted⟩ := ready.emitted
    obtain ⟨mem, same, located⟩ := emitBody_lea emitted ready.handled op
    cases source.symm.trans same
    exact located
  have stored : (i.arg 1).Storable i.bits1 := ready.stores (by simp [Instruction.stores, op])
  have suited := ready.suits
  have reach := (ready.arg 0).reach target source
  simp only [Instruction.suits, op, source] at suited
  simp only [denoteOp, op, source]
  cases dest : i.arg 1 with
  | imm n | addr n symbol | mem target => simp [dest] at suited
  | reg r =>
      rw [dest] at stored
      obtain ⟨width, known⟩ := stored
      obtain ⟨whole, base⟩ := Option.isSome_iff_exists.mp known
      simp only [dest, width, base, Operand.uses, Operand.reads, Option.any_some, Bool.and_eq_true,
        decide_eq_true_eq, Bool.or_eq_true, Bool.not_eq_true'] at suited
      rw [width, denoteLea_reg base, Operand.writeAt_reg base]
      simp only
      rw [MemRef.address_effective found reach]
      -- Only a 16-bit destination is masked before the address is computed.
      have same : target.effective (m.setReg whole (r.clear (m.regs whole))) = target.effective m := by
        cases r with
        | other name => cases known
        | l g | h g => exact absurd rfl suited.1
        | q held | d g => rw [RegName.clear, Machine.setReg_self]
        | w g =>
            have apart := suited.2.resolve_left (by simp [regSize])
            exact MemRef.effective_setReg (of_decide_eq_false apart)
      rw [same]

theorem exchanges (op : i.op = .xchg ∨ i.op = .xadd) :
    ExchangeForm i.op (i.arg 0) (i.arg 1) ∧
      ((i.arg 0).Storable i.bits1 ∧ (i.arg 1).Storable i.bits1) ∧
      ExchangeLands i.op i.bits1 (i.arg 0) (i.arg 1) m := by
  have suited : i.exchanges = true := by
    rcases op with op | op <;> simpa only [Instruction.suits, op] using ready.suits
  have stores : (i.arg 0).Storable i.bits1 ∧ (i.arg 1).Storable i.bits1 := by
    rcases op with op | op
    all_goals
      constructor <;> refine ready.stores ?_ <;> simp [Instruction.stores, op]
  unfold Instruction.exchanges at suited
  refine ⟨?_, stores, fun target same => ?_⟩
  · cases first : i.arg 0 <;> cases second : i.arg 1 <;>
      simp only [first, second, Bool.false_eq_true, decide_eq_true_eq] at suited
    · obtain ⟨g, source⟩ := (ready.arg 0).general _ first
      obtain ⟨h, dest⟩ := (ready.arg 1).general _ second
      exact .registers source dest
    · obtain ⟨g, source⟩ := (ready.arg 0).general _ first
      exact .toMemory source
    · obtain ⟨h, dest⟩ := (ready.arg 1).general _ second
      exact .fromMemory suited dest
  · refine congrArg (Mem.store _ · _) (MemRef.effective_congr fun held member => ?_)
    cases first : i.arg 0 with
    | imm n | addr n symbol => rfl
    | mem source => rfl
    | reg r =>
        obtain ⟨g, base⟩ := (ready.arg 0).general r first
        rw [Operand.writeAt_reg base, Machine.setReg_regs, if_neg]
        rintro rfl
        simp [first, same, base, Operand.uses, Operand.reads, member] at suited

theorem xchg (op : i.op = .xchg) :
    i.Realizes (.keeping (exchange .xchg i.bits1 (i.arg 0) (i.arg 1) m)) m (denoteOp ub i m) := by
  obtain ⟨form, stores, lands⟩ := @exchanges i m ready (.inl op)
  rw [op] at form lands
  have reach : (i.arg 0).InReach ∧ (i.arg 1).InReach := ⟨(ready.arg 0).reach, (ready.arg 1).reach⟩
  refine realizes_after ?_ ?_ (by simp [Instruction.exact, op])
  · simp only [denoteOp, op]
    rw [denoteXchg_swapped rfl rfl, (exchange_values stores reach).1, ← @swapped_eq ub _ _ _ _ _ form stores reach lands]
    rfl
  · rw [exchange, Operand.writeAt_efl (ready.arg 1).flags, Operand.writeAt_efl (ready.arg 0).flags]

theorem cmov (op : i.op = .cmov) :
    i.Realizes (.keeping ((i.arg 1).writeAt i.bits1 m (if i.condition (eflBit m) then
      (i.arg 0).read i.bits1 m else (i.arg 1).read i.bits1 m) m)) m (denoteOp ub i m) := by
  refine realizes_after ?_ (Operand.writeAt_efl (ready.arg 1).flags) (by simp [Instruction.exact, op])
  have unsigned : i.signExt = false := signExt_eq_false (by simp [op])
  obtain ⟨old, fetched⟩ : (i.arg 1).Fetchable i.bits1 ∧ (i.arg 0).Fetchable i.bits1 :=
    ready.ensures (by simpa only [emitOp, op] using Emit.Ensures.cmovFetches)
  have stored : (i.arg 1).Storable i.bits2 := ready.stores (by simp [Instruction.stores, op])
  have suited := ready.suits
  simp only [Instruction.suits, op] at suited
  simp only [denoteOp, op]
  cases second : i.arg 1 with
  | imm n | addr n symbol | mem target => simp [second] at suited
  | reg r =>
      rw [second] at stored old
      obtain ⟨g, base⟩ := (ready.arg 1).general r second
      obtain ⟨e, found⟩ := old
      obtain ⟨_, checked, _⟩ := except_bind_ok found
      have width : i.bits1 = regSize r := by simpa using MemRef.check_ok checked
      have known : (baseReg r).isSome := by simp [base]
      rw [width] at fetched
      rw [denoteCmov_reg unsigned ⟨width, stored.1⟩ second base, Operand.writeAt_reg base, width]
      -- The destination is narrowed before the source is read.
      have source : (i.arg 0).value ub (regSize r) (m.setReg (.gpr g) (r.narrow (m.regs (.gpr g)))) =
          (i.arg 0).read (regSize r) m := by
        by_cases apart : .gpr g ∈ (i.arg 0).reads
        · have whole : r.keeps = true := by simpa [second, base, Operand.uses, apart] using suited
          rw [Operand.value_read fetched (ready.arg 0).reach, RegName.narrow, if_pos whole, Machine.setReg_self]
        · rw [Operand.value_read fetched (ready.arg 0).reach, Operand.read_setReg apart]
      simp only [source]
      split
      · rfl
      · simp only [Operand.read, RegName.read, base, RegName.put_field known]

theorem ctd (op : i.op = .ctd) :
    i.Realizes (.keeping ((i.arg 1).writeAt (i.size2.getD .q) m
      (if ((i.arg 0).read i.bits1 m).msb then BitVec.allOnes _ else 0) m)) m (denoteOp ub i m) := by
  refine realizes_after ?_ (Operand.writeAt_efl (ready.arg 1).flags) (by simp [Instruction.exact, op])
  have fetched : (i.arg 0).Fetchable i.bits1 :=
    ready.ensures (by simpa only [emitOp, op] using Emit.Ensures.ctdFetches)
  have stored : (i.arg 1).Storable (i.size2.getD .q) := ready.stores (by simp [Instruction.stores, op])
  have wide : (i.arg 1).isLow = false := by simpa [Instruction.suits, op] using ready.suits
  simp only [denoteOp, op, denoteCtd]
  rw [Operand.write_writeAt stored (ready.arg 1).reach (size_cases _).2]
  · rw [Operand.fetch, Operand.value_read fetched (ready.arg 0).reach, sign_filled]
  · intro r same
    rw [same] at wide
    exact RegName.fits_of_not_low _ wide

theorem push (op : i.op = .push) :
    i.Realizes (.keeping (afterPush i.bits1 (i.arg 0) m)) m (denoteOp ub i m) := by
  have fetched : (i.arg 0).Fetchable i.bits1 :=
    ready.ensures (by simpa only [emitOp, op] using Emit.Ensures.pushFetches)
  have apart : .gpr .rsp ∉ (i.arg 0).reads := by
    simpa [Instruction.suits, op, Operand.uses] using ready.suits
  refine realizes_after ?_ afterPush_efl (by simp [Instruction.exact, op])
  simp only [denoteOp, op]
  exact denotePush_after fetched (ready.arg 0).reach apart

theorem pop (op : i.op = .pop) :
    i.Realizes (.keeping (afterPop i.bits1 (i.arg 0) m)) m (denoteOp ub i m) := by
  have unsigned : i.signExt = false := signExt_eq_false (by simp [op])
  have stored : (i.arg 0).Storable i.bits1 := ready.stores (by simp [Instruction.stores, op])
  have apart : .gpr .rsp ∉ (i.arg 0).reads := by
    simpa [Instruction.suits, op, Operand.uses] using ready.suits
  refine realizes_after ?_ (afterPop_efl (ready.arg 0).flags) (by simp [Instruction.exact, op])
  simp only [denoteOp, op, unsigned]
  exact denotePop_after stored (ready.arg 0).reach apart

theorem call (op : i.op = .call) :
    i.Realizes (.keeping ((afterPush .q ripOperand m).setReg .rip ((i.arg 0).read .q m))) m
      (denoteOp ub i m) := by
  have fetched : (i.arg 0).Fetchable .q := ready.fetches (by simp [Instruction.fetches, op])
  have pushed : denotePush ub i.signExt ripOperand .q m = afterPush .q ripOperand m :=
    denotePush_after ⟨_, rfl⟩ (by simp [Operand.InReach, ripOperand]) (by decide)
  refine realizes_after ?_ rfl (by simp [Instruction.exact, op])
  simp only [denoteOp, op, denoteCall]
  rw [pushed, Operand.fetch, Operand.value_read fetched (ready.arg 0).reach, ripOperand,
    write_whole _ (by exact Nat.le_refl 64)]
  simp

theorem j (op : i.op = .j) :
    i.Realizes (.keeping (if i.condition (eflBit m) then m.setReg .rip ((i.arg 0).read .q m) else m)) m
      (denoteOp ub i m) := by
  have fetched : (i.arg 0).Fetchable i.bits1 :=
    ready.ensures (by simpa only [emitOp, op] using Emit.Ensures.jumpFetches)
  have widths : i.bits1 = .q ∧ i.bits2 = .q := by simpa [Instruction.suits, op] using ready.suits
  rw [widths.1] at fetched
  refine realizes_after ?_ ?_ (by simp [Instruction.exact, op])
  · simp only [denoteOp, op, denoteJump, condTaken_condition, widths]
    rw [ripOperand, denoteMov_whole, Operand.value_read fetched (ready.arg 0).reach]
  · split <;> rfl

theorem set (op : i.op = .set) :
    i.Realizes (.keeping ((i.arg 0).writeAt .b m (if i.condition (eflBit m) then 1 else 0) m)) m
      (denoteOp ub i m) := by
  have stored : (i.arg 0).Storable .b := ready.stores (by simp [Instruction.stores, op])
  have reach := (ready.arg 0).reach
  refine realizes_after ?_ (Operand.writeAt_efl (ready.arg 0).flags) (by simp [Instruction.exact, op])
  have literal (b : Bool) (m : Mach) : (i.arg 0).write ub .b (.lit .dec b.toNat) m =
      (i.arg 0).write ub .b ⟨Size.b.uint, BitVec.ofNat 8 b.toNat⟩ m := by
    have narrow : (Val.lit .dec b.toNat).ty.width ≤ 64 := by cases b <;> decide
    rw [Operand.write_unsigned stored reach, Operand.write_writeAt stored reach narrow,
      Val.lit_conv _ _ _ (by decide)]
    intro r _
    rw [Val.lit_conv _ _ _ (by decide)]
    cases b <;> cases r <;> simp [RegName.Fits]
  have cleared : (i.arg 0).write ub .b (.lit .dec 0) m = (i.arg 0).writeAt .b m 0 m :=
    (literal false m).trans (Operand.write_unsigned stored reach _)
  have flags : eflBit ((i.arg 0).writeAt .b m 0 m) = eflBit m := by
    unfold eflBit
    rw [Operand.writeAt_efl (ready.arg 0).flags]
  simp only [denoteOp, op, denoteSet]
  rw [condTaken_condition, cleared, flags]
  split
  · rw [← cleared]
    exact (literal true _).trans ((congrArg _ (literal false m)).trans
      ((Operand.write_write stored _ _).trans (Operand.write_unsigned stored reach _)))
  · rfl

theorem not (op : i.op = .not) :
    i.Realizes (.keeping ((i.arg 0).writeAt i.bits1 m (~~~(i.arg 0).read i.bits1 m) m)) m
      (denoteOp ub i m) := by
  have stored : (i.arg 0).Storable i.bits1 := ready.stores (by simp [Instruction.stores, op])
  have wide : (i.arg 0).isLow = false := by simpa [Instruction.suits, op] using ready.suits
  refine realizes_after ?_ (Operand.writeAt_efl (ready.arg 0).flags) (by simp [Instruction.exact, op])
  simp only [denoteOp, op, denoteNot]
  rw [Operand.fetch, Operand.value_read stored.fetchable (ready.arg 0).reach,
    Operand.write_writeAt stored (ready.arg 0).reach]
  · congr 1
    have promoted := i.bits1.uint.le_promote_width
    apply BitVec.eq_of_getLsbD_eq
    intro k inside
    rw [Val.conv_getLsbD, Val.un_not_bit_wide ub _ (Nat.lt_of_lt_of_le inside promoted)]
    simp [inside]
  · change i.bits1.uint.promote.width ≤ 64
    cases i.bits1 <;> decide
  · intro r same
    rw [same] at wide
    exact RegName.fits_of_not_low _ wide

end Ready

end Instruction

end Tase
