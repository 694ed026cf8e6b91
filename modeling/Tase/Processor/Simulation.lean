import Tase.Processor.Hidden
import Tase.Translator.Compare

/-! The emitted code against the processor: instruction by instruction, and along straight-line code. -/

namespace Tase

open Cpp

/-- The program cannot tell the two states apart if it looks at no other flags than these. -/
structure Agree (T : Trust) (m s : Mach) : Prop where
  regs : ∀ r, r.hidden = false → s.regs r = m.regs r
  mem : s.mem = m.mem
  flags : ∀ f, T f = true → eflBit s f.bit = eflBit m f.bit

namespace Agree

variable {T : Trust} {m m' s s' : Mach}

theorem refl : Agree T m m := ⟨fun _ _ => rfl, rfl, fun _ _ => rfl⟩

theorem symm (agree : Agree T m s) : Agree T s m :=
  ⟨fun r visible => (agree.regs r visible).symm, agree.mem.symm, fun f trusted => (agree.flags f trusted).symm⟩

theorem trans (agree : Agree T m m') (agree' : Agree T m' s) : Agree T m s :=
  ⟨fun r visible => (agree'.regs r visible).trans (agree.regs r visible), agree'.mem.trans agree.mem,
    fun f trusted => (agree'.flags f trusted).trans (agree.flags f trusted)⟩

theorem stepRip (agree : Agree T m s) (i : Instruction) : Agree T (stepRip i m) (stepRip i s) := by
  refine ⟨fun r visible => ?_, agree.mem, agree.flags⟩
  by_cases counter : r = .rip
  · subst counter
    simp only [Tase.stepRip, Machine.setReg_regs_self, agree.regs .rip rfl]
  · rw [stepRip_regs counter, stepRip_regs counter, agree.regs r visible]

theorem eq_setReg (agree : Agree T m s) : s = ((m.setReg .efl (s.regs .efl)).setReg (.gpr .r14)
    (s.regs (.gpr .r14))).setReg (.gpr .r15) (s.regs (.gpr .r15)) := by
  obtain ⟨regs, mem⟩ := s
  obtain ⟨same, rfl, _⟩ := agree
  refine congrArg (Machine.mk · _) (funext fun r => ?_)
  change regs r = (((m.setReg .efl _).setReg (.gpr .r14) _).setReg (.gpr .r15) _).regs r
  by_cases r15 : r = .gpr .r15
  · subst r15
    rw [Machine.setReg_regs_self]
  · rw [Machine.setReg_regs, if_neg r15]
    by_cases r14 : r = .gpr .r14
    · subst r14
      rw [Machine.setReg_regs_self]
    · rw [Machine.setReg_regs, if_neg r14]
      by_cases efl : r = .efl
      · subst efl
        rw [Machine.setReg_regs_self]
      · rw [Machine.setReg_regs, if_neg efl]
        exact same r (by simp [Reg.hidden, efl, r14, r15])

theorem setReg {r : Reg} (hidden : r.hidden = true) (x : BitVec 64) : Agree .nothing m (m.setReg r x) := by
  refine ⟨fun held visible => ?_, rfl, nofun⟩
  rw [Machine.setReg_regs, if_neg (Reg.hidden_ne hidden visible)]

end Agree

namespace Instruction

variable {ub : Undef} {i : Instruction} {T T' : Trust} {m m' s s' : Mach} {a : Action}

theorem action_hidden_gpr {g : Gpr} {x : BitVec 64} (own : ∀ o ∈ i.operands, o.Own)
    (hidden : (Reg.gpr g).hidden = true) :
    i.action (m.setReg (.gpr g) x) = (i.action m).map (·.withReg (.gpr g) x) :=
  action_hidden own hidden fun _ _ => rfl

theorem action_agree (own : ∀ o ∈ i.operands, o.Own) (reads : ∀ f ∈ i.flagsRead, T f = true)
    (agree : Agree T m s) (known : i.action s = some a) :
    ∃ a', i.action m = some a' ∧ a.fate = a'.fate ∧ Agree .nothing a'.after a.after := by
  have flags (f : Status) (member : f ∈ i.flagsRead) :
      eflBit (m.setReg .efl (s.regs .efl)) f.bit = eflBit m f.bit := by
    rw [← agree.flags f (reads f member)]
    simp only [eflBit, Machine.setReg_regs_self]
  rw [agree.eq_setReg, action_hidden_gpr own rfl, action_hidden_gpr own rfl, action_hidden own rfl flags] at known
  cases before : i.action m with
  | none => simp [before] at known
  | some a' =>
      simp only [before, Option.map_some, Option.some.injEq] at known
      subst known
      exact ⟨a', rfl, rfl, ((Agree.setReg rfl _).trans (.setReg rfl _)).trans (.setReg rfl _)⟩

theorem Ready.realizes (ready : i.Ready) (wraps : ub.MulWraps) (known : i.action m = some a) :
    i.Realizes a m (denoteOp ub i m) := by
  have through {b : Action} (is : i.action m = some b) (realizes : i.Realizes b m (denoteOp ub i m)) :
      i.Realizes a m (denoteOp ub i m) := by
    rw [known, Option.some.injEq] at is
    exact is ▸ realizes
  cases op : i.op with
  | nop | enter | rc | ro | sa | shd | loop | bswap | pushf | popf | other name =>
      have suited := ready.suits
      simp [Instruction.suits, op] at suited
  | mov => exact through (by simp only [action, op]) (ready.mov op)
  | lea =>
      cases source : i.arg 0 with
      | mem target => exact through (by simp only [action, op, source]) (ready.lea op source)
      | reg r | imm n | addr n symbol => simp [action, op, source] at known
  | xchg => exact through (by simp only [action, op]) (ready.xchg op)
  | xadd => exact through (by simp only [action, op]) (ready.xadd op)
  | cmov => exact through (by simp only [action, op]) (ready.cmov op)
  | ctd => exact through (by simp only [action, op]) (ready.ctd op)
  | push => exact through (by simp only [action, op]) (ready.push op)
  | pop => exact through (by simp only [action, op]) (ready.pop op)
  | leave => exact through (by simp only [action, op]) (realizes_leave op)
  | call => exact through (by simp only [action, op]) (ready.call op)
  | ret => exact through (by simp only [action, op]) (realizes_ret op)
  | j => exact through (by simp only [action, op]) (ready.j op)
  | set => exact through (by simp only [action, op]) (ready.set op)
  | not => exact through (by simp only [action, op]) (ready.not op)
  | inc => exact through (by simp only [action, op]) (ready.counts (.inl op))
  | dec => exact through (by simp only [action, op]) (ready.counts (.inr op))
  | mul => exact through (by simp only [action, op]) (ready.mul op wraps)
  | div => exact ready.div op (by simpa only [action, op] using known)
  | sh =>
      have flagged := (ready.shiftForm op).2.1
      exact through (by simp [action, op, flagged]) (ready.sh op)
  | bt => exact through (by simp only [action, op]) (ready.bt op)
  | cl =>
      have shape : denoteOp ub i m = denoteFlag ub i true m := by simp only [denoteOp, op]
      exact through (by simp [action, op]) (shape ▸ @realizes_flag ub i m true op)
  | st =>
      have shape : denoteOp ub i m = denoteFlag ub i false m := by simp only [denoteOp, op]
      exact through (by simp [action, op]) (shape ▸ @realizes_flag ub i m false op)
  | cmc =>
      have shape : denoteOp ub i m = denoteCmc ub m := by simp only [denoteOp, op]
      exact through (by simp only [action, op]) (shape ▸ realizes_cmc op)
  | add | sub | adc | sbb | cmp | neg | and | or | xor | test =>
      simp only [action, op, Option.map_eq_some_iff] at known
      obtain ⟨o, outcome, rfl⟩ := known
      exact ready.outcome (op ▸ outcome)

theorem loadsReserved_cases (loads : i.loadsReserved = true) :
    ∃ r whole, i.arg 1 = .reg r ∧ baseReg r = some whole ∧ whole.reserved = true ∧
      (i.op = .mov ∨ i.op = .lea ∧ ∃ target, i.arg 0 = .mem target) := by
  unfold loadsReserved at loads
  split at loads
  · rename_i target r source dest
    simp only [Bool.and_eq_true, Bool.or_eq_true, decide_eq_true_eq, Option.any_eq_true] at loads
    obtain ⟨⟨op, _⟩, whole, base, reserved⟩ := loads
    exact ⟨r, whole, dest, base, reserved, op.imp_right fun lea => ⟨lea, target, source⟩⟩
  all_goals simp only [Bool.and_eq_true, decide_eq_true_eq, Option.any_eq_true, Bool.false_eq_true] at loads
  all_goals
    rename_i r _ dest
    obtain ⟨mov, whole, base, reserved⟩ := loads
    exact ⟨r, whole, dest, base, reserved, .inl mov⟩

theorem loadsReserved_action (loads : i.loadsReserved = true) (m : Mach) :
    ∃ r x, r.reserved = true ∧ i.action m = some (.keeping (m.setReg r x)) := by
  obtain ⟨r, whole, dest, base, reserved, op | ⟨op, target, source⟩⟩ := loadsReserved_cases loads
  · have written : i.action m = some (.keeping ((i.arg 1).writeAt i.bits2 m (i.extended m) m)) := by
      simp only [action, op]
    rw [dest, Operand.writeAt_reg base] at written
    exact ⟨whole, _, reserved, written⟩
  · have written : i.action m = some (.keeping
        ((i.arg 1).writeAt i.bits1 m ((target.effective m).setWidth i.bits1.bits) m)) := by
      simp only [action, op, source]
    rw [dest, Operand.writeAt_reg base] at written
    exact ⟨whole, _, reserved, written⟩

theorem trusts_cases (trusted : i.trusts T = some T') :
    i.op ≠ .loop ∧ i.nothingToDo = true ∧ (i.skipped = true ∨ i.skipped = false ∧ i.loadsReserved = true) ∧ T' = T ∨
    i.nothingToDo = false ∧ (∀ o ∈ i.operands, o.Own) ∧ i.suits = true ∧ (∀ f ∈ i.flagsRead, T f = true) ∧
      T' = fun f => i.exact f || i.carries f && T f := by
  unfold trusts at trusted
  split at trusted
  · rename_i unread
    simp only [Bool.and_eq_true, decide_eq_true_eq] at unread
    simp only [Option.some.injEq] at trusted
    refine .inl ⟨unread.2, ?_, .inl unread.1, trusted.symm⟩
    simpa [nothingToDo, Instruction.skipped] using Or.inl unread.1
  split at trusted
  · rename_i unread dropped
    split at trusted
    · rename_i loads
      simp only [Option.some.injEq] at trusted
      have notLoop : i.op ≠ .loop := by
        obtain ⟨_, _, _, _, _, op | ⟨op, _⟩⟩ := loadsReserved_cases loads <;> simp [op]
      refine .inl ⟨notLoop, dropped, ?_, trusted.symm⟩
      cases skipped : i.skipped with
      | true => exact .inl rfl
      | false => exact .inr ⟨rfl, loads⟩
    · cases trusted
  · rename_i handled
    split at trusted
    · rename_i accepted
      simp only [Bool.and_eq_true, List.all_eq_true] at accepted
      simp only [Option.some.injEq] at trusted
      obtain ⟨⟨own, suits⟩, reads⟩ := accepted
      exact .inr ⟨by simpa using handled, fun o member => Operand.isOwn_own (own o member), suits, reads,
        trusted.symm⟩
    · cases trusted

theorem trusts_notLoop (trusted : i.trusts T = some T') : i.op ≠ .loop := by
  intro loops
  rcases trusts_cases trusted with ⟨notLoop, _⟩ | ⟨_, _, suited, _⟩
  · exact notLoop loops
  · simp [suits, loops] at suited

end Instruction

theorem Fate.Allows.unique {fate : Fate} {before b c : Bool} (defined : fate ≠ .undefined)
    (first : fate.Allows before b) (second : fate.Allows before c) : b = c := by
  cases fate with
  | undefined => exact absurd rfl defined
  | kept | becomes x => exact Eq.trans first (Eq.symm second)

namespace Instruction

variable {ub : Undef} {foreign : Foreign} {i : Instruction} {T T' : Trust} {m m' s s' : Mach} {a : Action}

theorem Processed.leads (processed : i.Processed foreign s s') (read : i.skipped = false) :
    ∃ a, i.action (stepRip i s) = some a ∧ a.Leads s s' := by
  simpa only [Processed, read, Bool.false_eq_true, if_false] using processed

theorem skipped_of_handled (handled : i.nothingToDo = false) : i.skipped = false := by
  simp only [nothingToDo, Bool.or_eq_false_iff] at handled
  simp only [skipped, Bool.or_eq_false_iff]
  exact handled.1

theorem Processed.reserves (processed : i.Processed foreign s s') (quiet : i.skipped = true → foreign.Quiet i)
    (dropped : i.skipped = true ∨ i.skipped = false ∧ i.loadsReserved = true) : i.Reserves s s' := by
  rcases dropped with skipped | ⟨read, loads⟩
  · simp only [Processed, skipped, if_true] at processed
    exact (quiet skipped).keeps processed
  · obtain ⟨a, known, leads⟩ := processed.leads read
    obtain ⟨r, x, reserved, action⟩ := loadsReserved_action loads (stepRip i s)
    cases known.symm.trans action
    simp only [Reg.reserved, Bool.or_eq_true, decide_eq_true_eq] at reserved
    refine ⟨fun held visible => ?_, leads.mem, leads.flags⟩
    simp only [Reg.hidden, Bool.or_eq_false_iff, decide_eq_false_iff_not] at visible
    have other : held ≠ r := by
      rintro rfl
      exact reserved.elim visible.1.2 visible.2
    rw [leads.regs held visible.1.1]
    exact (Machine.setReg_regs ..).trans (if_neg other)

theorem Processed.agree (processed : i.Processed foreign s s') (quiet : i.skipped = true → foreign.Quiet i)
    (emitted : i.Emitted) (trusted : i.trusts T = some T') (wraps : ub.MulWraps) (agree : Agree T m s) :
    Agree T' (denote ub i m) s' := by
  have stepped := agree.stepRip i
  rcases trusts_cases trusted with ⟨_, dropped, unseen, rfl⟩ | ⟨handled, own, suits, reads, rfl⟩
  · have reserves := processed.reserves quiet unseen
    simp only [denote, dropped, if_true]
    refine ⟨fun r visible => (reserves.regs r visible).trans (stepped.regs r visible), reserves.mem.trans agree.mem,
      fun f trusted => (reserves.flags f).trans (agree.flags f trusted)⟩
  · simp only [denote, handled, Bool.false_eq_true, if_false]
    obtain ⟨a, known, leads⟩ := processed.leads (skipped_of_handled handled)
    obtain ⟨a', known', fate, after⟩ := action_agree own reads stepped known
    obtain ⟨⟨flags, state⟩, right, carried⟩ :=
      @Ready.realizes ub i _ _ ⟨emitted, handled, own, suits⟩ wraps known'
    refine ⟨fun r visible => ?_, ?_, fun f trusted => ?_⟩
    · have notEfl : r ≠ .efl := by rintro rfl; cases visible
      rw [leads.regs r notEfl, after.regs r visible, state, Machine.setReg_regs, if_neg notEfl]
    · rw [leads.mem, after.mem, state]
      rfl
    · have led := leads.flags f
      rw [fate] at led
      rcases Bool.or_eq_true_iff.mp trusted with exact | kept
      · obtain ⟨b, becomes, shown⟩ := right f exact
        rw [becomes] at led
        exact led.trans shown.symm
      · obtain ⟨carries, known⟩ := Bool.and_eq_true_iff.mp kept
        obtain ⟨defined, allows⟩ := carried f carries
        rw [agree.flags f known] at led
        exact led.unique defined allows

theorem Processed.rip (processed : i.Processed foreign s s') (quiet : i.skipped = true → foreign.Quiet i)
    (emitted : i.Emitted) (trusted : i.trusts T = some T') (straight : i.transfersControl = false) :
    s'.regs .rip = s.regs .rip + BitVec.ofNat 64 i.length := by
  have agree : Agree T' (denote wrapping i s) s' := processed.agree quiet emitted trusted (fun _ _ => rfl) .refl
  rw [agree.regs .rip rfl, denote_rip wrapping emitted (trusts_notLoop trusted) straight]

end Instruction

/-! Two processors side by side. -/

theorem Status.exists_word (wanted : Status → Bool) : ∃ x : BitVec 64, ∀ f : Status, x.getLsbD f.bit = wanted f := by
  have words : ∀ c p z s o : Bool, ∃ x : BitVec 64,
      x.getLsbD flagCF = c ∧ x.getLsbD flagPF = p ∧ x.getLsbD flagZF = z ∧ x.getLsbD flagSF = s ∧
        x.getLsbD flagOF = o := by
    intro c p z s o
    refine ⟨BitVec.ofNat 64 (c.toNat + 4 * p.toNat + 64 * z.toNat + 128 * s.toNat + 2048 * o.toNat), ?_⟩
    revert c p z s o
    decide
  obtain ⟨x, c, p, z, s, o⟩ := words (wanted .cf) (wanted .pf) (wanted .zf) (wanted .sf) (wanted .of)
  refine ⟨x, fun f => ?_⟩
  cases f with
  | cf => exact c
  | pf => exact p
  | zf => exact z
  | sf => exact s
  | of => exact o

theorem Action.Leads.exists (a : Action) (m : Mach) : ∃ m', a.Leads m m' := by
  have possible (f : Status) : ∃ b, (a.fate f).Allows (eflBit m f.bit) b := by
    cases a.fate f with
    | kept => exact ⟨_, rfl⟩
    | undefined => exact ⟨false, trivial⟩
    | becomes b => exact ⟨b, rfl⟩
  choose wanted allowed using possible
  obtain ⟨x, bits⟩ := Status.exists_word wanted
  refine ⟨a.after.setReg .efl x, fun r other => ?_, rfl, fun f => ?_⟩
  · rw [Machine.setReg_regs, if_neg other]
  · have bit : eflBit (a.after.setReg .efl x) f.bit = wanted f := by
      rw [eflBit, Machine.setReg_regs_self, bits]
    rw [bit]
    exact allowed f

namespace Instruction

variable {foreign : Foreign} {i : Instruction} {T T' : Trust} {m s s' r : Mach} {a : Action}

theorem Processed.exists (foreign : Foreign) (read : i.skipped = false) (known : i.action (stepRip i m) = some a) :
    ∃ m', i.Processed foreign m m' := by
  obtain ⟨m', leads⟩ := Action.Leads.exists a m
  refine ⟨m', ?_⟩
  simp only [Processed, read, Bool.false_eq_true, if_false]
  exact ⟨a, known, leads⟩

theorem Processed.dropped (quiet : i.skipped = true → foreign.Quiet i)
    (dropped : i.skipped = true ∨ i.skipped = false ∧ i.loadsReserved = true) (s : Mach) :
    ∃ s', i.Processed foreign s s' := by
  rcases dropped with skipped | ⟨read, loads⟩
  · obtain ⟨s', ran⟩ := (quiet skipped).runs s
    refine ⟨s', ?_⟩
    simpa only [Processed, skipped, if_true] using ran
  · obtain ⟨_, _, _, known⟩ := loadsReserved_action loads (stepRip i s)
    exact Processed.exists foreign read known

theorem Processed.follow (processed : i.Processed foreign s s') (quiet : i.skipped = true → foreign.Quiet i)
    (emitted : i.Emitted) (trusted : i.trusts T = some T') (agree : Agree T s r) :
    ∃ r', i.Processed foreign r r' ∧ Agree T' s' r' := by
  have wraps : wrapping.MulWraps := fun _ _ => rfl
  have first := processed.agree quiet emitted trusted wraps .refl
  have able : ∃ r', i.Processed foreign r r' := by
    rcases trusts_cases trusted with ⟨_, _, dropped, _⟩ | ⟨handled, own, _, reads, _⟩
    · exact Processed.dropped quiet dropped r
    · obtain ⟨a, known, _⟩ := processed.leads (skipped_of_handled handled)
      obtain ⟨a', known', _⟩ := action_agree own reads (agree.stepRip i).symm known
      exact Processed.exists foreign (skipped_of_handled handled) known'
  obtain ⟨r', follows⟩ := able
  exact ⟨r', follows, first.symm.trans (follows.agree quiet emitted trusted wraps agree)⟩

end Instruction

/-! Straight-line code. -/

inductive Processes (foreign : Foreign) : List Instruction → Mach → Mach → Prop
  | nil {s : Mach} : Processes foreign [] s s
  | cons {i : Instruction} {rest : List Instruction} {s s' s'' : Mach} (first : i.Processed foreign s s')
      (later : Processes foreign rest s' s'') : Processes foreign (i :: rest) s s''

section

variable {ub : Undef} {foreign : Foreign} {instrs : List Instruction} {T T' : Trust} {m s s' r : Mach}

theorem checked_cons {i : Instruction} (accepted : checked (i :: instrs) T = some T') :
    ∃ between, i.trusts T = some between ∧ checked instrs between = some T' :=
  Option.bind_eq_some_iff.mp accepted

section

variable (quiet : ∀ i ∈ instrs, i.skipped = true → foreign.Quiet i) (emitted : ∀ i ∈ instrs, i.Emitted)
  (accepted : checked instrs T = some T')

include quiet emitted accepted

theorem Processes.agree (processes : Processes foreign instrs s s') (wraps : ub.MulWraps) (agree : Agree T m s) :
    Agree T' (stepAll ub instrs m) s' := by
  induction processes generalizing T m with
  | nil =>
      cases accepted
      exact agree
  | cons first later ih =>
      obtain ⟨between, trusted, accepted⟩ := checked_cons accepted
      obtain ⟨here, emitted⟩ := List.forall_mem_cons.mp emitted
      obtain ⟨still, quiet⟩ := List.forall_mem_cons.mp quiet
      exact ih quiet emitted accepted (first.agree still here trusted wraps agree)

theorem Processes.follow (processes : Processes foreign instrs s s') (agree : Agree T s r) :
    ∃ r', Processes foreign instrs r r' ∧ Agree T' s' r' := by
  induction processes generalizing T r with
  | nil =>
      cases accepted
      exact ⟨r, .nil, agree⟩
  | cons first later ih =>
      obtain ⟨between, trusted, accepted⟩ := checked_cons accepted
      obtain ⟨here, emitted⟩ := List.forall_mem_cons.mp emitted
      obtain ⟨still, quiet⟩ := List.forall_mem_cons.mp quiet
      obtain ⟨next, follows, agree⟩ := first.follow still here trusted agree
      obtain ⟨last, rest, agree⟩ := ih quiet emitted accepted agree
      exact ⟨last, .cons follows rest, agree⟩

end

end

end Tase
