import Tase.Cpp.Bits
import Tase.Cpp.Ints
import Tase.Translator.Accepted
import Tase.Translator.Batch

/-! The `loop` instruction, whose code may return before the registers are written back. -/

namespace Tase

open Cpp

def Emit.Ends {α : Type} (ub : Undef) (m : Emit α) (n : Nat) (st : CState)
    (Q : Except CState CState → Prop) : Prop :=
  ∀ s a out s', s.varCount = n → m s = .ok (a, out, s') → Q (run ub out st)

namespace Emit.Ends

variable {α β : Type} {ub : Undef} {n : Nat} {st : CState} {Q : Except CState CState → Prop}

theorem of_runs {m : Emit α} (runs : Runs ub m n st fun _ _ st' => Q (.ok st')) :
    Ends ub m n st Q := by
  intro s a out s' count emitted
  obtain ⟨st', ran, post⟩ := runs s a out s' count emitted
  rw [ran]
  exact post

theorem bind {m : Emit α} {f : α → Emit β}
    (first : Runs ub m n st fun a n' st' => Ends ub (f a) n' st' Q) :
    Ends ub (m >>= f) n st Q := by
  intro s b out s' count emitted
  obtain ⟨a, code, middle, code', found, found', rfl⟩ := bind_ok emitted
  obtain ⟨st', ran, rest⟩ := first s a code middle count found
  rw [run_append, ran]
  exact rest middle b code' s' rfl found'

theorem returnIf {c : Exp} {rest : Unit → Emit β}
    (returns : (eval ub st c).truthy = true → Q (.error st))
    (goes : (eval ub st c).truthy = false → Ends ub (rest ()) n st Q) :
    Ends ub (Emit.write (.ite c .ret .skip) >>= rest) n st Q := by
  intro s b out s' count emitted
  obtain ⟨a, code, middle, code', found, found', rfl⟩ := bind_ok emitted
  simp only [Emit.write, Except.ok.injEq, Prod.mk.injEq] at found
  obtain ⟨_, rfl, rfl⟩ := found
  cases test : (eval ub st c).truthy with
  | true =>
      simp only [List.cons_append, List.nil_append, run_cons, exec, test, if_true]
      exact returns test
  | false =>
      simp only [List.cons_append, List.nil_append, run_cons, exec, test, Bool.false_eq_true,
        if_false]
      exact goes test s b code' s' count found'

end Emit.Ends

def loopCount (ub : Undef) (i : Instruction) (m : Mach) : BitVec (i.size1.getD .q).bits :=
  (regOperand .rcx (i.size1.getD .q)).value ub (i.size1.getD .q) m - 1

def loopCounted (ub : Undef) (i : Instruction) (m : Mach) : Mach :=
  (regOperand .rcx (i.size1.getD .q)).write ub (i.size1.getD .q)
    ⟨(i.size1.getD .q).uint, loopCount ub i m⟩ m

/-- `.error` is the machine at the early return. -/
def denoteLoop (ub : Undef) (i : Instruction) (m : Mach) : Except Mach Mach :=
  if loopCount ub i m = 0 then .error (loopCounted ub i m)
  else .ok (denoteJump ub i (loopCounted ub i m))

theorem decrement (ub : Undef) (size : Size) (x : BitVec size.bits) :
    (Val.arith ub .sub ⟨size.uint, x⟩ (.lit .dec 1)).cast size.uint = ⟨size.uint, x - 1⟩ := by
  have one : (Val.lit .dec 1).toInt = 1 := Val.lit_toInt .dec 1 (by decide)
  have start : (⟨size.uint, x⟩ : Val).toInt = x.toNat := rfl
  have small (narrow : size.bits < 32) : x.toNat < 2 ^ 31 :=
    Nat.lt_of_lt_of_le x.isLt (Nat.pow_le_pow_right (by decide) (by omega))
  have other : (Val.lit .dec 1).ty.width ≤ 32 ∨ (Val.lit .dec 1).ty = size.uint := .inl (by decide)
  have wide : size.bits ≤ (Ty.common size.uint (Val.lit .dec 1).ty).width := by
    cases size <;> decide
  have difference : (Val.arith ub .sub ⟨size.uint, x⟩ (.lit .dec 1)).conv size.uint =
      BitVec.ofInt size.bits (x.toNat - 1) := by
    refine (Val.arith_conv ub rfl (Ty.inRange_uint other ?_) (Ty.inRange_uint other ?_)
      (Ty.inRange_uint other ?_) size.uint wide).trans (by rw [one, start])
    · intro narrow
      have := small narrow
      rw [start]
      omega
    · intro narrow
      rw [one]
      omega
    · intro narrow
      have := small narrow
      simp only [one, start]
      omega
  rw [Val.cast, difference, ofInt_sub, BitVec.ofInt_natCast, BitVec.ofNat_toNat, BitVec.setWidth_eq]
  rfl

def EndsAt (expected : Except Mach Mach) (ended : Except CState CState) : Prop :=
  match expected, ended with
  | .ok m, .ok st | .error m, .error st => st.machine = m
  | _, _ => False

namespace Emit

variable {ub : Undef} {i : Instruction} {n : Nat} {st : CState}

theorem Ends.emitLoop :
    Ends ub (Tase.emitLoop i) n st (EndsAt (denoteLoop ub i st.machine)) := by
  refine bind (Runs.operand ?_)
  refine bind (Runs.lift fun _ _ => ?_)
  refine bind (Runs.emitFetch ?_)
  refine bind (Runs.write rfl ?_)
  have counted : (Val.arith ub .sub
      ((regOperand .rcx (i.size1.getD .q)).fetch ub (i.size1.getD .q) false st.machine)
      (.lit .dec 1)).cast
        ((regOperand .rcx (i.size1.getD .q)).fetch ub (i.size1.getD .q) false st.machine).ty =
      ⟨(i.size1.getD .q).uint, loopCount ub i st.machine⟩ :=
    decrement ub (i.size1.getD .q) _
  have narrow : (i.size1.getD .q).bits ≤ 64 := by cases i.size1.getD .q <;> decide
  have test := Val.cmp_zero ⟨(i.size1.getD .q).uint, loopCount ub i st.machine⟩ narrow
  refine bind (Runs.emitStoreVar ?_)
  simp only [State.bind_vars_self, State.bind_machine, counted]
  unfold denoteLoop
  refine returnIf (fun returns => ?_) fun goes => ?_
  · simp only [eval, dec, State.withMachine_vars, State.bind_vars_self, test,
      Val.ofBool_truthy, decide_eq_true_eq] at returns
    rw [if_pos returns]
    rfl
  · simp only [eval, dec, State.withMachine_vars, State.bind_vars_self, test,
      Val.ofBool_truthy, decide_eq_false_iff_not] at goes
    rw [if_neg goes]
    exact of_runs Runs.emitJump

theorem Ends.emitBody (loops : i.op = .loop) (handled : i.nothingToDo = false) :
    Ends ub (Tase.emitBody i) n st (EndsAt (denoteLoop ub i (stepRip i st.machine))) := by
  refine bind (Runs.stepRip ?_)
  rw [handled]
  have dispatched : Emit.when (!false) (Tase.emitOp i) = Tase.emitLoop i := by
    simp [Emit.when, Tase.emitOp, loops]
  rw [dispatched]
  exact Ends.emitLoop

end Emit

def afterLoop (m : Mach) : Except Mach Mach → Mach
  | .ok m' => m'
  | .error m' => ⟨m.regs, m'.mem⟩

theorem Function.call_endsAt {ub : Undef} {f : Function} {m : Mach} {expected : Except Mach Mach}
    (ends : EndsAt expected (run ub f.body ⟨m, fun _ => default⟩))
    (recorded : ∀ r ∈ assigned f.body, r ∈ f.writes) : f.call ub m = afterLoop m expected := by
  cases ran : run ub f.body ⟨m, fun _ => default⟩ with
  | ok st =>
      rw [ran] at ends
      cases expected with
      | ok m' => exact (Function.call_eq ran recorded).trans ends
      | error m' => exact ends.elim
  | error st =>
      rw [ran] at ends
      cases expected with
      | ok m' => exact ends.elim
      | error m' =>
          obtain rfl : st.machine = m' := ends
          simp only [Function.call, ran, afterLoop]

theorem EmittedAlone.call_loop {i : Instruction} {f : Function} (emitted : EmittedAlone i f)
    (loops : i.op = .loop) (handled : i.nothingToDo = false) (ub : Undef) (m : Mach) :
    f.call ub m = afterLoop m (denoteLoop ub i (stepRip i m)) := by
  obtain ⟨s, s', emitted⟩ := emitted
  obtain ⟨out, s₁, found, same, _⟩ := emitFunction_alone_ok emitted
  obtain rfl := Function.lines_injective same
  obtain ⟨_, recorded, _⟩ := Emit.Records.emitBody s () out s₁ found
  have ends := @Emit.Ends.emitBody ub i s.varCount ⟨m, fun _ => default⟩ loops handled s () out s₁
    rfl found
  exact Function.call_endsAt ends fun r here => (recorded r here).1

end Tase
