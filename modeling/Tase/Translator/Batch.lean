import Tase.Translator.Denotation
import Tase.Translator.Records
import Tase.Translator.Function

/-! A cartridge emitted as one function does what its instructions do one by one. -/

namespace Tase

open Cpp

def emitBodies : List Instruction → Emit Unit
  | [] => pure ()
  | i :: rest => do
      emitBody i
      emitBodies rest

def EmitState.cleared (s : EmitState) : EmitState := (emitFunctionEpilog s).2

theorem emitFunction_ok {position : Position} {i : Instruction} {s s' : EmitState}
    {lines : List Line} (emitted : emitFunction position i s = .ok (lines, s')) :
    ∃ out s₁, emitBody i s = .ok ((), out, s₁) ∧
      lines = (if position.opens then [.prolog i.vaddr] else []) ++ out.map .stmt ++
        (if position.closes then s₁.bbAssignedRegs.map .writeBack ++ [.close] else []) ∧
      s' = if position.closes then s₁.cleared else s₁ := by
  unfold emitFunction at emitted
  split at emitted
  · simp at emitted
  · rename_i out s₁ found
    simp only [Except.ok.injEq, Prod.mk.injEq] at emitted
    obtain ⟨rfl, rfl⟩ := emitted
    refine ⟨out, s₁, found, ?_, ?_⟩
    · cases position <;> rfl
    · cases position <;> rfl

theorem emitBodies_cons {i : Instruction} {rest : List Instruction} {s s₁ s₂ : EmitState}
    {out out' : List Code} (first : emitBody i s = .ok ((), out, s₁))
    (second : emitBodies rest s₁ = .ok ((), out', s₂)) :
    emitBodies (i :: rest) s = .ok ((), out ++ out', s₂) := by
  change Emit.bind (emitBody i) (fun _ => emitBodies rest) s = _
  simp [Emit.bind, first, second]

theorem Print.andThen_ok {first second : Print} {s s' : EmitState} {lines : List Line}
    (printed : first.andThen second s = .ok (lines, s')) :
    ∃ before middle after, first s = .ok (before, middle) ∧
      second middle = .ok (after, s') ∧ lines = before ++ after := by
  unfold andThen at printed
  split at printed
  · simp at printed
  · rename_i before middle found
    split at printed
    · simp at printed
    · rename_i after last found'
      simp only [Except.ok.injEq, Prod.mk.injEq] at printed
      obtain ⟨rfl, rfl⟩ := printed
      exact ⟨before, middle, after, found, found', rfl⟩

theorem emitRest_ok {rest : List Instruction} {s s' : EmitState} {lines : List Line}
    (emitted : emitRest rest s = .ok (lines, s')) :
    ∃ out s₁, emitBodies rest s = .ok ((), out, s₁) ∧
      lines = out.map .stmt ++ s₁.bbAssignedRegs.map .writeBack ++ [.close] ∧
      s' = s₁.cleared := by
  induction rest generalizing s lines with
  | nil =>
      simp only [emitRest, emitFunctionEpilog, Except.ok.injEq, Prod.mk.injEq] at emitted
      obtain ⟨rfl, rfl⟩ := emitted
      exact ⟨[], s, rfl, by simp, rfl⟩
  | cons i rest ih =>
      cases rest with
      | nil =>
          obtain ⟨out, s₁, found, rfl, rfl⟩ := emitFunction_ok emitted
          refine ⟨out, s₁, ?_, by simp [Position.opens, Position.closes], rfl⟩
          simpa using emitBodies_cons found (rfl : emitBodies [] s₁ = .ok ((), [], s₁))
      | cons next rest =>
          obtain ⟨before, middle, after, head, tail, rfl⟩ := Print.andThen_ok emitted
          obtain ⟨out, s₁, found, rfl, rfl⟩ := emitFunction_ok head
          obtain ⟨out', s₂, found', rfl, rfl⟩ := ih tail
          refine ⟨out ++ out', s₂, emitBodies_cons found found', ?_, rfl⟩
          simp [Position.opens, Position.closes]

theorem emitCartridge_ok {i : Instruction} {rest : List Instruction} {s s' : EmitState}
    {lines : List Line} (emitted : emitCartridge (i :: rest) s = .ok (lines, s')) :
    ∃ out s₁, emitBodies (i :: rest) s = .ok ((), out, s₁) ∧
      lines = Function.lines ⟨i.vaddr, out, s₁.bbAssignedRegs⟩ ∧ s' = s₁.cleared := by
  obtain ⟨before, middle, after, head, tail, rfl⟩ := Print.andThen_ok emitted
  obtain ⟨out, s₁, found, rfl, rfl⟩ := emitFunction_ok head
  obtain ⟨out', s₂, found', rfl, rfl⟩ := emitRest_ok tail
  refine ⟨out ++ out', s₂, emitBodies_cons found found', ?_, rfl⟩
  simp [Function.lines, Position.opens, Position.closes]

theorem emitFunction_alone_ok {i : Instruction} {s s' : EmitState} {lines : List Line}
    (emitted : emitFunction .alone i s = .ok (lines, s')) :
    ∃ out s₁, emitBody i s = .ok ((), out, s₁) ∧
      lines = Function.lines ⟨i.vaddr, out, s₁.bbAssignedRegs⟩ ∧ s' = s₁.cleared := by
  obtain ⟨out, s₁, found, rfl, rfl⟩ := emitFunction_ok emitted
  refine ⟨out, s₁, found, ?_, rfl⟩
  simp [Function.lines, Position.opens, Position.closes]

theorem Emit.Records.emitBodies (instrs : List Instruction) :
    Emit.Records (fun _ => True) (Tase.emitBodies instrs) fun _ => True := by
  induction instrs with
  | nil => exact pure trivial
  | cons i rest ih => exact bind emitBody fun _ _ => ih

theorem Emit.Runs.emitBodies {ub : Undef} {n : Nat} {st : CState} (instrs : List Instruction)
    (noLoop : ∀ i ∈ instrs, i.op ≠ .loop) :
    Emit.Runs ub (Tase.emitBodies instrs) n st fun _ _ st' =>
      st'.machine = instrs.foldl (fun m i => denote ub i m) st.machine := by
  induction instrs generalizing n st with
  | nil => exact pure rfl
  | cons i rest ih =>
      refine bind ((emitBody (noLoop i (by simp))).mono fun _ n' st' done => ?_)
      refine (ih fun j found => noLoop j (by simp [found])).mono fun _ _ st'' rest => ?_
      rw [rest, done]
      rfl

theorem emitBody_run (ub : Undef) {i : Instruction} (notLoop : i.op ≠ .loop) {s s' : EmitState}
    {out : List Code} (found : emitBody i s = .ok ((), out, s')) (st : CState) :
    ∃ st', run ub out st = .ok st' ∧ st'.machine = denote ub i st.machine :=
  Emit.Runs.emitBody notLoop s () out s' rfl found

theorem emitBodies_run (ub : Undef) {instrs : List Instruction}
    (noLoop : ∀ i ∈ instrs, i.op ≠ .loop) {s s' : EmitState} {out : List Code}
    (found : emitBodies instrs s = .ok ((), out, s')) (st : CState) :
    ∃ st', run ub out st = .ok st' ∧
      st'.machine = instrs.foldl (fun m i => denote ub i m) st.machine :=
  Emit.Runs.emitBodies instrs noLoop s () out s' rfl found

theorem Function.call_eq {ub : Undef} {f : Function} {m : Mach} {st : CState}
    (ran : run ub f.body ⟨m, fun _ => default⟩ = .ok st)
    (recorded : ∀ r ∈ assigned f.body, r ∈ f.writes) : f.call ub m = st.machine := by
  -- The write-back leaves in `gregs` what the locals hold, if all assignments are recorded.
  have kept (r : Reg) (absent : r ∉ f.writes) : m.regs r = st.machine.regs r := by
    have frame := run_unassigned ub f.body ⟨m, fun _ => default⟩ r fun here => absent (recorded r here)
    rw [ran] at frame
    exact frame.symm
  have regs : (fun r => if r ∈ f.writes then st.machine.regs r else m.regs r) =
      st.machine.regs := by
    funext r
    split
    · rfl
    · rename_i absent
      exact kept r absent
  simp only [call, ran, regs]

def EmittedAlone (i : Instruction) (f : Function) : Prop :=
  ∃ s s', emitFunction .alone i s = .ok (f.lines, s')

def EmittedCartridge (instrs : List Instruction) (f : Function) : Prop :=
  ∃ s s', emitCartridge instrs s = .ok (f.lines, s')

/-- `emit_function` raises no exception on the instruction. -/
def Instruction.Emitted (i : Instruction) : Prop := ∃ s out s', emitBody i s = .ok ((), out, s')

theorem Instruction.Emitted.alone {i : Instruction} (emitted : i.Emitted) :
    ∃ f, EmittedAlone i f := by
  obtain ⟨s, out, s₁, found⟩ := emitted
  refine ⟨⟨i.vaddr, out, s₁.bbAssignedRegs⟩, s, s₁.cleared, ?_⟩
  simp [emitFunction, found, Position.opens, Position.closes, Function.lines, emitFunctionProlog,
    emitFunctionEpilog, EmitState.cleared]

theorem EmittedAlone.emitted {i : Instruction} {f : Function} (alone : EmittedAlone i f) :
    i.Emitted := by
  obtain ⟨s, s', printed⟩ := alone
  obtain ⟨out, s₁, found, _⟩ := emitFunction_alone_ok printed
  exact ⟨s, out, s₁, found⟩

theorem emitBodies_emitted {instrs : List Instruction} {s s' : EmitState} {out : List Code}
    (found : emitBodies instrs s = .ok ((), out, s')) : ∀ i ∈ instrs, i.Emitted := by
  induction instrs generalizing s out with
  | nil => simp
  | cons first rest ih =>
      obtain ⟨_, code, middle, code', head, tail, _⟩ := Emit.bind_ok found
      intro i member
      rcases List.mem_cons.mp member with rfl | later
      · exact ⟨s, code, middle, head⟩
      · exact ih tail i later

theorem EmittedAlone.call {i : Instruction} {f : Function} (emitted : EmittedAlone i f)
    (notLoop : i.op ≠ .loop) (ub : Undef) (m : Mach) : f.call ub m = denote ub i m := by
  obtain ⟨s, s', emitted⟩ := emitted
  obtain ⟨out, s₁, found, same, _⟩ := emitFunction_alone_ok emitted
  obtain rfl := Function.lines_injective same
  obtain ⟨_, recorded, _⟩ := Emit.Records.emitBody s () out s₁ found
  obtain ⟨st, ran, done⟩ := emitBody_run ub notLoop found ⟨m, fun _ => default⟩
  rw [Function.call_eq ran fun r here => (recorded r here).1, done]

theorem EmittedCartridge.bodies {instrs : List Instruction} {f : Function}
    (emitted : EmittedCartridge instrs f) :
    ∃ s s₁, emitBodies instrs s = .ok ((), f.body, s₁) ∧ f.writes = s₁.bbAssignedRegs := by
  obtain ⟨s, s', emitted⟩ := emitted
  cases instrs with
  | nil => simp [emitCartridge, Function.lines] at emitted
  | cons i rest =>
      obtain ⟨out, s₁, found, same, _⟩ := emitCartridge_ok emitted
      obtain rfl := Function.lines_injective same
      exact ⟨s, s₁, found, rfl⟩

theorem EmittedCartridge.emitted {instrs : List Instruction} {f : Function}
    (emitted : EmittedCartridge instrs f) : ∀ i ∈ instrs, i.Emitted := by
  obtain ⟨s, s₁, found, _⟩ := emitted.bodies
  exact emitBodies_emitted found

theorem EmittedCartridge.recorded {instrs : List Instruction} {f : Function}
    (emitted : EmittedCartridge instrs f) : ∀ r ∈ assigned f.body, r ∈ f.writes := by
  obtain ⟨s, s₁, found, writes⟩ := emitted.bodies
  obtain ⟨_, recorded, _⟩ := Emit.Records.emitBodies instrs s () f.body s₁ found
  exact fun r here => writes ▸ (recorded r here).1

theorem denote_rip (ub : Undef) {i : Instruction} (emitted : i.Emitted) (notLoop : i.op ≠ .loop)
    (straight : i.transfersControl = false) (m : Mach) :
    (denote ub i m).regs .rip = m.regs .rip + BitVec.ofNat 64 i.length := by
  cases skipped : i.nothingToDo with
  | true => simp [denote, skipped, stepRip]
  | false =>
      obtain ⟨s, out, s', found⟩ := emitted
      obtain ⟨_, _, middle, code, _, rest, _⟩ := Emit.bind_ok found
      rw [skipped] at rest
      obtain ⟨st, ran, done⟩ : ∃ st, run ub code ⟨stepRip i m, fun _ => default⟩ = .ok st ∧
          st.machine = denoteOp ub i (stepRip i m) :=
        Emit.Runs.emitOp notLoop middle () code s' rfl rest
      obtain ⟨_, away, _⟩ := Emit.Records.emitOp_straight straight skipped middle () code s' rest
      have frame := run_unassigned ub code ⟨stepRip i m, fun _ => default⟩ .rip
        fun here => (away .rip here).2 rfl
      rw [ran] at frame
      simp only [denote, skipped, Bool.false_eq_true, if_false, ← done]
      rw [show st.machine.regs .rip = (stepRip i m).regs .rip from frame]
      simp [stepRip]

theorem EmittedCartridge.call {instrs : List Instruction} {f : Function}
    (emitted : EmittedCartridge instrs f) (noLoop : ∀ i ∈ instrs, i.op ≠ .loop)
    (ub : Undef) (m : Mach) :
    f.call ub m = instrs.foldl (fun m i => denote ub i m) m := by
  obtain ⟨s, s₁, found, _⟩ := emitted.bodies
  obtain ⟨st, ran, done⟩ := emitBodies_run ub noLoop found ⟨m, fun _ => default⟩
  rw [Function.call_eq ran emitted.recorded, done]

/-- Batching is stepping: the one function printed for a cartridge leaves the same registers
and memory as the functions printed for its instructions, called in order. -/
theorem cartridge_call_eq_steps (ub : Undef) (instrs : List Instruction)
    (noLoop : ∀ i ∈ instrs, i.op ≠ .loop) (batched : Function)
    (emitted : EmittedCartridge instrs batched) (singles : List Function)
    (each : List.Forall₂ EmittedAlone instrs singles) (m : Mach) :
    batched.call ub m = singles.foldl (fun m f => f.call ub m) m ∧
      (∀ r ∈ assigned batched.body, r ∈ batched.writes) ∧
      ∀ r, r ∉ assigned batched.body → (batched.call ub m).regs r = m.regs r := by
  refine ⟨?_, emitted.recorded, ?_⟩
  · rw [emitted.call noLoop]
    clear emitted
    induction each generalizing m with
    | nil => rfl
    | cons head tail ih =>
        rw [List.foldl_cons, List.foldl_cons, head.call (noLoop _ (by simp))]
        exact ih (fun j found => noLoop j (by simp [found])) _
  · intro r absent
    obtain ⟨s, s₁, found, _⟩ := emitted.bodies
    obtain ⟨st, ran, _⟩ := emitBodies_run ub noLoop found ⟨m, fun _ => default⟩
    have frame := run_unassigned ub batched.body ⟨m, fun _ => default⟩ r absent
    rw [ran] at frame
    rw [Function.call_eq ran emitted.recorded]
    exact frame


def setThenJump : List Instruction :=
  [{ original := "setne %al", vaddr := 0x1000, length := 3, op := .set, size1 := some .b,
     cond := some .z, cNeg := true, cEq := true, operands := [.reg (.l .rax)] },
   { original := "jmpq *%rbx", vaddr := 0x1003, length := 2, op := .j, size1 := some .q,
     operands := [.reg (.q (.gpr .rbx))] }]

theorem cartridge_call_eq_steps_setThenJump :
    ∃ batched singles, EmittedCartridge setThenJump batched ∧
      List.Forall₂ EmittedAlone setThenJump singles ∧
      ∀ ub m, batched.call ub m = singles.foldl (fun m f => f.call ub m) m := by
  have batched : EmittedCartridge setThenJump
      ((printed (emitCartridge setThenJump)).get rfl) := ⟨.initial, _, rfl⟩
  have each : List.Forall₂ EmittedAlone setThenJump
      [(printed (emitFunction .alone setThenJump[0])).get rfl,
        (printed (emitFunction .alone setThenJump[1])).get rfl] :=
    .cons ⟨.initial, _, rfl⟩ (.cons ⟨.initial, _, rfl⟩ .nil)
  have noLoop : ∀ i ∈ setThenJump, i.op ≠ .loop := by simp [setThenJump]
  exact ⟨_, _, batched, each, fun ub m =>
    (cartridge_call_eq_steps ub setThenJump noLoop _ batched _ each m).1⟩


end Tase
