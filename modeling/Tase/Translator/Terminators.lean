import Tase.Translator.Accepted
import Tase.Translator.Batch
import Mathlib.Data.List.Chain

/-! Cartridges that end in a list of jumps. A jump that is taken only assigns `rip_tmp`, and
the code of the next jump then goes on from there. -/

namespace Tase

open Cpp

def taken (ub : Undef) (t : Instruction) (m : Mach) : Bool :=
  !t.nothingToDo && condTaken ub t (stepRip t m)

def jumpTarget (ub : Undef) (t : Instruction) (m : Mach) : BitVec 64 :=
  ((t.arg 0).value ub t.bits1 (stepRip t m)).setWidth 64

def leadsTo (ub : Undef) (t : Instruction) (m : Mach) : BitVec 64 :=
  if taken ub t m then jumpTarget ub t m else m.regs .rip + BitVec.ofNat 64 t.length

def stepAll (ub : Undef) (instrs : List Instruction) (m : Mach) : Mach :=
  instrs.foldl (fun m i => denote ub i m) m

def stepUntilTaken (ub : Undef) : List Instruction → Mach → Mach
  | [], m => m
  | t :: rest, m => if taken ub t m then denote ub t m else stepUntilTaken ub rest (denote ub t m)

def ripAfter (ub : Undef) (m : Mach) : List Instruction → BitVec 64 → BitVec 64
  | [], r => r
  | t :: rest, r => ripAfter ub m rest (leadsTo ub t (m.setReg .rip r))

/-- No conditional jump is taken, or the final jump leads back to the target of the first
that is. A final operand relative to RIP is read at the RIP that the jumps in between leave. -/
def Harmless (ub : Undef) (conds : List Instruction) (final : Instruction) (m : Mach) : Prop :=
  ∀ before t after, conds = before ++ t :: after → (∀ c ∈ before, taken ub c m = false) →
    taken ub t m = true →
      let target := jumpTarget ub t (m.setReg .rip (BitVec.ofNat 64 t.vaddr))
      leadsTo ub final (m.setReg .rip (ripAfter ub m after target)) = target

def Contiguous (instrs : List Instruction) : Prop :=
  instrs.IsChain fun i next => next.vaddr = i.vaddr + i.length

inductive StepsOut (ub : Undef) (code : List Instruction) : Mach → Mach → Prop
  | out {m : Mach} (outside : ∀ i ∈ code, m.regs .rip ≠ BitVec.ofNat 64 i.vaddr) :
      StepsOut ub code m m
  | step {m m' : Mach} {i : Instruction} {f : Function} (found : i ∈ code)
      (here : m.regs .rip = BitVec.ofNat 64 i.vaddr) (emitted : EmittedAlone i f)
      (rest : StepsOut ub code (f.call ub m) m') : StepsOut ub code m m'

theorem condTaken_setRip (ub : Undef) (t : Instruction) (m : Mach) (x : BitVec 64) :
    condTaken ub t (m.setReg .rip x) = condTaken ub t m := by
  simp [condTaken, flagVal, Machine.setReg_regs]

theorem taken_setRip (ub : Undef) (t : Instruction) (m : Mach) (x : BitVec 64) :
    taken ub t (m.setReg .rip x) = taken ub t m := by
  simp [taken, stepRip, condTaken_setRip]

theorem jump_notSigned {t : Instruction} (jump : t.op = .j) : t.signExt = false :=
  Instruction.signExt_eq_false (by simp [jump])

theorem denote_jump (ub : Undef) {t : Instruction} (jump : t.op = .j)
    (storable : t.nothingToDo = false → t.bits2 = .q) (m : Mach) :
    denote ub t m = m.setReg .rip (leadsTo ub t m) := by
  unfold denote leadsTo taken
  cases skipped : t.nothingToDo with
  | true => simp [stepRip]
  | false =>
      have whole := storable skipped
      have value : denoteMov ub t.signExt (t.arg 0) ripOperand t.bits1 t.bits2 (stepRip t m) =
          m.setReg .rip (jumpTarget ub t m) := by
        rw [jump_notSigned jump, whole]
        have target : denoteMov ub false (t.arg 0) ripOperand t.bits1 .q (stepRip t m) =
            (stepRip t m).setReg .rip (jumpTarget ub t m) := by
          unfold denoteMov
          split
          · rfl
          · simp [ripOperand, Operand.write, Operand.store, baseReg, Operand.fetch, jumpTarget]
        rw [target, stepRip, Machine.setReg_setReg]
      simp only [denoteOp, jump, denoteJump, value, Bool.false_eq_true, if_false, Bool.not_false,
        Bool.true_and]
      split <;> rfl

def IsJump (t : Instruction) : Prop := t.op = .j ∧ t.Emitted

theorem IsJump.denote {t : Instruction} (jump : IsJump t) (ub : Undef) (m : Mach) :
    Tase.denote ub t m = m.setReg .rip (leadsTo ub t m) := by
  refine denote_jump ub jump.1 (fun handled => ?_) m
  obtain ⟨s, out, s', found⟩ := jump.2
  have stored := emitBody_stores found handled (ripOperand, t.bits2) (by
    simp [Instruction.stores, jump.1])
  exact stored.1

theorem leadsTo_setRip (ub : Undef) (t : Instruction) (m : Mach) (x r : BitVec 64) :
    leadsTo ub t ((m.setReg .rip x).setReg .rip r) = leadsTo ub t (m.setReg .rip r) := by
  rw [Machine.setReg_setReg]

theorem ripAfter_setRip (ub : Undef) (m : Mach) (ts : List Instruction) (x r : BitVec 64) :
    ripAfter ub (m.setReg .rip x) ts r = ripAfter ub m ts r := by
  induction ts generalizing r with
  | nil => rfl
  | cons t rest ih => rw [ripAfter, ripAfter, leadsTo_setRip, ih]

theorem ripAfter_append (ub : Undef) (m : Mach) (ts : List Instruction) (final : Instruction)
    (r : BitVec 64) :
    ripAfter ub m (ts ++ [final]) r = leadsTo ub final (m.setReg .rip (ripAfter ub m ts r)) := by
  induction ts generalizing r with
  | nil => rfl
  | cons t rest ih => exact ih _

theorem stepAll_jumps (ub : Undef) (ts : List Instruction) (jumps : ∀ t ∈ ts, IsJump t) (m : Mach) :
    stepAll ub ts m = m.setReg .rip (ripAfter ub m ts (m.regs .rip)) := by
  induction ts generalizing m with
  | nil => simp [stepAll, ripAfter]
  | cons t rest ih =>
      have first := (jumps t (by simp)).denote ub m
      have later := ih (fun t' found => jumps t' (by simp [found])) (denote ub t m)
      simp only [stepAll, List.foldl_cons] at later ⊢
      rw [later, first, ripAfter_setRip, Machine.setReg_setReg, Machine.setReg_regs_self, ripAfter,
        Machine.setReg_self]

theorem setReg_rip_inj {m : Mach} {x y : BitVec 64} :
    m.setReg .rip x = m.setReg .rip y ↔ x = y := by
  constructor
  · intro same
    have at_rip := congrArg (fun m => m.regs .rip) same
    simpa using at_rip
  · rintro rfl
    rfl

theorem taken_leadsTo {ub : Undef} {t : Instruction} {m : Mach} (yes : taken ub t m = true) :
    leadsTo ub t m = jumpTarget ub t m := by
  simp [leadsTo, yes]

theorem untaken_leadsTo {ub : Undef} {t : Instruction} {m : Mach} (no : taken ub t m = false) :
    leadsTo ub t m = m.regs .rip + BitVec.ofNat 64 t.length := by
  simp [leadsTo, no]

theorem Contiguous.tail {i : Instruction} {rest : List Instruction}
    (chain : Contiguous (i :: rest)) : Contiguous rest :=
  List.isChain_of_isChain_cons chain

theorem Contiguous.next {i : Instruction} {rest : List Instruction} {x : BitVec 64}
    (chain : Contiguous (i :: rest)) (here : x = BitVec.ofNat 64 i.vaddr) :
    ∀ next ∈ rest.head?, x + BitVec.ofNat 64 i.length = BitVec.ofNat 64 next.vaddr := by
  intro next isNext
  cases rest with
  | nil => simp at isNext
  | cons second rest =>
      simp only [List.head?_cons, Option.mem_def, Option.some.injEq] at isNext
      have adjacent := (List.isChain_cons_cons.mp chain).1
      rw [here, ← isNext, adjacent, BitVec.ofNat_add]

theorem harmless_taken {ub : Undef} {t final : Instruction} {rest : List Instruction} {m : Mach}
    (here : m.regs .rip = BitVec.ofNat 64 t.vaddr) (yes : taken ub t m = true) :
    Harmless ub (t :: rest) final m ↔
      ripAfter ub m (rest ++ [final]) (jumpTarget ub t m) = jumpTarget ub t m := by
  have atHead : m.setReg .rip (BitVec.ofNat 64 t.vaddr) = m := by rw [← here, Machine.setReg_self]
  rw [ripAfter_append]
  constructor
  · intro harmless
    have first := harmless [] t rest rfl (by simp) yes
    simpa only [atHead] using first
  · intro back before t' after split untaken _
    cases before with
    | nil =>
        simp only [List.nil_append, List.cons.injEq] at split
        obtain ⟨rfl, rfl⟩ := split
        simpa only [atHead] using back
    | cons c before =>
        simp only [List.cons_append, List.cons.injEq] at split
        have no := untaken t (by simp [split.1])
        rw [yes] at no
        cases no

theorem harmless_untaken {ub : Undef} {t final : Instruction} {rest : List Instruction} {m : Mach}
    (no : taken ub t m = false) (x : BitVec 64) :
    Harmless ub (t :: rest) final m ↔ Harmless ub rest final (m.setReg .rip x) := by
  unfold Harmless
  simp only [taken_setRip, Machine.setReg_setReg, ripAfter_setRip]
  constructor
  · intro harmless before t' after split untaken yes
    refine harmless (t :: before) t' after (by simp [split]) ?_ yes
    intro c member
    rcases List.mem_cons.mp member with rfl | later
    · exact no
    · exact untaken c later
  · intro harmless before t' after split untaken yes
    cases before with
    | nil =>
        simp only [List.nil_append, List.cons.injEq] at split
        obtain ⟨rfl, _⟩ := split
        rw [no] at yes
        cases yes
    | cons c before =>
        simp only [List.cons_append, List.cons.injEq] at split
        exact harmless before t' after split.2 (fun c' member => untaken c' (by simp [member])) yes

theorem stepAll_eq_stepUntilTaken_iff (ub : Undef) (conds : List Instruction) (final : Instruction)
    (jumps : ∀ t ∈ conds ++ [final], IsJump t) (chain : Contiguous (conds ++ [final])) (m : Mach)
    (here : ∀ t ∈ (conds ++ [final]).head?, m.regs .rip = BitVec.ofNat 64 t.vaddr) :
    stepAll ub (conds ++ [final]) m = stepUntilTaken ub (conds ++ [final]) m ↔
      Harmless ub conds final m := by
  induction conds generalizing m with
  | nil => simp [stepAll, stepUntilTaken, Harmless]
  | cons t rest ih =>
      have first := (jumps t (by simp)).denote ub m
      have later : ∀ t' ∈ rest ++ [final], IsJump t' := fun t' found => jumps t' (by
        rw [List.cons_append, List.mem_cons]
        exact .inr found)
      have atHead := here t (by simp)
      have unfoldAll : stepAll ub (t :: rest ++ [final]) m =
          stepAll ub (rest ++ [final]) (denote ub t m) := rfl
      rw [unfoldAll, List.cons_append, stepUntilTaken]
      cases decision : taken ub t m with
      | true =>
          rw [if_pos rfl, stepAll_jumps ub _ later, first, taken_leadsTo decision, ripAfter_setRip,
            Machine.setReg_setReg, Machine.setReg_regs_self, setReg_rip_inj]
          exact (harmless_taken atHead decision).symm
      | false =>
          rw [if_neg (by simp), first, harmless_untaken decision (leadsTo ub t m)]
          refine ih later (Contiguous.tail chain) _ ?_
          intro next isNext
          rw [Machine.setReg_regs_self, untaken_leadsTo decision]
          exact Contiguous.next chain atHead next isNext


theorem stepAll_cons (ub : Undef) (i : Instruction) (rest : List Instruction) (m : Mach) :
    stepAll ub (i :: rest) m = stepAll ub rest (denote ub i m) := rfl

theorem stepAll_append (ub : Undef) (first second : List Instruction) (m : Mach) :
    stepAll ub (first ++ second) m = stepAll ub second (stepAll ub first m) := by
  simp [stepAll]

theorem StepsOut.before {ub : Undef} {code : List Instruction} {i : Instruction} {m m' : Mach}
    (found : i ∈ code) (here : m.regs .rip = BitVec.ofNat 64 i.vaddr) (emitted : i.Emitted)
    (notLoop : i.op ≠ .loop) (rest : StepsOut ub code (denote ub i m) m') :
    StepsOut ub code m m' := by
  obtain ⟨f, alone⟩ := emitted.alone
  rw [← alone.call notLoop ub m] at rest
  exact .step found here alone rest

theorem IsJump.notLoop {t : Instruction} (jump : IsJump t) : t.op ≠ .loop := by
  simp [jump.1]

theorem stepUntilTaken_rip (ub : Undef) (ts : List Instruction) (jumps : ∀ t ∈ ts, IsJump t)
    (chain : Contiguous ts) (m : Mach)
    (here : ∀ t ∈ ts.head?, m.regs .rip = BitVec.ofNat 64 t.vaddr)
    (before : List Instruction) (t : Instruction) (after : List Instruction)
    (split : ts = before ++ t :: after) (untaken : ∀ c ∈ before, taken ub c m = false)
    (yes : taken ub t m = true) :
    (stepUntilTaken ub ts m).regs .rip =
      jumpTarget ub t (m.setReg .rip (BitVec.ofNat 64 t.vaddr)) := by
  induction before generalizing ts m with
  | nil =>
      subst split
      have atHead := here t (by simp)
      rw [List.nil_append, stepUntilTaken, if_pos yes, (jumps t (by simp)).denote ub m,
        taken_leadsTo yes, Machine.setReg_regs_self, ← atHead, Machine.setReg_self]
  | cons c before ih =>
      subst split
      have no := untaken c (by simp)
      have atHead := here c (by simp)
      rw [List.cons_append, stepUntilTaken, if_neg (by simp [no]), (jumps c (by simp)).denote ub m]
      have later := ih (before ++ t :: after) (fun t' member => jumps t' (by simp at member ⊢; tauto))
        (Contiguous.tail chain) (m.setReg .rip (leadsTo ub c m)) ?_ rfl ?_ ?_
      · rwa [Machine.setReg_setReg] at later
      · intro next isNext
        rw [Machine.setReg_regs_self, untaken_leadsTo no]
        exact Contiguous.next chain atHead next isNext
      · intro c' member
        rw [taken_setRip]
        exact untaken c' (by simp [member])
      · rwa [taken_setRip]

theorem stepsOut_terminators {ub : Undef} {code : List Instruction} (ts : List Instruction)
    (inside : ∀ t ∈ ts, t ∈ code) (jumps : ∀ t ∈ ts, IsJump t) (chain : Contiguous ts) (m : Mach)
    (here : ∀ t ∈ ts.head?, m.regs .rip = BitVec.ofNat 64 t.vaddr)
    (outside : ∀ i ∈ code, (stepUntilTaken ub ts m).regs .rip ≠ BitVec.ofNat 64 i.vaddr) :
    StepsOut ub code m (stepUntilTaken ub ts m) := by
  induction ts generalizing m with
  | nil => exact .out outside
  | cons t rest ih =>
      have jump := jumps t (by simp)
      have atHead := here t (by simp)
      refine .before (inside t (by simp)) atHead jump.2 jump.notLoop ?_
      rw [stepUntilTaken] at outside ⊢
      cases decision : taken ub t m with
      | true =>
          rw [decision, if_pos rfl] at outside
          rw [if_pos rfl]
          exact .out outside
      | false =>
          rw [decision, if_neg (by simp)] at outside
          rw [if_neg (by simp)]
          refine ih (fun t' member => inside t' (by simp [member]))
            (fun t' member => jumps t' (by simp [member])) (Contiguous.tail chain) _ ?_ outside
          intro next isNext
          rw [jump.denote ub m, Machine.setReg_regs_self, untaken_leadsTo decision]
          exact Contiguous.next chain atHead next isNext

theorem stepAll_rip (ub : Undef) (body rest : List Instruction)
    (emitted : ∀ i ∈ body, i.Emitted) (noLoop : ∀ i ∈ body, i.op ≠ .loop)
    (straight : ∀ i ∈ body, i.transfersControl = false) (chain : Contiguous (body ++ rest))
    (m : Mach) (here : ∀ i ∈ (body ++ rest).head?, m.regs .rip = BitVec.ofNat 64 i.vaddr) :
    ∀ i ∈ rest.head?, (stepAll ub body m).regs .rip = BitVec.ofNat 64 i.vaddr := by
  induction body generalizing m with
  | nil => exact here
  | cons i body ih =>
      have step := denote_rip ub (emitted i (by simp)) (noLoop i (by simp))
        (straight i (by simp)) m
      refine ih (fun j member => emitted j (by simp [member]))
        (fun j member => noLoop j (by simp [member]))
        (fun j member => straight j (by simp [member])) (Contiguous.tail chain) _ ?_
      rw [step]
      exact Contiguous.next chain (here i (by simp))

theorem Contiguous.right {first second : List Instruction} (chain : Contiguous (first ++ second)) :
    Contiguous second := by
  induction first with
  | nil => exact chain
  | cons i rest ih => exact ih (Contiguous.tail chain)

theorem stepsOut_body {ub : Undef} {code : List Instruction} (body rest : List Instruction)
    (inside : ∀ i ∈ body, i ∈ code) (emitted : ∀ i ∈ body, i.Emitted)
    (noLoop : ∀ i ∈ body, i.op ≠ .loop) (straight : ∀ i ∈ body, i.transfersControl = false)
    (chain : Contiguous (body ++ rest)) (m m' : Mach)
    (here : ∀ i ∈ (body ++ rest).head?, m.regs .rip = BitVec.ofNat 64 i.vaddr)
    (leaves : StepsOut ub code (stepAll ub body m) m') : StepsOut ub code m m' := by
  induction body generalizing m with
  | nil => exact leaves
  | cons i body ih =>
      have step := denote_rip ub (emitted i (by simp)) (noLoop i (by simp))
        (straight i (by simp)) m
      refine .before (inside i (by simp)) (here i (by simp)) (emitted i (by simp))
        (noLoop i (by simp)) ?_
      refine ih (fun j member => inside j (by simp [member]))
        (fun j member => emitted j (by simp [member]))
        (fun j member => noLoop j (by simp [member]))
        (fun j member => straight j (by simp [member])) (Contiguous.tail chain) _ ?_ leaves
      rw [step]
      exact Contiguous.next chain (here i (by simp))

/-- The contract of a cartridge with several terminators, entered in the state `m`: it ends
at the target of the first one that is taken, in the state in which one instruction after the
other gets there. -/
structure FollowsFirstTaken (ub : Undef) (body terminators : List Instruction) (m m' : Mach) :
    Prop where
  rip : ∀ before t after, terminators = before ++ t :: after →
    (∀ c ∈ before, taken ub c (stepAll ub body m) = false) →
    taken ub t (stepAll ub body m) = true →
    m'.regs .rip = jumpTarget ub t ((stepAll ub body m).setReg .rip (BitVec.ofNat 64 t.vaddr))
  state : m' = stepUntilTaken ub terminators (stepAll ub body m)
  steps : (∀ i ∈ body ++ terminators, m'.regs .rip ≠ BitVec.ofNat 64 i.vaddr) →
    StepsOut ub (body ++ terminators) m m'

/-- A cartridge meets the contract exactly when going on after the first taken conditional
jump does no harm. -/
theorem terminators_followsFirstTaken_iff (ub : Undef) (body conds : List Instruction)
    (final : Instruction) (batched : Function)
    (emitted : EmittedCartridge (body ++ (conds ++ [final])) batched)
    (noLoop : ∀ i ∈ body, i.op ≠ .loop) (straight : ∀ i ∈ body, i.transfersControl = false)
    (jumps : ∀ t ∈ conds ++ [final], t.op = .j)
    (chain : Contiguous (body ++ (conds ++ [final]))) (m : Mach)
    (atHead : ∀ i ∈ (body ++ (conds ++ [final])).head?, m.regs .rip = BitVec.ofNat 64 i.vaddr) :
    FollowsFirstTaken ub body (conds ++ [final]) m (batched.call ub m) ↔
      Harmless ub conds final (stepAll ub body m) := by
  have all := emitted.emitted
  have areJumps : ∀ t ∈ conds ++ [final], IsJump t := fun t found =>
    ⟨jumps t found, all t (List.mem_append_right _ found)⟩
  have bodyEmitted : ∀ i ∈ body, i.Emitted := fun i found => all i (List.mem_append_left _ found)
  have bodyChain := Contiguous.right chain
  have arrives := stepAll_rip ub body (conds ++ [final]) bodyEmitted noLoop straight chain m atHead
  have called : batched.call ub m = stepAll ub (conds ++ [final]) (stepAll ub body m) := by
    rw [← stepAll_append]
    refine emitted.call (fun i found => ?_) ub m
    rcases List.mem_append.mp found with inBody | inJumps
    · exact noLoop i inBody
    · exact (areJumps i inJumps).notLoop
  rw [← stepAll_eq_stepUntilTaken_iff ub conds final areJumps bodyChain _ arrives, called]
  constructor
  · exact fun follows => follows.state
  · intro same
    rw [same]
    refine ⟨stepUntilTaken_rip ub _ areJumps bodyChain _ arrives, rfl, fun outside => ?_⟩
    refine stepsOut_body body (conds ++ [final]) (fun i found => List.mem_append_left _ found)
      bodyEmitted noLoop straight chain m _ atHead ?_
    exact stepsOut_terminators _ (fun t found => List.mem_append_right _ found) areJumps bodyChain _
      arrives outside


def jumpIfEqual : Instruction :=
  { original := "je 2000 <f>", vaddr := 0x1000, length := 2, op := .j, size1 := some .q,
    cond := some .z, cEq := true, operands := [.addr 0x2000 "f"] }

def jumpAlways : Instruction :=
  { original := "jmpq 3000 <g>", vaddr := 0x1002, length := 5, op := .j, size1 := some .q,
    operands := [.addr 0x3000 "g"] }

def atJumps (efl : BitVec 64) : Mach where
  regs := fun r => match r with
    | .rip => 0x1000
    | .efl => efl
    | .gpr _ => 0
  mem := fun _ => 0

theorem terminators_followsFirstTaken_iff_untaken :
    ∃ batched, EmittedCartridge [jumpIfEqual, jumpAlways] batched ∧
      FollowsFirstTaken default [] [jumpIfEqual, jumpAlways] (atJumps 0) (batched.call default (atJumps 0)) := by
  have emitted : EmittedCartridge [jumpIfEqual, jumpAlways]
      ((printed (emitCartridge [jumpIfEqual, jumpAlways])).get rfl) := ⟨.initial, _, rfl⟩
  refine ⟨_, emitted, (terminators_followsFirstTaken_iff default [] [jumpIfEqual] jumpAlways _ emitted
    (by simp) (by simp) (by simp [jumpIfEqual, jumpAlways]) ?_ (atJumps 0) ?_).mpr ?_⟩
  · simp [Contiguous, jumpIfEqual, jumpAlways]
  · simp [atJumps, jumpIfEqual]
  · intro before t after shape _ jumps
    have only : t = jumpIfEqual := by
      have member : t ∈ [jumpIfEqual] := shape ▸ by simp
      exact List.mem_singleton.mp member
    subst only
    exact absurd jumps (by decide)

theorem terminators_first_taken_lost :
    ∃ batched, EmittedCartridge [jumpIfEqual, jumpAlways] batched ∧
      ¬ FollowsFirstTaken default [] [jumpIfEqual, jumpAlways] (atJumps 0x40)
        (batched.call default (atJumps 0x40)) := by
  -- With `ZF` set the first jump is taken, and the function ends at the target of the second.
  refine ⟨(printed (emitCartridge [jumpIfEqual, jumpAlways])).get rfl, ⟨.initial, _, rfl⟩, ?_⟩
  intro follows
  have rip := follows.rip [] jumpIfEqual [jumpAlways] rfl (by simp) (by decide)
  revert rip
  decide

end Tase
