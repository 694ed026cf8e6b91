import Tase.Translator.BitScan
import Tase.Translator.Stack
import Tase.Translator.Terminators

/-! `bsf` and `bsr` among the instructions of a cartridge. -/

namespace Tase

open Cpp

def emitScanCartridge (before : List Instruction) (op : Scan) (i : Instruction) (after : List Instruction) :
    Emit Unit := do
  emitBodies before
  op.emit i
  emitBodies after

def EmittedScan (before : List Instruction) (op : Scan) (i : Instruction) (after : List Instruction)
    (f : Function) : Prop :=
  ∃ s s', emitScanCartridge before op i after s = .ok ((), f.body, s') ∧ f.writes = s'.bbAssignedRegs

namespace Emit

theorem Records.ifElse {P : Reg → Prop} {c : Exp} {yes no : Emit Unit} (first : Records P yes fun _ => True)
    (second : Records P no fun _ => True) : Records P (Emit.ifElse c yes no) fun _ => True := by
  intro s a out s' emitted
  obtain ⟨code, middle, code', found, found', rfl⟩ := ifElse_ok emitted
  obtain ⟨grows, recorded, _⟩ := first s () code middle found
  obtain ⟨grows', recorded', _⟩ := second middle () code' s' found'
  refine ⟨fun r here => grows' (grows here), fun r assigns => ?_, trivial⟩
  simp only [assigned, List.flatMap_cons, List.flatMap_nil, Stmt.assigned, block_assigned, List.append_nil,
    List.mem_append] at assigns
  rcases assigns with early | late
  · exact ⟨grows' (recorded r early).1, (recorded r early).2⟩
  · exact recorded' r late

theorem Records.emitScan (op : Scan) {i : Instruction} :
    Records (fun _ => True) (op.emit i) fun _ => True := by
  have zero (vEfl : Temp) : Records (fun _ => True) (emitScanZero vEfl) fun _ => True :=
    bind (write rfl) fun _ _ => emitSetFlag trivial
  have stored {v : Temp} : Records (fun _ => True) (scanDest.emitStore (.var v) .q) fun _ => True :=
    emitStore fun _ _ => trivial
  cases op with
  | bsf =>
      refine bind (lift fun _ _ => trivial) fun _ _ => bind emitVarDecl fun vEfl _ => ?_
      refine bind emitFetch fun v _ => ifElse (zero vEfl) ?_
      refine bind emitVarDecl fun _ _ => bind stored fun _ _ => bind (write rfl) fun _ _ => ?_
      exact emitSetFlag trivial
  | bsr =>
      refine bind (lift fun _ _ => trivial) fun _ _ => bind emitVarDecl fun vEfl _ => ?_
      refine bind emitFetch fun v _ => bind (ifElse (bind (zero vEfl) fun _ _ => write rfl) (pure trivial)) ?_
      refine fun _ _ => bind emitVarDecl fun _ _ => bind emitVarDecl fun _ _ => ?_
      refine bind (write rfl) fun _ _ => bind (write rfl) fun _ _ => bind (write rfl) fun _ _ => ?_
      refine bind (write rfl) fun _ _ => bind (write rfl) fun _ _ => bind emitVarDecl fun _ _ => ?_
      exact bind (write rfl) fun _ _ => bind stored fun _ _ => emitSetFlag trivial

theorem Ends.andThen {β : Type} {ub : Undef} {n : Nat} {st : CState} {Q R : Except CState CState → Prop}
    {m : Emit Unit} {f : Unit → Emit β} (first : Ends ub m n st R)
    (early : ∀ st', R (.error st') → Q (.error st'))
    (late : ∀ st' n', R (.ok st') → Ends ub (f ()) n' st' Q) : Ends ub (m >>= f) n st Q := by
  intro s b out s' count emitted
  obtain ⟨_, code, middle, code', found, found', rfl⟩ := bind_ok emitted
  have ends := first s () code middle count found
  rw [run_append]
  cases ran : run ub code st with
  | error st' =>
      rw [ran] at ends
      exact early st' ends
  | ok st' =>
      rw [ran] at ends
      exact late st' middle.varCount ends middle b code' s' rfl found'

end Emit

section

variable {ub : Undef} {before after : List Instruction} {op : Scan} {i : Instruction} {f : Function}
  {m : Mach} {k : Nat}

theorem EmittedScan.call (emitted : EmittedScan before op i after f)
    (noLoop : ∀ j ∈ before ++ after, j.op ≠ .loop)
    (index : (i.arg 0).value ub .q (stepAll ub before m) ≠ 0 →
      op.IsIndex ((i.arg 0).value ub .q (stepAll ub before m)) k) :
    f.call ub m = afterLoop m ((op.denote ub ((i.arg 0).value ub .q (stepAll ub before m)) k
      (stepAll ub before m)).map (stepAll ub after)) := by
  obtain ⟨s, s', found, writes⟩ := emitted
  have recorded : ∀ r ∈ assigned f.body, r ∈ f.writes := by
    have records : Emit.Records (fun _ => True) (emitScanCartridge before op i after) fun _ => True :=
      .bind (.emitBodies before) fun _ _ => .bind (.emitScan op) fun _ _ => .emitBodies after
    obtain ⟨_, recorded, _⟩ := records s () f.body s' found
    exact fun r here => writes ▸ (recorded r here).1
  refine Function.call_endsAt ?_ recorded
  refine (?_ : Emit.Ends ub (emitScanCartridge before op i after) s.varCount ⟨m, fun _ => default⟩ _)
    s () f.body s' rfl found
  refine .bind ((Emit.Runs.emitBodies before fun j member => noLoop j (by simp [member])).mono ?_)
  intro _ n' st₁ done
  change st₁.machine = stepAll ub before m at done
  rw [← done] at index ⊢
  refine (Emit.Ends.emitScan op index).andThen (fun st' early => ?_) fun st' n'' late => ?_
  · cases ended : op.denote ub ((i.arg 0).value ub .q st₁.machine) k st₁.machine with
    | ok m' =>
        rw [ended] at early
        exact early.elim
    | error m' =>
        rw [ended] at early
        exact early
  · cases ended : op.denote ub ((i.arg 0).value ub .q st₁.machine) k st₁.machine with
    | error m' =>
        rw [ended] at late
        exact late.elim
    | ok m' =>
        rw [ended] at late
        refine .of_runs ((Emit.Runs.emitBodies after fun j member => noLoop j (by simp [member])).mono ?_)
        intro _ _ st'' stepped
        change st''.machine = stepAll ub after m'
        rw [stepped, show st'.machine = m' from late]
        rfl

end

/-- What the manual says of the scan of `x` in a cartridge that had come to `m`: ZF tells a source of zero, any
other source gives its index, and what was computed before the scan is not lost. -/
structure ScansBits (op : Scan) (g : Gpr) (x : BitVec 64) (m m' : Mach) : Prop where
  zero : eflBit m' flagZF = decide (x = 0)
  index : x ≠ 0 → op.IsIndex x (m'.regs (.gpr g)).toNat
  kept : x = 0 → ∀ r, r ≠ .efl → r ≠ .gpr g → m'.regs r = m.regs r

/-- `bsf` has to find a bit, and to find it for RAX; `bsr` is right only about a zero for which there is
nothing to be done. -/
def ScanFits (op : Scan) (g : Gpr) (x : BitVec 64) (start m : Mach) : Prop :=
  match op with
  | .bsf => x ≠ 0 ∧ (g = .rax ∨ IsLowest x (m.regs (.gpr g)).toNat)
  | .bsr => x = 0 ∧ eflBit start flagZF = true ∧ ∀ r, r ≠ .efl → r ≠ .gpr g → start.regs r = m.regs r

section

variable {ub : Undef} {op : Scan} {g : Gpr} {x : BitVec 64} {k : Nat} {start m : Mach}

theorem eflBit_scanned (v : Val) : eflBit (setFlag ub cozpsMask v false m) flagZF = v.bit flagZF :=
  eflBit_setFlag ub (by decide) (by decide)

theorem setFlag_others {v : Val} {r : Reg} (other : r ≠ .efl) :
    (setFlag ub cozpsMask v false m).regs r = m.regs r := by
  rw [setFlag, Machine.setReg_regs, if_neg other]

theorem scansBits_iff (index : x ≠ 0 → k < 64 ∧ op.IsIndex x k) :
    ScansBits op g x m (afterLoop start (op.denote ub x k m)) ↔ ScanFits op g x start m := by
  by_cases zero : x = 0
  · cases op with
    | bsf =>
        have cleared : eflBit (afterLoop start (Scan.bsf.denote ub x k m)) flagZF = false := by
          unfold Scan.denote
          rw [if_pos zero]
          exact eflBit_scanned flagZero
        constructor
        · intro scans
          have flag := scans.zero
          rw [cleared, decide_eq_true zero] at flag
          cases flag
        · rintro ⟨nonzero, _⟩
          exact absurd zero nonzero
    | bsr =>
        have returned : (afterLoop start (Scan.bsr.denote ub x k m)).regs = start.regs := by
          unfold Scan.denote
          rw [if_pos zero]
          rfl
        have flag : eflBit (afterLoop start (Scan.bsr.denote ub x k m)) flagZF = eflBit start flagZF := by
          rw [eflBit, eflBit, returned]
        constructor
        · intro scans
          have tells := scans.zero
          rw [flag, decide_eq_true zero] at tells
          refine ⟨zero, tells, fun r notFlags other => ?_⟩
          rw [← scans.kept zero r notFlags other, returned]
        · rintro ⟨_, set, nothing⟩
          refine ⟨?_, fun nonzero => absurd zero nonzero, fun _ r notFlags other => ?_⟩
          · rw [flag, set, decide_eq_true zero]
          · rw [returned, nothing r notFlags other]
  · obtain ⟨small, found⟩ := index zero
    have ran : afterLoop start (op.denote ub x k m) =
        setFlag ub cozpsMask op.flags false (m.setReg (.gpr .rax) (BitVec.ofNat 64 k)) := by
      unfold Scan.denote
      rw [if_neg zero]
      rfl
    rw [ran]
    cases op with
    | bsf =>
        have stored : (setFlag ub cozpsMask Scan.bsf.flags false
            (m.setReg (.gpr .rax) (BitVec.ofNat 64 k))).regs (.gpr g) =
              if g = .rax then BitVec.ofNat 64 k else m.regs (.gpr g) := by
          rw [setFlag_others (by simp), Machine.setReg_regs]
          simp
        have place : (BitVec.ofNat 64 k).toNat = k := by
          rw [BitVec.toNat_ofNat, Nat.mod_eq_of_lt (by omega)]
        have either : IsLowest x (if g = .rax then BitVec.ofNat 64 k else m.regs (.gpr g)).toNat ↔
            g = .rax ∨ IsLowest x (m.regs (.gpr g)).toNat := by
          by_cases accumulator : g = .rax
          · rw [if_pos accumulator, place]
            exact ⟨fun _ => .inl accumulator, fun _ => found⟩
          · rw [if_neg accumulator]
            simp [accumulator]
        constructor
        · intro scans
          have index := scans.index zero
          rw [stored] at index
          exact ⟨zero, either.mp index⟩
        · rintro ⟨_, right⟩
          refine ⟨?_, fun _ => ?_, fun isZero => absurd isZero zero⟩
          · rw [eflBit_scanned, decide_eq_false zero]
            rfl
          · rw [stored]
            exact either.mpr right
    | bsr =>
        constructor
        · intro scans
          have flag := scans.zero
          rw [eflBit_scanned, decide_eq_false zero] at flag
          cases flag
        · rintro ⟨isZero, _⟩
          exact absurd isZero zero

end

/-! The sequence of the repository's test. -/

def movOnes : Instruction :=
  { original := "mov    $0xffffffffffffffff,%rcx", vaddr := 0x1000, length := 7, op := .mov, size1 := some .q,
    operands := [.imm 0xffffffffffffffff, .reg (.q (.gpr .rcx))] }

def cmoveOnes : Instruction :=
  { original := "cmoveq %rcx,%rax", vaddr := 0x100b, length := 4, op := .cmov, size1 := some .q, cond := some .z,
    cEq := true, operands := [.reg (.q (.gpr .rcx)), .reg (.q (.gpr .rax))] }

def SequenceRight (op : Scan) (x y : BitVec 64) : Prop := if x = 0 then y = -1 else op.IsIndex x y.toNat

section

variable {ub : Undef} {m : Mach}

theorem write_word {r : Reg} {v : BitVec 64} :
    (Operand.reg (.q r)).write ub .q ⟨.uint 64, v⟩ m = m.setReg r v := by
  rw [write_whole r (Nat.le_refl 64)]
  simp

theorem stepAll_single {i : Instruction} (handled : i.nothingToDo = false) :
    stepAll ub [i] m = denoteOp ub i (stepRip i m) := by
  rw [stepAll_cons, stepAll, denote, handled]
  rfl

theorem denote_movOnes : stepAll ub [movOnes] m = (stepRip movOnes m).setReg (.gpr .rcx) (-1) := by
  have ones : (Operand.imm 0xffffffffffffffff).value ub .q (stepRip movOnes m) = -1 :=
    Val.lit_conv .hex 0xffffffffffffffff (.uint 64) (by decide)
  have moved : denoteOp ub movOnes (stepRip movOnes m) = (Operand.reg (.q (.gpr .rcx))).write ub .q
      ⟨.uint 64, (Operand.imm 0xffffffffffffffff).value ub .q (stepRip movOnes m)⟩ (stepRip movOnes m) := rfl
  rw [stepAll_single (by decide), moved, ones, write_word]

theorem denote_cmoveOnes :
    (stepAll ub [cmoveOnes] m).regs (.gpr .rax) =
      if eflBit m flagZF then m.regs (.gpr .rcx) else m.regs (.gpr .rax) := by
  have taken : condTaken ub cmoveOnes (stepRip cmoveOnes m) = eflBit m flagZF := by
    rw [condTaken_eq ub rfl]
    change (((true && decide (Cond.z ≠ .z) && eflBit m flagZF) || eflBit m flagZF) != false) = _
    simp
  have moves : denoteOp ub cmoveOnes (stepRip cmoveOnes m) =
      let same := (Operand.reg (.q (.gpr .rax))).write ub .q
        ⟨.uint 64, (Operand.reg (.q (.gpr .rax))).value ub .q (stepRip cmoveOnes m)⟩ (stepRip cmoveOnes m)
      if condTaken ub cmoveOnes same then (Operand.reg (.q (.gpr .rax))).write ub .q
        ⟨.uint 64, (Operand.reg (.q (.gpr .rcx))).value ub .q same⟩ same
      else same := rfl
  simp only [value_whole, write_word, Machine.setReg_self, taken] at moves
  rw [stepAll_single (by decide), moves]
  split
  · simp [stepRip_regs]
  · simp [stepRip_regs]

theorem sequenceRight_iff {op : Scan} {i : Instruction} {f : Function}
    (operands : i.operands = [.reg (.q (.gpr .rdi)), .reg (.q (.gpr .rax))])
    (emitted : EmittedScan [movOnes] op i [cmoveOnes] f) :
    SequenceRight op (m.regs (.gpr .rdi)) ((f.call ub m).regs (.gpr .rax)) ↔
      (op = .bsf ∧ m.regs (.gpr .rdi) ≠ 0) ∨ (m.regs (.gpr .rdi) = 0 ∧ m.regs (.gpr .rax) = -1) := by
  have source : (i.arg 0).value ub .q (stepAll ub [movOnes] m) = m.regs (.gpr .rdi) := by
    have first : i.arg 0 = .reg (.q (.gpr .rdi)) := by simp [Instruction.arg, operands]
    rw [first, value_whole, denote_movOnes]
    rfl
  have accumulator : (stepAll ub [movOnes] m).regs (.gpr .rax) = m.regs (.gpr .rax) := by
    rw [denote_movOnes]
    rfl
  have counter : (stepAll ub [movOnes] m).regs (.gpr .rcx) = -1 := by
    rw [denote_movOnes]
    rfl
  have noLoop : ∀ j ∈ [movOnes] ++ [cmoveOnes], j.op ≠ .loop := by simp [movOnes, cmoveOnes]
  unfold SequenceRight
  by_cases zero : m.regs (.gpr .rdi) = 0
  · have called := @EmittedScan.call ub [movOnes] [cmoveOnes] op i f m 0 emitted noLoop
      fun nonzero => absurd (source.trans zero) nonzero
    rw [source, zero] at called
    have unchanged : (f.call ub m).regs (.gpr .rax) = m.regs (.gpr .rax) := by
      rw [called]
      cases op with
      | bsf =>
          change (stepAll ub [cmoveOnes] (setFlag ub cozpsMask flagZero false (stepAll ub [movOnes] m))).regs
            (.gpr .rax) = _
          rw [denote_cmoveOnes, eflBit_scanned, setFlag_others (by simp), setFlag_others (by simp), accumulator]
          exact if_neg (by decide)
      | bsr => rfl
    rw [if_pos zero, unchanged]
    simp [zero]
  · obtain ⟨k, small, index⟩ := op.exists_index zero
    have called := @EmittedScan.call ub [movOnes] [cmoveOnes] op i f m k emitted noLoop
      fun _ => source.symm ▸ index
    unfold Scan.denote at called
    rw [source, if_neg zero] at called
    have ran : f.call ub m = stepAll ub [cmoveOnes] (setFlag ub cozpsMask op.flags false
      ((stepAll ub [movOnes] m).setReg (.gpr .rax) (BitVec.ofNat 64 k))) := called
    have copied : ((stepAll ub [movOnes] m).setReg (.gpr .rax) (BitVec.ofNat 64 k)).regs (.gpr .rcx) = -1 := by
      rw [Machine.setReg_regs, if_neg (by simp), counter]
    rw [if_neg zero, ran, denote_cmoveOnes, eflBit_scanned, setFlag_others (by simp), setFlag_others (by simp),
      Machine.setReg_regs_self, copied]
    cases op with
    | bsf =>
        have place : (BitVec.ofNat 64 k).toNat = k := by
          rw [BitVec.toNat_ofNat, Nat.mod_eq_of_lt (by omega)]
        rw [if_neg (by decide), place]
        exact ⟨fun _ => .inl ⟨rfl, zero⟩, fun _ => index⟩
    | bsr =>
        rw [if_pos (by decide)]
        constructor
        · intro high
          exact absurd (IsHighest.lt high) (by decide)
        · rintro (⟨other, _⟩ | ⟨isZero, _⟩)
          · cases other
          · exact absurd isZero zero

end

/-- When a scan of the word that `emit_fetch` reads is right: `bsf` never tells a source of zero, `bsr` takes
every source for one, and RAX is written whatever the destination. -/
theorem scan_zero_iff {ub : Undef} {op : Scan} {i : Instruction} {src : Operand} {g : Gpr}
    {before : List Instruction} {f : Function} {m : Mach} (operands : i.operands = [src, .reg (.q (.gpr g))])
    (noLoop : ∀ j ∈ before, j.op ≠ .loop) (emitted : EmittedScan before op i [] f) :
    (ScansBits op g (src.value ub .q (stepAll ub before m)) (stepAll ub before m) (f.call ub m) ↔
      ScanFits op g (src.value ub .q (stepAll ub before m)) m (stepAll ub before m)) ∧
    (src = .reg (.q (.gpr .rdi)) → g = .rax → ∀ {f' : Function} {m' : Mach},
      EmittedScan [movOnes] op i [cmoveOnes] f' →
      (SequenceRight op (m'.regs (.gpr .rdi)) ((f'.call ub m').regs (.gpr .rax)) ↔
        (op = .bsf ∧ m'.regs (.gpr .rdi) ≠ 0) ∨ (m'.regs (.gpr .rdi) = 0 ∧ m'.regs (.gpr .rax) = -1))) := by
  have first : i.arg 0 = src := by simp [Instruction.arg, operands]
  refine ⟨?_, ?_⟩
  · obtain ⟨k, index⟩ : ∃ k, src.value ub .q (stepAll ub before m) ≠ 0 →
        k < 64 ∧ op.IsIndex (src.value ub .q (stepAll ub before m)) k := by
      by_cases zero : src.value ub .q (stepAll ub before m) = 0
      · exact ⟨0, fun nonzero => absurd zero nonzero⟩
      · obtain ⟨k, small, index⟩ := op.exists_index zero
        exact ⟨k, fun _ => ⟨small, index⟩⟩
    have nothing (ended : Except Mach Mach) : ended.map (stepAll ub []) = ended := by cases ended <;> rfl
    have called := @EmittedScan.call ub before [] op i f m k emitted (by simpa using noLoop)
      (first.symm ▸ fun nonzero => (index nonzero).2)
    rw [first, nothing] at called
    rw [called]
    exact scansBits_iff index
  · rintro rfl rfl f' m' sequence
    exact sequenceRight_iff operands sequence

def scanFunction (op : Scan) (before after : List Instruction) : Function :=
  match emitScanCartridge before op scanRdi after .initial with
  | .ok (_, out, s) => ⟨0x1000, out, s.bbAssignedRegs⟩
  | .error _ => ⟨0x1000, [], []⟩

theorem emittedScan_scanFunction (op : Scan) {before after : List Instruction}
    (first : Emit.Emits (emitBodies before)) (last : Emit.Emits (emitBodies after)) :
    EmittedScan before op scanRdi after (scanFunction op before after) := by
  have fetchable : (Operand.reg (.q (.gpr .rdi))).Fetchable .q := ⟨_, rfl⟩
  have emits : Emit.Emits (emitScanCartridge before op scanRdi after) :=
    .bind first fun _ => .bind (.emitScan op rfl fetchable) fun _ => last
  obtain ⟨_, out, s', found⟩ := emits .initial
  have printed : scanFunction op before after = ⟨0x1000, out, s'.bbAssignedRegs⟩ := by
    unfold scanFunction
    rw [found]
  rw [printed]
  exact ⟨.initial, s', found, rfl⟩

theorem emits_movOnes : Emit.Emits (emitBodies [movOnes]) := fun _ => ⟨_, _, _, rfl⟩

theorem emits_cmoveOnes : Emit.Emits (emitBodies [cmoveOnes]) := fun _ => ⟨_, _, _, rfl⟩

theorem scan_zero_iff_found :
    ScansBits .bsf .rax 0x50 (stepAll default [movOnes] ⟨fun _ => 0x50, fun _ => 0⟩)
        ((scanFunction .bsf [movOnes] []).call default ⟨fun _ => 0x50, fun _ => 0⟩) ∧
      SequenceRight .bsf 0x50
        (((scanFunction .bsf [movOnes] [cmoveOnes]).call default ⟨fun _ => 0x50, fun _ => 0⟩).regs (.gpr .rax)) := by
  have emitted : EmittedScan [movOnes] .bsf scanRdi [] (scanFunction .bsf [movOnes] []) :=
    emittedScan_scanFunction .bsf emits_movOnes (.pure ())
  have sequence := emittedScan_scanFunction .bsf emits_movOnes emits_cmoveOnes
  have noLoop : ∀ j ∈ [movOnes], j.op ≠ .loop := by simp [movOnes]
  obtain ⟨scans, right⟩ := @scan_zero_iff default .bsf scanRdi _ .rax [movOnes] _
    ⟨fun _ => 0x50, fun _ => 0⟩ rfl noLoop emitted
  refine ⟨scans.mpr ⟨by decide, .inl rfl⟩, ?_⟩
  exact (@right rfl rfl _ ⟨fun _ => 0x50, fun _ => 0⟩ sequence).mpr (.inl ⟨rfl, by decide⟩)

theorem scans_wrong :
    ¬ SequenceRight .bsf 0
        (((scanFunction .bsf [movOnes] [cmoveOnes]).call default ⟨fun _ => 0, fun _ => 0⟩).regs (.gpr .rax)) ∧
      ¬ SequenceRight .bsr 1
        (((scanFunction .bsr [movOnes] [cmoveOnes]).call default ⟨fun _ => 1, fun _ => 0⟩).regs (.gpr .rax)) ∧
      ∀ r, ((scanFunction .bsr [movOnes] [cmoveOnes]).call default ⟨fun _ => 0, fun _ => 0⟩).regs r = 0 := by
  -- `bsf` of zero leaves RAX alone, `bsr` of one answers -1, and the return that `bsr` takes for a zero loses
  -- what `mov` did to RIP and RCX.
  have forward := emittedScan_scanFunction .bsf emits_movOnes emits_cmoveOnes
  have reverse := emittedScan_scanFunction .bsr emits_movOnes emits_cmoveOnes
  refine ⟨fun right => ?_, fun right => ?_, fun r => ?_⟩
  · have holds := (@sequenceRight_iff default ⟨fun _ => 0, fun _ => 0⟩ _ _ _ rfl forward).mp right
    exact absurd holds (by decide)
  · have holds := (@sequenceRight_iff default ⟨fun _ => 1, fun _ => 0⟩ _ _ _ rfl reverse).mp right
    exact absurd holds (by decide)
  · have noLoop : ∀ j ∈ [movOnes] ++ [cmoveOnes], j.op ≠ .loop := by simp [movOnes, cmoveOnes]
    have zero : (scanRdi.arg 0).value default .q (stepAll default [movOnes] ⟨fun _ => 0, fun _ => 0⟩) = 0 := by
      rw [denote_movOnes]
      rfl
    have called := @EmittedScan.call default _ _ _ _ _ ⟨fun _ => 0, fun _ => 0⟩ 0 reverse noLoop
      fun nonzero => absurd zero nonzero
    rw [called, zero]
    rfl

end Tase
