import Mathlib.Data.Nat.Digits.Lemmas
import Mathlib.Tactic.LinearCombination
import Tase.Translator.Execution
import Tase.Translator.Flags
import Tase.Translator.Moves

/-! Addition and subtraction of numbers of many words, carried from word to word in `CF`. -/

namespace Tase

open Cpp

def wordOp (sub first : Bool) : Op :=
  if sub then if first then .sub else .sbb else if first then .add else .adc

def wordMode (sub first : Bool) : AddMode := ⟨!first, sub, some true, true, false⟩

abbrev Words := List (Place × Place)

/-- A run of word instructions from a state on, with moves in between that have nothing to do
with the kept places. The places are those that the operands denote when they are reached. -/
inductive Chain (ub : Undef) (sub : Bool) (kept : List Place) :
    Bool → List Instruction → Mach → Words → Prop
  | done {m : Mach} : Chain ub sub kept false [] m []
  | word {first : Bool} {i : Instruction} {rest : List Instruction} {m : Mach} {x y : Place}
      {ws : Words} (op : i.op = wordOp sub first) (size : i.size1 = some .q)
      (active : i.ignored = false) (free : ∀ o ∈ i.operands, o.isInstrumentation = false)
      (dest : (i.arg 1).place (stepRip i m) = some x)
      (src : (i.arg 0).place (stepRip i m) = some y)
      (later : Chain ub sub kept false rest (denote ub i m) ws) :
      Chain ub sub kept first (i :: rest) m ((x, y) :: ws)
  | between {i : Instruction} {rest : List Instruction} {m : Mach} {ws : Words} (moves : i.Moves)
      (direct : ¬ i.Redirects) (unrelated : ∀ p ∈ kept, i.Unrelated m p)
      (later : Chain ub sub kept false rest (denote ub i m) ws) :
      Chain ub sub kept false (i :: rest) m ws

/-- A chain for the given words: the moves leave them and the flags alone, and no result
overwrites another word that is still needed. -/
structure CarryChain (ub : Undef) (sub : Bool) (prog : List Instruction) (m : Mach) (ws : Words) :
    Prop where
  chain : Chain ub sub (.reg .efl :: ws.flatMap fun w => [w.1, w.2]) true prog m ws
  apart : ws.Pairwise fun earlier later => later.1.Apart earlier.1 ∧ later.2.Apart earlier.1

def GuardFree (prog : List Instruction) : Prop := ∀ i ∈ prog, i.Moves ∨ i.stackguard = false

/-- The code of the instructions is emitted, and it finds what their operands name. -/
def Located (prog : List Instruction) : Prop := ∀ i ∈ prog, i.Emitted ∧ ∀ o ∈ i.operands, o.Plain

def number (places : List Place) (m : Mach) : Nat :=
  Nat.ofDigits (2 ^ 64) (places.map fun p => (p.read m).toNat)

theorem number_cons (p : Place) (ps : List Place) (m : Mach) :
    number (p :: ps) m = (p.read m).toNat + 2 ^ 64 * number ps m := by
  simp [number, Nat.ofDigits_cons]

theorem number_congr {ps : List Place} {m m' : Mach} (same : ∀ p ∈ ps, p.read m' = p.read m) :
    number ps m' = number ps m := by
  unfold number
  rw [List.map_congr_left fun p member => by rw [same p member]]

theorem number_lt (ps : List Place) (m : Mach) : number ps m < 2 ^ (64 * ps.length) := by
  have digits : ∀ d ∈ ps.map fun p => (p.read m).toNat, d < 2 ^ 64 := by
    intro d member
    obtain ⟨p, _, rfl⟩ := List.mem_map.mp member
    exact (p.read m).isLt
  have bound := Nat.ofDigits_lt_base_pow_length (by decide : 1 < 2 ^ 64) digits
  rwa [List.length_map, ← Nat.pow_mul] at bound

section

variable {ub : Undef} {sub first : Bool} {i : Instruction} {m : Mach} {p x y : Place}

theorem handled_word (op : i.op = wordOp sub first) (active : i.ignored = false)
    (free : ∀ o ∈ i.operands, o.isInstrumentation = false) (guardless : i.Moves ∨ i.stackguard = false) :
    i.nothingToDo = false := by
  have word : i.op ≠ .nop ∧ ¬ i.Moves := by
    unfold Instruction.Moves
    rw [op]
    cases sub <;> cases first <;> decide
  exact Instruction.handled active word.1 free (guardless.resolve_left word.2)

theorem denote_word (op : i.op = wordOp sub first) (handled : i.nothingToDo = false) :
    denote ub i m = denoteAdd ub i none none (wordMode sub first) (stepRip i m) := by
  unfold denote denoteOp
  rw [handled, op]
  cases sub <;> cases first <;> rfl

theorem word_sum (mode : AddMode) (a b : BitVec 64) (c : Bool) :
    ((mode.total a b c).toNat : Int) +
        (if mode.sub then -1 else 1) * 2 ^ 64 * (mode.carryOut a b c).toNat =
      a.toNat + (if mode.sub then -1 else 1) * (b.toNat + mode.carryIn c) := by
  have value := @AddMode.total_toNat .q mode a b c
  have left := a.isLt
  have right := b.isLt
  have carry : mode.carryIn c ≤ 1 := Bool.toNat_le _
  unfold AddMode.carryOut
  cases direction : mode.sub with
  | true =>
      simp only [direction, if_true, Size.bits] at value ⊢
      by_cases borrow : a.toNat < b.toNat + mode.carryIn c
      · rw [if_neg (by omega)] at value
        simp only [borrow, decide_true, Bool.toNat_true, value]
        omega
      · rw [if_pos (by omega)] at value
        simp only [borrow, decide_false, Bool.toNat_false, value]
        omega
  | false =>
      simp only [direction, Bool.false_eq_true, if_false, Size.bits] at value ⊢
      by_cases overflow : 2 ^ 64 ≤ a.toNat + b.toNat + mode.carryIn c
      · rw [if_neg (by omega)] at value
        simp only [overflow, decide_true, Bool.toNat_true, value]
        omega
      · rw [if_pos (by omega)] at value
        simp only [overflow, decide_false, Bool.toNat_false, value]
        omega

theorem denoteAdd_word (bits : i.bits1 = .q) (m : Mach) :
    ∃ flags : BitVec 64, denoteAdd ub i none none (wordMode sub first) m =
      ((i.arg 1).write ub .q ⟨Size.q.uint, (wordMode sub first).total ((i.arg 1).value ub .q m)
        ((i.arg 0).value ub .q m) (eflBit m flagCF)⟩ m).setReg .efl flags := by
  obtain ⟨flags, state⟩ := @denoteAdd_eq ub i m none none (wordMode sub first)
  rw [bits] at state
  exact ⟨flags, state⟩

theorem word_step (op : i.op = wordOp sub first) (size : i.size1 = some .q)
    (handled : i.nothingToDo = false) (emitted : i.Emitted) (plain : ∀ o ∈ i.operands, o.Plain)
    (dest : (i.arg 1).place (stepRip i m) = some x) (src : (i.arg 0).place (stepRip i m) = some y) :
    let a := x.read m
    let b := y.read m
    let c := eflBit m flagCF
    x.read (denote ub i m) = (wordMode sub first).total a b c ∧
      eflBit (denote ub i m) flagCF = (wordMode sub first).carryOut a b c ∧
      ∀ p : Place, p ≠ .reg .rip → p ≠ .reg .efl → p.Apart x → p.read (denote ub i m) = p.read m := by
  have bits : i.bits1 = .q := by simp [Instruction.bits1, size]
  have stepped {p : Place} (counter : p ≠ .reg .rip) : p.read (stepRip i m) = p.read m :=
    Place.read_setReg counter
  obtain ⟨s, out, s', code⟩ := emitted
  have fetches := emitBody_fetches code handled
  have stores := emitBody_stores code handled
  have shape : i.fetches = [(i.arg 0, .q), (i.arg 1, .q)] ∧ i.stores = [(i.arg 1, .q)] := by
    unfold Instruction.fetches Instruction.stores
    rw [op, bits]
    cases sub <;> cases first <;> exact ⟨rfl, rfl⟩
  rw [shape.1] at fetches
  rw [shape.2] at stores
  have found : (i.arg 1).Found := (stores (i.arg 1, .q) (by simp)).found (i.arg_plain plain 1).reach
  have left : (i.arg 1).value ub .q (stepRip i m) = x.read m := by
    rw [Operand.value_read (fetches (i.arg 1, .q) (by simp)) (i.arg_plain plain 1).reach,
      Operand.read_place dest, stepped (Operand.place_general dest).1]
  have right : (i.arg 0).value ub .q (stepRip i m) = y.read m := by
    rw [Operand.value_read (fetches (i.arg 0, .q) (by simp)) (i.arg_plain plain 0).reach,
      Operand.read_place src, stepped (Operand.place_general src).1]
  have flag : eflBit (stepRip i m) flagCF = eflBit m flagCF := rfl
  obtain ⟨flags, result⟩ := @denoteAdd_word ub sub first i bits (stepRip i m)
  rw [left, right, flag] at result
  rw [denote_word op handled]
  refine ⟨?_, ?_, ?_⟩
  · rw [result, Place.read_setReg (Operand.place_general dest).2, Operand.read_write_place dest found
      (Nat.le_refl 64)]
    simp
  · have carry : eflBit (denoteAdd ub i none none (wordMode sub first) (stepRip i m)) flagCF =
        (wordMode sub first).carryOut ((i.arg 1).value ub i.bits1 (stepRip i m))
          ((i.arg 0).value ub i.bits1 (stepRip i m)) (eflBit (stepRip i m) flagCF) := by
      rw [eflBit_denoteAdd ub (.inl rfl)]
      have sets : (wordMode sub first).setCarry = true := rfl
      simp [flagCF, flagOF, flagZF, flagSF, sets]
    rw [carry, bits, left, right, flag]
  · intro p counter notFlags apart
    rw [result, Place.read_setReg notFlags,
      Place.read_write found (Operand.apart_of_place dest apart), stepped counter]

theorem read_between (moves : i.Moves) (direct : ¬ i.Redirects)
    (located : i.Emitted ∧ ∀ o ∈ i.operands, o.Plain) (counter : p ≠ .reg .rip)
    (unrelated : i.Unrelated m p) : p.read (denote ub i m) = p.read m := by
  obtain ⟨⟨s, out, s', code⟩, plain⟩ := located
  exact read_denote_moves moves direct (fun handled => emitBody_stores code handled) plain counter unrelated

end

namespace Chain

variable {ub : Undef} {sub first : Bool} {kept : List Place} {prog : List Instruction} {m : Mach}
  {ws : Words}

theorem general (chain : Chain ub sub kept first prog m ws) :
    ∀ w ∈ ws, (w.1 ≠ .reg .rip ∧ w.1 ≠ .reg .efl) ∧ w.2 ≠ .reg .rip ∧ w.2 ≠ .reg .efl := by
  induction chain with
  | done => simp
  | word op size active free dest src later ih =>
      intro w member
      rcases List.mem_cons.mp member with rfl | inRest
      · exact ⟨Operand.place_general dest, Operand.place_general src⟩
      · exact ih w inRest
  | between moves direct unrelated later ih => exact ih

theorem frame (chain : Chain ub sub kept first prog m ws) (guardless : GuardFree prog)
    (located : Located prog) {p : Place} (member : p ∈ kept) (counter : p ≠ .reg .rip)
    (notFlags : p ≠ .reg .efl) (apart : ∀ w ∈ ws, p.Apart w.1) :
    p.read (stepAll ub prog m) = p.read m := by
  induction chain with
  | done => rfl
  | word op size active free dest src later ih =>
      obtain ⟨here, guardlessLater⟩ := List.forall_mem_cons.mp guardless
      obtain ⟨⟨emitted, plain⟩, locatedLater⟩ := List.forall_mem_cons.mp located
      have handled := handled_word op active free here
      obtain ⟨_, _, others⟩ := word_step op size handled emitted plain dest src
      rw [stepAll_cons, ih guardlessLater locatedLater fun w inRest => apart w (List.mem_cons_of_mem _ inRest)]
      exact others p counter notFlags (apart _ List.mem_cons_self)
  | between moves direct unrelated later ih =>
      obtain ⟨here, locatedLater⟩ := List.forall_mem_cons.mp located
      rw [stepAll_cons, ih (List.forall_mem_cons.mp guardless).2 locatedLater apart]
      exact read_between moves direct here counter (unrelated p member)

theorem sum (chain : Chain ub sub kept first prog m ws) (guardless : GuardFree prog)
    (located : Located prog) (flags : .reg .efl ∈ kept) (inside : ∀ w ∈ ws, w.1 ∈ kept ∧ w.2 ∈ kept)
    (apart : ws.Pairwise fun earlier later => later.1.Apart earlier.1 ∧ later.2.Apart earlier.1) :
    let m' := stepAll ub prog m
    let sign : Int := if sub then -1 else 1
    (number (ws.map (·.1)) m' : Int) + sign * 2 ^ (64 * ws.length) * (eflBit m' flagCF).toNat =
      number (ws.map (·.1)) m +
        sign * (number (ws.map (·.2)) m + ((!first && eflBit m flagCF).toNat : Nat)) := by
  induction chain with
  | done => simp [number, stepAll]
  | @word first i rest m x y ws op size active free dest src later ih =>
      obtain ⟨guard, guardlessLater⟩ := List.forall_mem_cons.mp guardless
      obtain ⟨⟨emitted, plain⟩, locatedLater⟩ := List.forall_mem_cons.mp located
      have handled := handled_word op active free guard
      obtain ⟨written, carried, others⟩ := word_step op size handled emitted plain dest src
      obtain ⟨apartHere, apartLater⟩ := List.pairwise_cons.mp apart
      have insideLater := fun w inRest => inside w (List.mem_cons_of_mem (x, y) inRest)
      have total := ih guardlessLater locatedLater insideLater apartLater
      have unread (w : Place × Place) (inRest : w ∈ ws) :
          w.1.read (denote ub i m) = w.1.read m ∧ w.2.read (denote ub i m) = w.2.read m := by
        obtain ⟨⟨counter, notFlags⟩, counter', notFlags'⟩ := later.general w inRest
        exact ⟨others _ counter notFlags (apartHere w inRest).1,
          others _ counter' notFlags' (apartHere w inRest).2⟩
      have left : number (ws.map (·.1)) (denote ub i m) = number (ws.map (·.1)) m := by
        refine number_congr fun p member => ?_
        obtain ⟨w, inRest, rfl⟩ := List.mem_map.mp member
        exact (unread w inRest).1
      have right : number (ws.map (·.2)) (denote ub i m) = number (ws.map (·.2)) m := by
        refine number_congr fun p member => ?_
        obtain ⟨w, inRest, rfl⟩ := List.mem_map.mp member
        exact (unread w inRest).2
      have stays : x.read (stepAll ub rest (denote ub i m)) = x.read (denote ub i m) := by
        obtain ⟨counter, notFlags⟩ := Operand.place_general dest
        exact later.frame guardlessLater locatedLater (inside (x, y) List.mem_cons_self).1 counter notFlags
          fun w inRest => (apartHere w inRest).1.symm
      have here := word_sum (wordMode sub first) (x.read m) (y.read m) (eflBit m flagCF)
      have mode : (wordMode sub first).carryIn (eflBit m flagCF) =
          (!first && eflBit m flagCF).toNat := rfl
      have direction : (wordMode sub first).sub = sub := rfl
      simp only [mode, direction] at here
      simp only [Bool.not_false, Bool.true_and, left, right, carried] at total
      simp only [List.map_cons, number_cons, stepAll_cons, stays, written, List.length_cons,
        Nat.mul_add, Nat.mul_one]
      push_cast at total here ⊢
      linear_combination 2 ^ 64 * total + here
  | @between i rest m ws moves direct unrelated later ih =>
      obtain ⟨here, locatedLater⟩ := List.forall_mem_cons.mp located
      have total := ih (List.forall_mem_cons.mp guardless).2 locatedLater inside apart
      have same {p : Place} (member : p ∈ kept) (counter : p ≠ .reg .rip) :
          p.read (denote ub i m) = p.read m :=
        read_between moves direct here counter (unrelated p member)
      have left : number (ws.map (·.1)) (denote ub i m) = number (ws.map (·.1)) m := by
        refine number_congr fun p member => ?_
        obtain ⟨w, inRest, rfl⟩ := List.mem_map.mp member
        exact same (inside w inRest).1 (later.general w inRest).1.1
      have right : number (ws.map (·.2)) (denote ub i m) = number (ws.map (·.2)) m := by
        refine number_congr fun p member => ?_
        obtain ⟨w, inRest, rfl⟩ := List.mem_map.mp member
        exact same (inside w inRest).2 (later.general w inRest).2.1
      have flag : eflBit (denote ub i m) flagCF = eflBit m flagCF := by
        have efl : (denote ub i m).regs .efl = m.regs .efl := same flags (by simp)
        rw [eflBit, eflBit, efl]
      rw [left, right, flag] at total
      exact total

theorem noLoop (chain : Chain ub sub kept first prog m ws) : ∀ i ∈ prog, i.op ≠ .loop := by
  induction chain with
  | done => simp
  | @word first i rest m x y ws op size active free dest src later ih =>
      refine List.forall_mem_cons.mpr ⟨?_, ih⟩
      rw [op]
      cases sub <;> cases first <;> decide
  | between moves direct unrelated later ih =>
      refine List.forall_mem_cons.mpr ⟨?_, ih⟩
      rintro loops
      simp [Instruction.Moves, loops] at moves

end Chain

structure Exact (sub : Bool) (ws : Words) (m m' : Mach) : Prop where
  words : (number (ws.map (·.1)) m' : Int) =
    (if sub then (number (ws.map (·.1)) m : Int) - number (ws.map (·.2)) m
      else number (ws.map (·.1)) m + number (ws.map (·.2)) m) % 2 ^ (64 * ws.length)
  carry : eflBit m' flagCF =
    if sub then decide (number (ws.map (·.1)) m < number (ws.map (·.2)) m)
    else decide (2 ^ (64 * ws.length) ≤ number (ws.map (·.1)) m + number (ws.map (·.2)) m)

theorem sum_of_balance {r x y base : Nat} {c : Bool} (small : r < base)
    (balance : (r : Int) + base * c.toNat = x + y) :
    (r : Int) = ((x : Int) + y) % base ∧ c = decide (base ≤ x + y) := by
  rw [← balance, Int.add_mul_emod_self_left, Int.emod_eq_of_lt (by omega) (by omega)]
  refine ⟨rfl, ?_⟩
  cases c with
  | true =>
      rw [Bool.toNat_true] at balance
      exact (decide_eq_true (by omega)).symm
  | false =>
      rw [Bool.toNat_false] at balance
      exact (decide_eq_false (by omega)).symm

theorem difference_of_balance {r x y base : Nat} {c : Bool} (small : r < base)
    (balance : (r : Int) - base * c.toNat = x - y) :
    (r : Int) = ((x : Int) - y) % base ∧ c = decide (x < y) := by
  rw [← balance, Int.sub_mul_emod_self_left, Int.emod_eq_of_lt (by omega) (by omega)]
  refine ⟨rfl, ?_⟩
  cases c with
  | true =>
      rw [Bool.toNat_true] at balance
      exact (decide_eq_true (by omega)).symm
  | false =>
      rw [Bool.toNat_false] at balance
      exact (decide_eq_false (by omega)).symm

theorem carryChain_exact {ub : Undef} {sub : Bool} {prog : List Instruction} {m m' : Mach}
    {ws : Words} (chained : CarryChain ub sub prog m ws) (guardless : GuardFree prog)
    (plain : ∀ i ∈ prog, ∀ o ∈ i.operands, o.Plain) (executed : Executes ub prog m m') : Exact sub ws m m' := by
  have ran := executed.eq_stepAll chained.chain.noLoop
  have inside (w : Place × Place) (member : w ∈ ws) (p : Place) (named : p ∈ [w.1, w.2]) :
      p ∈ Place.reg .efl :: ws.flatMap fun w => [w.1, w.2] :=
    List.mem_cons_of_mem _ (List.mem_flatMap.mpr ⟨w, member, named⟩)
  have located : Located prog := fun i member => ⟨executed.emitted i member, plain i member⟩
  have balance := chained.chain.sum guardless located List.mem_cons_self
    (fun w member => ⟨inside w member _ (by simp), inside w member _ (by simp)⟩) chained.apart
  rw [← ran] at balance
  have small := number_lt (ws.map (·.1)) m'
  rw [List.length_map] at small
  have power : (2 ^ (64 * ws.length) : Int) = (2 ^ (64 * ws.length) : Nat) := by norm_cast
  simp only [Bool.not_true, Bool.false_and, Bool.toNat_false, Nat.cast_zero, add_zero, power]
    at balance
  cases sub with
  | false =>
      simp only [Bool.false_eq_true, if_false, one_mul] at balance
      obtain ⟨words, carry⟩ := sum_of_balance small balance
      constructor
      · rw [power]
        exact words
      · exact carry
  | true =>
      simp only [if_true, neg_mul, one_mul, ← sub_eq_add_neg] at balance
      obtain ⟨words, carry⟩ := difference_of_balance small balance
      constructor
      · rw [power]
        exact words
      · exact carry

def addLow : Instruction :=
  { original := "add    %rcx,%rax", vaddr := 0x1000, length := 3, op := .add, size1 := some .q,
    operands := [.reg (.q (.gpr .rcx)), .reg (.q (.gpr .rax))] }

def pushBetween : Instruction :=
  { original := "push   %rsi", vaddr := 0x1003, length := 1, op := .push, size1 := some .q,
    operands := [.reg (.q (.gpr .rsi))] }

def adcHigh : Instruction :=
  { original := "adc    %rdx,%rbx", vaddr := 0x1004, length := 3, op := .adc, size1 := some .q,
    operands := [.reg (.q (.gpr .rdx)), .reg (.q (.gpr .rbx))] }

theorem carryChain_exact_twoWords :
    ∃ m', Executes default [addLow, pushBetween, adcHigh] (atJumps 0) m' ∧
      Exact false [(.reg (.gpr .rax), .reg (.gpr .rcx)), (.reg (.gpr .rbx), .reg (.gpr .rdx))]
        (atJumps 0) m' := by
  have emitted : EmittedCartridge [addLow, pushBetween, adcHigh]
      ((printed (emitCartridge [addLow, pushBetween, adcHigh])).get rfl) := ⟨.initial, _, rfl⟩
  have executed : Executes default [addLow, pushBetween, adcHigh] (atJumps 0) _ :=
    .cartridge emitted .done
  refine ⟨_, executed, carryChain_exact ⟨.word rfl rfl rfl (by decide) rfl rfl ?_, ?_⟩ ?_ (by decide) executed⟩
  · refine .between (by simp [Instruction.Moves, pushBetween]) (fun redirects => redirects) ?_
      (.word rfl rfl rfl (by decide) rfl rfl .done)
    simp [Instruction.Unrelated, Instruction.targets, pushBetween, Place.Meets, rspOperand, rspMem,
      Operand.target, baseReg]
  · simp [Place.Apart]
  · intro i member
    revert i
    simp only [List.forall_mem_cons]
    exact ⟨.inr (by decide), .inr (by decide), .inr (by decide), by simp⟩

def addGuard : Instruction :=
  { original := "add    %fs:0x28,%rax", vaddr := 0x1000, length := 9, op := .add, size1 := some .q,
    operands := [.mem ⟨some "fs", 0x28, none, none, .one⟩, .reg (.q (.gpr .rax))] }

def onesInMemory : Mach where
  regs := fun _ => 0
  mem := fun _ => 1

theorem guard_sum_dropped :
    CarryChain default false [addGuard] onesInMemory [(.reg (.gpr .rax), .mem 0x28)] ∧
      ∃ m', Executes default [addGuard] onesInMemory m' ∧
        ¬ Exact false [(.reg (.gpr .rax), .mem 0x28)] onesInMemory m' := by
  have emitted : EmittedAlone addGuard ((printed (emitFunction .alone addGuard)).get rfl) :=
    ⟨.initial, _, rfl⟩
  refine ⟨⟨.word rfl rfl rfl (by decide) rfl (by decide) .done, by simp⟩, _,
    .alone emitted .done, fun summed => ?_⟩
  have words := summed.words
  revert words
  decide

end Tase
