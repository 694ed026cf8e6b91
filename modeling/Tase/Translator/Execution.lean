import Tase.Translator.Terminators

/-! Running a list of instructions, grouped into functions in any way. -/

namespace Tase

open Cpp

inductive Executes (ub : Undef) : List Instruction → Mach → Mach → Prop
  | done {m : Mach} : Executes ub [] m m
  | alone {i : Instruction} {f : Function} {rest : List Instruction} {m m' : Mach}
      (emitted : EmittedAlone i f) (later : Executes ub rest (f.call ub m) m') :
      Executes ub (i :: rest) m m'
  | cartridge {batch : List Instruction} {f : Function} {rest : List Instruction} {m m' : Mach}
      (emitted : EmittedCartridge batch f) (later : Executes ub rest (f.call ub m) m') :
      Executes ub (batch ++ rest) m m'

namespace Executes

variable {ub : Undef} {instrs : List Instruction} {m m' : Mach}

theorem emitted (executed : Executes ub instrs m m') : ∀ i ∈ instrs, i.Emitted := by
  induction executed with
  | done => simp
  | alone emitted _ ih =>
      intro i member
      rcases List.mem_cons.mp member with rfl | later
      · exact emitted.emitted
      · exact ih i later
  | cartridge emitted _ ih =>
      intro i member
      rcases List.mem_append.mp member with here | later
      · exact emitted.emitted i here
      · exact ih i later

theorem eq_stepAll (executed : Executes ub instrs m m') (noLoop : ∀ i ∈ instrs, i.op ≠ .loop) :
    m' = stepAll ub instrs m := by
  induction executed with
  | done => rfl
  | alone emitted _ ih =>
      rw [stepAll_cons, ← emitted.call (noLoop _ (by simp)) ub]
      exact ih fun i member => noLoop i (by simp [member])
  | @cartridge batch f _ m _ emitted _ ih =>
      have called : f.call ub m = stepAll ub batch m :=
        emitted.call (fun i member => noLoop i (by simp [member])) ub m
      rw [stepAll_append, ← called]
      exact ih fun i member => noLoop i (by simp [member])

theorem single {i : Instruction} (executed : Executes ub [i] m m') (notLoop : i.op ≠ .loop)
    (handled : i.nothingToDo = false) : m' = denoteOp ub i (stepRip i m) := by
  have stepped := executed.eq_stepAll (by simpa using notLoop)
  rwa [stepAll_cons, stepAll, denote, handled, if_neg (by simp)] at stepped

theorem dropped {i : Instruction} (executed : Executes ub [i] m m') (notLoop : i.op ≠ .loop)
    (skipped : i.nothingToDo = true) : m' = stepRip i m := by
  have stepped := executed.eq_stepAll (by simpa using notLoop)
  rwa [stepAll_cons, stepAll, denote, skipped, if_pos rfl] at stepped

theorem stores {i : Instruction} (executed : Executes ub [i] m m') (handled : i.nothingToDo = false) :
    ∀ p ∈ i.stores, p.1.Storable p.2 := by
  obtain ⟨s, out, s', found⟩ := executed.emitted i (by simp)
  exact emitBody_stores found handled

theorem fetches {i : Instruction} (executed : Executes ub [i] m m') (handled : i.nothingToDo = false) :
    ∀ p ∈ i.fetches, p.1.Fetchable p.2 := by
  obtain ⟨s, out, s', found⟩ := executed.emitted i (by simp)
  exact emitBody_fetches found handled

theorem each (emitted : ∀ i ∈ instrs, i.Emitted) : ∃ m', Executes ub instrs m m' := by
  induction instrs generalizing m with
  | nil => exact ⟨m, .done⟩
  | cons i rest ih =>
      obtain ⟨f, here⟩ := (emitted i (by simp)).alone
      obtain ⟨m', later⟩ := @ih (f.call ub m) fun j member => emitted j (by simp [member])
      exact ⟨m', .alone here later⟩

theorem after {i j : Instruction} {m'' : Mach} (first : Executes ub [i] m m')
    (both : Executes ub [i, j] m m'') (noLoop : i.op ≠ .loop ∧ j.op ≠ .loop) : Executes ub [j] m' m'' := by
  have emitted : ∀ k ∈ [j], k.Emitted := by simpa using both.emitted j (by simp)
  obtain ⟨m₃, second⟩ := @each ub [j] m' emitted
  have middle := first.eq_stepAll (by simpa using noLoop.1)
  have last := second.eq_stepAll (by simpa using noLoop.2)
  have whole := both.eq_stepAll (by simpa using noLoop)
  rw [middle] at last
  rwa [whole, show stepAll ub [i, j] m = stepAll ub [j] (stepAll ub [i] m) from rfl, ← last]

end Executes

/-- The instruction gets no code, and what it has to bring about is there without it. -/
structure Instruction.Idle (i : Instruction) (required : Mach → Prop) (m : Mach) : Prop where
  dropped : i.nothingToDo = true
  already : required (stepRip i m)

theorem Executes.required_iff {ub : Undef} {i : Instruction} {m m' : Mach} {required : Mach → Prop}
    {condition : Prop} (executed : Executes ub [i] m m') (notLoop : i.op ≠ .loop)
    (coded : i.nothingToDo = false → (required m' ↔ condition)) :
    required m' ↔ (i.nothingToDo = false ∧ condition) ∨ i.Idle required m := by
  cases skipped : i.nothingToDo with
  | false =>
      rw [coded skipped]
      constructor
      · exact fun holds => .inl ⟨rfl, holds⟩
      · rintro (⟨_, holds⟩ | idle)
        · exact holds
        · rw [idle.dropped] at skipped
          cases skipped
  | true =>
      rw [executed.dropped notLoop skipped]
      constructor
      · exact fun holds => .inr ⟨skipped, holds⟩
      · rintro (⟨code, _⟩ | idle)
        · cases code
        · exact idle.already

theorem Instruction.Emitted.required_iff {i : Instruction} {m : Mach} {required : Undef → Mach → Prop}
    {condition : Prop} (emitted : i.Emitted) (notLoop : i.op ≠ .loop)
    (coded : i.nothingToDo = false →
      ((∀ ub m', Executes ub [i] m m' → required ub m') ↔ condition)) :
    (∀ ub m', Executes ub [i] m m' → required ub m') ↔
      (i.nothingToDo = false ∧ condition) ∨ i.Idle (fun m' => ∀ ub, required ub m') m := by
  cases skipped : i.nothingToDo with
  | false =>
      rw [coded skipped]
      constructor
      · exact fun holds => .inl ⟨rfl, holds⟩
      · rintro (⟨_, holds⟩ | idle)
        · exact holds
        · rw [idle.dropped] at skipped
          cases skipped
  | true =>
      constructor
      · intro right
        refine .inr ⟨skipped, fun ub => ?_⟩
        obtain ⟨m', executed⟩ := @Executes.each ub [i] m (by simpa using emitted)
        rw [← executed.dropped notLoop skipped]
        exact right ub m' executed
      · rintro (⟨code, _⟩ | idle) ub m' executed
        · cases code
        · rw [executed.dropped notLoop skipped]
          exact idle.already ub

end Tase
