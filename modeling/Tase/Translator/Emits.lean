import Tase.Translator.Accepted

/-! Emitters that cannot fail, and where their code leads whatever was emitted before. -/

namespace Tase

open Cpp

namespace Emit

def Emits {α : Type} (m : Emit α) : Prop := ∀ s, ∃ a out s', m s = .ok (a, out, s')

/-- The code is emitted, runs to its end from `st` and leaves `Q`. -/
def Leads {α : Type} (ub : Undef) (m : Emit α) (st : CState) (Q : α → CState → Prop) : Prop :=
  ∀ s, ∃ a out s' st', m s = .ok (a, out, s') ∧ run ub out st = .ok st' ∧ Q a st'

namespace Emits

variable {α β : Type}

theorem pure (a : α) : Emits (Pure.pure a : Emit α) := fun s => ⟨a, [], s, rfl⟩

theorem bind {m : Emit α} {f : α → Emit β} (first : Emits m) (second : ∀ a, Emits (f a)) :
    Emits (m >>= f) := by
  intro s
  obtain ⟨a, out, s', found⟩ := first s
  obtain ⟨b, out', s'', found'⟩ := second a s'
  refine ⟨b, out ++ out', s'', ?_⟩
  change Emit.bind m f s = _
  simp only [Emit.bind, found, found']

theorem lift {x : Except Error α} {a : α} (found : x = .ok a) : Emits (Emit.lift x) := by
  subst found
  exact fun s => ⟨a, [], s, rfl⟩

theorem bind_lift {x : Except Error α} {f : α → Emit β} {a : α} (found : x = .ok a)
    (rest : Emits (f a)) : Emits (Emit.lift x >>= f) := by
  subst found
  intro s
  obtain ⟨b, out, s', emitted⟩ := rest s
  refine ⟨b, [] ++ out, s', ?_⟩
  change Emit.bind (Emit.lift (.ok a)) f s = _
  simp only [Emit.bind, Emit.lift, emitted]

theorem bind_operand {i : Instruction} {k : Nat} {f : Operand → Emit β} {o : Operand}
    (found : i.operands[k]? = some o) (rest : Emits (f o)) : Emits (i.operand k >>= f) :=
  bind_lift (by simp only [found]) rest

theorem write (stmt : Code) : Emits (Emit.write stmt) := fun s => ⟨(), [stmt], s, rfl⟩

theorem makeVar (stem : String) : Emits (Tase.makeVar stem) := fun _ => ⟨_, [], _, rfl⟩

theorem emitVarDecl (stem : String) (t : Ty) (e : Exp) : Emits (Tase.emitVarDecl stem t e) :=
  bind (makeVar stem) fun v => bind (write _) fun _ => pure v

theorem addBbRegRef (r : Reg) : Emits (Tase.addBbRegRef r) := fun _ => ⟨(), [], _, rfl⟩

theorem regExpL {r : RegName} (known : (baseReg r).isSome) : Emits (Tase.regExpL r) := by
  obtain ⟨whole, base⟩ := Option.isSome_iff_exists.mp known
  unfold Tase.regExpL
  rw [base]
  exact bind (addBbRegRef whole) fun _ => pure whole

theorem emitFetch {o : Operand} {stem : String} {size : Size} {signed : Bool}
    (fetchable : o.Fetchable size) : Emits (o.emitFetch stem size signed) := by
  obtain ⟨e, found⟩ := fetchable
  exact bind (lift found) fun e => emitVarDecl _ _ e

theorem emitStore {o : Operand} {e : Exp} {size : Size} (storable : o.Storable size) :
    Emits (o.emitStore e size) := by
  cases o with
  | imm n | addr n symbol => exact storable.elim
  | mem target =>
      obtain ⟨addr, found⟩ := storable
      exact bind (lift found) fun _ => write _
  | reg r =>
      obtain ⟨width, known⟩ := storable
      refine bind (@lift _ _ () (by simp [check, width])) fun _ => bind (regExpL known) fun whole => ?_
      split
      · exact bind (write _) fun _ => write _
      · exact bind (write _) fun _ => write _
      · exact bind (write _) fun _ => write _
      · exact write _
      · exact write _

theorem leads {ub : Undef} {m : Emit α} {st : CState} {Q : α → CState → Prop} (emits : Emits m)
    (runs : ∀ n, Runs ub m n st fun a _ st' => Q a st') : Leads ub m st Q := by
  intro s
  obtain ⟨a, out, s', found⟩ := emits s
  obtain ⟨st', ran, post⟩ := runs s.varCount s a out s' rfl found
  exact ⟨a, out, s', st', found, ran, post⟩

end Emits

theorem Leads.and_runs {α : Type} {ub : Undef} {m : Emit α} {st : CState} {Q R : α → CState → Prop}
    (leads : Leads ub m st Q) (runs : ∀ n, Runs ub m n st fun a _ st' => R a st') :
    ∃ a st', Q a st' ∧ R a st' := by
  obtain ⟨a, out, s', st', found, ran, post⟩ := leads ⟨0, [.rip], List.mem_singleton_self _⟩
  obtain ⟨st'', ran', post'⟩ := runs _ _ a out s' rfl found
  cases ran.symm.trans ran'
  exact ⟨a, st', post, post'⟩

end Emit

end Tase
