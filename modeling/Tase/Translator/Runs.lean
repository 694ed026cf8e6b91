import Tase.Translator.Instruction
import Tase.Cpp.Frame

/-! Emission and execution taken together: `Emit.Runs` says where the statements that
an emitter writes lead, and is proved along the emitter's own `do` block. -/

namespace Tase

open Cpp

abbrev Mach := Machine Reg
abbrev CState := State Reg Temp

theorem except_bind_ok {α β : Type} {x : Except Error α} {f : α → Except Error β} {b : β}
    (found : (x >>= f) = .ok b) : ∃ a, x = .ok a ∧ f a = .ok b := by
  cases x with
  | error e => cases found
  | ok a => exact ⟨a, rfl, found⟩

namespace Emit

theorem bind_ok {α β : Type} {m : Emit α} {f : α → Emit β} {s s' : EmitState} {b : β}
    {out : List Code} (emitted : (m >>= f) s = .ok (b, out, s')) :
    ∃ a first middle second, m s = .ok (a, first, middle) ∧
      f a middle = .ok (b, second, s') ∧ out = first ++ second := by
  change Emit.bind m f s = _ at emitted
  unfold Emit.bind at emitted
  split at emitted
  · simp at emitted
  · rename_i a first middle found
    split at emitted
    · simp at emitted
    · rename_i b' second last found'
      simp only [Except.ok.injEq, Prod.mk.injEq] at emitted
      obtain ⟨rfl, rfl, rfl⟩ := emitted
      exact ⟨a, first, middle, second, found, found', rfl⟩

theorem lift_ok {α : Type} {x : Except Error α} {s s' : EmitState} {a : α} {out : List Code}
    (emitted : lift x s = .ok (a, out, s')) : x = .ok a ∧ out = [] ∧ s' = s := by
  unfold lift at emitted
  split at emitted
  · simp at emitted
  · simp only [Except.ok.injEq, Prod.mk.injEq] at emitted
    obtain ⟨rfl, rfl, rfl⟩ := emitted
    exact ⟨rfl, rfl, rfl⟩

/-- From `var_count = n` and the state `st`, whatever is recorded in
`BB_ASSIGNED_REGS`, the code that `m` writes runs to its end and leaves `Q`. -/
def Runs {α : Type} (ub : Undef) (m : Emit α) (n : Nat) (st : CState)
    (Q : α → Nat → CState → Prop) : Prop :=
  ∀ s a out s', s.varCount = n → m s = .ok (a, out, s') →
    ∃ st', run ub out st = .ok st' ∧ Q a s'.varCount st'

namespace Runs

variable {α β : Type} {ub : Undef} {n : Nat} {st : CState} {Q : α → Nat → CState → Prop}

theorem pure {a : α} (post : Q a n st) : Runs ub (Pure.pure a : Emit α) n st Q := by
  intro s a' out s' count emitted
  change Except.ok (a, [], s) = _ at emitted
  simp only [Except.ok.injEq, Prod.mk.injEq] at emitted
  obtain ⟨rfl, rfl, rfl⟩ := emitted
  exact ⟨st, rfl, count ▸ post⟩

theorem bind {R : β → Nat → CState → Prop} {m : Emit α} {f : α → Emit β}
    (first : Runs ub m n st fun a n' st' => Runs ub (f a) n' st' R) :
    Runs ub (m >>= f) n st R := by
  intro s b out s' count emitted
  obtain ⟨a, code, middle, code', found, found', rfl⟩ := bind_ok emitted
  obtain ⟨st', ran, rest⟩ := first s a code middle count found
  obtain ⟨st'', ran', post⟩ := rest middle b code' s' rfl found'
  exact ⟨st'', by rw [run_append, ran]; exact ran', post⟩

theorem mono {R : α → Nat → CState → Prop} {m : Emit α} (runs : Runs ub m n st Q)
    (weaker : ∀ a n' st', Q a n' st' → R a n' st') : Runs ub m n st R := by
  intro s a out s' count emitted
  obtain ⟨st', ran, post⟩ := runs s a out s' count emitted
  exact ⟨st', ran, weaker a _ st' post⟩

theorem lift {x : Except Error α} (post : ∀ a, x = .ok a → Q a n st) :
    Runs ub (Emit.lift x) n st Q := by
  intro s a out s' count emitted
  obtain ⟨found, rfl, rfl⟩ := lift_ok emitted
  exact ⟨st, rfl, count ▸ post a found⟩

theorem raise {e : Error} : Runs ub (Emit.raise e : Emit α) n st Q :=
  lift fun _ impossible => by simp at impossible

theorem write {stmt : Code} {st' : CState} {Q : Unit → Nat → CState → Prop}
    (ran : exec ub stmt st = .ok st') (post : Q () n st') : Runs ub (Emit.write stmt) n st Q := by
  intro s a out s' count emitted
  simp only [Emit.write, Except.ok.injEq, Prod.mk.injEq] at emitted
  obtain ⟨_, rfl, rfl⟩ := emitted
  exact ⟨st', by rw [run_cons, ran]; rfl, count ▸ post⟩

theorem makeVar {stem : String} {Q : Temp → Nat → CState → Prop} (post : Q ⟨stem, n⟩ (n + 1) st) :
    Runs ub (Tase.makeVar stem) n st Q := by
  intro s a out s' count emitted
  simp only [Tase.makeVar, Except.ok.injEq, Prod.mk.injEq] at emitted
  obtain ⟨rfl, rfl, rfl⟩ := emitted
  subst count
  exact ⟨st, rfl, post⟩

theorem addBbRegRef {r : Reg} {Q : Unit → Nat → CState → Prop} (post : Q () n st) :
    Runs ub (Tase.addBbRegRef r) n st Q := by
  intro s a out s' count emitted
  simp only [Tase.addBbRegRef, Except.ok.injEq, Prod.mk.injEq] at emitted
  obtain ⟨_, rfl, rfl⟩ := emitted
  subst count
  refine ⟨st, rfl, ?_⟩
  split <;> exact post

theorem regExpL {reg : RegName} {Q : Reg → Nat → CState → Prop}
    (post : ∀ r, baseReg reg = some r → Q r n st) : Runs ub (Tase.regExpL reg) n st Q := by
  unfold Tase.regExpL
  split
  · exact raise
  · rename_i r found
    exact bind (addBbRegRef (pure (post r found)))

theorem emitVarDecl {stem : String} {t : Ty} {e : Exp} {Q : Temp → Nat → CState → Prop}
    (post : Q ⟨stem, n⟩ (n + 1) (st.bind ⟨stem, n⟩ ((eval ub st e).cast t))) :
    Runs ub (Tase.emitVarDecl stem t e) n st Q :=
  bind (makeVar (bind (write rfl (pure post))))

theorem elseBlock {c : Exp} {body : Emit Unit} {Q : Unit → Nat → CState → Prop}
    (skipped : (eval ub st c).truthy = true → ∀ n', Q () n' st)
    (taken : (eval ub st c).truthy = false → Runs ub body n st Q) :
    Runs ub (Emit.elseBlock c body) n st Q := by
  intro s a out s' count emitted
  unfold Emit.elseBlock at emitted
  split at emitted
  · simp at emitted
  · rename_i inner code last found
    simp only [Except.ok.injEq, Prod.mk.injEq] at emitted
    obtain ⟨_, rfl, rfl⟩ := emitted
    cases truth : (eval ub st c).truthy with
    | true => exact ⟨st, by simp [exec, truth, Except.bind], skipped truth _⟩
    | false =>
        obtain ⟨st', ran, post⟩ := taken truth s inner code last count found
        refine ⟨st', ?_, post⟩
        simp only [run_cons, exec, truth, Bool.false_eq_true, if_false]
        change (run ub code st).bind _ = _
        rw [ran]
        rfl

end Runs

end Emit

instance : Inhabited Val := ⟨⟨.int, 0⟩⟩

def evalOn (ub : Undef) (m : Mach) (e : Exp) : Val := eval ub ⟨m, fun _ => default⟩ e

theorem eval_eq_evalOn {e : Exp} (closed : e.vars = []) (ub : Undef) (st : CState) :
    eval ub st e = evalOn ub st.machine e :=
  eval_congr ub st _ e rfl (by simp [closed])

theorem hex_over {regs : List Reg} (n : Int) : (hex n).Over regs := by
  unfold hex
  split
  · exact .un _ (.lit _ _)
  · exact .lit _ _

theorem regExpR_over {reg : RegName} {e : Exp} (found : regExpR reg = .ok e) :
    e.Over (baseReg reg).toList := by
  unfold regExpR at found
  split at found
  · simp at found
  · rename_i r base
    rw [base]
    split at found
    · cases found
      exact .cast _ (.shift _ (.reg (by simp)) (.lit _ _))
    · cases found
      exact .cast _ (.reg (by simp))

namespace MemRef

def registers (m : MemRef) : List Reg :=
  (m.base.bind baseReg).toList ++ (m.index.bind baseReg).toList

theorem addrStr_over {regs : List Reg} {e : Exp} (size : Size) (reads : e.Over regs) :
    (addrStr size e).Over regs := by
  unfold addrStr
  split
  · exact .cast _ reads
  · exact reads

theorem sum_over {regs : List Reg} (terms : List Exp) (reads : ∀ e ∈ terms, e.Over regs) :
    (sum terms).Over regs := by
  have fold : ∀ (rest : List Exp) (first : Exp), first.Over regs → (∀ e ∈ rest, e.Over regs) →
      (rest.foldl (Expr.arith .add) first).Over regs := by
    intro rest
    induction rest with
    | nil => exact fun first start _ => start
    | cons e rest ih =>
        intro first start all
        refine ih _ ?_ fun e' found => all e' (List.mem_cons_of_mem _ found)
        exact .arith _ start (all e List.mem_cons_self)
  cases terms with
  | nil => exact .lit _ _
  | cons first rest =>
      exact fold rest first (reads first List.mem_cons_self)
        fun e found => reads e (List.mem_cons_of_mem _ found)

theorem offsetTerm_over {regs : List Reg} (m : MemRef) (size : Size) :
    ∀ e ∈ m.offsetTerm size, e.Over regs := by
  unfold offsetTerm
  split
  · simp
  · simpa using addrStr_over size (hex_over _)

theorem baseTerm_over {m : MemRef} {size : Size} {terms : List Exp}
    (found : m.baseTerm size = .ok terms) : ∀ e ∈ terms, e.Over m.registers := by
  unfold baseTerm at found
  split at found
  · cases found
    simp
  · rename_i base named
    obtain ⟨e, read, rest⟩ := except_bind_ok found
    cases rest
    have reads : e.Over m.registers :=
      (regExpR_over read).mono (by simp +contextual [registers, named])
    simpa using addrStr_over size reads

theorem indexTerm_over {m : MemRef} {size : Size} {terms : List Exp}
    (found : m.indexTerm size = .ok terms) : ∀ e ∈ terms, e.Over m.registers := by
  unfold indexTerm at found
  split at found
  · cases found
    simp
  · rename_i index named
    obtain ⟨e, read, rest⟩ := except_bind_ok found
    cases rest
    have reads : e.Over m.registers :=
      (regExpR_over read).mono (by simp +contextual [registers, named])
    simpa [dec] using Expr.Over.arith .mul (addrStr_over size reads) (.lit .dec m.scale.toNat)

theorem addr_over {m : MemRef} {e : Exp} (found : m.addr = .ok e) : e.Over m.registers := by
  obtain ⟨size, _, found⟩ := except_bind_ok found
  obtain ⟨_, _, found⟩ := except_bind_ok found
  obtain ⟨base, readBase, found⟩ := except_bind_ok found
  obtain ⟨index, readIndex, found⟩ := except_bind_ok found
  cases found
  apply sum_over
  simp only [List.mem_append]
  rintro e ((inOffset | inBase) | inIndex)
  · exact offsetTerm_over m size e inOffset
  · exact baseTerm_over readBase e inBase
  · exact indexTerm_over readIndex e inIndex

def address (ub : Undef) (m : MemRef) (mach : Mach) : BitVec 64 :=
  match m.addr with
  | .ok e => (evalOn ub mach e).conv (.uint 64)
  | .error _ => 0

theorem address_congr {ub : Undef} {m : MemRef} {mach mach' : Mach}
    (same : ∀ r ∈ m.registers, mach.regs r = mach'.regs r) :
    m.address ub mach = m.address ub mach' := by
  unfold address
  split
  · rename_i e found
    have value : evalOn ub mach e = evalOn ub mach' e := (addr_over found).eval_eq ub same
    rw [value]
  · rfl

end MemRef

namespace Operand

theorem fetchExp_vars {o : Operand} {size : Size} {e : Exp} (found : o.fetchExp size = .ok e) :
    e.vars = [] := by
  cases o with
  | reg r =>
      obtain ⟨_, _, found⟩ := except_bind_ok found
      exact (regExpR_over found).vars
  | imm n | addr n symbol =>
      cases found
      rfl
  | mem m =>
      obtain ⟨addr, read, found⟩ := except_bind_ok found
      cases found
      change addr.vars = []
      exact (MemRef.addr_over read).vars

def value (ub : Undef) (o : Operand) (size : Size) (m : Mach) : BitVec size.bits :=
  match o.fetchExp size with
  | .ok e => (evalOn ub m e).conv size.uint
  | .error _ => 0

def fetch (ub : Undef) (o : Operand) (size : Size) (signed : Bool) (m : Mach) : Val :=
  ⟨⟨size.bits, signed⟩, o.value ub size m⟩

/-- The effect of `emit_store`. The two-step forms mask the register first and then
evaluate the stored expression. -/
def store (ub : Undef) (o : Operand) (size : Size) (value : Mach → Val) (m : Mach) : Mach :=
  match o with
  | .imm _ | .addr _ _ => m
  | .mem target => m.store (target.address ub m) ((value m).conv size.uint)
  | .reg r =>
      match baseReg r with
      | none => m
      | some whole =>
          match size, r with
          | .b, .h _ =>
              let masked := m.setReg whole (m.regs whole &&& 0xFFFFFFFFFFFF00FF#64)
              masked.setReg whole ((Val.arith ub .add ⟨.uint 64, masked.regs whole⟩
                ((Val.shift ub .left (value masked) (.lit .dec 8)).cast (.uint 16))).conv (.uint 64))
          | .b, _ =>
              let masked := m.setReg whole (m.regs whole &&& 0xFFFFFFFFFFFFFF00#64)
              masked.setReg whole ((Val.arith ub .add ⟨.uint 64, masked.regs whole⟩
                (value masked)).conv (.uint 64))
          | .w, _ =>
              let masked := m.setReg whole (m.regs whole &&& 0xFFFFFFFFFFFF0000#64)
              masked.setReg whole ((Val.arith ub .add ⟨.uint 64, masked.regs whole⟩
                (value masked)).conv (.uint 64))
          | .l, _ => m.setReg whole (((value m).cast (.uint 32)).conv (.uint 64))
          | .q, _ => m.setReg whole ((value m).conv (.uint 64))

def write (ub : Undef) (o : Operand) (size : Size) (x : Val) (m : Mach) : Mach :=
  o.store ub size (fun _ => x) m

end Operand

namespace Emit.Runs

variable {ub : Undef} {n : Nat} {st : CState}

theorem emitFetch {o : Operand} {stem : String} {size : Size} {signed : Bool}
    {Q : Temp → Nat → CState → Prop}
    (post : Q ⟨stem, n⟩ (n + 1) (st.bind ⟨stem, n⟩ (o.fetch ub size signed st.machine))) :
    Runs ub (o.emitFetch stem size signed) n st Q := by
  refine bind (lift fun e found => emitVarDecl ?_)
  rw [eval_eq_evalOn (Operand.fetchExp_vars found)]
  simp only [Operand.fetch, Operand.value, found] at post
  exact post

theorem emitStore {o : Operand} {e : Exp} {size : Size} {value : Mach → Val}
    {Q : Unit → Nat → CState → Prop}
    (evaluates : ∀ m, eval ub (st.withMachine m) e = value m)
    (post : Q () n (st.withMachine (o.store ub size value st.machine))) :
    Runs ub (o.emitStore e size) n st Q := by
  have current : eval ub st e = value st.machine := evaluates st.machine
  cases o with
  | imm n | addr n symbol => exact raise
  | mem target =>
      refine bind (lift fun addr found => write rfl ?_)
      have address : (eval ub st addr).conv (.uint 64) = target.address ub st.machine := by
        rw [MemRef.address, found, eval_eq_evalOn (MemRef.addr_over found).vars]
      rw [address, current]
      exact post
  | reg r =>
      refine bind (lift fun _ _ => bind (regExpL fun whole found => ?_))
      simp only [Operand.store, found] at post
      split
      · refine bind (write rfl (write rfl ?_))
        simp only [eval]
        rw [evaluates]
        exact post
      · rename_i notHigh
        refine bind (write rfl (write rfl ?_))
        rw [evaluates]
        cases r with
        | h g => exact absurd rfl (notHigh g)
        | q _ | d _ | w _ | l _ | other _ => exact post
      · refine bind (write rfl (write rfl ?_))
        simp only [eval]
        rw [evaluates]
        exact post
      · refine write rfl ?_
        simpa [eval, current] using post
      · refine write rfl ?_
        simpa [current] using post

end Emit.Runs

end Tase
