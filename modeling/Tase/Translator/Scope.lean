import Tase.Cpp.Scope
import Tase.Translator.Accepted
import Tase.Translator.Batch

/-! The locals of an emitted function: which instructions declare them once and before use. -/

namespace Tase

open Cpp

def Reg.tmpName : Reg → String
  | .gpr .rax => "rax_tmp"
  | .gpr .rbx => "rbx_tmp"
  | .gpr .rcx => "rcx_tmp"
  | .gpr .rdx => "rdx_tmp"
  | .gpr .rsi => "rsi_tmp"
  | .gpr .rdi => "rdi_tmp"
  | .gpr .rsp => "rsp_tmp"
  | .gpr .rbp => "rbp_tmp"
  | .gpr .r8 => "r8_tmp"
  | .gpr .r9 => "r9_tmp"
  | .gpr .r10 => "r10_tmp"
  | .gpr .r11 => "r11_tmp"
  | .gpr .r12 => "r12_tmp"
  | .gpr .r13 => "r13_tmp"
  | .gpr .r14 => "r14_tmp"
  | .gpr .r15 => "r15_tmp"
  | .rip => "rip_tmp"
  | .efl => "efl_tmp"

structure Function.WellScoped (f : Function) : Prop where
  inScope : (block f.body).inScope [] [] = true
  distinct : ((block f.body).made.map Temp.name).Nodup
  apart : ∀ v ∈ (block f.body).made, ∀ r : Reg, v.name ≠ r.tmpName

/-! Names. The number at the end of a name can be read back. -/

def endsInDigit (text : String) : Bool := text.toList.getLast?.any Char.isDigit

theorem takeWhile_digits {stem digits : List Char} (plain : stem.getLast?.any Char.isDigit = false)
    (all : ∀ c ∈ digits, c.isDigit = true) :
    (stem ++ digits).reverse.takeWhile Char.isDigit = digits.reverse := by
  have stop : stem.reverse.takeWhile Char.isDigit = [] := by
    cases reversed : stem.reverse with
    | nil => rfl
    | cons c rest =>
        have first : c.isDigit = false := by
          rw [List.getLast?_eq_head?_reverse, reversed] at plain
          simpa using plain
        rw [List.takeWhile_cons, first]
        rfl
  rw [List.reverse_append, List.takeWhile_append_of_pos (by simpa using all), stop, List.append_nil]

theorem index_toList (n : Nat) : (toString n).toList = Nat.toDigits 10 n := by
  change n.repr.toList = _
  rw [Nat.repr_eq_ofList_toDigits, String.toList_ofList]

theorem digits_of_index (n : Nat) : ∀ c ∈ (toString n).toList, c.isDigit = true := by
  intro c member
  rw [index_toList] at member
  exact Nat.isDigit_of_mem_toDigits (by decide) (by decide) member

theorem Temp.index_of_name {v w : Temp} (plain : endsInDigit v.stem = false)
    (plain' : endsInDigit w.stem = false) (same : v.name = w.name) : v.index = w.index := by
  have lists : v.stem.toList ++ (toString v.index).toList = w.stem.toList ++ (toString w.index).toList := by
    rw [← String.toList_append, ← String.toList_append]
    exact congrArg String.toList same
  have read := congrArg (fun l => l.reverse.takeWhile Char.isDigit) lists
  simp only [takeWhile_digits plain (digits_of_index v.index),
    takeWhile_digits plain' (digits_of_index w.index)] at read
  rw [List.reverse_inj, index_toList, index_toList] at read
  have back (n : Nat) : Nat.ofDigitChars 10 (Nat.toDigits 10 n) 0 = n :=
    Nat.ofDigitChars_toDigits (by decide) (by decide)
  rw [← back v.index, read, back]

theorem Temp.name_ne_tmpName (v : Temp) (r : Reg) : v.name ≠ r.tmpName := by
  -- No made name ends in `_tmp`.
  intro same
  have digit : v.name.toList.getLast?.any Char.isDigit = true := by
    have nonempty : (toString v.index).toList ≠ [] := by
      rw [index_toList]
      exact Nat.toDigits_ne_nil
    have member := digits_of_index v.index _ (List.getLast_mem nonempty)
    have last : v.name.toList.getLast? = some ((toString v.index).toList.getLast nonempty) := by
      rw [Temp.name, String.toList_append, List.getLast?_append_of_ne_nil _ nonempty,
        List.getLast?_eq_some_getLast nonempty]
    rw [last]
    exact member
  rw [same] at digit
  revert digit
  cases r with
  | gpr g => cases g <;> decide
  | rip | efl => decide

/-- What code leaves behind that is emitted with `var_count` going from `n` to `n'`. -/
structure Tidy (outer here : List Temp) (n n' : Nat) (out : List Code) : Prop where
  inScope : (block out).inScope outer here = true
  fresh : ∀ v ∈ (block out).made, n ≤ v.index ∧ v.index < n' ∧ endsInDigit v.stem = false
  once : ((block out).made.map Temp.index).Nodup
  counted : n ≤ n'

namespace Tidy

variable {outer here : List Temp} {n n' n'' : Nat} {out out' : List Code}

theorem nil : Tidy outer here n n [] := ⟨rfl, by simp [block, Stmt.made], by simp [block, Stmt.made], Nat.le_refl n⟩

theorem append (first : Tidy outer here n n' out)
    (second : Tidy outer (here ++ (block out).declared) n' n'' out') :
    Tidy outer here n n'' (out ++ out') where
  inScope := by rw [block_inScope, first.inScope, second.inScope]; rfl
  fresh := by
    intro v member
    have counted := first.counted
    have counted' := second.counted
    rw [block_made] at member
    rcases List.mem_append.mp member with left | right
    · obtain ⟨low, high, plain⟩ := first.fresh v left
      exact ⟨low, by omega, plain⟩
    · obtain ⟨low, high, plain⟩ := second.fresh v right
      exact ⟨by omega, high, plain⟩
  once := by
    rw [block_made, List.map_append]
    refine List.nodup_append'.mpr ⟨first.once, second.once, fun k left right => ?_⟩
    obtain ⟨v, inFirst, rfl⟩ := List.mem_map.mp left
    obtain ⟨w, inSecond, same⟩ := List.mem_map.mp right
    have high := (first.fresh v inFirst).2.1
    have low := (second.fresh w inSecond).1
    omega
  counted := Nat.le_trans first.counted second.counted

end Tidy

namespace Emit

def Scopes {α : Type} (avail : List Temp) (m : Emit α) (gives : α → List Temp) : Prop :=
  ∀ s a out s', m s = .ok (a, out, s') → ∀ outer here, (∀ v ∈ here, v.index < s.varCount) →
    (∀ v ∈ avail, v ∈ here ++ outer) →
      Tidy outer here s.varCount s'.varCount out ∧
        ∀ v ∈ gives a, v ∈ here ++ (block out).declared ++ outer

abbrev silent {α : Type} : α → List Temp := fun _ => []

namespace Scopes

variable {α β : Type} {avail : List Temp} {gives : α → List Temp} {gives' : β → List Temp}
  {i : Instruction}

theorem bindWith {Q : α → Prop} {m : Emit α} {f : α → Emit β} (first : Scopes avail m gives)
    (returns : Ensures m Q) (rest : ∀ a, Q a → Scopes (gives a ++ avail) (f a) gives') :
    Scopes avail (m >>= f) gives' := by
  intro s b out s' emitted outer here older known
  obtain ⟨a, code, middle, code', found, found', rfl⟩ := bind_ok emitted
  obtain ⟨tidy, given⟩ := first s a code middle found outer here older known
  have older' : ∀ v ∈ here ++ (block code).declared, v.index < middle.varCount := by
    intro v member
    rcases List.mem_append.mp member with before | made
    · exact Nat.lt_of_lt_of_le (older v before) tidy.counted
    · exact (tidy.fresh v (Stmt.declared_subset_made _ v made)).2.1
  have known' : ∀ v ∈ gives a ++ avail, v ∈ here ++ (block code).declared ++ outer := by
    intro v member
    rcases List.mem_append.mp member with new | old
    · exact given v new
    · have found := known v old
      simp only [List.mem_append] at found ⊢
      tauto
  obtain ⟨tidy', given'⟩ := rest a (returns s a code middle found) middle b code' s' found' outer
    (here ++ (block code).declared) older' known'
  refine ⟨tidy.append tidy', fun v member => ?_⟩
  have found := given' v member
  rw [block_declared]
  simpa only [List.append_assoc] using found

theorem bind {m : Emit α} {f : α → Emit β} (first : Scopes avail m gives)
    (rest : ∀ a, Scopes (gives a ++ avail) (f a) gives') : Scopes avail (m >>= f) gives' :=
  bindWith first Ensures.any fun a _ => rest a

theorem nothing {m : Emit α} (quiet : ∀ s a out s', m s = .ok (a, out, s') →
    out = [] ∧ s'.varCount = s.varCount) (available : ∀ a, ∀ v ∈ gives a, v ∈ avail) :
    Scopes avail m gives := by
  intro s a out s' emitted outer here older known
  obtain ⟨rfl, count⟩ := quiet s a out s' emitted
  rw [count]
  refine ⟨.nil, fun v member => ?_⟩
  simpa [block, Stmt.declared] using known v (available a v member)

theorem pure {a : α} (available : ∀ v ∈ gives a, v ∈ avail) :
    Scopes avail (Pure.pure a : Emit α) gives := by
  intro s b out s' emitted outer here older known
  cases emitted
  refine ⟨.nil, fun v member => ?_⟩
  simpa [block, Stmt.declared] using known v (available v member)

theorem lift {x : Except Error α} : Scopes avail (Emit.lift x) silent :=
  nothing (fun s a out s' emitted => by
    obtain ⟨_, rfl, rfl⟩ := lift_ok emitted
    exact ⟨rfl, rfl⟩) (by simp)

theorem raise {e : Error} : Scopes avail (Emit.raise e : Emit α) gives := by
  intro s a out s' emitted
  exact absurd (lift_ok emitted).1 (by simp)

theorem declare {stem : String} {t : Ty} {e : Temp → Exp} {rest : Temp → Emit α}
    (uses : ∀ v, ∀ u ∈ (e v).vars, u ∈ avail) (plain : endsInDigit stem = false)
    (later : ∀ v, Scopes (v :: avail) (rest v) gives) :
    Scopes avail (do
      let v ← Tase.makeVar stem
      Emit.write (.decl t v (e v))
      rest v) gives := by
  -- Both routes of a declaration: `emit_var_decl`, and `_make_var` with `emit_get_flag`.
  intro s a out s' emitted outer here older known
  obtain ⟨v, _, middle, code, made, emitted, rfl⟩ := bind_ok emitted
  cases made
  obtain ⟨_, _, _, code', written, emitted, rfl⟩ := bind_ok emitted
  cases written
  have new : (⟨stem, s.varCount⟩ : Temp) ∉ here := fun member => Nat.lt_irrefl _ (older _ member)
  have first : Tidy outer here s.varCount (s.varCount + 1)
      [.decl t ⟨stem, s.varCount⟩ (e ⟨stem, s.varCount⟩)] := by
    refine ⟨?_, by simp [block, Stmt.made, plain], by simp [block, Stmt.made], Nat.le_succ _⟩
    have read : ∀ u ∈ (e ⟨stem, s.varCount⟩).vars, u ∈ here ++ outer :=
      fun u member => known u (uses _ u member)
    simpa [block, Stmt.inScope, Stmt.uses, new] using read
  have older' : ∀ v ∈ here ++ [⟨stem, s.varCount⟩], v.index < s.varCount + 1 := by
    intro v member
    rcases List.mem_append.mp member with before | last
    · exact Nat.lt_succ_of_lt (older v before)
    · simp [List.mem_singleton.mp last]
  have known' : ∀ v ∈ (⟨stem, s.varCount⟩ :: avail : List Temp),
      v ∈ here ++ [⟨stem, s.varCount⟩] ++ outer := by
    intro v member
    rcases List.mem_cons.mp member with rfl | old
    · simp
    · have found := known v old
      simp only [List.mem_append] at found ⊢
      tauto
  obtain ⟨second, given⟩ := later _ _ a code' s' emitted outer _ older' known'
  refine ⟨first.append (by simpa [block, Stmt.declared] using second), fun v member => ?_⟩
  simpa [block, Stmt.declared] using given v member

theorem write {stmt : Code} (uses : ∀ v ∈ stmt.uses, v ∈ avail) (simple : stmt.simple = true) :
    Scopes avail (Emit.write stmt) silent := by
  intro s a out s' emitted outer here older known
  cases emitted
  obtain ⟨declared, made⟩ := Stmt.simple_made simple
  have inScope : stmt.inScope outer here = true :=
    Stmt.simple_inScope simple fun v member => known v (uses v member)
  refine ⟨⟨?_, by simp [block, Stmt.made, made], by simp [block, Stmt.made, made], Nat.le_refl _⟩,
    by simp⟩
  simp [block, Stmt.inScope, Stmt.uses, inScope]

theorem writeReturn {c : Exp} (uses : ∀ v ∈ c.vars, v ∈ avail) :
    Scopes avail (Emit.write (.ite c .ret .skip)) silent := by
  -- `if (c) { return; }`.
  intro s a out s' emitted outer here older known
  cases emitted
  have read : ∀ v ∈ c.vars, v ∈ here ++ outer := fun v member => known v (uses v member)
  refine ⟨⟨?_, by simp [block, Stmt.made], by simp [block, Stmt.made], Nat.le_refl _⟩, by simp⟩
  simpa [block, Stmt.inScope, Stmt.uses] using read

theorem elseBlock {c : Exp} {body : Emit Unit} (uses : ∀ v ∈ c.vars, v ∈ avail)
    (inner : Scopes avail body silent) : Scopes avail (Emit.elseBlock c body) silent := by
  intro s a out s' emitted outer here older known
  unfold Emit.elseBlock at emitted
  split at emitted
  · cases emitted
  · rename_i b code t found
    cases emitted
    obtain ⟨tidy, _⟩ := inner s b code _ found (here ++ outer) [] (by simp) (by simpa using known)
    have read : ∀ v ∈ c.vars, v ∈ here ++ outer := fun v member => known v (uses v member)
    have made : (block [Stmt.ite c .skip (block code)]).made = (block code).made := by
      simp [block, Stmt.made]
    refine ⟨⟨?_, by rw [made]; exact tidy.fresh, by rw [made]; exact tidy.once, tidy.counted⟩, by simp⟩
    simpa [block, Stmt.inScope, Stmt.uses, tidy.inScope] using read

theorem when {condition : Bool} {body : Emit Unit} (inner : Scopes avail body silent) :
    Scopes avail (Emit.when condition body) silent := by
  cases condition with
  | true => exact inner
  | false => exact pure (by simp)

theorem emitVarDecl {stem : String} {t : Ty} {e : Exp} (plain : endsInDigit stem = false)
    (uses : ∀ u ∈ e.vars, u ∈ avail) :
    Scopes avail (Tase.emitVarDecl stem t e) fun v => [v] :=
  declare (fun _ => uses) plain fun v => pure (by simp)

theorem operandOr {o : Option Operand} {k : Nat} : Scopes avail (i.operandOr o k) silent := by
  cases o with
  | none => exact lift
  | some o => exact pure (by simp)

theorem emitFetch {o : Operand} {stem : String} {size : Size} {signed : Bool}
    (plain : endsInDigit stem = false) :
    Scopes avail (o.emitFetch stem size signed) fun v => [v] := by
  refine bindWith lift Ensures.lift fun e found => emitVarDecl plain ?_
  simp [Operand.fetchExp_vars found]

theorem regExpL {r : RegName} : Scopes avail (Tase.regExpL r) silent := by
  refine nothing (fun s a out s' emitted => ?_) (by simp)
  unfold Tase.regExpL at emitted
  cases base : baseReg r with
  | none => simp [base, Emit.raise, Emit.lift] at emitted
  | some g =>
      simp only [base] at emitted
      obtain ⟨_, _, _, _, added, returned, rfl⟩ := bind_ok emitted
      cases added
      cases returned
      refine ⟨rfl, ?_⟩
      split <;> rfl

theorem emitStore {o : Operand} {e : Exp} {size : Size} (uses : ∀ u ∈ e.vars, u ∈ avail) :
    Scopes avail (o.emitStore e size) silent := by
  cases o with
  | imm n | addr n symbol => exact raise
  | mem m =>
      refine bindWith lift Ensures.lift fun addr found => write ?_ rfl
      simpa [Stmt.uses, (MemRef.addr_over found).vars] using uses
  | reg r =>
      refine bind lift fun _ => bind regExpL fun whole => ?_
      have mask (n : Int) : (hex n : Exp).vars = [] := (@hex_over [] n).vars
      cases size with
      | b =>
          cases r <;>
            exact bind (write (by simp [Stmt.uses, Expr.vars, mask]) rfl) fun _ =>
              write (by simpa [Stmt.uses, Expr.vars, dec] using uses) rfl
      | w =>
          exact bind (write (by simp [Stmt.uses, Expr.vars, mask]) rfl) fun _ =>
            write (by simpa [Stmt.uses, Expr.vars] using uses) rfl
      | l | q => exact write (by simpa [Stmt.uses, Expr.vars] using uses) rfl

theorem emitSetFlag {mask : Nat} {e : Exp} {clean : Bool} (uses : ∀ u ∈ e.vars, u ∈ avail) :
    Scopes avail (Tase.emitSetFlag mask e clean) silent := by
  refine bind regExpL fun _ => ?_
  cases clean <;> exact write (by simpa [Stmt.uses, Expr.vars] using uses) rfl

theorem emitXchg : Scopes avail (Tase.emitXchg i) silent := by
  refine bind lift fun _ => bind lift fun _ => bind lift fun _ => ?_
  refine bind (emitFetch rfl) fun _ => bind (emitFetch rfl) fun _ => ?_
  exact bind (emitStore (by simp [Expr.vars])) fun _ => emitStore (by simp [Expr.vars])

theorem emitZps {vEfl vRes : Temp} (flags : vEfl ∈ avail) (result : vRes ∈ avail) :
    Scopes avail (Tase.emitZps i vEfl vRes) silent := by
  refine bind lift fun _ => ?_
  refine bind (write (by simp [Stmt.uses, Expr.vars, dec, flags, result]) rfl) fun _ => ?_
  refine bind (write (by simp [Stmt.uses, Expr.vars, dec, flags, result]) rfl) fun _ => ?_
  exact write (by simp [Stmt.uses, Expr.vars, dec, flags, result]) rfl

theorem emitAddCarryIn {mode : AddMode} :
    Scopes avail (Tase.emitAddCarryIn mode) fun vCf => vCf.toList := by
  unfold Tase.emitAddCarryIn
  split
  · exact declare (by simp [Expr.vars]) rfl fun v => pure (by simp)
  · exact pure (by simp)

theorem emitAddTarget {mode : AddMode} {argL argR : Operand} {vRes : Temp} {size : Size}
    (result : vRes ∈ avail) : Scopes avail (Tase.emitAddTarget mode argL argR vRes size) silent := by
  unfold Tase.emitAddTarget
  split
  · exact emitStore (by simp [Expr.vars, result])
  · exact emitStore (by simp [Expr.vars, result])
  · exact pure (by simp)

theorem emitAdd {left right : Option Operand} {mode : AddMode} :
    Scopes avail (Tase.emitAdd i left right mode) silent := by
  refine bind operandOr fun argR => bind operandOr fun argL => bind lift fun size => ?_
  refine bind (emitFetch rfl) fun vAug => bind (emitFetch rfl) fun vAdd => bind emitAddCarryIn fun vCf => ?_
  refine bind (emitVarDecl rfl ?_) fun vRes => bind (emitVarDecl rfl (by simp [Expr.vars, dec])) fun vEfl => ?_
  · cases vCf <;> simp [AddMode.sumExp, Expr.vars]
  refine bind (emitAddTarget (by simp)) fun _ => bind (write ?_ rfl) fun _ => ?_
  · cases direction : mode.sub <;> simp [Stmt.uses, AddMode.overflowExp, Expr.vars, dec, direction]
  refine bind (when (write ?_ rfl)) fun _ => ?_
  · cases vCf <;> simp [Stmt.uses, AddMode.carryExp, Expr.vars]
  exact bind (emitZps (by simp) (by simp)) fun _ => emitSetFlag (by simp [Expr.vars])

theorem emitStoreHi {destHi : Option Operand} {vHi : Temp} {size : Size} (high : vHi ∈ avail) :
    Scopes avail (Tase.emitStoreHi destHi vHi size) silent := by
  unfold Tase.emitStoreHi
  split
  · exact emitStore (by simp [Expr.vars, high])
  · exact pure (by simp)

theorem emitMul : Scopes avail (Tase.emitMul i) silent := by
  refine bind lift fun size => bind lift fun operands => ?_
  refine bind (emitFetch rfl) fun _ => bind (emitFetch rfl) fun _ => ?_
  refine bind (emitVarDecl rfl (by simp [Expr.vars])) fun vProduct => ?_
  refine bind (emitVarDecl rfl (by simp [Expr.vars])) fun vLo => ?_
  refine bind (emitStore (by simp [Expr.vars])) fun _ => ?_
  refine bind (emitVarDecl rfl (by simp [Expr.vars, dec])) fun vHi => ?_
  refine bind (emitStoreHi (by simp)) fun _ => emitSetFlag ?_
  unfold mulFlagExp
  split <;> simp [Expr.vars, dec]

theorem emitDiv : Scopes avail (Tase.emitDiv i) silent := by
  refine bind lift fun _ => bind lift fun _ => bind lift fun _ => ?_
  refine bind (emitFetch rfl) fun _ => bind (emitFetch rfl) fun _ => ?_
  refine bind (emitVarDecl rfl (by simp [Expr.vars, dec])) fun _ => bind (emitFetch rfl) fun _ => ?_
  refine bind (emitVarDecl rfl (by simp [Expr.vars])) fun _ => ?_
  refine bind (emitVarDecl rfl (by simp [Expr.vars])) fun _ => ?_
  exact bind (emitStore (by simp [Expr.vars])) fun _ => emitStore (by simp [Expr.vars])

theorem emitLogical {op : ArithOp} {writeTarget : Bool} :
    Scopes avail (Tase.emitLogical i op writeTarget) silent := by
  refine bind lift fun _ => bind lift fun _ => bind lift fun _ => ?_
  refine bind (emitFetch rfl) fun _ => bind (emitFetch rfl) fun _ => ?_
  refine bind (emitVarDecl rfl (by simp [Expr.vars])) fun _ => ?_
  refine bind (when (emitStore (by simp [Expr.vars]))) fun _ => ?_
  refine bind (emitVarDecl rfl (by simp [Expr.vars, dec])) fun _ => ?_
  exact bind (emitZps (by simp) (by simp)) fun _ => emitSetFlag (by simp [Expr.vars])

theorem emitShift : Scopes avail (Tase.emitShift i) silent := by
  refine bind lift fun operands => bind lift fun _ => bind lift fun _ => bind lift fun size2 => ?_
  refine bind (emitFetch rfl) fun _ => bind (emitVarDecl rfl (by simp [Expr.vars])) fun vAmt => ?_
  refine bind (emitFetch rfl) fun vSrc => bind (emitVarDecl rfl (by simp [Expr.vars])) fun vShift => ?_
  refine bind (when ?_) fun _ => bind (emitStore (by simp [Expr.vars])) fun _ => ?_
  · refine bind operandOr fun _ => bind (emitFetch rfl) fun vBits => ?_
    refine bind (when ?_) fun _ => write (by simp [Stmt.uses, Expr.vars, dec]) rfl
    exact declare (by simp [Expr.vars]) rfl fun vCf =>
      write (by simp [Stmt.uses, Expr.vars, dec]) rfl
  refine when (elseBlock (by simp [Expr.vars, dec]) ?_)
  refine bind (emitVarDecl rfl (by simp [Expr.vars, dec])) fun vEfl => ?_
  refine bind (emitZps (by simp) (by simp)) fun _ => ?_
  refine bind (write (by simp [Stmt.uses, shiftOverflowExp, Expr.vars, dec]) rfl) fun _ => ?_
  refine bind (write ?_ rfl) fun _ => emitSetFlag (by simp [Expr.vars])
  unfold shiftCarryExp
  split <;> simp [Stmt.uses, Expr.vars, dec]

theorem emitConverted {vIn : Temp} {size1 size2 : Size} {signed : Bool} (given : vIn ∈ avail) :
    Scopes avail (Tase.emitConverted vIn size1 size2 signed) fun v => [v] := by
  unfold Tase.emitConverted
  split
  · exact pure (by simp [given])
  · exact emitVarDecl rfl (by simp [Expr.vars, given])

theorem emitMov {src dest : Option Operand} {size : Option Size} :
    Scopes avail (Tase.emitMov i src dest size) silent := by
  refine bind operandOr fun _ => bind operandOr fun _ => bind lift fun size2 => bind lift fun size1 => ?_
  exact bind (emitFetch rfl) fun vIn => bind (emitConverted (by simp)) fun vConv =>
    emitStore (by simp [Expr.vars])

theorem emitLea {src dest : Option Operand} {size : Option Size} :
    Scopes avail (Tase.emitLea i src dest size) silent := by
  refine bind operandOr fun _ => bind operandOr fun _ => bind lift fun _ => bind lift fun m => ?_
  refine bindWith lift Ensures.lift fun addr found => emitStore ?_
  simp [Expr.vars, (MemRef.addr_over found).vars]

theorem emitPush {src : Option Operand} {size : Option Size} :
    Scopes avail (Tase.emitPush i src size) silent :=
  bind operandOr fun _ => bind lift fun _ => bind emitLea fun _ => emitMov

theorem emitPop {dest : Option Operand} {size : Option Size} :
    Scopes avail (Tase.emitPop i dest size) silent :=
  bind operandOr fun _ => bind lift fun _ => bind emitMov fun _ => emitLea

theorem failureExp_vars {code : Cond} {cNeg cEq : Bool} {v : Temp} :
    ∀ u ∈ (failureExp code cNeg cEq v).vars, u = v := by
  have whole : ∀ u ∈ (eqExp code cEq v).vars, u = v := by
    unfold eqExp
    split <;> cases code <;> simp [condExp, flagExp, Expr.vars, dec]
  unfold failureExp
  split
  · exact whole
  · exact whole

theorem emitUnderCond {body : Emit Unit} (inner : ∀ more, Scopes (more ++ avail) body silent) :
    Scopes avail (do let failure ← emitReturnForCond i; emitElse failure body) silent := by
  have condition : Scopes avail (emitReturnForCond i) fun failure => (failure.map Expr.vars).getD [] := by
    unfold emitReturnForCond
    split
    · exact pure (by simp)
    · refine declare (by simp [Expr.vars]) rfl fun v => pure fun u member => ?_
      simp [failureExp_vars u member]
  refine bind condition fun failure => ?_
  cases failure with
  | none => exact inner []
  | some c => exact elseBlock (fun v member => by simp [member]) (inner _)

theorem emitJump : Scopes avail (Tase.emitJump i) silent := emitUnderCond fun _ => emitMov

theorem emitBittest : Scopes avail (Tase.emitBittest i) silent := by
  refine bind lift fun _ => bind lift fun _ => bind lift fun size => bind lift fun _ => ?_
  refine bind (emitFetch rfl) fun vOffset1 => bind (emitVarDecl rfl ?_) fun vOffset => ?_
  · simp [Expr.vars, (@hex_over [] _).vars]
  refine bind (emitFetch rfl) fun vOrig => bind (emitVarDecl rfl (by simp [Expr.vars])) fun vBit => ?_
  refine bind (emitSetFlag (by simp [Expr.vars, dec])) fun _ => ?_
  unfold emitBittestModify
  split
  · exact pure (by simp)
  · rename_i bit _
    refine bind (emitVarDecl rfl ?_) fun _ => emitStore (by simp [Expr.vars])
    cases bit <;> simp [TestBit.modify, Expr.vars]

theorem bswapExp_vars {v : Temp} {bytes : Nat} : ∀ u ∈ (bswapExp v bytes).vars, u = v := by
  have folded (terms : List Exp) (first : Exp) (start : ∀ u ∈ first.vars, u = v)
      (all : ∀ e ∈ terms, ∀ u ∈ e.vars, u = v) :
      ∀ u ∈ (terms.foldl (Expr.arith .or) first).vars, u = v := by
    induction terms generalizing first with
    | nil => exact start
    | cons e rest ih =>
        refine ih _ (fun u member => ?_) fun e' inRest => all e' (by simp [inRest])
        rcases List.mem_append.mp member with left | right
        · exact start u left
        · exact all e (by simp) u right
  have terms : ∀ e ∈ (List.range (bytes / 2)).flatMap (bswapTerms v bytes), ∀ u ∈ e.vars, u = v := by
    intro e member
    obtain ⟨k, _, here⟩ := List.mem_flatMap.mp member
    simp only [bswapTerms, List.mem_cons, List.not_mem_nil, or_false] at here
    rcases here with rfl | rfl <;> simp [Expr.vars, dec]
  unfold bswapExp
  split
  · simp [dec, Expr.vars]
  · rename_i first rest shape
    rw [shape] at terms
    exact folded rest first (terms first (by simp)) fun e inRest => terms e (by simp [inRest])

theorem emitOp (notCmc : i.op ≠ .cmc) : Scopes avail (Tase.emitOp i) silent := by
  unfold Tase.emitOp
  cases op : i.op with
  | cmc => exact absurd op notCmc
  | nop => exact pure (by simp)
  | xchg => exact emitXchg
  | xadd => exact bind emitXchg fun _ => emitAdd
  | lea => exact emitLea
  | mov => exact emitMov
  | cmov => exact bind lift fun _ => bind emitMov fun _ => emitUnderCond fun _ => emitMov
  | ctd =>
      refine bind lift fun _ => bind lift fun _ => bind lift fun _ => bind lift fun _ => ?_
      exact bind (emitFetch rfl) fun _ => bind (emitVarDecl rfl (by simp [Expr.vars, dec])) fun _ =>
        emitStore (by simp [Expr.vars])
  | push | pushf => exact emitPush
  | pop | popf => exact emitPop
  | enter => exact bind lift fun _ => bind emitPush fun _ => bind emitMov fun _ => emitLea
  | leave => exact bind emitMov fun _ => emitPop
  | add | sub | adc | sbb | cmp | neg => exact emitAdd
  | inc | dec => exact bind lift fun _ => emitAdd
  | mul => exact emitMul
  | div => exact emitDiv
  | and | or | xor | test => exact emitLogical
  | not => exact bind lift fun _ => bind lift fun _ => bind (emitFetch rfl) fun _ => emitStore (by simp [Expr.vars])
  | rc | ro | sa | sh | shd => exact emitShift
  | call =>
      exact bind lift fun _ => bind lift fun _ => bind (emitFetch rfl) fun _ => bind emitPush fun _ =>
        emitStore (by simp [Expr.vars])
  | ret => exact bind lift fun _ => emitPop
  | loop =>
      refine bind lift fun _ => bind lift fun _ => bind (emitFetch rfl) fun vCtr => ?_
      refine bind (write (by simp [Stmt.uses]) rfl) fun _ => ?_
      refine bind (emitStore (by simp [Expr.vars])) fun _ => ?_
      exact bind (writeReturn (by simp [Expr.vars, dec])) fun _ => emitJump
  | j => exact emitJump
  | set =>
      exact bind lift fun _ => bind (emitStore (by simp [Expr.vars, dec])) fun _ =>
        emitUnderCond fun _ => emitStore (by simp [Expr.vars, dec])
  | bt => exact emitBittest
  | bswap =>
      refine bind lift fun _ => bind lift fun _ => bind (emitFetch rfl) fun _ => ?_
      refine bind (emitVarDecl rfl fun u member => ?_) fun _ => emitStore (by simp [Expr.vars])
      simp [bswapExp_vars u member]
  | cl | st =>
      refine bind lift fun _ => emitSetFlag ?_
      simp [Expr.vars, dec]
  | other name => exact raise

theorem emitBody (other : i.nothingToDo = false → i.op ≠ .cmc) :
    Scopes avail (Tase.emitBody i) silent := by
  refine bind (write (by simp [Stmt.uses, Expr.vars, dec]) rfl) fun _ => ?_
  cases idle : i.nothingToDo with
  | true => exact pure (by simp)
  | false => exact emitOp (other idle)

theorem emitBodies {instrs : List Instruction}
    (others : ∀ i ∈ instrs, i.nothingToDo = false → i.op ≠ .cmc) :
    Scopes avail (Tase.emitBodies instrs) silent := by
  induction instrs generalizing avail with
  | nil => exact pure (by simp)
  | cons i rest ih =>
      obtain ⟨first, later⟩ := List.forall_mem_cons.mp others
      exact bind (emitBody first) fun _ => ih later

end Scopes

end Emit

theorem cmc_twice {i : Instruction} (cmc : i.op = .cmc) (active : i.nothingToDo = false)
    {s s' : EmitState} {out : List Code} (emitted : emitBody i s = .ok ((), out, s'))
    (outer here : List Temp) : (block out).inScope outer here = false := by
  -- `cmc` declares its `efl` local twice in one block, whatever is declared before.
  have shape : emitBody i s = Emit.bind (Emit.write (.setReg .rip (.arith .add (.reg .rip) (dec i.length))))
      (fun _ => emitCmc) s := by
    simp only [emitBody, active, emitOp, cmc]
    rfl
  rw [shape] at emitted
  cases emitted
  simp [block, Stmt.inScope, Stmt.declared]

theorem cmc_spoils {instrs : List Instruction} {i : Instruction} (member : i ∈ instrs)
    (cmc : i.op = .cmc) (active : i.nothingToDo = false) {s s' : EmitState} {out : List Code}
    (emitted : emitBodies instrs s = .ok ((), out, s')) (outer here : List Temp) :
    (block out).inScope outer here = false := by
  induction instrs generalizing s out here with
  | nil => cases member
  | cons j rest ih =>
      obtain ⟨_, code, middle, code', found, found', rfl⟩ := Emit.bind_ok emitted
      rw [block_inScope]
      rcases List.mem_cons.mp member with rfl | inRest
      · rw [cmc_twice cmc active found, Bool.false_and]
      · rw [ih inRest found', Bool.and_false]

theorem cartridge_wellScoped_iff {instrs : List Instruction} {f : Function}
    (emitted : EmittedCartridge instrs f) :
    f.WellScoped ↔ ∀ i ∈ instrs, i.op = .cmc → i.nothingToDo = true := by
  obtain ⟨s, s', found, _⟩ := emitted.bodies
  constructor
  · intro well i member cmc
    by_contra active
    have spoiled := cmc_spoils member cmc (by simpa using active) found [] []
    rw [well.inScope] at spoiled
    cases spoiled
  · intro idle
    have others (i : Instruction) (member : i ∈ instrs) (active : i.nothingToDo = false) :
        i.op ≠ .cmc := by
      intro cmc
      rw [idle i member cmc] at active
      cases active
    have scopes : Emit.Scopes [] (emitBodies instrs) Emit.silent := Emit.Scopes.emitBodies others
    obtain ⟨tidy, _⟩ := scopes s () f.body s' found [] [] (by simp) (by simp)
    refine ⟨tidy.inScope, ?_, fun v _ r => v.name_ne_tmpName r⟩
    refine List.Pairwise.map _ (fun _ _ different => different) (List.Pairwise.imp_of_mem ?_
      (List.pairwise_map.mp tidy.once))
    intro v w left right different same
    exact different (Temp.index_of_name (tidy.fresh v left).2.2 (tidy.fresh w right).2.2 same)

def rotateThroughCarry : Instruction :=
  { original := "rcl    %rax", vaddr := 0x1000, length := 3, op := .rc, size1 := some .b,
    size2 := some .q, cLeft := true, operands := [.imm 1, .reg (.q (.gpr .rax))] }

theorem cartridge_wellScoped_iff_rotates :
    ∃ f, EmittedCartridge [rotateThroughCarry, rotateThroughCarry] f ∧ f.WellScoped := by
  have emitted : EmittedCartridge [rotateThroughCarry, rotateThroughCarry]
      ((printed (emitCartridge [rotateThroughCarry, rotateThroughCarry])).get rfl) :=
    ⟨.initial, _, rfl⟩
  exact ⟨_, emitted, (cartridge_wellScoped_iff emitted).mpr (by decide)⟩

def complementCarry : Instruction :=
  { original := "cmc", vaddr := 0x1000, length := 1, op := .cmc }

theorem cmc_redeclares : ∃ f, EmittedCartridge [complementCarry] f ∧ ¬ f.WellScoped := by
  refine ⟨(printed (emitCartridge [complementCarry])).get rfl, ⟨.initial, _, rfl⟩, fun well => ?_⟩
  have inScope := well.inScope
  revert inScope
  decide

end Tase
