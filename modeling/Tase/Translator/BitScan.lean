import Tase.Cpp.BitIndex
import Tase.Cpp.Funnel
import Tase.Translator.Emits
import Tase.Translator.Flags
import Tase.Translator.Loop

/-! The emitters of `bsf` and `bsr`, which `emit_function` does not call. -/

namespace Tase

open Cpp

def dblookup64 : List Nat :=
  [0, 1, 48, 2, 57, 49, 28, 3,
   61, 58, 50, 42, 38, 29, 17, 4,
   62, 55, 59, 36, 53, 51, 43, 22,
   45, 39, 33, 30, 24, 18, 12, 5,
   63, 47, 56, 27, 60, 41, 37, 16,
   54, 35, 52, 21, 44, 32, 23, 11,
   46, 26, 40, 15, 34, 20, 31, 10,
   25, 14, 19, 9, 13, 8, 7, 6]

def db64 : Nat := 0x03f79d71b4cb0a89

def Emit.ifElse (c : Exp) (yes no : Emit Unit) : Emit Unit := fun s =>
  match yes s with
  | .error e => .error e
  | .ok (_, out, s') =>
      match no s' with
      | .error e => .error e
      | .ok (_, out', s'') => .ok ((), [.ite c (block out) (block out')], s'')

def zeroFlagExp : Exp :=
  -- `(1<<6)`.
  .shift .left (dec 1) (dec flagZF)

/-- Both emitters store to RAX, whatever the second operand is. -/
def scanDest : Operand := regOperand .rax .q

/-- The code for a source of zero. An `&=` is written out, the variable being a plain one. -/
def emitScanZero (vEfl : Temp) : Emit Unit := do
  Emit.write (.set vEfl (.arith .and (.var vEfl) (.un .not zeroFlagExp)))
  emitStoreCozps vEfl false

def isolatedExp (v : Temp) : Exp :=
  -- `(uint64_t)((v&-v) * db64)>>58`.
  .shift .right
    (.cast (.uint 64) (.arith .mul (.arith .and (.var v) (.un .neg (.var v))) (.lit .hex db64)))
    (dec 58)

def emitBsfIndex (vEfl v : Temp) : Emit Unit := do
  let vFinal ← emitVarDecl "final" ⟨64, true⟩ (.lookup dblookup64 (isolatedExp v))
  scanDest.emitStore (.var vFinal) .q
  Emit.write (.set vEfl (.arith .and (.var vEfl) zeroFlagExp))
  emitStoreCozps vEfl false

def emitBsf (i : Instruction) : Emit Unit := do
  let src ← i.operand 0
  let vEfl ← emitFlagDecl
  let v ← src.emitFetch "v" .q false
  Emit.ifElse (.cmp .eq (.var v) (dec 0)) (emitScanZero vEfl) (emitBsfIndex vEfl v)

def searchStart (v y r : Temp) : Code :=
  -- `if(v>>32) y=v>>32, r=0; else y=v, r=32;`.
  .ite (.shift .right (.var v) (dec 32))
    (block [.set y (.shift .right (.var v) (dec 32)), .set r (dec 0)])
    (block [.set y (.var v), .set r (dec 32)])

def searchStep (y r : Temp) (s : Nat) : Code :=
  -- `if(y>>s) y=y>>s; else r |= s;`.
  .ite (.shift .right (.var y) (dec s)) (.set y (.shift .right (.var y) (dec s))) (.orSet r (dec s))

def searchResult (y r : Temp) : Exp :=
  -- `63 - (r | !(y>>1))`.
  .arith .sub (dec 63) (.arith .or (.var r) (.un .lnot (.shift .right (.var y) (dec 1))))

def emitBsrIndex (vEfl v : Temp) : Emit Unit := do
  let y ← emitVarDecl "y" (.uint 32) (dec 0)
  let r ← emitVarDecl "r" .int (dec 0)
  Emit.write (searchStart v y r)
  Emit.write (searchStep y r 16)
  Emit.write (searchStep y r 8)
  Emit.write (searchStep y r 4)
  Emit.write (searchStep y r 2)
  let vFinal ← emitVarDecl "final" (.uint 64) (searchResult y r)
  Emit.write (.orSet vEfl zeroFlagExp)
  scanDest.emitStore (.var vFinal) .q
  emitStoreCozps vEfl false

def emitBsr (i : Instruction) : Emit Unit := do
  let src ← i.operand 0
  let vEfl ← emitFlagDecl
  let v ← src.emitFetch "v" .q false
  Emit.ifElse (.un .lnot (.var v)) (do emitScanZero vEfl; Emit.write .ret) (pure ())
  emitBsrIndex vEfl v

/-! The index of the lowest bit. -/

theorem dblookup64_length : dblookup64.length = 64 := rfl

theorem dblookup64_twoPow : ∀ k < 64,
    dblookup64.getD ((BitVec.twoPow 64 k * BitVec.ofNat 64 db64) >>> 58).toNat 0 = k := by
  decide

section

variable {ub : Undef} {st : CState} {v : Temp} {x : BitVec 64} {k : Nat}

theorem shift_right_uint {w s : Nat} (a : BitVec w) (wide : 32 ≤ w) (small : s < w) (bound : w ≤ 64) :
    Val.shift ub .right ⟨.uint w, a⟩ (.lit .dec s) = ⟨.uint w, a >>> s⟩ := by
  have promoted : Ty.promote (.uint w) = .uint w := by simp [Ty.promote, Ty.uint, Nat.not_lt.mpr wide]
  have amount := Val.lit_toInt .dec s (by omega)
  have range : 0 ≤ (Val.lit .dec s).toInt ∧ (Val.lit .dec s).toInt < (w : Int) := by omega
  change Val.shiftAt ub .right (Ty.promote (.uint w)) _ _ = _
  rw [promoted]
  simp only [Val.shiftAt, if_pos range]
  rw [amount]
  simp

theorem eval_isolatedExp (held : st.vars v = ⟨.uint 64, x⟩) :
    eval ub st (isolatedExp v) = ⟨.uint 64, ((x &&& -x) * BitVec.ofNat 64 db64) >>> 58⟩ := by
  have negated : Val.un ub .neg ⟨.uint 64, x⟩ = ⟨.uint 64, -x⟩ := by
    change (⟨.uint 64, (0#64).setWidth 64 - x.setWidth 64⟩ : Val) = _
    simp
  have isolated : Val.arith ub .and ⟨.uint 64, x⟩ ⟨.uint 64, -x⟩ = ⟨.uint 64, x &&& -x⟩ := by
    rw [@Val.arith_unsigned ub .and 64 _ _ rfl rfl]
    simp [ArithOp.compute]
  have product : Val.arith ub .mul ⟨.uint 64, x &&& -x⟩ (.lit .hex db64) =
      ⟨.uint 64, (x &&& -x) * BitVec.ofNat 64 db64⟩ := by
    rw [@Val.arith_unsigned ub .mul 64 _ _ rfl rfl, Val.lit_conv _ _ _ (by decide)]
    simp [ArithOp.compute]
  simp only [isolatedExp, eval, held, dec]
  rw [negated, isolated, product, Val.cast, Val.conv_unsigned, BitVec.setWidth_eq]
  exact shift_right_uint _ (by decide) (by decide) (by decide)

theorem lookup_entry {table : List Nat} {w n : Nat} {index : BitVec w} (inside : index.toNat < table.length)
    (entry : table.getD index.toNat 0 = n) (small : n < 2 ^ 31) :
    Val.lookup ub table ⟨.uint w, index⟩ = .lit .dec n := by
  have value : (⟨.uint w, index⟩ : Val).toInt = index.toNat := rfl
  have type : Radix.dec.ty n = .int := if_pos small
  rw [Val.lookup, value, if_pos (by omega), Int.toNat_natCast, entry, Val.lit, type]

theorem eval_lowest (held : st.vars v = ⟨.uint 64, x⟩) (low : IsLowest x k) :
    eval ub st (.lookup dblookup64 (isolatedExp v)) = .lit .dec k := by
  have small : k < 64 := low.lt
  rw [eval, eval_isolatedExp held, low.isolate]
  refine lookup_entry ?_ (dblookup64_twoPow k small) (by omega)
  rw [BitVec.toNat_ushiftRight, Nat.shiftRight_eq_div_pow, dblookup64_length]
  have := (BitVec.twoPow 64 k * BitVec.ofNat 64 db64).isLt
  omega

end

/-! The search for the highest bit. -/

/-- With the highest bit of the source at `h`, the lowest `w` bits of `y` are left to search. -/
structure Searching (h w : Nat) (y r : BitVec 32) : Prop where
  top : ∃ k < w, IsHighest y k ∧ h + r.toNat + w = 64 + k
  aligned : r.toNat % w = 0
  small : r.toNat < 64

theorem or_aligned : ∀ s ∈ [16, 8, 4, 2], ∀ n < 64, n % (2 * s) = 0 →
    n ||| s = n + s ∧ n + s < 64 ∧ (n + s) % s = 0 ∧ n % s = 0 := by
  decide

section

variable {h s k : Nat} {a b : BitVec 32}

theorem Searching.start {x : BitVec 64} (high : IsHighest x h) :
    Searching h 32 (if x >>> 32 = 0 then x.setWidth 32 else (x >>> 32).setWidth 32)
      (if x >>> 32 = 0 then 32 else 0) := by
  split
  · rename_i gone
    refine ⟨⟨h, high.lt_of_shifted gone, high.setWidth (high.lt_of_shifted gone), ?_⟩, rfl, by decide⟩
    change h + 32 + 32 = _
    omega
  · rename_i left
    obtain ⟨reaches, top⟩ := high.shifted left
    have inside := high.lt
    refine ⟨⟨h - 32, by omega, top.setWidth (by omega), ?_⟩, rfl, by decide⟩
    change h + 0 + 32 = _
    omega

theorem Searching.halve (searching : Searching h (2 * s) a b) (step : s ∈ [16, 8, 4, 2]) :
    Searching h s (if a >>> s = 0 then a else a >>> s) (if a >>> s = 0 then b ||| BitVec.ofNat 32 s else b) := by
  obtain ⟨k, below, top, place⟩ := searching.top
  obtain ⟨sum, small, aligned, aligned'⟩ := or_aligned s step _ searching.small searching.aligned
  have bound : s < 2 ^ 32 := by
    simp only [List.mem_cons, List.not_mem_nil, or_false] at step
    omega
  split
  · rename_i gone
    have value : (b ||| BitVec.ofNat 32 s).toNat = b.toNat + s := by
      rw [BitVec.toNat_or, BitVec.toNat_ofNat, Nat.mod_eq_of_lt bound, sum]
    refine ⟨⟨k, top.lt_of_shifted gone, top, ?_⟩, ?_, ?_⟩
    · omega
    · rw [value]
      exact aligned
    · rw [value]
      exact small
  · rename_i left
    obtain ⟨reaches, shifted⟩ := top.shifted left
    exact ⟨⟨k - s, by omega, shifted, by omega⟩, aligned', searching.small⟩

theorem Searching.result (searching : Searching h 2 a b) :
    (b ||| (if a >>> 1 = 0 then 1 else 0)).toNat + h = 63 := by
  obtain ⟨k, below, top, place⟩ := searching.top
  have odd : ∀ n < 64, n % 2 = 0 → n ||| 1 = n + 1 := by decide
  split
  · rename_i gone
    have lowest := top.lt_of_shifted gone
    rw [BitVec.toNat_or]
    change (b.toNat ||| 1) + h = 63
    rw [odd _ searching.small searching.aligned]
    omega
  · rename_i left
    have upper := (top.shifted left).1
    change (b ||| 0#32).toNat + h = 63
    rw [BitVec.or_zero]
    omega

structure SearchLocals (y r vEfl : Temp) (m : Mach) (a b : BitVec 32) (st : CState) : Prop where
  machine : st.machine = m
  rest : st.vars y = ⟨.uint 32, a⟩
  zeros : st.vars r = ⟨.int, b⟩
  flags : st.vars vEfl = flagZero

variable {ub : Undef} {y r vEfl : Temp} {m : Mach} {st : CState}

theorem eval_shifted (rest : st.vars y = ⟨.uint 32, a⟩) (small : s < 32) :
    eval ub st (.shift .right (.var y) (dec s)) = ⟨.uint 32, a >>> s⟩ := by
  simp only [eval, dec, rest]
  exact shift_right_uint _ (by decide) small (by decide)

theorem or_int (c : BitVec 32) : Val.arith ub .or ⟨.int, b⟩ ⟨.int, c⟩ = ⟨.int, b ||| c⟩ := by
  change (⟨.int, b.signExtend 32 ||| c.signExtend 32⟩ : Val) = _
  simp

theorem truthy_uint {w : Nat} {c : BitVec w} : (⟨.uint w, c⟩ : Val).truthy = true ↔ c ≠ 0 := by
  simp [Val.truthy]

theorem exec_searchStep (locals : SearchLocals y r vEfl m a b st) (apart : y ≠ r ∧ vEfl ≠ y ∧ vEfl ≠ r)
    (step : s ∈ [16, 8, 4, 2]) :
    ∃ st', exec ub (searchStep y r s) st = .ok st' ∧
      SearchLocals y r vEfl m (if a >>> s = 0 then a else a >>> s)
        (if a >>> s = 0 then b ||| BitVec.ofNat 32 s else b) st' := by
  obtain ⟨machine, rest, zeros, flags⟩ := locals
  have small : s < 32 := by
    simp only [List.mem_cons, List.not_mem_nil, or_false] at step
    omega
  have shifted := @eval_shifted s a ub y st rest small
  have literal : Val.lit .dec s = ⟨.int, BitVec.ofNat 32 s⟩ := by
    have type : Radix.dec.ty s = .int := if_pos (by omega)
    rw [Val.lit, type]
  simp only [searchStep, exec, shifted]
  by_cases gone : a >>> s = 0
  · rw [if_neg (truthy_uint.not.mpr (not_not.mpr gone)), if_pos gone, if_pos gone]
    refine ⟨_, rfl, machine, ?_, ?_, ?_⟩
    · rw [State.bind_vars_ne _ _ _ _ apart.1, rest]
    · rw [State.bind_vars_self, zeros]
      change (Val.arith ub .or ⟨.int, b⟩ (Val.lit .dec s)).cast .int = _
      rw [literal, or_int]
      simp [Val.cast, Ty.int]
    · rw [State.bind_vars_ne _ _ _ _ apart.2.2, flags]
  · rw [if_pos (truthy_uint.mpr gone), if_neg gone, if_neg gone]
    refine ⟨_, rfl, machine, ?_, ?_, ?_⟩
    · rw [State.bind_vars_self, rest]
      simp [Val.cast]
    · rw [State.bind_vars_ne _ _ _ _ apart.1.symm, zeros]
    · rw [State.bind_vars_ne _ _ _ _ apart.2.1, flags]

theorem exec_searchStart {v : Temp} {x : BitVec 64} (held : st.vars v = ⟨.uint 64, x⟩)
    (declared : (st.vars y).ty = .uint 32 ∧ (st.vars r).ty = .int) (flags : st.vars vEfl = flagZero)
    (apart : y ≠ r ∧ vEfl ≠ y ∧ vEfl ≠ r) :
    ∃ st', exec ub (searchStart v y r) st = .ok st' ∧
      SearchLocals y r vEfl st.machine (if x >>> 32 = 0 then x.setWidth 32 else (x >>> 32).setWidth 32)
        (if x >>> 32 = 0 then 32 else 0) st' := by
  have shifted : eval ub st (.shift .right (.var v) (dec 32)) = ⟨.uint 64, x >>> 32⟩ := by
    simp only [eval, dec, held]
    exact shift_right_uint _ (by decide) (by decide) (by decide)
  simp only [searchStart, block, exec, shifted, Except.bind]
  by_cases gone : x >>> 32 = 0
  · rw [if_neg (truthy_uint.not.mpr (not_not.mpr gone)), if_pos gone, if_pos gone]
    refine ⟨_, rfl, rfl, ?_, ?_, ?_⟩
    · rw [State.bind_vars_ne _ _ _ _ apart.1, State.bind_vars_self, declared.1, eval, held]
      simp [Val.cast]
    · rw [State.bind_vars_self, State.bind_vars_ne _ _ _ _ apart.1.symm, declared.2]
      rfl
    · rw [State.bind_vars_ne _ _ _ _ apart.2.2, State.bind_vars_ne _ _ _ _ apart.2.1, flags]
  · rw [if_pos (truthy_uint.mpr gone), if_neg gone, if_neg gone]
    refine ⟨_, rfl, rfl, ?_, ?_, ?_⟩
    · rw [State.bind_vars_ne _ _ _ _ apart.1, State.bind_vars_self, declared.1]
      simp [Val.cast]
    · rw [State.bind_vars_self, State.bind_vars_ne _ _ _ _ apart.1.symm, declared.2]
      rfl
    · rw [State.bind_vars_ne _ _ _ _ apart.2.2, State.bind_vars_ne _ _ _ _ apart.2.1, flags]

theorem eval_searchResult (locals : SearchLocals y r vEfl m a b st) (searching : Searching h 2 a b) :
    (eval ub st (searchResult y r)).cast (.uint 64) = ⟨.uint 64, BitVec.ofNat 64 h⟩ := by
  have shifted := @eval_shifted 1 a ub y st locals.rest (by decide)
  have negated : Val.un ub .lnot ⟨.uint 32, a >>> 1⟩ = ⟨.int, if a >>> 1 = 0 then 1 else 0⟩ := by
    simp [Val.un, Val.truthy, Val.ofBool]
  have leading := searching.result
  have zeros : Val.arith ub .or (st.vars r) (Val.un ub .lnot ⟨.uint 32, a >>> 1⟩) =
      ⟨.int, b ||| (if a >>> 1 = 0 then 1 else 0)⟩ := by
    rw [locals.zeros, negated, or_int]
  generalize b ||| (if a >>> 1 = 0 then 1 else 0) = z at zeros leading
  have value : (⟨.int, z⟩ : Val).toInt = z.toNat := by
    change z.toInt = _
    exact BitVec.toInt_eq_toNat_of_lt (by omega)
  have literal := Val.lit_toInt .dec 63 (by decide)
  have difference := Val.sub_small ub (l := .lit .dec 63) (r := ⟨.int, z⟩) (.inl rfl) (.inl rfl)
    (by rw [literal]; omega) (by rw [value]; omega)
  rw [literal, value] at difference
  have index : Val.arith ub .sub (.lit .dec 63) ⟨.int, z⟩ = .lit .dec h := by
    have type : (Val.lit .dec h).ty = .int := if_pos (by omega)
    rw [Val.eq_int type, Val.eq_int (v := Val.arith ub .sub (.lit .dec 63) ⟨.int, z⟩) rfl, difference,
      Val.lit_toInt .dec h (by omega)]
    congr 2
    omega
  simp only [searchResult, eval, dec] at shifted ⊢
  rw [shifted, zeros, index, Val.cast, Val.lit_conv _ _ _ (by decide)]

end

/-! What the emitted code does. -/

inductive Scan
  | bsf | bsr
deriving DecidableEq, Repr

namespace Scan

def emit : Scan → Instruction → Emit Unit
  | .bsf => emitBsf
  | .bsr => emitBsr

def IsIndex : Scan → BitVec 64 → Nat → Prop
  | .bsf => IsLowest
  | .bsr => IsHighest

theorem exists_index (op : Scan) {x : BitVec 64} (nonzero : x ≠ 0) : ∃ k < 64, op.IsIndex x k := by
  cases op with
  | bsf => exact exists_lowest nonzero
  | bsr => exact exists_highest nonzero

def flags : Scan → Val
  | .bsf => flagZero
  | .bsr => ⟨.uint 16, 2 ^ flagZF⟩

/-- The machine after the scan of `x`, whose index is `k`; `.error` is the machine at an early return. -/
def denote (ub : Undef) (op : Scan) (x : BitVec 64) (k : Nat) (m : Mach) : Except Mach Mach :=
  if x = 0 then
    match op with
    | .bsf => .ok (setFlag ub cozpsMask flagZero false m)
    | .bsr => .error (setFlag ub cozpsMask flagZero false m)
  else .ok (setFlag ub cozpsMask op.flags false (m.setReg (.gpr .rax) (BitVec.ofNat 64 k)))

end Scan

namespace Emit

variable {α β : Type} {ub : Undef} {n : Nat} {st : CState}

theorem ifElse_ok {c : Exp} {yes no : Emit Unit} {s s' : EmitState} {a : Unit} {out : List Code}
    (emitted : Emit.ifElse c yes no s = .ok (a, out, s')) :
    ∃ code middle code', yes s = .ok ((), code, middle) ∧ no middle = .ok ((), code', s') ∧
      out = [.ite c (block code) (block code')] := by
  unfold Emit.ifElse at emitted
  split at emitted
  · cases emitted
  · rename_i code middle found
    split at emitted
    · cases emitted
    · rename_i code' last found'
      cases emitted
      exact ⟨code, middle, code', found, found', rfl⟩

theorem run_ite {c : Exp} {code code' : List Code} :
    run ub [.ite c (block code) (block code')] st =
      if (eval ub st c).truthy then run ub code st else run ub code' st := by
  have ends (x : Except CState CState) : x.bind (run ub []) = x := by cases x <;> rfl
  simp only [run_cons, exec]
  exact ends _

theorem Runs.ifElse {c : Exp} {yes no : Emit Unit} {Q : Unit → Nat → CState → Prop}
    (taken : (eval ub st c).truthy = true → Runs ub yes n st fun _ _ st' => ∀ n', Q () n' st')
    (skipped : (eval ub st c).truthy = false → ∀ n', Runs ub no n' st Q) :
    Runs ub (Emit.ifElse c yes no) n st Q := by
  intro s a out s' count emitted
  obtain ⟨code, middle, code', found, found', rfl⟩ := ifElse_ok emitted
  rw [run_ite]
  cases truth : (eval ub st c).truthy with
  | true =>
      obtain ⟨st', ran, post⟩ := taken truth s () code middle count found
      exact ⟨st', ran, post _⟩
  | false => exact skipped truth _ middle () code' s' rfl found'

theorem Ends.bind_return {c : Exp} {yes no : Emit Unit} {f : Unit → Emit β} {Q : Except CState CState → Prop}
    (taken : (eval ub st c).truthy = true)
    (returns : Ends ub yes n st fun ended => ∃ st', ended = .error st' ∧ Q (.error st')) :
    Ends ub (Emit.ifElse c yes no >>= f) n st Q := by
  intro s b out s' count emitted
  obtain ⟨a, code, middle, code', found, found', rfl⟩ := bind_ok emitted
  obtain ⟨first, inner, second, early, _, rfl⟩ := ifElse_ok found
  obtain ⟨st', ran, post⟩ := returns s () first inner count early
  rw [run_append, run_ite, if_pos taken, ran]
  exact post

end Emit

section

variable {ub : Undef}

theorem and_flagZero (v : Val) : (Val.arith ub .and flagZero v).cast (.uint 16) = flagZero := by
  have bits : (Val.arith ub .and flagZero v).conv (.uint 16) = 0#16 := by
    apply BitVec.eq_of_getLsbD_eq
    intro k inside
    have wide : k < (Ty.common flagZero.ty v.ty).width := by
      have promoted := Ty.promote_width flagZero.ty
      rw [Ty.common_width]
      change k < 16 at inside
      omega
    rw [Val.conv_getLsbD, Val.arith_bit ub rfl _ _ wide, flagZero_bit inside]
    simp
  rw [Val.cast, bits]
  rfl

theorem eval_zeroFlagExp {st : CState} : eval ub st zeroFlagExp = ⟨.int, 2 ^ flagZF⟩ := by
  have range : 0 ≤ (Val.lit .dec flagZF).toInt ∧
      (Val.lit .dec flagZF).toInt < ((Ty.int.promote.width : Nat) : Int) := by decide
  change Val.shiftAt ub .left Ty.int.promote (.lit .dec 1) (.lit .dec flagZF) = _
  rw [Val.shiftAt, if_pos range]
  rfl

end

namespace Emit

variable {α β : Type} {ub : Undef} {n : Nat} {st : CState} {i : Instruction} {k : Nat}

theorem Runs.emitScanZero {vEfl : Temp} {Q : Unit → Nat → CState → Prop} (flags : st.vars vEfl = flagZero)
    (post : ∀ st', st'.machine = setFlag ub cozpsMask flagZero false st.machine → Q () n st') :
    Runs ub (Tase.emitScanZero vEfl) n st Q := by
  refine Runs.bind (Runs.write rfl (Runs.emitSetFlag (post _ ?_)))
  have type : flagZero.ty = .uint 16 := rfl
  simp only [eval, flags, type, and_flagZero, State.bind_vars_self]
  rfl

def SearchState (y r vEfl : Temp) (m : Mach) (h w : Nat) (st : CState) : Prop :=
  ∃ a b, SearchLocals y r vEfl m a b st ∧ Searching h w a b

theorem Runs.searchStep {y r vEfl : Temp} {m : Mach} {h s : Nat} {Q : Unit → Nat → CState → Prop}
    (apart : y ≠ r ∧ vEfl ≠ y ∧ vEfl ≠ r) (state : SearchState y r vEfl m h (2 * s) st)
    (step : s ∈ [16, 8, 4, 2]) (post : ∀ st', SearchState y r vEfl m h s st' → Q () n st') :
    Runs ub (Emit.write (Tase.searchStep y r s)) n st Q := by
  obtain ⟨a, b, locals, searching⟩ := state
  obtain ⟨st', ran, locals'⟩ := @exec_searchStep s a b ub y r vEfl m st locals apart step
  exact write ran (post st' ⟨_, _, locals', searching.halve step⟩)

structure ScanLocals (vEfl v : Temp) (x : BitVec 64) (m : Mach) (st : CState) : Prop where
  machine : st.machine = m
  source : st.vars v = ⟨.uint 64, x⟩
  flags : st.vars vEfl = flagZero

theorem scanLocals : ScanLocals ⟨"efl", n⟩ ⟨"v", n + 1⟩ ((i.arg 0).value ub .q st.machine) st.machine
    ((st.bind ⟨"efl", n⟩ ((eval ub st (dec 0)).cast (.uint 16))).bind ⟨"v", n + 1⟩
      ((i.arg 0).fetch ub .q false st.machine)) := by
  refine ⟨rfl, ?_, ?_⟩
  · rw [State.bind_vars_self]
    rfl
  · rw [State.bind_vars_ne _ _ _ _ (by simp), State.bind_vars_self]
    rfl

theorem write_scanDest {v : Val} {m : Mach} : scanDest.write ub .q v m = m.setReg (.gpr .rax) (v.conv (.uint 64)) :=
  rfl

section

variable {vEfl v : Temp} {x : BitVec 64} {m : Mach} (locals : ScanLocals vEfl v x m st)
include locals

theorem Runs.emitBsfIndex (nonzero : x ≠ 0) (low : IsLowest x k) (apart : vEfl.stem = "efl") :
    Runs ub (Tase.emitBsfIndex vEfl v) n st fun _ _ st' => .ok st'.machine = Scan.bsf.denote ub x k m := by
  have different : vEfl ≠ ⟨"final", n⟩ := by
    rintro rfl
    simp at apart
  refine bind (emitVarDecl (bind (emitStoreVar (bind (write rfl (emitSetFlag ?_))))))
  unfold Scan.denote
  rw [if_neg nonzero, eval_lowest locals.source low]
  simp only [eval, State.withMachine_vars, State.withMachine_machine, State.bind_machine, State.bind_vars_self,
    State.bind_vars_ne _ _ _ _ different, locals.flags]
  have type : flagZero.ty = .uint 16 := rfl
  have stored : ((Val.lit .dec k).cast ⟨64, true⟩).conv (.uint 64) = BitVec.ofNat 64 k := by
    rw [Val.cast_conv_of_le _ _ _ (Nat.le_refl 64), Val.lit_conv _ _ _ (Nat.le_refl 64)]
  rw [type, and_flagZero, write_scanDest, stored, locals.machine]
  rfl

theorem Runs.emitBsrIndex (nonzero : x ≠ 0) (high : IsHighest x k)
    (apart : vEfl.stem = "efl" ∧ v.stem = "v") :
    Runs ub (Tase.emitBsrIndex vEfl v) n st fun _ _ st' => .ok st'.machine = Scan.bsr.denote ub x k m := by
  have named {stem : String} {j : Nat} (other : stem ≠ "efl") : vEfl ≠ ⟨stem, j⟩ := by
    rintro rfl
    exact other apart.1
  have source {stem : String} {j : Nat} (other : stem ≠ "v") : v ≠ ⟨stem, j⟩ := by
    rintro rfl
    exact other apart.2
  have separate : (⟨"y", n⟩ : Temp) ≠ ⟨"r", n + 1⟩ ∧ vEfl ≠ ⟨"y", n⟩ ∧ vEfl ≠ ⟨"r", n + 1⟩ :=
    ⟨by simp, named (by decide), named (by decide)⟩
  refine bind (emitVarDecl (bind (emitVarDecl ?_)))
  generalize started : (st.bind ⟨"y", n⟩ _).bind ⟨"r", n + 1⟩ _ = st₀
  have held : st₀.vars v = ⟨.uint 64, x⟩ := by
    rw [← started, State.bind_vars_ne _ _ _ _ (source (by decide)), State.bind_vars_ne _ _ _ _ (source (by decide)),
      locals.source]
  have flags : st₀.vars vEfl = flagZero := by
    rw [← started, State.bind_vars_ne _ _ _ _ separate.2.2, State.bind_vars_ne _ _ _ _ separate.2.1,
      locals.flags]
  have declared : (st₀.vars ⟨"y", n⟩).ty = .uint 32 ∧ (st₀.vars ⟨"r", n + 1⟩).ty = .int := by
    rw [← started, State.bind_vars_self, State.bind_vars_ne _ _ _ _ separate.1, State.bind_vars_self]
    exact ⟨rfl, rfl⟩
  have same : st₀.machine = m := by rw [← started, ← locals.machine, State.bind_machine, State.bind_machine]
  obtain ⟨st₁, begun, first⟩ := @exec_searchStart ub _ _ _ _ _ _ held declared flags separate
  rw [same] at first
  refine bind (write begun ?_)
  refine bind (searchStep (s := 16) separate ⟨_, _, first, .start high⟩ (by decide) fun st₂ second => ?_)
  refine bind (searchStep (s := 8) separate second (by decide) fun st₃ third => ?_)
  refine bind (searchStep (s := 4) separate third (by decide) fun st₄ fourth => ?_)
  refine bind (searchStep (s := 2) separate fourth (by decide) fun st₅ last => ?_)
  obtain ⟨a, b, found, searched⟩ := last
  refine bind (emitVarDecl (bind (write rfl (bind (emitStoreVar (emitSetFlag ?_))))))
  rw [eval_searchResult found searched]
  have different : vEfl ≠ ⟨"final", n + 1 + 1⟩ := named (by decide)
  unfold Scan.denote
  rw [if_neg nonzero]
  simp only [eval, State.withMachine_vars, State.withMachine_machine, State.bind_machine, State.bind_vars_self,
    State.bind_vars_ne _ _ _ _ different, State.bind_vars_ne _ _ _ _ different.symm, found.flags, found.machine]
  rw [write_scanDest, eval_zeroFlagExp, Val.conv_unsigned, BitVec.setWidth_eq]
  rfl

theorem Runs.bsfBranches (index : x ≠ 0 → IsLowest x k) (apart : vEfl.stem = "efl") :
    Runs ub (Emit.ifElse (.cmp .eq (.var v) (dec 0)) (Tase.emitScanZero vEfl) (Tase.emitBsfIndex vEfl v)) n st
      fun _ _ st' => .ok st'.machine = Scan.bsf.denote ub x k m := by
  have test : (eval ub st (.cmp .eq (.var v) (dec 0))).truthy = decide (x = 0) := by
    simp only [eval, dec, locals.source]
    rw [Val.cmp_zero ⟨.uint 64, x⟩ (Nat.le_refl 64), Val.ofBool_truthy]
  refine ifElse (fun zero => ?_) fun nonzero n' => ?_
  · rw [test, decide_eq_true_eq] at zero
    refine emitScanZero locals.flags fun st' done n' => ?_
    rw [Scan.denote, if_pos zero, done, locals.machine]
  · rw [test, decide_eq_false_iff_not] at nonzero
    exact emitBsfIndex locals nonzero (index nonzero) apart

theorem Ends.bsrBranches (index : x ≠ 0 → IsHighest x k) (apart : vEfl.stem = "efl" ∧ v.stem = "v") :
    Ends ub (do
      Emit.ifElse (.un .lnot (.var v)) (do Tase.emitScanZero vEfl; Emit.write .ret) (Pure.pure ())
      Tase.emitBsrIndex vEfl v) n st (EndsAt (Scan.bsr.denote ub x k m)) := by
  have test : (eval ub st (.un .lnot (.var v))).truthy = decide (x = 0) := by
    have value : eval ub st (.un .lnot (.var v)) = .ofBool (decide (x = 0)) := by
      rw [eval, eval, locals.source]
      refine congrArg Val.ofBool ?_
      rw [Bool.eq_iff_iff]
      simp [Val.truthy]
    rw [value, Val.ofBool_truthy]
  by_cases zero : x = 0
  · refine bind_return (test.trans (decide_eq_true zero)) ?_
    refine bind (Runs.emitScanZero locals.flags fun st' done => ?_)
    intro s a out s' count emitted
    cases emitted
    refine ⟨st', rfl, ?_⟩
    rw [Scan.denote, if_pos zero, EndsAt, done, locals.machine]
  · refine bind (Runs.ifElse (fun taken => ?_) fun _ n' => Runs.pure ?_)
    · rw [test, decide_eq_true_eq] at taken
      exact absurd taken zero
    · refine of_runs ((Runs.emitBsrIndex locals zero (index zero) apart).mono fun _ _ st' done => ?_)
      rw [← done]
      rfl

end

theorem Ends.emitScan (op : Scan) (index : (i.arg 0).value ub .q st.machine ≠ 0 →
      op.IsIndex ((i.arg 0).value ub .q st.machine) k) :
    Ends ub (op.emit i) n st (EndsAt (op.denote ub ((i.arg 0).value ub .q st.machine) k st.machine)) := by
  cases op with
  | bsf =>
      refine of_runs (Runs.bind (Runs.operand (Runs.bind (Runs.emitVarDecl (Runs.bind (Runs.emitFetch ?_))))))
      refine (Runs.bsfBranches scanLocals index rfl).mono fun _ _ st' done => ?_
      rw [← done]
      rfl
  | bsr =>
      exact bind (Runs.operand (bind (Runs.emitVarDecl (bind (Runs.emitFetch
        (bsrBranches scanLocals index ⟨rfl, rfl⟩))))))

theorem Emits.ifElse {c : Exp} {yes no : Emit Unit} (first : Emits yes) (second : Emits no) :
    Emits (Emit.ifElse c yes no) := by
  intro s
  obtain ⟨_, out, s', found⟩ := first s
  obtain ⟨_, out', s'', found'⟩ := second s'
  refine ⟨(), [.ite c (block out) (block out')], s'', ?_⟩
  simp only [Emit.ifElse, found, found']

theorem Emits.emitSetFlag {mask : Nat} {value : Exp} {clobber : Bool} :
    Emits (Tase.emitSetFlag mask value clobber) := by
  refine bind (regExpL rfl) fun _ => ?_
  cases clobber <;> exact write _

theorem Emits.emitScan {src : Operand} (op : Scan) (found : i.operands[0]? = some src)
    (fetchable : src.Fetchable .q) : Emits (op.emit i) := by
  have storable : scanDest.Storable .q := regOperandStorable .rax .q
  have zero (vEfl : Temp) : Emits (Tase.emitScanZero vEfl) := bind (write _) fun _ => emitSetFlag
  cases op with
  | bsf =>
      refine bind_operand found (bind (emitVarDecl _ _ _) fun vEfl => bind (emitFetch fetchable) fun v => ?_)
      refine ifElse (zero vEfl) (bind (emitVarDecl _ _ _) fun _ => bind (emitStore storable) fun _ => ?_)
      exact bind (write _) fun _ => emitSetFlag
  | bsr =>
      refine bind_operand found (bind (emitVarDecl _ _ _) fun vEfl => bind (emitFetch fetchable) fun v => ?_)
      refine bind (ifElse (bind (zero vEfl) fun _ => write _) (pure ())) fun _ => ?_
      refine bind (emitVarDecl _ _ _) fun _ => bind (emitVarDecl _ _ _) fun _ => ?_
      refine bind (write _) fun _ => bind (write _) fun _ => bind (write _) fun _ => ?_
      refine bind (write _) fun _ => bind (write _) fun _ => bind (emitVarDecl _ _ _) fun _ => ?_
      exact bind (write _) fun _ => bind (emitStore storable) fun _ => emitSetFlag

end Emit

/-- For a source that is not zero, the code of `_emit_bsf` leaves the position of its lowest bit, and that of
`_emit_bsr` the position of its highest one. The source is the word that `emit_fetch` reads. -/
theorem scan_index {ub : Undef} {i : Instruction} {src : Operand} {st : CState} (op : Scan)
    (found : i.operands[0]? = some src) (fetchable : src.Fetchable .q)
    (nonzero : src.value ub .q st.machine ≠ 0) :
    Emit.Leads ub (op.emit i) st fun _ st' =>
      op.IsIndex (src.value ub .q st.machine) (st'.machine.regs (.gpr .rax)).toNat := by
  have first : i.arg 0 = src := by simp [Instruction.arg, found]
  obtain ⟨k, small, index⟩ := op.exists_index nonzero
  intro s
  obtain ⟨_, out, s', emitted⟩ := Emit.Emits.emitScan op found fetchable s
  have ends := @Emit.Ends.emitScan ub s.varCount st i k op (first ▸ fun _ => index) s () out s' rfl emitted
  unfold Scan.denote at ends
  rw [first, if_neg nonzero] at ends
  cases ran : run ub out st with
  | error st' =>
      rw [ran] at ends
      exact ends.elim
  | ok st' =>
      rw [ran] at ends
      have stored : st'.machine.regs (.gpr .rax) = BitVec.ofNat 64 k := by
        rw [show st'.machine = _ from ends]
        rfl
      refine ⟨(), out, s', st', emitted, ran, ?_⟩
      change op.IsIndex _ (st'.machine.regs (.gpr .rax)).toNat
      rwa [stored, BitVec.toNat_ofNat, Nat.mod_eq_of_lt (by omega)]

def scanRdi : Instruction :=
  { original := "bsf    %rdi,%rax", vaddr := 0x1007, length := 4, op := .other "bsf", size1 := some .q,
    operands := [.reg (.q (.gpr .rdi)), .reg (.q (.gpr .rax))] }

theorem scan_index_scanRdi :
    ∃ out s' st', emitBsr scanRdi .initial = .ok ((), out, s') ∧
      run default out ⟨⟨fun _ => 0x50, fun _ => 0⟩, fun _ => default⟩ = .ok st' ∧
      IsHighest (0x50 : BitVec 64) (st'.machine.regs (.gpr .rax)).toNat := by
  have fetchable : (Operand.reg (.q (.gpr .rdi))).Fetchable .q := ⟨_, rfl⟩
  obtain ⟨_, out, s', st', emitted, ran, index⟩ := @scan_index default scanRdi _
    ⟨⟨fun _ => 0x50, fun _ => 0⟩, fun _ => default⟩ .bsr rfl fetchable (by decide) .initial
  exact ⟨out, s', st', emitted, ran, index⟩

end Tase
