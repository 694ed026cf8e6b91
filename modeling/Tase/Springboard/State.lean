import Tase.Cpp.Bits
import Tase.Translator.Operand
import Tase.Tsx.Machine

/-! The processor state and the memory that `springboard.S` works on, and its instructions. -/

namespace Tase

open Cpp

structure Flags where
  sf : Bool
  zf : Bool
  af : Bool
  pf : Bool
  cf : Bool
  of : Bool
deriving DecidableEq

namespace Flags

/-- What `lahf` puts into AH: SF, ZF, 0, AF, 0, PF, 1, CF. -/
def ah (f : Flags) : BitVec 8 :=
  BitVec.ofNat 8 (128 * f.sf.toNat + 64 * f.zf.toNat + 16 * f.af.toNat + 4 * f.pf.toNat + 2 + f.cf.toNat)

def ofAh (f : Flags) (x : BitVec 8) : Flags :=
  { f with sf := x.getLsbD 7, zf := x.getLsbD 6, af := x.getLsbD 4, pf := x.getLsbD 2, cf := x.getLsbD 0 }

def Same (f g : Flags) : Prop := f.ah = g.ah

theorem ofAh_ah (f g : Flags) : f.ofAh g.ah = { g with of := f.of } := by
  have bits : ∀ sf zf af pf cf : Bool, let x := (Flags.mk sf zf af pf cf false).ah
      x.getLsbD 7 = sf ∧ x.getLsbD 6 = zf ∧ x.getLsbD 4 = af ∧ x.getLsbD 2 = pf ∧ x.getLsbD 0 = cf := by
    decide
  obtain ⟨sf, zf, af, pf, cf⟩ := bits g.sf g.zf g.af g.pf g.cf
  have same : g.ah = (Flags.mk g.sf g.zf g.af g.pf g.cf false).ah := rfl
  rw [ofAh, same, sf, zf, af, pf, cf]

theorem same_iff {f g : Flags} :
    f.Same g ↔ f.sf = g.sf ∧ f.zf = g.zf ∧ f.af = g.af ∧ f.pf = g.pf ∧ f.cf = g.cf := by
  constructor
  · intro same
    have read : g.ofAh f.ah = g.ofAh g.ah := by rw [same]
    simp only [ofAh_ah, Flags.mk.injEq] at read
    exact ⟨read.1, read.2.1, read.2.2.1, read.2.2.2.1, read.2.2.2.2.1⟩
  · rintro ⟨sf, zf, af, pf, cf⟩
    simp [Same, ah, sf, zf, af, pf, cf]

theorem ofAh_same (f g : Flags) : (f.ofAh g.ah).Same g := by
  rw [ofAh_ah]
  rfl

def sub (x y : BitVec 64) : Flags where
  sf := (x - y).msb
  zf := x = y
  af := (x.setWidth 4).ult (y.setWidth 4)
  pf := evenParity ((x - y).setWidth 8)
  cf := x.ult y
  of := BitVec.ssubOverflow x y

def inc (f : Flags) (x : BitVec 64) : Flags where
  sf := (x + 1).msb
  zf := x + 1 = 0
  af := x.setWidth 4 = 15
  pf := evenParity ((x + 1).setWidth 8)
  cf := f.cf
  of := BitVec.saddOverflow x 1

theorem sub_less (x y : BitVec 64) : ((sub x y).sf != (sub x y).of) = x.slt y := by
  -- `jl`.
  have low := x.le_toInt
  have high := x.toInt_lt
  have low' := y.le_toInt
  have high' := y.toInt_lt
  have difference : (x - y).toInt = (x.toInt - y.toInt).bmod (2 ^ 64) := BitVec.toInt_sub ..
  have sign : (sub x y).sf = decide ((x.toInt - y.toInt).bmod (2 ^ 64) < 0) := by
    rw [← difference]
    exact (BitVec.msb_eq_toInt : (x - y).msb = _)
  have overflow : (sub x y).of = decide (2 ^ 63 ≤ x.toInt - y.toInt ∨ x.toInt - y.toInt < -2 ^ 63) := by
    simp [sub, BitVec.ssubOverflow]
  rw [sign, overflow, BitVec.slt, Bool.eq_iff_iff]
  simp only [bne_iff_ne, ne_eq, decide_eq_true_eq, decide_eq_decide, Int.bmod]
  split <;> omega

end Flags

abbrev Xmm := Fin 8 → BitVec 16

def poisonWord : BitVec 16 := 0xDEAD

instance xmmCount : NeZero 16 := ⟨by decide⟩

def xmmReference : Fin 16 := 13
def xmmAccumulator : Fin 16 := 14
def xmmData : Fin 16 := 15

inductive Var
  | tranCtr | tranMax | savedRax | modeledReturn
deriving DecidableEq

inductive Springboard
  | disabled | opening | reopening
deriving DecidableEq

structure AbortCounts where
  codes : Fin 6 → BitVec 32
  modeled : BitVec 32
  poison : BitVec 32
  unknown : BitVec 32
  total : BitVec 32

/-- `target_ctx_t`, without the stack, the jump buffer and the status flags for logging. -/
structure TargetCtx where
  xmm : Fin 16 → Xmm
  gregs : Gpr → BitVec 64
  rip : BitVec 64
  efl : BitVec 64
  interpreterStack : BitVec 64
  abortStatus : BitVec 32
  lastAbortStatus : BitVec 32
  abortCounts : AbortCounts

structure Target where
  gpr : Gpr → BitVec 64
  flags : Flags
  xmm : Fin 16 → Xmm

/-- `arrived` remembers what the target had when control last came to the springboard. No
instruction reads or writes it. -/
structure Board where
  gpr : Gpr → BitVec 64
  flags : Flags
  xmm : Fin 16 → Xmm
  var : Var → BitVec 64
  springboard : Springboard
  ctx : TargetCtx
  memory : Mem
  arrived : Target

def highByte (x : BitVec 64) : BitVec 8 := x.extractLsb' 8 8

def withHighByte (x : BitVec 64) (y : BitVec 8) : BitVec 64 :=
  (x &&& 0xFFFFFFFFFFFF00FF#64) ||| y.setWidth 64 <<< 8

def withLowByte (x : BitVec 64) (y : BitVec 8) : BitVec 64 :=
  (x &&& 0xFFFFFFFFFFFFFF00#64) ||| y.setWidth 64

theorem highByte_withHighByte (x : BitVec 64) (y : BitVec 8) : highByte (withHighByte x y) = y := by
  apply BitVec.eq_of_getLsbD_eq
  intro k bound
  have mask : ∀ k < 8, (0xFFFFFFFFFFFF00FF#64).getLsbD (8 + k) = false := by decide
  have inside : 8 + k < 64 := by omega
  have back : 8 + k - 8 = k ∧ k < 64 ∧ ¬ 8 + k < 8 := by omega
  rw [highByte, withHighByte, BitVec.getLsbD_extractLsb', BitVec.getLsbD_or, BitVec.getLsbD_and,
    mask k bound, BitVec.getLsbD_shiftLeft, BitVec.getLsbD_setWidth, back.1]
  simp [bound, inside, back.2.1, back.2.2]

theorem lowByte_withLowByte (x : BitVec 64) (y : BitVec 8) : (withLowByte x y).setWidth 8 = y := by
  apply BitVec.eq_of_getLsbD_eq
  intro k bound
  have mask : ∀ k < 8, (0xFFFFFFFFFFFFFF00#64).getLsbD k = false := by decide
  have inside : k < 64 := by omega
  rw [withLowByte, BitVec.getLsbD_setWidth, BitVec.getLsbD_or, BitVec.getLsbD_and, mask k bound,
    BitVec.getLsbD_setWidth]
  simp [bound, inside]

namespace Board

/-! The instructions. The source operand comes first. -/

def setGpr (g : Gpr) (x : BitVec 64) (b : Board) : Board := { b with gpr := Function.update b.gpr g x }

def setXmm (r : Fin 16) (x : Xmm) (b : Board) : Board := { b with xmm := Function.update b.xmm r x }

def setVar (v : Var) (x : BitVec 64) (b : Board) : Board := { b with var := Function.update b.var v x }

def setCtx (change : TargetCtx → TargetCtx) (b : Board) : Board := { b with ctx := change b.ctx }

def movq (src dest : Gpr) (b : Board) : Board := b.setGpr dest (b.gpr src)

def movImm (n : BitVec 64) (dest : Gpr) (b : Board) : Board := b.setGpr dest n

def movl (n : BitVec 32) (dest : Gpr) (b : Board) : Board := b.setGpr dest (n.setWidth 64)

def movToVar (src : Gpr) (v : Var) (b : Board) : Board := b.setVar v (b.gpr src)

def movFromVar (v : Var) (dest : Gpr) (b : Board) : Board := b.setGpr dest (b.var v)

def movImmVar (n : BitVec 64) (v : Var) (b : Board) : Board := b.setVar v n

def incq (v : Var) (b : Board) : Board :=
  { b.setVar v (b.var v + 1) with flags := b.flags.inc (b.var v) }

def cmpqVar (src : Gpr) (v : Var) (b : Board) : Board := { b with flags := .sub (b.var v) (b.gpr src) }

def cmpqImm (n : BitVec 64) (g : Gpr) (b : Board) : Board := { b with flags := .sub (b.gpr g) n }

def subq (n : BitVec 64) (g : Gpr) (b : Board) : Board :=
  { b.setGpr g (b.gpr g - n) with flags := .sub (b.gpr g) n }

/-- AF is undefined after `or`; it is left. -/
def orq (n : BitVec 64) (g : Gpr) (b : Board) : Board :=
  let x := b.gpr g ||| n
  { b.setGpr g x with flags := ⟨x.msb, x = 0, b.flags.af, evenParity (x.setWidth 8), false, false⟩ }

def lahf (b : Board) : Board := b.setGpr .rax (withHighByte (b.gpr .rax) b.flags.ah)

def sahf (b : Board) : Board := { b with flags := b.flags.ofAh (highByte (b.gpr .rax)) }

def pcmpeqw (src dest : Fin 16) (b : Board) : Board :=
  b.setXmm dest fun k => if b.xmm dest k = b.xmm src k then 0xffff#16 else 0#16

def por (src dest : Fin 16) (b : Board) : Board := b.setXmm dest fun k => b.xmm dest k ||| b.xmm src k

def pxor (src dest : Fin 16) (b : Board) : Board :=
  b.setXmm dest fun k => b.xmm dest k ^^^ b.xmm src k

def ptest (src dest : Fin 16) (b : Board) : Board :=
  { b with flags :=
      { sf := false, af := false, pf := false, of := false
        zf := ∀ k, b.xmm dest k &&& b.xmm src k = 0#16
        cf := ∀ k, ~~~b.xmm dest k &&& b.xmm src k = 0#16 } }

def ctxStore (g : Gpr) : Board → Board := fun b =>
  b.setCtx fun ctx => { ctx with gregs := Function.update ctx.gregs g (b.gpr g) }

def ctxLoad (g : Gpr) (b : Board) : Board := b.setGpr g (b.ctx.gregs g)

def ctxXmmStore (r : Fin 16) (b : Board) : Board :=
  b.setCtx fun ctx => { ctx with xmm := Function.update ctx.xmm r (b.xmm r) }

def ctxXmmLoad (r : Fin 16) (b : Board) : Board := b.setXmm r (b.ctx.xmm r)

def storeFlags (b : Board) : Board :=
  -- `movb %ah, CTX_REG(GREG_EFL)`.
  b.setCtx fun ctx => { ctx with efl := withLowByte ctx.efl (highByte (b.gpr .rax)) }

def loadFlags (b : Board) : Board :=
  -- `movb CTX_REG(GREG_EFL), %ah`.
  b.setGpr .rax (withHighByte (b.gpr .rax) (b.ctx.efl.setWidth 8))

def storeAbortStatus (b : Board) : Board :=
  -- `movl %eax, CTX(CTX_OFFSET_ABORT_STATUS)`.
  b.setCtx fun ctx => { ctx with abortStatus := (b.gpr .rax).setWidth 32 }

def storeStack (b : Board) : Board :=
  b.setCtx fun ctx => { ctx with interpreterStack := b.gpr .rsp }

def loadStack (b : Board) : Board := b.setGpr .rsp b.ctx.interpreterStack

def setSpringboard (s : Springboard) (b : Board) : Board := { b with springboard := s }

end Board

end Tase
