import Tase.Springboard.State

/-! The routines of `springboard.S` in the TSX build, and the part of `common.c` around them. -/

namespace Tase

open Board

def sbmComparePoison : List (Board → Board) :=
  [pcmpeqw xmmReference xmmData, por xmmData xmmAccumulator, movToVar .rax .savedRax, lahf,
    ptest xmmAccumulator xmmAccumulator]

def sbmInitTran : List (Board → Board) :=
  [pxor xmmData xmmData, pxor xmmAccumulator xmmAccumulator, movq .rax .r14]

def ctxOrder : List Gpr :=
  [.rax, .rbx, .rcx, .rdx, .rsi, .rdi, .rbp, .rsp, .r8, .r9, .r10, .r11, .r12, .r13, .r14, .r15]

def ctxXmms : List (Fin 16) := [0, 12, 13, 14, 15]

def lsbEject : Tsx.Code Board :=
  .ops (ctxOrder.map ctxStore) <|
  .ops [movImm 0 .rax, lahf, storeFlags] <|
  .ops (ctxXmms.map ctxXmmStore) <|
  .ops [setSpringboard .disabled, loadStack] .leave

def lsbFallback : Tsx.Code Board := .ops [storeAbortStatus, movq .r14 .rax] lsbEject

def abortCodes : List (BitVec 8) := [0, 1, 2, 3, 4, 5, 6, 7, 8]

def laborts : List (BitVec 8) → Tsx.Code Board
  | [] => lsbFallback
  | code :: rest => .xabort code (laborts rest)

def dispatch : List (BitVec 8) → Tsx.Code Board
  | [] => .xabort 9 (laborts abortCodes)
  | code :: rest =>
      .op (cmpqImm (code.setWidth 64) .rax) (.branch (·.flags.zf) (laborts (code :: rest)) (dispatch rest))

def lsbAbort : Tsx.Code Board := .op (movFromVar .tranCtr .rax) (dispatch abortCodes)

def sbModeled : Tsx.Code Board :=
  .ops sbmComparePoison <|
  .branch (fun b => !b.flags.zf) lsbAbort <|
  .xend <|
  .ops [movImmVar 16 .tranMax, movl 0xff000001 .rax] lsbFallback

def lnoCloseTran : Tsx.Code Board := .ops [sahf, movFromVar .savedRax .rax] .ret

def lcloseTran : Tsx.Code Board :=
  .xend <|
  .ops [movImmVar 16 .tranMax, movImmVar 0 .tranCtr, sahf, movFromVar .savedRax .rax] <|
  .ops sbmInitTran <|
  .xbegin .ret

def sbReopen : Tsx.Code Board :=
  .ops sbmComparePoison <|
  .branch (fun b => !b.flags.zf) lsbAbort <|
  .ops [incq .tranCtr, movFromVar .tranMax .r14, cmpqVar .r14 .tranCtr] <|
  .branch (fun b => b.flags.sf != b.flags.of) lnoCloseTran lcloseTran

def sbOpen : Tsx.Code Board := .ops sbmInitTran <| .ops [setSpringboard .reopening] <| .xbegin .ret

def sbInject : Tsx.Code Board :=
  .ops [movImmVar 0 .tranCtr, subq 256 .rsp, orq 8 .rsp, storeStack] <|
  .ops (ctxXmms.map ctxXmmLoad) <|
  .ops [movImm 0 .rax, loadFlags, sahf] <|
  .ops (ctxOrder.map ctxLoad) <|
  .ops sbmInitTran <|
  .xbegin .ret

def taseInject (enableTase : Bool) (b : Board) : Board :=
  { b with
    springboard := if enableTase && b.var .modeledReturn = 0 then .opening else .disabled
    ctx := { b.ctx with
      lastAbortStatus := b.ctx.abortStatus
      abortStatus := 0
      gregs := Function.update b.ctx.gregs .r15 b.ctx.rip } }

def xabortBit (status : BitVec 32) : Bool :=
  -- `abort_status & (1 << TSX_XABORT)` and `abort_status & TSX_XABORT_MASK`.
  status.getLsbD 0

def xabortCode (status : BitVec 32) : BitVec 32 := status &&& 0xFF000000

def countAbort (status : BitVec 32) (counts : AbortCounts) : AbortCounts :=
  let counts := { counts with total := counts.total + 1 }
  let counts :=
    if status &&& 0xff = 0 then { counts with unknown := counts.unknown + 1 }
    else if xabortBit status then
      if xabortCode status ≠ 0 then { counts with modeled := counts.modeled + 1 }
      else { counts with poison := counts.poison + 1 }
    else counts
  { counts with codes := fun i => counts.codes i + (status >>> i.val &&& 1) }

def taseEject (b : Board) : Board :=
  b.setCtx fun ctx =>
    { ctx with rip := ctx.gregs .r15, abortCounts := countAbort ctx.abortStatus ctx.abortCounts }

/-! What surrounds the springboard: the cartridges, and the interpreter. -/

def Board.target (b : Board) : Target := ⟨b.gpr, b.flags, b.xmm⟩

def TargetCtx.target (ctx : TargetCtx) : Target :=
  ⟨ctx.gregs, (⟨false, false, false, false, false, false⟩ : Flags).ofAh (ctx.efl.setWidth 8),
    ctx.xmm⟩

/-- A cartridge does what it wants with the registers and with its own memory. It leaves the
reference register, and it has no access to `target_ctx` and to the variables. Only
`sb_modeled_return`, at the end of a modeled function, clears one and makes the next header go to
`sb_open`. -/
structure Cartridge (b b' : Board) : Prop where
  reference : b'.xmm xmmReference = b.xmm xmmReference
  var : ∀ v, v ≠ .modeledReturn → b'.var v = b.var v
  springboard : b'.springboard = b.springboard ∨
    (b.springboard = .disabled ∧ b'.springboard = .opening)
  ctx : b'.ctx = b.ctx
  arrived : b'.arrived = b'.target

/-- Between `tase_eject` and `sb_inject` the interpreter may change the registers in `target_ctx` as
well as `tran_max`. -/
structure Interpreter (b b' : Board) : Prop where
  reference : b'.ctx.xmm xmmReference = b.ctx.xmm xmmReference
  abortCounts : b'.ctx.abortCounts = b.ctx.abortCounts
  tranMax : b'.var .tranMax = b.var .tranMax ∨
    (0 < (b'.var .tranMax).toNat ∧ (b'.var .tranMax).toNat < 16)

def injected (enableTase : Bool) (b : Board) : Board :=
  let b := taseInject enableTase b
  { b with arrived := b.ctx.target }

def springboard (entries : Springboard → List (Tsx.Code Board)) : Tsx.Model Board where
  fallback := lsbFallback
  deliver status b := b.setGpr .rax (status.setWidth 64)
  signals status := status &&& 0x3e = status
  enters b code b' := Cartridge b b' ∧ code ∈ entries b'.springboard
  resumes b code b' := code = sbInject ∧ ∃ between enableTase,
    Interpreter (taseEject b) between ∧ b' = injected enableTase between

def entering (enableTase : Bool) (b : Board) : Tsx.Config Board :=
  ⟨.code sbInject, ⟨injected enableTase b, none, []⟩⟩

def Board.atStart : Board where
  gpr _ := 0
  flags := ⟨false, false, false, false, false, false⟩
  xmm _ _ := 0
  var := Function.update (fun _ => 0) .tranMax 16
  springboard := .disabled
  ctx :=
    { xmm := Function.update (fun _ _ => 0) xmmReference fun _ => poisonWord
      gregs := fun _ => 0
      rip := 0
      efl := 0
      interpreterStack := 0
      abortStatus := 0
      lastAbortStatus := 0
      abortCounts := ⟨fun _ => 0, 0, 0, 0, 0⟩ }
  memory _ := 0
  arrived := ⟨fun _ => 0, ⟨false, false, false, false, false, false⟩, fun _ _ => 0⟩

end Tase
