import Tase.Springboard.Routines

/-! What the routines do from one transactional instruction to the next. -/

namespace Tase

open Board

def Board.after (effects : List (Board → Board)) (b : Board) : Board :=
  effects.foldl (fun b effect => effect b) b

def Board.Clean (b : Board) : Prop :=
  (∀ k, b.xmm xmmData k ≠ b.xmm xmmReference k) ∧ ∀ k, b.xmm xmmAccumulator k = 0#16

instance (b : Board) : Decidable b.Clean := inferInstanceAs (Decidable (_ ∧ _))

def Board.compared (b : Board) : Board := b.after sbmComparePoison

namespace Board

variable (b : Board)

theorem compared_xmm (k : Fin 8) :
    b.compared.xmm xmmData k = (if b.xmm xmmData k = b.xmm xmmReference k then 0xffff#16 else 0#16) ∧
      b.compared.xmm xmmAccumulator k = b.xmm xmmAccumulator k ||| b.compared.xmm xmmData k ∧
      b.compared.xmm xmmReference k = b.xmm xmmReference k := by
  exact ⟨rfl, rfl, rfl⟩

theorem compared_zf : b.compared.flags.zf = true ↔ ∀ k, b.compared.xmm xmmAccumulator k = 0#16 := by
  simp [compared, after, sbmComparePoison, ptest]

theorem compared_clean : b.compared.flags.zf = true ↔ b.Clean := by
  rw [compared_zf, Clean, ← forall_and]
  refine forall_congr' fun k => ?_
  obtain ⟨data, accumulated, _⟩ := b.compared_xmm k
  rw [accumulated, BitVec.or_eq_zero_iff, data, and_comm]
  refine and_congr_left' ?_
  split <;> simp [*]

theorem compared_frame :
    b.compared.gpr = Function.update b.gpr .rax (withHighByte (b.gpr .rax) b.flags.ah) ∧
      b.compared.var = Function.update b.var .savedRax (b.gpr .rax) ∧ b.compared.ctx = b.ctx ∧
      b.compared.springboard = b.springboard ∧ b.compared.arrived = b.arrived := by
  simp [compared, after, sbmComparePoison, pcmpeqw, por, movToVar, lahf, ptest, setXmm, setVar, setGpr]

def counted : Board := b.compared.after [incq .tranCtr, movFromVar .tranMax .r14, cmpqVar .r14 .tranCtr]

def kept : Board :=
  -- `.Lno_close_tran`.
  b.counted.after [sahf, movFromVar .savedRax .rax]

def reopened : Board :=
  (b.counted.after [movImmVar 16 .tranMax, movImmVar 0 .tranCtr, sahf, movFromVar .savedRax .rax]).after
    sbmInitTran

def modeled : Board := b.compared.after [movImmVar 16 .tranMax, movl 0xff000001 .rax]

def ejected : Board :=
  -- `.Lsb_fallback` and `.Lsb_eject`.
  ((((b.after [storeAbortStatus, movq .r14 .rax]).after (ctxOrder.map ctxStore)).after
    [movImm 0 .rax, lahf, storeFlags]).after (ctxXmms.map ctxXmmStore)).after
      [setSpringboard .disabled, loadStack]

def opened : Board := (b.after sbmInitTran).after [setSpringboard .reopening]

def loaded : Board :=
  ((((b.after [movImmVar 0 .tranCtr, subq 256 .rsp, orq 8 .rsp, storeStack]).after
    (ctxXmms.map ctxXmmLoad)).after [movImm 0 .rax, loadFlags, sahf]).after
      (ctxOrder.map ctxLoad)).after sbmInitTran

def Zeroed (b : Board) : Prop := ∀ k, b.xmm xmmData k = 0#16 ∧ b.xmm xmmAccumulator k = 0#16

/-- The target sees nothing of a passage from `b` to `b'`. -/
structure Unseen (b b' : Board) : Prop where
  gpr : ∀ g, g ≠ .r14 → b'.gpr g = b.gpr g
  flags : b'.flags.Same b.flags
  reference : b'.xmm xmmReference = b.xmm xmmReference
  zeroed : b'.Zeroed
  ctx : b'.ctx = b.ctx
  arrived : b'.arrived = b.arrived

theorem compared_zeroed {b : Board} (clean : b.Clean) : b.compared.Zeroed := by
  intro k
  obtain ⟨data, accumulated, _⟩ := b.compared_xmm k
  rw [if_neg (clean.1 k)] at data
  rw [accumulated, data, clean.2 k]
  exact ⟨rfl, rfl⟩

theorem counted_frame :
    b.counted.gpr = Function.update b.compared.gpr .r14 (b.var .tranMax) ∧
      b.counted.var = Function.update b.compared.var .tranCtr (b.var .tranCtr + 1) ∧
      b.counted.xmm = b.compared.xmm ∧ b.counted.ctx = b.ctx ∧
      b.counted.springboard = b.springboard ∧ b.counted.arrived = b.arrived := by
  obtain ⟨_, var, ctx, springboard, arrived⟩ := b.compared_frame
  simp [counted, after, incq, movFromVar, cmpqVar, setVar, setGpr, var, ctx, springboard, arrived]

theorem counted_restores {c : Board} (gpr : c.gpr = b.counted.gpr) (saved : c.var .savedRax = b.counted.var .savedRax) :
    (c.after [sahf, movFromVar .savedRax .rax]).flags.Same b.flags ∧
      (c.after [sahf, movFromVar .savedRax .rax]).gpr = Function.update b.gpr .r14 (b.var .tranMax) := by
  -- `sahf` and the reload of RAX, on both ways out of `sb_reopen`.
  obtain ⟨gprs, vars, _⟩ := b.counted_frame
  obtain ⟨compared, saves, _⟩ := b.compared_frame
  have rax : c.gpr .rax = withHighByte (b.gpr .rax) b.flags.ah := by simp [gpr, gprs, compared]
  constructor
  · change (c.flags.ofAh (highByte (c.gpr .rax))).Same b.flags
    rw [rax, highByte_withHighByte]
    exact Flags.ofAh_same _ _
  · funext g
    simp only [after, List.foldl, sahf, movFromVar, setGpr, saved, vars, saves, gpr, gprs, compared]
    by_cases isRax : g = .rax
    · simp [isRax]
    · by_cases isR14 : g = .r14
      · simp [isR14]
      · simp [isRax, isR14]

theorem kept_unseen {b : Board} (clean : b.Clean) : Unseen b b.kept := by
  obtain ⟨flags, gpr⟩ := b.counted_restores rfl rfl
  obtain ⟨_, _, xmm, ctx, _, arrived⟩ := b.counted_frame
  refine ⟨fun g other => ?_, flags, ?_, ?_, ctx, arrived⟩
  · exact (congrFun gpr g).trans (Function.update_of_ne other _ _)
  · change b.counted.xmm xmmReference = _
    rw [xmm]
    funext k
    exact (b.compared_xmm k).2.2
  · intro k
    change b.counted.xmm xmmData k = _ ∧ b.counted.xmm xmmAccumulator k = _
    rw [xmm]
    exact compared_zeroed clean k

theorem kept_var : b.kept.var .tranCtr = b.var .tranCtr + 1 ∧ b.kept.var .tranMax = b.var .tranMax ∧
    b.kept.springboard = b.springboard := by
  obtain ⟨_, var, _, _, springboard, _⟩ := b.counted_frame
  obtain ⟨_, saves, _⟩ := b.compared_frame
  change b.counted.var .tranCtr = _ ∧ b.counted.var .tranMax = _ ∧ b.counted.springboard = _
  simp [var, saves, springboard]

theorem after_sbmInitTran :
    b.after sbmInitTran = { b with
      gpr := Function.update b.gpr .r14 (b.gpr .rax)
      xmm := Function.update (Function.update b.xmm xmmData fun _ => 0#16) xmmAccumulator fun _ => 0#16 } := by
  have other : xmmAccumulator ≠ xmmData := by decide
  simp [after, sbmInitTran, pxor, movq, setXmm, setGpr, other]

theorem unseen_sbmInitTran {b c : Board} (gpr : ∀ g, g ≠ .r14 → c.gpr g = b.gpr g)
    (flags : c.flags.Same b.flags) (reference : c.xmm xmmReference = b.xmm xmmReference)
    (ctx : c.ctx = b.ctx) (arrived : c.arrived = b.arrived) : Unseen b (c.after sbmInitTran) := by
  -- What `sbm_init_tran` leaves of a state that agrees with the target.
  rw [after_sbmInitTran]
  refine ⟨fun g other => ?_, flags, ?_, fun k => ⟨?_, ?_⟩, ctx, arrived⟩
  · exact (Function.update_of_ne other _ _).trans (gpr g other)
  · exact reference
  · rfl
  · rfl

theorem reopened_unseen : Unseen b b.reopened := by
  obtain ⟨flags, gpr⟩ :=
    @counted_restores b (b.counted.after [movImmVar 16 .tranMax, movImmVar 0 .tranCtr]) rfl rfl
  obtain ⟨_, _, xmm, ctx, _, arrived⟩ := b.counted_frame
  refine unseen_sbmInitTran (fun g other => ?_) flags ?_ ctx arrived
  · exact (congrFun gpr g).trans (Function.update_of_ne other _ _)
  · change b.counted.xmm xmmReference = _
    rw [xmm]
    funext k
    exact (b.compared_xmm k).2.2

theorem reopened_var : b.reopened.var .tranCtr = 0 ∧ b.reopened.var .tranMax = 16 ∧
    b.reopened.springboard = b.springboard := by
  rw [reopened, after_sbmInitTran]
  refine ⟨?_, ?_, b.counted_frame.2.2.2.2.1⟩
  · simp [after, movImmVar, movFromVar, sahf, setVar, setGpr]
  · simp [after, movImmVar, movFromVar, sahf, setVar, setGpr]

theorem reopened_r14 : b.reopened.gpr .r14 = b.reopened.gpr .rax := by
  rw [reopened, after_sbmInitTran]
  rfl

theorem opened_unseen : Unseen b b.opened := by
  have start := @unseen_sbmInitTran b b (fun _ _ => rfl) rfl rfl rfl rfl
  exact ⟨start.gpr, start.flags, start.reference, start.zeroed, start.ctx, start.arrived⟩

theorem ctxOrder_all (g : Gpr) : g ∈ ctxOrder := by
  cases g <;> decide

theorem after_ctxLoad (order : List Gpr) :
    b.after (order.map ctxLoad) = { b with gpr := fun g => if g ∈ order then b.ctx.gregs g else b.gpr g } := by
  induction order generalizing b with
  | nil => simp [after]
  | cons g order ih =>
      change (b.ctxLoad g).after (order.map ctxLoad) = _
      rw [ih]
      simp only [ctxLoad, setGpr]
      congr 1
      funext h
      by_cases later : h ∈ order
      · simp [later]
      · by_cases here : h = g
        · simp [here]
        · simp [later, here]

theorem after_ctxStore (order : List Gpr) :
    b.after (order.map ctxStore) =
      b.setCtx fun ctx => { ctx with gregs := fun g => if g ∈ order then b.gpr g else ctx.gregs g } := by
  induction order generalizing b with
  | nil => simp [after, setCtx]
  | cons g order ih =>
      change (b.ctxStore g).after (order.map ctxStore) = _
      rw [ih]
      simp only [ctxStore, setCtx]
      congr 2
      funext h
      by_cases later : h ∈ order
      · simp [later]
      · by_cases here : h = g
        · simp [here]
        · simp [later, here]

theorem loaded_frame :
    (∀ g, g ≠ .r14 → b.loaded.gpr g = b.ctx.gregs g) ∧ b.loaded.flags.Same b.ctx.target.flags ∧
      b.loaded.xmm xmmReference = b.ctx.xmm xmmReference ∧ b.loaded.Zeroed ∧
      b.loaded.arrived = b.arrived ∧ b.loaded.ctx.abortCounts = b.ctx.abortCounts := by
  rw [loaded, after_sbmInitTran, after_ctxLoad]
  refine ⟨fun g other => ?_, ?_, rfl, fun k => ⟨rfl, rfl⟩, rfl, rfl⟩
  · simp only [Function.update_of_ne other, ctxOrder_all]
    rfl
  · have bits : ∀ (f : Flags) (x : BitVec 8), (f.ofAh (highByte (withHighByte 0 x))).Same
        (Flags.ofAh ⟨false, false, false, false, false, false⟩ x) := by
      intro f x
      rw [highByte_withHighByte]
      rfl
    exact bits _ _

theorem loaded_var : b.loaded.var .tranCtr = 0 ∧ b.loaded.var .tranMax = b.var .tranMax ∧
    b.loaded.springboard = b.springboard ∧ b.loaded.gpr .r14 = b.loaded.gpr .rax := by
  rw [loaded, after_sbmInitTran, after_ctxLoad]
  exact ⟨rfl, rfl, rfl, rfl⟩

theorem ejected_ctx :
    b.ejected.ctx.gregs = Function.update b.gpr .rax (b.gpr .r14) ∧
      b.ejected.ctx.target.flags.Same b.flags ∧ b.ejected.ctx.xmm xmmReference = b.xmm xmmReference ∧
      b.ejected.ctx.abortStatus = (b.gpr .rax).setWidth 32 ∧
      b.ejected.ctx.abortCounts = b.ctx.abortCounts := by
  rw [ejected, after_ctxStore]
  refine ⟨?_, ?_, rfl, rfl, rfl⟩
  · funext g
    simp only [after, List.foldl, List.map, ctxXmms, setCtx, ctxXmmStore, movImm, lahf, storeFlags, setGpr,
      setSpringboard, loadStack, movq, storeAbortStatus, ctxOrder_all, if_true]
  · have stored : ∀ (f : Flags) (x y : BitVec 64), (Flags.ofAh ⟨false, false, false, false, false, false⟩
        ((withLowByte x (highByte (withHighByte y f.ah))).setWidth 8)).Same f := by
      intro f x y
      rw [lowByte_withLowByte, highByte_withHighByte]
      exact Flags.ofAh_same _ _
    exact stored _ _ _

theorem ejected_var : b.ejected.var = b.var ∧ b.ejected.arrived = b.arrived := by
  rw [ejected, after_ctxStore]
  exact ⟨rfl, rfl⟩

end Board

/-! From an entry to the next transactional instruction. -/

section

variable {b : Board}

theorem advance_tainted (tainted : ¬ b.Clean) (rest : Tsx.Code Board) :
    (Tsx.Code.ops sbmComparePoison (.branch (fun b => !b.flags.zf) lsbAbort rest)).advance b =
      lsbAbort.advance b.compared := by
  have set : b.compared.flags.zf = false := by
    rw [Bool.eq_false_iff]
    exact fun zero => tainted (b.compared_clean.mp zero)
  rw [Tsx.Code.advance_ops]
  change (Tsx.Code.branch _ lsbAbort rest).advance b.compared = _
  simp [Tsx.Code.advance, set]

theorem advance_clean (clean : b.Clean) (rest : Tsx.Code Board) :
    (Tsx.Code.ops sbmComparePoison (.branch (fun b => !b.flags.zf) lsbAbort rest)).advance b =
      rest.advance b.compared := by
  have set : b.compared.flags.zf = true := b.compared_clean.mpr clean
  rw [Tsx.Code.advance_ops]
  change (Tsx.Code.branch _ lsbAbort rest).advance b.compared = _
  simp [Tsx.Code.advance, set]

theorem counted_less :
    (b.counted.flags.sf != b.counted.flags.of) = (b.var .tranCtr + 1).slt (b.var .tranMax) := by
  have flags : b.counted.flags = .sub (b.var .tranCtr + 1) (b.var .tranMax) := by
    simp [counted, after, incq, movFromVar, cmpqVar, setVar, setGpr, (b.compared_frame).2.1]
  rw [flags, Flags.sub_less]

theorem sbReopen_advance (clean : b.Clean) :
    sbReopen.advance b =
      if (b.var .tranCtr + 1).slt (b.var .tranMax) then (.ret, b.kept) else (lcloseTran, b.counted) := by
  rw [sbReopen, advance_clean clean, Tsx.Code.advance_ops]
  change (Tsx.Code.branch _ lnoCloseTran lcloseTran).advance b.counted = _
  simp only [Tsx.Code.advance, counted_less]
  split
  · rfl
  · rfl

theorem sbModeled_advance (clean : b.Clean) :
    sbModeled.advance b =
      (.xend (.ops [movImmVar 16 .tranMax, movl 0xff000001 .rax] lsbFallback), b.compared) := by
  rw [sbModeled, advance_clean clean]
  rfl

theorem lsbFallback_advance : lsbFallback.advance b = (.leave, b.ejected) := by
  simp only [lsbFallback, lsbEject, Tsx.Code.advance_ops]
  rfl

theorem sbOpen_advance : sbOpen.advance b = (.xbegin .ret, b.opened) := by
  simp only [sbOpen, Tsx.Code.advance_ops]
  rfl

theorem sbInject_advance : sbInject.advance b = (.xbegin .ret, b.loaded) := by
  simp only [sbInject, Tsx.Code.advance_ops]
  rfl

def raised (ctr : BitVec 64) : BitVec 8 :=
  (abortCodes.find? fun code => code.setWidth 64 = ctr).getD 9

theorem dispatch_advance (codes : List (BitVec 8)) :
    ∃ rest flags, (dispatch codes).advance b =
      (.xabort ((codes.find? fun code => code.setWidth 64 = b.gpr .rax).getD 9) rest,
        { b with flags := flags }) := by
  induction codes generalizing b with
  | nil => exact ⟨_, b.flags, rfl⟩
  | cons code codes ih =>
      by_cases found : code.setWidth 64 = b.gpr .rax
      · refine ⟨laborts codes, .sub (b.gpr .rax) (code.setWidth 64), ?_⟩
        simp [dispatch, Tsx.Code.advance, cmpqImm, Flags.sub, found, laborts]
      · obtain ⟨rest, flags, next⟩ := @ih { b with flags := .sub (b.gpr .rax) (code.setWidth 64) }
        refine ⟨rest, flags, ?_⟩
        have other : ¬ b.gpr .rax = code.setWidth 64 := fun same => found same.symm
        rw [List.find?_cons_of_neg (by simpa using found), ← next]
        simp [dispatch, Tsx.Code.advance, cmpqImm, Flags.sub, other]

theorem tainted_raises (tainted : ¬ b.Clean) {entry : Tsx.Code Board}
    (listed : entry = sbReopen ∨ entry = sbModeled) :
    ∃ rest now, entry.advance b = (.xabort (raised (b.var .tranCtr)) rest, now) ∧
      now.var .tranCtr = b.var .tranCtr := by
  -- Poison raises an abort, with the code picked for `tran_ctr`.
  have start : entry.advance b = (dispatch abortCodes).advance (movFromVar .tranCtr .rax b.compared) := by
    rcases listed with rfl | rfl
    · exact advance_tainted tainted _
    · exact advance_tainted tainted _
  have ctr : b.compared.var .tranCtr = b.var .tranCtr := by
    rw [(b.compared_frame).2.1]
    rfl
  obtain ⟨rest, flags, next⟩ := @dispatch_advance (movFromVar .tranCtr .rax b.compared) abortCodes
  have counter : (movFromVar .tranCtr .rax b.compared).gpr .rax = b.var .tranCtr := by
    simp [movFromVar, setGpr, ctr]
  rw [counter] at next
  exact ⟨rest, _, start.trans next, ctr⟩

end

/-! What has to be shown at an entry, and what a run does from there. -/

section

variable {M : Tsx.Model Board} {Q : Tsx.Claims Board} {v : Tsx.View Board}

theorem tainted_rule {t : Tsx.Transaction Board} (inside : v.tran = some t) (tainted : ¬ v.core.Clean)
    {entry : Tsx.Code Board} (listed : entry = sbReopen ∨ entry = sbModeled)
    (raises : ∀ now, now.var .tranCtr = v.core.var .tranCtr → Q.fallback (v.roll M
      (Tsx.Abort.explicit (raised (v.core.var .tranCtr))).status
      (.xaborted (raised (v.core.var .tranCtr)) now) t.start)) :
    entry.wlp M Q v := by
  obtain ⟨rest, now, next, ctr⟩ := tainted_raises tainted listed
  rw [Tsx.Code.wlp_advance, next]
  refine ⟨fun closed => ?_, fun u found => ?_⟩
  · cases inside.symm.trans closed
  · cases inside.symm.trans found
    exact raises now ctr

theorem sbReopen_rule (clean : v.core.Clean)
    (kept : (v.core.var .tranCtr + 1).slt (v.core.var .tranMax) →
      Tsx.Code.ret.wlp M Q (v.withCore v.core.kept))
    (commits : Q.commit (v.withCore v.core.counted))
    (closed : ∀ v', (v.withCore v.core.counted).xend = some v' →
      (Tsx.Code.xbegin .ret).wlp M Q (v'.withCore v.core.reopened)) :
    sbReopen.wlp M Q v := by
  rw [Tsx.Code.wlp_advance, sbReopen_advance clean]
  split
  · rename_i less
    exact kept less
  · refine ⟨commits, fun v' ended => ?_⟩
    have core : v'.core = v.core.counted := (Tsx.View.xend_core ended).1
    rw [Tsx.Code.wlp_advance, Tsx.Code.advance_ops, Tsx.Code.advance_ops, core]
    exact closed v' ended

theorem sbModeled_rule (clean : v.core.Clean) (commits : Q.commit (v.withCore v.core.compared))
    (closed : ∀ v', (v.withCore v.core.compared).xend = some v' →
      Tsx.Code.leave.wlp M Q (v'.withCore v.core.modeled.ejected)) :
    sbModeled.wlp M Q v := by
  rw [Tsx.Code.wlp_advance, sbModeled_advance clean]
  refine ⟨commits, fun v' ended => ?_⟩
  have core : v'.core = v.core.compared := (Tsx.View.xend_core ended).1
  rw [Tsx.Code.wlp_advance, Tsx.Code.advance_ops, core]
  change (lsbFallback.advance v.core.modeled).1.wlp M Q _
  rw [lsbFallback_advance]
  exact closed v' ended

theorem lsbFallback_rule (leaves : Tsx.Code.leave.wlp M Q (v.withCore v.core.ejected)) :
    lsbFallback.wlp M Q v := by
  rw [Tsx.Code.wlp_advance, lsbFallback_advance]
  exact leaves

theorem sbOpen_rule (opens : (Tsx.Code.xbegin .ret).wlp M Q (v.withCore v.core.opened)) :
    sbOpen.wlp M Q v := by
  rw [Tsx.Code.wlp_advance, sbOpen_advance]
  exact opens

theorem sbInject_rule (opens : (Tsx.Code.xbegin .ret).wlp M Q (v.withCore v.core.loaded)) :
    sbInject.wlp M Q v := by
  rw [Tsx.Code.wlp_advance, sbInject_advance]
  exact opens

theorem sbInject_steps (closed : v.tran = none) :
    Tsx.Steps M ⟨.code sbInject, v⟩ ⟨.body, ⟨v.core.loaded, some ⟨v.core.loaded, 0⟩,
      .returned v.core.loaded :: .began v.core.loaded :: v.log⟩⟩ := by
  have start := Tsx.Code.advance_steps M sbInject v
  rw [sbInject_advance] at start
  have opens : (v.withCore v.core.loaded).xbegin =
      ⟨v.core.loaded, some ⟨v.core.loaded, 0⟩, .began v.core.loaded :: v.log⟩ := by
    simp [Tsx.View.xbegin, Tsx.View.withCore, closed]
  have begins := @Tsx.Step.xbegin _ M .ret (v.withCore v.core.loaded)
  rw [opens] at begins
  exact (start.tail begins).tail .ret

theorem kept_steps (clean : v.core.Clean)
    (less : (v.core.var .tranCtr + 1).slt (v.core.var .tranMax)) :
    Tsx.Steps M ⟨.code sbReopen, v⟩
      ⟨.body, (v.withCore v.core.kept).note (.returned v.core.kept)⟩ := by
  have start := Tsx.Code.advance_steps M sbReopen v
  rw [sbReopen_advance clean, if_pos less] at start
  exact start.tail .ret

theorem lsbFallback_steps :
    Tsx.Steps M ⟨.code lsbFallback, v⟩
      ⟨.outside, (v.withCore v.core.ejected).note (.left v.core.ejected)⟩ := by
  have start := Tsx.Code.advance_steps M lsbFallback v
  rw [lsbFallback_advance] at start
  exact start.tail .leave

theorem sbModeled_steps {start : Board} (inside : v.tran = some ⟨start, 0⟩) (clean : v.core.Clean) :
    Tsx.Steps M ⟨.code sbModeled, v⟩ ⟨.outside, ⟨v.core.modeled.ejected, none,
      .left v.core.modeled.ejected :: .committed v.core.compared :: v.log⟩⟩ := by
  have begins := Tsx.Code.advance_steps M sbModeled v
  rw [sbModeled_advance clean] at begins
  have ended : (v.withCore v.core.compared).xend =
      some ⟨v.core.compared, none, .committed v.core.compared :: v.log⟩ := by
    simp [Tsx.View.xend, Tsx.View.withCore, inside]
  refine (begins.tail (.xend ended)).trans ?_
  have follows := Tsx.Code.advance_steps M
    (.ops [movImmVar 16 .tranMax, movl 0xff000001 .rax] lsbFallback)
    ⟨v.core.compared, none, .committed v.core.compared :: v.log⟩
  rw [Tsx.Code.advance_ops] at follows
  change Tsx.Steps M _ ⟨.code (lsbFallback.advance v.core.modeled).1,
    Tsx.View.withCore _ (lsbFallback.advance v.core.modeled).2⟩ at follows
  rw [lsbFallback_advance] at follows
  exact follows.tail .leave

theorem tainted_steps {t : Tsx.Transaction Board} (inside : v.tran = some t) (tainted : ¬ v.core.Clean)
    {entry : Tsx.Code Board} (listed : entry = sbReopen ∨ entry = sbModeled) :
    ∃ now, now.var .tranCtr = v.core.var .tranCtr ∧ Tsx.Steps M ⟨.code entry, v⟩
      ⟨.code M.fallback, v.roll M (Tsx.Abort.explicit (raised (v.core.var .tranCtr))).status
        (.xaborted (raised (v.core.var .tranCtr)) now) t.start⟩ := by
  obtain ⟨rest, now, next, ctr⟩ := tainted_raises tainted listed
  have start := Tsx.Code.advance_steps M entry v
  rw [next] at start
  exact ⟨now, ctr, start.tail (.xabort inside)⟩

end

def Board.idle (b : Board) : Board := { b with arrived := b.target }

theorem Board.idle_cartridge (b : Board) : Cartridge b b.idle := ⟨rfl, fun _ _ => rfl, .inl rfl, rfl, rfl⟩

def firstView : Tsx.View Board :=
  let b := (injected true .atStart).loaded
  ⟨b, some ⟨b, 0⟩, [.returned b, .began b]⟩

theorem firstView_reached (M : Tsx.Model Board) :
    Tsx.Steps M (entering true .atStart) ⟨.body, firstView⟩ :=
  sbInject_steps rfl

def loadedOnce : Board := (firstView.core.movImm 1 .rbx).idle

theorem loadedOnce_cartridge : Cartridge firstView.core loadedOnce := ⟨rfl, fun _ _ => rfl, .inl rfl, rfl, rfl⟩

theorem loadedOnce_clean : loadedOnce.Clean := ⟨by decide, by decide⟩

def keptView : Tsx.View Board := (firstView.withCore loadedOnce.kept).note (.returned loadedOnce.kept)

theorem keptView_reached {M : Tsx.Model Board} (enters : M.enters firstView.core sbReopen loadedOnce) :
    Tsx.Steps M (entering true .atStart) ⟨.body, keptView⟩ :=
  ((firstView_reached M).tail (.enter enters)).trans
    (kept_steps (v := firstView.withCore loadedOnce) loadedOnce_clean (by decide))

end Tase
