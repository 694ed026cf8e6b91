import Tase.Springboard.Poison

/-! What `tase_eject` counts, and why the ejections really came. -/

namespace Tase

inductive Cause
  | poison (tranCtr : BitVec 64)
  | modeled
  | hardware (status : BitVec 32)

def Cause.of : Tsx.Event Board → Option Cause
  | .xaborted _ now => some (.poison (now.var .tranCtr))
  | .committed _ => some .modeled
  | .aborted status => some (.hardware status)
  | _ => none

/-- For every ejection the last end of a transaction before it. The latest ejection comes first. -/
def ejections : List (Tsx.Event Board) → List (Option Cause)
  | [] => []
  | .left _ :: log => log.findSome? Cause.of :: ejections log
  | _ :: log => ejections log

def Cause.isPoison : Option Cause → Bool
  | some (.poison _) => true
  | _ => false

def Cause.isLatePoison : Option Cause → Bool
  | some (.poison tranCtr) => tranCtr ≠ 0
  | _ => false

def Cause.isModeled : Option Cause → Bool
  | some .modeled => true
  | _ => false

def Cause.isUnknown : Option Cause → Bool
  | some (.hardware status) => status &&& 0xff = 0
  | _ => false

def tally (kind : Option Cause → Bool) (causes : List (Option Cause)) : BitVec 32 :=
  BitVec.ofNat 32 (causes.countP kind)

section

variable {kind : Option Cause → Bool} {cause : Option Cause}

theorem tally_cons (is : kind cause = true) (causes : List (Option Cause)) :
    tally kind (cause :: causes) = tally kind causes + 1 := by
  rw [tally, List.countP_cons_of_pos is, BitVec.ofNat_add]
  rfl

theorem tally_skip (other : kind cause = false) (causes : List (Option Cause)) :
    tally kind (cause :: causes) = tally kind causes := by
  rw [tally, List.countP_cons_of_neg (Bool.eq_false_iff.mp other)]
  rfl

end

structure AbortCounts.Agrees (counts : AbortCounts) (causes : List (Option Cause)) : Prop where
  total : counts.total = tally (fun _ => true) causes
  poison : counts.poison = tally Cause.isPoison causes
  modeled : counts.modeled = tally Cause.isModeled causes
  unknown : counts.unknown = tally Cause.isUnknown causes

/-- What the counters are: late poison counts as modeled. -/
structure AbortCounts.Tallies (counts : AbortCounts) (causes : List (Option Cause)) : Prop where
  total : counts.total = tally (fun _ => true) causes
  poison : counts.poison + tally Cause.isLatePoison causes = tally Cause.isPoison causes
  modeled : counts.modeled = tally Cause.isModeled causes + tally Cause.isLatePoison causes
  unknown : counts.unknown = tally Cause.isUnknown causes

theorem AbortCounts.Tallies.agrees_iff {counts : AbortCounts} {causes : List (Option Cause)}
    (tallies : counts.Tallies causes) :
    counts.Agrees causes ↔ tally Cause.isLatePoison causes = 0 := by
  constructor
  · intro agrees
    have sum := tallies.poison
    rw [agrees.poison] at sum
    exact BitVec.add_right_eq_self.mp sum
  · intro none
    refine ⟨tallies.total, ?_, ?_, tallies.unknown⟩
    · rw [← tallies.poison, none]
      exact (BitVec.add_zero _).symm
    · rw [tallies.modeled, none]
      exact BitVec.add_zero _

def Cause.Reports : Cause → BitVec 32 → Prop
  | .poison tranCtr, status => status = (Tsx.Abort.explicit (raised tranCtr)).status
  | .modeled, status => status = 0xff000001
  | .hardware cause, status => status = cause ∧ cause &&& 0x3e = cause

theorem raised_listed (ctr : BitVec 64) : raised ctr ∈ 9 :: abortCodes := by
  unfold raised
  cases found : abortCodes.find? fun code => code.setWidth 64 = ctr with
  | none => exact List.mem_cons_self
  | some code => exact List.mem_cons_of_mem _ (List.mem_of_find?_eq_some found)

theorem raised_zero_iff (ctr : BitVec 64) : raised ctr = 0 ↔ ctr = 0 := by
  constructor
  · intro zero
    unfold raised at zero
    cases found : abortCodes.find? fun code => code.setWidth 64 = ctr with
    | none =>
        rw [found] at zero
        exact absurd zero (by decide)
    | some code =>
        have same : code.setWidth 64 = ctr := by simpa using List.find?_some found
        rw [found] at zero
        have first : code = 0 := zero
        rw [← same, first]
        rfl
  · rintro rfl
    decide

theorem countAbort_poison (ctr : BitVec 64) (counts : AbortCounts) :
    countAbort (Tsx.Abort.explicit (raised ctr)).status counts = { counts with
      total := counts.total + 1
      poison := if ctr = 0 then counts.poison + 1 else counts.poison
      modeled := if ctr = 0 then counts.modeled else counts.modeled + 1
      codes := (countAbort (Tsx.Abort.explicit (raised ctr)).status counts).codes } := by
  have bits : ∀ code ∈ (9 : BitVec 8) :: abortCodes, (Tsx.Abort.explicit code).status &&& 0xff ≠ 0 ∧
      xabortBit (Tsx.Abort.explicit code).status = true ∧
      (xabortCode (Tsx.Abort.explicit code).status = 0 ↔ code = 0) := by decide
  obtain ⟨known, explicit, code⟩ := bits _ (raised_listed ctr)
  rw [raised_zero_iff] at code
  by_cases zero : ctr = 0
  · subst zero
    simp only [countAbort, if_neg known, if_pos explicit, ne_eq, code, not_true, if_false, if_true]
  · simp only [countAbort, if_neg known, if_pos explicit, ne_eq, code, zero, not_false_iff, if_false, if_true]

theorem countAbort_modeled (counts : AbortCounts) :
    countAbort 0xff000001 counts = { counts with
      total := counts.total + 1
      modeled := counts.modeled + 1
      codes := (countAbort 0xff000001 counts).codes } := by
  simp [countAbort, xabortBit, xabortCode]

theorem countAbort_hardware {status : BitVec 32} (signal : status &&& 0x3e = status)
    (counts : AbortCounts) :
    countAbort status counts = { counts with
      total := counts.total + 1
      unknown := if status &&& 0xff = 0 then counts.unknown + 1 else counts.unknown
      codes := (countAbort status counts).codes } := by
  have bit : ¬ xabortBit status = true := by
    rw [xabortBit, ← signal, BitVec.getLsbD_and]
    simp
  by_cases zero : status &&& 0xff = 0
  · simp only [countAbort, zero, if_true]
  · simp only [countAbort, if_neg zero, if_neg bit]

theorem AbortCounts.Tallies.count {counts : AbortCounts} {causes : List (Option Cause)} {cause : Cause}
    {status : BitVec 32} (tallies : counts.Tallies causes) (reports : cause.Reports status) :
    (countAbort status counts).Tallies (some cause :: causes) := by
  have swap : ∀ x y : BitVec 32, x + 1 + y = x + y + 1 := fun x y => add_right_comm x 1 y
  cases cause with
  | poison tranCtr =>
      cases reports
      rw [countAbort_poison]
      by_cases zero : tranCtr = 0
      · simp only [zero, if_true]
        refine ⟨?_, ?_, ?_, ?_⟩
        · rw [tally_cons rfl, tallies.total]
        · rw [tally_skip rfl, tally_cons rfl, swap, tallies.poison]
        · rw [tally_skip rfl, tally_skip rfl, tallies.modeled]
        · rw [tally_skip rfl, tallies.unknown]
      · have late : Cause.isLatePoison (some (.poison tranCtr)) = true := decide_eq_true zero
        simp only [zero, if_false]
        refine ⟨?_, ?_, ?_, ?_⟩
        · rw [tally_cons rfl, tallies.total]
        · rw [tally_cons late, tally_cons rfl, ← BitVec.add_assoc, tallies.poison]
        · rw [tally_skip rfl, tally_cons late, ← BitVec.add_assoc, tallies.modeled]
        · rw [tally_skip rfl, tallies.unknown]
  | modeled =>
      cases reports
      rw [countAbort_modeled]
      refine ⟨?_, ?_, ?_, ?_⟩
      · rw [tally_cons rfl, tallies.total]
      · rw [tally_skip rfl, tally_skip rfl, tallies.poison]
      · rw [tally_cons rfl, tally_skip rfl, swap, tallies.modeled]
      · rw [tally_skip rfl, tallies.unknown]
  | hardware signal =>
      obtain ⟨rfl, signals⟩ := reports
      rw [countAbort_hardware signals]
      refine ⟨?_, ?_, ?_, ?_⟩
      · rw [tally_cons rfl, tallies.total]
      · rw [tally_skip rfl, tally_skip rfl, tallies.poison]
      · rw [tally_skip rfl, tally_skip rfl, tallies.modeled]
      · by_cases zero : status &&& 0xff = 0
        · rw [tally_cons (decide_eq_true zero), if_pos zero, tallies.unknown]
        · rw [tally_skip (decide_eq_false zero), if_neg zero, tallies.unknown]

def statisticsClaims : Tsx.Claims Board where
  body v := v.core.ctx.abortCounts.Tallies (ejections v.log) ∧ ∃ s, v.tran = some ⟨s, 0⟩ ∧
    s.ctx.abortCounts.Tallies (ejections v.log)
  outside v := v.tran = none ∧ (taseEject v.core).ctx.abortCounts.Tallies (ejections v.log)
  fallback v := v.core.ctx.abortCounts.Tallies (ejections v.log) ∧ ∃ cause status,
    v.log.findSome? Cause.of = some cause ∧ v.core.gpr .rax = status.setWidth 64 ∧ cause.Reports status
  commit _ := True

section

variable {v : Tsx.View Board} {entries : Springboard → List (Tsx.Code Board)}

theorem statistics_recovers {s : Board} (inside : v.tran = some ⟨s, 0⟩)
    (tallies : s.ctx.abortCounts.Tallies (ejections v.log)) :
    Tsx.Recovers (springboard entries) statisticsClaims v := by
  intro t found status signal
  cases inside.symm.trans found
  exact ⟨tallies, .hardware status, status, rfl, rfl, rfl, signal⟩

theorem statistics_xbegin (closed : v.tran = none)
    (tallies : v.core.ctx.abortCounts.Tallies (ejections v.log)) :
    (Tsx.Code.xbegin .ret).wlp (springboard entries) statisticsClaims v := by
  have opens : v.xbegin = ⟨v.core, some ⟨v.core, 0⟩, .began v.core :: v.log⟩ := by
    simp [Tsx.View.xbegin, closed]
  simp only [Tsx.Code.wlp, opens]
  exact ⟨statistics_recovers rfl tallies, statistics_recovers rfl tallies, tallies, v.core, rfl, tallies⟩

theorem statistics_leave {b : Board} {cause : Cause} {status : BitVec 32} (closed : v.tran = none)
    (tallies : b.ctx.abortCounts.Tallies (ejections v.log)) (found : v.log.findSome? Cause.of = some cause)
    (rax : b.gpr .rax = status.setWidth 64) (reports : cause.Reports status) :
    Tsx.Code.leave.wlp (springboard entries) statisticsClaims (v.withCore b.ejected) := by
  obtain ⟨_, _, _, stored, counts⟩ := b.ejected_ctx
  refine ⟨Tsx.recovers_closed closed, closed, ?_⟩
  change (countAbort b.ejected.ctx.abortStatus b.ejected.ctx.abortCounts).Tallies
    (v.log.findSome? Cause.of :: ejections v.log)
  have back : (status.setWidth 64).setWidth 32 = status := by
    rw [BitVec.setWidth_setWidth_of_le _ (by decide), BitVec.setWidth_eq]
  rw [found, stored, counts, rax, back]
  exact tallies.count reports

theorem statistics_fallback (claimed : statisticsClaims.fallback v) (closed : v.tran = none) :
    lsbFallback.wlp (springboard entries) statisticsClaims v := by
  obtain ⟨tallies, cause, status, found, rax, reports⟩ := claimed
  exact lsbFallback_rule (statistics_leave closed tallies found rax reports)

theorem statistics_enter {c : Tsx.Code Board} {b : Board} (claimed : statisticsClaims.body v)
    (cartridge : Cartridge v.core b) (listed : c = sbReopen ∨ c = sbModeled) :
    c.wlp (springboard entries) statisticsClaims (v.withCore b) := by
  obtain ⟨tallies, s, inside, saved⟩ := claimed
  rw [← cartridge.ctx] at tallies
  by_cases clean : b.Clean
  · rcases listed with rfl | rfl
    · refine sbReopen_rule clean (fun _ => ?_) trivial fun v' ended => ?_
      · refine ⟨statistics_recovers inside saved, ?_, s, inside, saved⟩
        change b.kept.ctx.abortCounts.Tallies _
        rw [(Board.kept_unseen clean).ctx]
        exact tallies
      · simp only [Tsx.View.xend, Tsx.View.withCore, inside, Option.some.injEq] at ended
        subst ended
        refine statistics_xbegin rfl ?_
        change b.reopened.ctx.abortCounts.Tallies _
        rw [b.reopened_unseen.ctx]
        exact tallies
    · refine sbModeled_rule clean trivial fun v' ended => ?_
      simp only [Tsx.View.xend, Tsx.View.withCore, inside, Option.some.injEq] at ended
      subst ended
      refine statistics_leave (b := b.modeled) rfl ?_ rfl rfl rfl
      change b.compared.ctx.abortCounts.Tallies _
      rw [b.compared_frame.2.2.1]
      exact tallies
  · refine tainted_rule (v := v.withCore b) inside clean listed fun now ctr => ?_
    refine ⟨saved, .poison (now.var .tranCtr), _, rfl, rfl, ?_⟩
    rw [ctr]
    rfl

theorem statistics_inject {enableTase : Bool} {b : Board} (closed : v.tran = none)
    (tallies : b.ctx.abortCounts.Tallies (ejections v.log)) :
    sbInject.wlp (springboard entries) statisticsClaims (v.withCore (injected enableTase b)) := by
  refine sbInject_rule (statistics_xbegin closed ?_)
  change (injected enableTase b).loaded.ctx.abortCounts.Tallies _
  rw [(injected enableTase b).loaded_frame.2.2.2.2.2]
  exact tallies

end

theorem statistics_invariant {enableTase : Bool} {b : Board}
    (zeroed : b.ctx.abortCounts = ⟨fun _ => 0, 0, 0, 0, 0⟩) {c : Tsx.Config Board}
    (reached : Tsx.Steps (springboard fun _ => [sbReopen, sbModeled]) (entering enableTase b) c) :
    Tsx.Invariant (springboard fun _ => [sbReopen, sbModeled]) statisticsClaims c := by
  refine Tsx.Invariant.steps (fun v => statistics_fallback) (fun v c s claimed _ enters => ?_)
    (fun v c s claimed resumes => ?_) reached ⟨Tsx.recovers_closed rfl, ?_⟩
  · refine statistics_enter claimed enters.1 ?_
    rcases List.mem_cons.mp enters.2 with here | there
    · exact .inl here
    · exact .inr (List.mem_singleton.mp there)
  · obtain ⟨rfl, between, enableTase, interpreter, rfl⟩ := resumes
    refine statistics_inject claimed.1 ?_
    rw [interpreter.abortCounts]
    exact claimed.2
  · refine statistics_inject (v := ⟨b, none, []⟩) rfl ?_
    rw [zeroed]
    exact ⟨rfl, rfl, rfl, rfl⟩

/-- The statistics are right exactly when poison was found only in first cartridges. -/
theorem abortCounts_agree_iff (enableTase : Bool) (b : Board)
    (zeroed : b.ctx.abortCounts = ⟨fun _ => 0, 0, 0, 0, 0⟩) (v : Tsx.View Board)
    (reached : Tsx.Steps (springboard fun _ => [sbReopen, sbModeled]) (entering enableTase b)
      ⟨.outside, v⟩) :
    (taseEject v.core).ctx.abortCounts.Agrees (ejections v.log) ↔
      tally Cause.isLatePoison (ejections v.log) = 0 :=
  (statistics_invariant zeroed reached).2.2.agrees_iff

theorem abortCounts_agree_iff_thrownBack : keptView.core.gpr .rbx = 1 ∧ ∃ v : Tsx.View Board,
    Tsx.Steps (springboard fun _ => [sbReopen, sbModeled]) ⟨.body, keptView⟩ ⟨.outside, v⟩ ∧
    ejections v.log = [some (.hardware 8)] ∧
    (taseEject v.core).ctx.abortCounts.Agrees (ejections v.log) := by
  have start := keptView_reached (M := springboard fun _ => [sbReopen, sbModeled])
    ⟨loadedOnce_cartridge, List.mem_cons_self⟩
  have ejects := (Relation.ReflTransGen.single
    (@Tsx.Step.abort _ (springboard fun _ => [sbReopen, sbModeled]) .body keptView _ 8 rfl rfl)).trans
      lsbFallback_steps
  exact ⟨by decide, _, ejects, rfl, (abortCounts_agree_iff true .atStart rfl _ (start.trans ejects)).mpr rfl⟩

theorem late_poison_counted_modeled : ∃ v : Tsx.View Board,
    Tsx.Steps (springboard fun _ => [sbReopen, sbModeled]) (entering true .atStart) ⟨.outside, v⟩ ∧
    ejections v.log = [some (.poison 1)] ∧ (taseEject v.core).ctx.abortCounts.poison = 0 ∧
    (taseEject v.core).ctx.abortCounts.modeled = 1 := by
  have first := keptView_reached (M := springboard fun _ => [sbReopen, sbModeled])
    ⟨loadedOnce_cartridge, List.mem_cons_self⟩
  have second := first.tail (.enter ⟨Board.poisoned_cartridge _, List.mem_cons_self⟩)
  obtain ⟨now, ctr, aborts⟩ := @tainted_steps (springboard fun _ => [sbReopen, sbModeled])
    (keptView.withCore keptView.core.poisoned) _ rfl (Board.poisoned_tainted fun _ => rfl) sbReopen (.inl rfl)
  have run := (second.trans aborts).trans lsbFallback_steps
  have one : now.var .tranCtr = 1 := ctr
  refine ⟨_, run, congrArg (fun n => [some (Cause.poison n)]) one, ?_⟩
  obtain ⟨_, poison, modeled, _⟩ := (statistics_invariant rfl run).2.2
  change _ + tally Cause.isLatePoison [some (.poison (now.var .tranCtr))] = _ at poison
  change _ = _ + tally Cause.isLatePoison [some (.poison (now.var .tranCtr))] at modeled
  rw [one] at poison modeled
  exact ⟨BitVec.add_left_eq_self.mp poison, modeled⟩

end Tase
