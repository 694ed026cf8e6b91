import Tase.Springboard.Passage

/-! No transaction commits with poison in it, and what the abort tells about its position. -/

namespace Tase

def Board.Referenced (b : Board) : Prop := ∀ k, b.xmm xmmReference k = poisonWord

def Untainted (xmm : Fin 16 → Xmm) : Prop :=
  (∀ k, xmm xmmData k ≠ poisonWord) ∧ ∀ k, xmm xmmAccumulator k = 0#16

theorem Board.Referenced.clean_iff {b : Board} (reference : b.Referenced) :
    b.Clean ↔ Untainted b.xmm := by
  simp only [Clean, Untainted, reference _]

theorem Board.Zeroed.untainted {b : Board} (zeroed : b.Zeroed) : Untainted b.xmm := by
  refine ⟨fun k poison => ?_, fun k => (zeroed k).2⟩
  rw [(zeroed k).1] at poison
  exact absurd poison (by decide)

def poisonClaims : Tsx.Claims Board where
  body v := v.core.Zeroed ∧ v.core.Referenced ∧ v.Starts Board.Referenced ∧ ∃ t, v.tran = some t
  outside v := (∀ k, v.core.ctx.xmm xmmReference k = poisonWord) ∧ v.Starts Board.Referenced
  fallback v := v.core.Referenced
  commit v := Untainted v.core.xmm ∧ Untainted v.core.arrived.xmm

section

variable {v : Tsx.View Board} {entries : Springboard → List (Tsx.Code Board)}

theorem poison_recovers (starts : v.Starts Board.Referenced) :
    Tsx.Recovers (springboard entries) poisonClaims v := by
  intro t inside status _
  exact starts t inside

theorem poison_ret (zeroed : v.core.Zeroed) (reference : v.core.Referenced)
    (starts : v.Starts Board.Referenced) (inside : ∃ t, v.tran = some t) :
    Tsx.Code.ret.wlp (springboard entries) poisonClaims v := by
  refine ⟨poison_recovers ?_, zeroed, reference, ?_, inside⟩
  · exact starts
  · exact starts

theorem poison_xbegin (zeroed : v.core.Zeroed) (reference : v.core.Referenced)
    (starts : v.Starts Board.Referenced) :
    (Tsx.Code.xbegin .ret).wlp (springboard entries) poisonClaims v := by
  have begun : v.xbegin.Starts Board.Referenced := Tsx.View.starts_xbegin reference starts
  refine ⟨poison_recovers begun, poison_ret ?_ ?_ begun v.xbegin_open⟩
  · rw [v.xbegin_core]
    exact zeroed
  · rw [v.xbegin_core]
    exact reference

theorem poison_leave (starts : v.Starts Board.Referenced)
    (reference : ∀ k, v.core.ctx.xmm xmmReference k = poisonWord) :
    Tsx.Code.leave.wlp (springboard entries) poisonClaims v := by
  refine ⟨poison_recovers ?_, reference, ?_⟩
  · exact starts
  · exact starts

theorem poison_fallback (claimed : poisonClaims.fallback v) (closed : v.tran = none) :
    lsbFallback.wlp (springboard entries) poisonClaims v := by
  refine lsbFallback_rule (poison_leave (fun t inside => ?_) fun k => ?_)
  · cases closed.symm.trans inside
  · exact (congrFun v.core.ejected_ctx.2.2.1 k).trans (claimed k)

theorem poison_enter {c : Tsx.Code Board} {b : Board} (claimed : poisonClaims.body v)
    (cartridge : Cartridge v.core b) (listed : c ∈ [sbOpen, sbReopen, sbModeled]) :
    c.wlp (springboard entries) poisonClaims (v.withCore b) := by
  obtain ⟨_, before, starts, t, inside⟩ := claimed
  have reference : b.Referenced := fun k => (congrFun cartridge.reference k).trans (before k)
  have carried : ∀ {b' : Board}, b.Unseen b' → b'.Referenced := fun unseen k =>
    (congrFun unseen.reference k).trans (reference k)
  have arrived : b.Clean → Untainted b.arrived.xmm := by
    intro clean
    rw [cartridge.arrived]
    exact reference.clean_iff.mp clean
  -- Poison leads to an abort, which finds the reference where it was.
  have aborts : ¬ b.Clean → ∀ {entry}, entry = sbReopen ∨ entry = sbModeled →
      entry.wlp (springboard entries) poisonClaims (v.withCore b) := fun tainted _ either =>
    tainted_rule (v := v.withCore b) inside tainted either fun _ _ => starts t inside
  simp only [List.mem_cons, List.not_mem_nil, or_false] at listed
  rcases listed with rfl | rfl | rfl
  · exact sbOpen_rule (poison_xbegin b.opened_unseen.zeroed (carried b.opened_unseen) starts)
  · by_cases clean : b.Clean
    · refine sbReopen_rule clean (fun _ => ?_) ⟨?_, ?_⟩ fun v' ended => ?_
      · have unseen := Board.kept_unseen clean
        exact poison_ret unseen.zeroed (carried unseen) starts ⟨t, inside⟩
      · change Untainted b.counted.xmm
        rw [b.counted_frame.2.2.1]
        exact (Board.compared_zeroed clean).untainted
      · change Untainted b.counted.arrived.xmm
        rw [b.counted_frame.2.2.2.2.2]
        exact arrived clean
      · have left : v'.Starts Board.Referenced :=
          Tsx.View.starts_xend (v := (v.withCore b).withCore b.counted) ended starts
        exact poison_xbegin b.reopened_unseen.zeroed (carried b.reopened_unseen) left
    · exact aborts clean (.inl rfl)
  · by_cases clean : b.Clean
    · refine sbModeled_rule clean ⟨?_, ?_⟩ fun v' ended => ?_
      · exact (Board.compared_zeroed clean).untainted
      · change Untainted b.compared.arrived.xmm
        rw [b.compared_frame.2.2.2.2]
        exact arrived clean
      · have left : v'.Starts Board.Referenced :=
          Tsx.View.starts_xend (v := (v.withCore b).withCore b.compared) ended starts
        refine poison_leave left fun k => ?_
        refine (congrFun b.modeled.ejected_ctx.2.2.1 k).trans ?_
        exact (b.compared_xmm k).2.2.trans (reference k)
    · exact aborts clean (.inr rfl)

theorem poison_inject {enableTase : Bool} {b : Board} (starts : v.Starts Board.Referenced)
    (reference : ∀ k, b.ctx.xmm xmmReference k = poisonWord) :
    sbInject.wlp (springboard entries) poisonClaims (v.withCore (injected enableTase b)) := by
  obtain ⟨_, _, loads, zeroed, _⟩ := (injected enableTase b).loaded_frame
  exact sbInject_rule (poison_xbegin zeroed (fun k => (congrFun loads k).trans (reference k)) starts)

end

/-- A transaction is committed only without taint, and a cartridge always starts without. -/
theorem commits_untainted (enableTase : Bool) (b : Board)
    (reference : ∀ k, b.ctx.xmm xmmReference k = poisonWord) (c : Tsx.Config Board)
    (reached : Tsx.Steps (springboard fun _ => [sbOpen, sbReopen, sbModeled]) (entering enableTase b) c) :
    (∀ rest, c.place = .code (.xend rest) →
      Untainted c.view.core.xmm ∧ Untainted c.view.core.arrived.xmm) ∧
    (c.place = .body → c.view.core.Zeroed) := by
  have invariant : Tsx.Invariant (springboard fun _ => [sbOpen, sbReopen, sbModeled]) poisonClaims c := by
    refine Tsx.Invariant.steps (fun v => poison_fallback) (fun v c s claimed _ enters => ?_)
      (fun v c s claimed resumes => ?_) reached ⟨Tsx.recovers_closed rfl, ?_⟩
    · exact poison_enter claimed enters.1 enters.2
    · obtain ⟨rfl, between, enableTase, interpreter, rfl⟩ := resumes
      refine poison_inject claimed.2 fun k => ?_
      exact (congrFun interpreter.reference k).trans (claimed.1 k)
    · exact poison_inject (v := ⟨b, none, []⟩) (fun t inside => by cases inside) reference
  obtain ⟨place, view⟩ := c
  refine ⟨fun rest ending => ?_, fun body => ?_⟩
  · simp only at ending
    subst ending
    exact invariant.2.1
  · simp only at body
    subst body
    exact invariant.2.1

theorem commits_untainted_modeled : ∃ (c : Tsx.Config Board) (rest : Tsx.Code Board),
    c.place = .code (.xend rest) ∧ Untainted c.view.core.xmm ∧ Untainted c.view.core.arrived.xmm := by
  have listed : sbModeled ∈ [sbOpen, sbReopen, sbModeled] := by simp
  have run := (firstView_reached (springboard fun _ => [sbOpen, sbReopen, sbModeled])).tail
    (.enter ⟨firstView.core.idle_cartridge, listed⟩)
  have ends := run.trans (Tsx.Code.advance_steps _ _ _)
  have clean : firstView.core.idle.Clean := ⟨by decide, by decide⟩
  rw [sbModeled_advance (b := (firstView.withCore firstView.core.idle).core) clean] at ends
  exact ⟨_, _, rfl, (commits_untainted true .atStart (fun _ => rfl) _ ends).1 _ rfl⟩

/-! The position of an abort in its transaction. -/

/-- `tran_max` is 16, or smaller but positive. -/
def Board.Ranged (b : Board) : Prop := 0 < (b.var .tranMax).toNat ∧ (b.var .tranMax).toNat ≤ 16

/-- The cartridges since the last `xbegin` without the one at whose end control is. -/
def completed (log : List (Tsx.Event Board)) : Nat := Tsx.returns log - 1

def positionClaims : Tsx.Claims Board where
  body v := (v.core.Ranged ∧ v.Starts Board.Ranged ∧ ∃ t, v.tran = some t) ∧
    (v.core.var .tranCtr).toNat < 16 ∧ Tsx.returns v.log = (v.core.var .tranCtr).toNat + 1
  outside v := v.core.Ranged ∧ v.Starts Board.Ranged
  fallback v := v.core.Ranged
  commit _ := True

section

variable {v : Tsx.View Board} {entries : Springboard → List (Tsx.Code Board)}

theorem position_recovers (starts : v.Starts Board.Ranged) :
    Tsx.Recovers (springboard entries) positionClaims v := by
  intro t inside status _
  exact starts t inside

theorem position_xbegin (ranged : v.core.Ranged) (starts : v.Starts Board.Ranged)
    (ctr : v.core.var .tranCtr = 0) :
    (Tsx.Code.xbegin .ret).wlp (springboard entries) positionClaims v := by
  have begun : v.xbegin.Starts Board.Ranged := Tsx.View.starts_xbegin ranged starts
  refine ⟨position_recovers begun, position_recovers begun, ⟨?_, begun, v.xbegin_open⟩, ?_, ?_⟩
  · change v.xbegin.core.Ranged
    rw [v.xbegin_core]
    exact ranged
  · change (v.xbegin.core.var .tranCtr).toNat < 16
    rw [v.xbegin_core, ctr]
    decide
  · change Tsx.returns v.xbegin.log + 1 = (v.xbegin.core.var .tranCtr).toNat + 1
    rw [v.xbegin_log, v.xbegin_core, ctr]
    rfl

theorem position_leave (ranged : v.core.Ranged) (starts : v.Starts Board.Ranged) :
    Tsx.Code.leave.wlp (springboard entries) positionClaims v := by
  refine ⟨position_recovers ?_, ranged, ?_⟩
  · exact starts
  · exact starts

theorem position_fallback (claimed : positionClaims.fallback v) (closed : v.tran = none) :
    lsbFallback.wlp (springboard entries) positionClaims v := by
  refine lsbFallback_rule (position_leave ?_ fun t inside => ?_)
  · change v.core.ejected.Ranged
    rw [Board.Ranged, v.core.ejected_var.1]
    exact claimed
  · cases closed.symm.trans inside

theorem slt_bound {ctr top : BitVec 64} (below : ctr.toNat < 16) (bound : top.toNat ≤ 16)
    (less : (ctr + 1).slt top) : (ctr + 1).toNat = ctr.toNat + 1 ∧ ctr.toNat + 1 < 16 := by
  -- One more cartridge is counted only below `tran_max`.
  have one : (1 : BitVec 64).toNat = 1 := rfl
  have next : (ctr + 1).toNat = ctr.toNat + 1 := by
    rw [BitVec.toNat_add, one]
    omega
  rw [BitVec.slt, decide_eq_true_eq, BitVec.toInt_eq_toNat_of_lt (by omega),
    BitVec.toInt_eq_toNat_of_lt (by omega)] at less
  omega

theorem position_reopen {b : Board} (claimed : positionClaims.body v) (cartridge : Cartridge v.core b) :
    sbReopen.wlp (springboard entries) positionClaims (v.withCore b) := by
  obtain ⟨⟨ranged, starts, t, inside⟩, below, count⟩ := claimed
  have ctr : b.var .tranCtr = v.core.var .tranCtr := cartridge.var .tranCtr (by decide)
  have top : b.var .tranMax = v.core.var .tranMax := cartridge.var .tranMax (by decide)
  rw [Board.Ranged, ← top] at ranged
  rw [← ctr] at below count
  by_cases clean : b.Clean
  · refine sbReopen_rule clean (fun less => ?_) trivial fun v' ended => ?_
    · obtain ⟨next, bound⟩ := slt_bound below ranged.2 less
      obtain ⟨keptCtr, keptMax, _⟩ := b.kept_var
      refine ⟨position_recovers starts, ⟨?_, starts, t, inside⟩, ?_, ?_⟩
      · change b.kept.Ranged
        rw [Board.Ranged, keptMax]
        exact ranged
      · change (b.kept.var .tranCtr).toNat < 16
        rw [keptCtr]
        omega
      · change Tsx.returns v.log + 1 = (b.kept.var .tranCtr).toNat + 1
        rw [keptCtr]
        omega
    · obtain ⟨reset, sixteen, _⟩ := b.reopened_var
      have left : v'.Starts Board.Ranged :=
        Tsx.View.starts_xend (v := (v.withCore b).withCore b.counted) ended starts
      refine position_xbegin ?_ left reset
      change b.reopened.Ranged
      rw [Board.Ranged, sixteen]
      decide
  · exact tainted_rule (v := v.withCore b) inside clean (.inl rfl) fun _ _ => starts t inside

theorem position_modeled {b : Board} (claimed : positionClaims.body v) :
    sbModeled.wlp (springboard entries) positionClaims (v.withCore b) := by
  obtain ⟨⟨_, starts, t, inside⟩, _⟩ := claimed
  by_cases clean : b.Clean
  · refine sbModeled_rule clean trivial fun v' ended => ?_
    have left : v'.Starts Board.Ranged :=
      Tsx.View.starts_xend (v := (v.withCore b).withCore b.compared) ended starts
    refine position_leave ?_ left
    change b.modeled.ejected.Ranged
    have sixteen : b.modeled.var .tranMax = 16 := rfl
    rw [Board.Ranged, b.modeled.ejected_var.1, sixteen]
    decide
  · exact tainted_rule (v := v.withCore b) inside clean (.inr rfl) fun _ _ => starts t inside

theorem position_inject {enableTase : Bool} {b : Board} (starts : v.Starts Board.Ranged)
    (ranged : b.Ranged) :
    sbInject.wlp (springboard entries) positionClaims (v.withCore (injected enableTase b)) := by
  obtain ⟨reset, top, _⟩ := (injected enableTase b).loaded_var
  refine sbInject_rule (position_xbegin ?_ starts reset)
  change (injected enableTase b).loaded.Ranged
  rw [Board.Ranged, top]
  exact ranged

end

theorem position_invariant {enableTase : Bool} {b : Board} (ranged : b.Ranged) {c : Tsx.Config Board}
    (reached : Tsx.Steps (springboard fun _ => [sbReopen, sbModeled]) (entering enableTase b) c) :
    Tsx.Invariant (springboard fun _ => [sbReopen, sbModeled]) positionClaims c := by
  -- Headers lead to `sb_reopen` and entries of modeled functions to `sb_modeled`.
  refine Tsx.Invariant.steps (fun v => position_fallback) (fun v c s claimed _ enters => ?_)
    (fun v c s claimed resumes => ?_) reached ⟨Tsx.recovers_closed rfl, ?_⟩
  · rcases List.mem_cons.mp enters.2 with rfl | other
    · exact position_reopen claimed enters.1
    · cases List.mem_singleton.mp other
      exact position_modeled claimed
  · obtain ⟨rfl, between, enableTase, interpreter, rfl⟩ := resumes
    refine position_inject claimed.2 ?_
    rcases interpreter.tranMax with same | ⟨positive, small⟩
    · rw [Board.Ranged, same]
      exact claimed.1
    · exact ⟨positive, by omega⟩
  · exact position_inject (v := ⟨b, none, []⟩) (fun t inside => by cases inside) ranged

theorem raised_eq_iff (ctr : BitVec 64) :
    ((raised ctr).setWidth 64 = ctr ∧ raised ctr ≠ 9) ↔ ctr.toNat ≤ 8 := by
  constructor
  · rintro ⟨same, other⟩
    unfold raised at same other
    cases found : abortCodes.find? fun code => code.setWidth 64 = ctr with
    | none =>
        rw [found] at other
        exact absurd rfl other
    | some code =>
        have listed : ∀ code ∈ abortCodes, (code.setWidth 64).toNat ≤ 8 := by decide
        rw [found] at same
        rw [← same]
        exact listed code (List.mem_of_find?_eq_some found)
  · intro small
    have each : ∀ n ≤ 8, (raised (BitVec.ofNat 64 n)).setWidth 64 = BitVec.ofNat 64 n ∧
        raised (BitVec.ofNat 64 n) ≠ 9 := by decide
    have back := each ctr.toNat small
    rwa [BitVec.ofNat_toNat, BitVec.setWidth_eq] at back

/-- The abort tells the position of the cartridge as long as there is a code for it. -/
theorem raised_position_iff (enableTase : Bool) (b : Board) (ranged : b.Ranged) (v : Tsx.View Board)
    (reached : Tsx.Steps (springboard fun _ => [sbReopen, sbModeled]) (entering enableTase b) ⟨.body, v⟩) (s : Board)
    (cartridge : Cartridge v.core s) (entry : Tsx.Code Board)
    (checks : entry = sbReopen ∨ entry = sbModeled) (poison : ¬ s.Clean) :
    ∃ code now start, Tsx.Steps (springboard fun _ => [sbReopen, sbModeled]) ⟨.code entry, v.withCore s⟩
        ⟨.code lsbFallback, v.roll (springboard fun _ => [sbReopen, sbModeled])
          (Tsx.Abort.explicit code).status (.xaborted code now) start⟩ ∧
      ((code.setWidth 64 = s.var .tranCtr ∧ (s.var .tranCtr).toNat = completed v.log ∧ code ≠ 9) ↔
        (s.var .tranCtr).toNat ≤ 8) := by
  obtain ⟨⟨_, _, t, inside⟩, _, count⟩ := (position_invariant ranged reached).2
  have ctr : s.var .tranCtr = v.core.var .tranCtr := cartridge.var .tranCtr (by decide)
  obtain ⟨now, _, aborts⟩ := @tainted_steps (springboard fun _ => [sbReopen, sbModeled]) (v.withCore s) t inside poison entry checks
  refine ⟨_, now, t.start, aborts, ?_⟩
  have position : (s.var .tranCtr).toNat = completed v.log := by
    rw [completed, count, ctr]
    rfl
  rw [← raised_eq_iff]
  exact ⟨fun ⟨same, _, other⟩ => ⟨same, other⟩, fun ⟨same, other⟩ => ⟨same, position, other⟩⟩

theorem kept_reached (n : Nat) (small : n < 16) : ∃ v t,
    Tsx.Steps (springboard fun _ => [sbReopen, sbModeled]) (entering true .atStart) ⟨.body, v⟩ ∧
    v.tran = some t ∧ v.core.var .tranCtr = BitVec.ofNat 64 n ∧ v.core.var .tranMax = 16 ∧
    v.core.Zeroed ∧ v.core.Referenced := by
  induction n with
  | zero =>
      obtain ⟨_, _, reference, zeroed, _⟩ := (injected true .atStart).loaded_frame
      exact ⟨firstView, _, firstView_reached _, rfl, rfl, rfl, zeroed, fun k => congrFun reference k⟩
  | succ n ih =>
      obtain ⟨v, t, reached, inside, ctr, top, zeroed, reference⟩ := ih (by omega)
      have clean : v.core.idle.Clean :=
        (Board.Referenced.clean_iff (b := v.core.idle) reference).mpr zeroed.untainted
      have next : v.core.var .tranCtr + 1 = BitVec.ofNat 64 (n + 1) := by
        rw [ctr]
        exact (BitVec.ofNat_add n 1).symm
      have less : (v.core.idle.var .tranCtr + 1).slt (v.core.idle.var .tranMax) := by
        have all : ∀ n < 16, (BitVec.ofNat 64 n).slt 16 := by decide
        change (v.core.var .tranCtr + 1).slt (v.core.var .tranMax)
        rw [next, top]
        exact all (n + 1) small
      have enters := reached.tail (.enter ⟨v.core.idle_cartridge, List.mem_cons_self⟩)
      have unseen := Board.kept_unseen clean
      obtain ⟨keptCtr, keptMax, _⟩ := v.core.idle.kept_var
      refine ⟨_, t, enters.trans (kept_steps (v := v.withCore v.core.idle) clean less), inside,
        keptCtr.trans next, keptMax.trans top, unseen.zeroed, fun k => ?_⟩
      exact (congrFun unseen.reference k).trans (reference k)

def Board.poisoned (b : Board) : Board := (b.setXmm xmmData fun _ => poisonWord).idle

theorem Board.poisoned_cartridge (b : Board) : Cartridge b b.poisoned :=
  ⟨rfl, fun _ _ => rfl, .inl rfl, rfl, rfl⟩

theorem Board.poisoned_tainted {b : Board} (reference : b.Referenced) : ¬ b.poisoned.Clean :=
  fun clean => clean.1 0 (reference 0).symm

theorem raised_position_iff_second : ∃ code now start,
    Tsx.Steps (springboard fun _ => [sbReopen, sbModeled])
      ⟨.code sbModeled, keptView.withCore keptView.core.poisoned⟩
      ⟨.code lsbFallback, keptView.roll (springboard fun _ => [sbReopen, sbModeled])
        (Tsx.Abort.explicit code).status (.xaborted code now) start⟩ ∧ code = 1 := by
  obtain ⟨code, now, start, steps, position⟩ := raised_position_iff true .atStart ⟨by decide, by decide⟩
    keptView (keptView_reached ⟨loadedOnce_cartridge, List.mem_cons_self⟩) _
    keptView.core.poisoned_cartridge sbModeled (.inr rfl) (Board.poisoned_tainted fun _ => rfl)
  have same : code.setWidth 64 = 1 := (position.mpr (by decide)).1
  have one : ∀ code : BitVec 8, code.setWidth 64 = 1 → code = 1 := by decide
  exact ⟨code, now, start, steps, one code same⟩

theorem tenth_position_lost : ∃ v s now start,
    Tsx.Steps (springboard fun _ => [sbReopen, sbModeled]) (entering true .atStart) ⟨.body, v⟩ ∧
    Cartridge v.core s ∧ ¬ s.Clean ∧ s.var .tranCtr = 10 ∧ completed v.log = 10 ∧
    Tsx.Steps (springboard fun _ => [sbReopen, sbModeled]) ⟨.code sbReopen, v.withCore s⟩
      ⟨.code lsbFallback, v.roll (springboard fun _ => [sbReopen, sbModeled])
        (Tsx.Abort.explicit 9).status (.xaborted 9 now) start⟩ := by
  -- Ten cartridges pass `sb_reopen` in one transaction, and the next one reads poison.
  obtain ⟨v, t, reached, inside, ctr, _, _, reference⟩ := kept_reached 10 (by decide)
  have tainted := Board.poisoned_tainted reference
  have code : raised (v.core.poisoned.var .tranCtr) = 9 := by
    change raised (v.core.var .tranCtr) = 9
    rw [ctr]
    decide
  have count : completed v.log = 10 := by
    obtain ⟨_, _, count⟩ := (position_invariant ⟨by decide, by decide⟩ reached).2
    rw [completed, count, ctr]
    rfl
  obtain ⟨now, _, steps⟩ := tainted_steps (M := springboard fun _ => [sbReopen, sbModeled])
    (v := v.withCore v.core.poisoned) inside tainted (.inl rfl)
  change Tsx.Steps _ _ ⟨_, v.roll _ (Tsx.Abort.explicit (raised (v.core.poisoned.var .tranCtr))).status
    (.xaborted (raised (v.core.poisoned.var .tranCtr)) now) t.start⟩ at steps
  rw [code] at steps
  exact ⟨v, _, now, t.start, reached, v.core.poisoned_cartridge, tainted, ctr, count, steps⟩

end Tase
