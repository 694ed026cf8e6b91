import Tase.Springboard.Poison
import Tase.Springboard.Rollback
import Tase.Tsx.Speculation

/-! Speculation is not to be seen. Cartridges run in transactions of several at a time, are thrown
back by poison and by the hardware, are left to the interpreter and taken up again, and what lasts of
all this is one run of the target program. -/

namespace Tase

open Board Cpp

/-- A program for the target, as far as it can be seen in the registers, the flags and the memory.
It knows nothing of r14 and of OF, and where a modeled function begins, nothing of RAX and of any
flag. -/
structure Guest (τ : Type) where
  see : (Gpr → BitVec 64) → Flags → Mem → τ
  next : τ → τ → Prop
  modeled : BitVec 64 → Prop
  blind : ∀ {gpr gpr' flags flags' memory},
    (∀ g, g ≠ .r14 → ¬(g = .rax ∧ modeled (gpr .r15)) → gpr' g = gpr g) →
    (¬modeled (gpr .r15) → flags'.Same flags) →
    see gpr' flags' memory = see gpr flags memory

namespace Guest

variable {τ : Type} (G : Guest τ)

def seen (b : Board) : τ := G.see b.gpr b.flags b.memory

def brought (b : Board) : τ := G.see b.arrived.gpr b.arrived.flags b.memory

/-- What `target_ctx` stands for: the address of the next cartridge is in its `rip`. -/
def held (b : Board) : τ :=
  G.see (Function.update b.ctx.gregs .r15 b.ctx.rip) b.ctx.target.flags b.memory

def showing : Tsx.Showing Board τ where
  began := G.seen
  committed := G.brought
  left b := G.held (taseEject b)

/-- The springboard with this program on it. A cartridge goes one step, unless there is poison in
what it read; then it may do anything. The interpreter goes any number of steps. -/
def speculation : Tsx.Model Board where
  fallback := lsbFallback
  deliver status b := b.setGpr .rax (status.setWidth 64)
  signals status := status &&& 0x3e = status
  enters b code b' := Cartridge b b' ∧ (Untainted b'.xmm → G.next (G.seen b) (G.seen b')) ∧
    (code = sbReopen ∨ code = sbModeled ∧ G.modeled (b'.gpr .r15))
  resumes b code b' := code = sbInject ∧ ∃ between enableTase, Interpreter (taseEject b) between ∧
    Relation.ReflTransGen G.next (G.held (taseEject b)) (G.held between) ∧
    b' = injected enableTase between

theorem see_same {gpr gpr' : Gpr → BitVec 64} {flags flags' : Flags} {memory : Mem}
    (same : ∀ g, g ≠ .r14 → gpr' g = gpr g) (sameFlags : flags'.Same flags) :
    G.see gpr' flags' memory = G.see gpr flags memory :=
  G.blind (fun g other _ => same g other) fun _ => sameFlags

theorem seen_unseen {b b' : Board} (unseen : b.Unseen b') (memory : b'.memory = b.memory) :
    G.seen b' = G.seen b := by
  unfold seen
  rw [memory]
  exact G.see_same unseen.gpr unseen.flags

theorem seen_loaded (enableTase : Bool) (b : Board) :
    G.seen (injected enableTase b).loaded = G.held b := by
  obtain ⟨gpr, flags, _⟩ := (injected enableTase b).loaded_frame
  exact G.see_same gpr flags

theorem held_ejected (b : Board) :
    G.held (taseEject b.ejected) = G.see (Function.update b.gpr .rax (b.gpr .r14)) b.flags b.memory := by
  obtain ⟨gregs, flags, _⟩ := b.ejected_ctx
  refine G.see_same (fun g _ => ?_) flags
  by_cases isR15 : g = .r15
  · subst isR15
    simp [taseEject, setCtx, gregs]
  · simp [taseEject, setCtx, gregs, isR15]

theorem held_modeled {b : Board} (modeled : G.modeled (b.gpr .r15)) :
    G.held (taseEject b.modeled.ejected) = G.seen b := by
  -- After a commit in `sb_modeled`, RAX and the flags are lost.
  have gpr : b.modeled.gpr = Function.update b.compared.gpr .rax 0xff000001 := rfl
  rw [held_ejected, gpr, b.compared_frame.1]
  refine G.blind (fun g _ kept => ?_) fun unmodeled => absurd modeled unmodeled
  have other : g ≠ .rax := fun isRax => kept ⟨isRax, modeled⟩
  simp [other]

variable (first : τ)

def stations (log : List (Tsx.Event Board)) : List τ := G.showing.stations first log

structure Saved (s : Board) (log : List (Tsx.Event Board)) : Prop where
  rax : s.gpr .r14 = s.gpr .rax
  reference : s.Referenced
  last : (G.stations first log).head? = some (G.seen s)

def claims : Tsx.Claims Board where
  body v := v.core.Referenced ∧ (∃ s, v.tran = some ⟨s, 0⟩ ∧ G.Saved first s v.log) ∧
    Tsx.Visits G.next (G.seen v.core :: G.stations first v.log)
  outside v := v.tran = none ∧ (∀ k, v.core.ctx.xmm xmmReference k = poisonWord) ∧
    Tsx.Visits G.next (G.stations first v.log) ∧
    (G.stations first v.log).head? = some (G.held (taseEject v.core))
  fallback v := ∃ s status, v.core = s.setGpr .rax status ∧ G.Saved first s v.log ∧
    Tsx.Visits G.next (G.stations first v.log)
  commit _ := True

section

variable {G} {first} {v : Tsx.View Board} {s : Board}

theorem Saved.note {log : List (Tsx.Event Board)} (saved : G.Saved first s log) {e : Tsx.Event Board}
    (silent : G.showing.event e = none) : G.Saved first s (e :: log) := by
  refine ⟨saved.rax, saved.reference, ?_⟩
  rw [stations, Tsx.Showing.stations_silent silent]
  exact saved.last

theorem recovers (inside : v.tran = some ⟨s, 0⟩) (saved : G.Saved first s v.log)
    (visits : Tsx.Visits G.next (G.stations first v.log)) :
    Tsx.Recovers G.speculation (G.claims first) v := by
  intro t found status _
  cases inside.symm.trans found
  exact ⟨s, _, rfl, saved.note rfl, visits⟩

theorem ret_rule (inside : v.tran = some ⟨s, 0⟩) (saved : G.Saved first s v.log)
    (reference : v.core.Referenced)
    (visits : Tsx.Visits G.next (G.seen v.core :: G.stations first v.log)) :
    Tsx.Code.ret.wlp G.speculation (G.claims first) v := by
  refine ⟨recovers inside (saved.note rfl) visits.tail, reference, ⟨s, inside, saved.note rfl⟩, ?_⟩
  exact visits

theorem xbegin_rule (closed : v.tran = none) (rax : v.core.gpr .r14 = v.core.gpr .rax)
    (reference : v.core.Referenced)
    (visits : Tsx.Visits G.next (G.seen v.core :: G.stations first v.log)) :
    (Tsx.Code.xbegin .ret).wlp G.speculation (G.claims first) v := by
  -- What is there at an `xbegin` can be gone back to.
  have opens : v.xbegin = ⟨v.core, some ⟨v.core, 0⟩, .began v.core :: v.log⟩ := by
    simp [Tsx.View.xbegin, closed]
  have station : G.stations first (.began v.core :: v.log) = G.seen v.core :: G.stations first v.log :=
    Tsx.Showing.stations_durable rfl
  have saved : G.Saved first v.core (.began v.core :: v.log) := ⟨rax, reference, by rw [station]; rfl⟩
  simp only [Tsx.Code.wlp, opens]
  refine ⟨recovers rfl saved ?_, ret_rule rfl saved reference ?_⟩
  · rw [station]
    exact visits
  · rw [station]
    exact visits.again

theorem leave_rule (closed : v.tran = none) (reference : ∀ k, v.core.ctx.xmm xmmReference k = poisonWord)
    (visits : Tsx.Visits G.next (G.held (taseEject v.core) :: G.stations first v.log)) :
    Tsx.Code.leave.wlp G.speculation (G.claims first) v := by
  have station : G.stations first (.left v.core :: v.log) =
      G.held (taseEject v.core) :: G.stations first v.log := Tsx.Showing.stations_durable rfl
  refine ⟨Tsx.recovers_closed closed, closed, reference, ?_⟩
  change Tsx.Visits G.next (G.stations first (.left v.core :: v.log)) ∧
    (G.stations first (.left v.core :: v.log)).head? = _
  rw [station]
  exact ⟨visits, rfl⟩

theorem fallback_rule (claimed : (G.claims first).fallback v) (closed : v.tran = none) :
    lsbFallback.wlp G.speculation (G.claims first) v := by
  obtain ⟨s, status, core, saved, visits⟩ := claimed
  have shown : G.held (taseEject v.core.ejected) = G.seen s := by
    rw [held_ejected, core]
    refine G.see_same (fun g other => ?_) rfl
    by_cases isRax : g = .rax
    · subst isRax
      simp [setGpr, saved.rax]
    · simp [setGpr, isRax]
  refine lsbFallback_rule (leave_rule closed (fun k => ?_) ?_)
  · refine (congrFun v.core.ejected_ctx.2.2.1 k).trans ?_
    rw [core]
    exact saved.reference k
  · change Tsx.Visits G.next (G.held (taseEject v.core.ejected) :: G.stations first v.log)
    rw [shown]
    exact visits.back saved.last

theorem enter_rule {c : Tsx.Code Board} {b : Board} (claimed : (G.claims first).body v)
    (enters : G.speculation.enters v.core c b) :
    c.wlp G.speculation (G.claims first) (v.withCore b) := by
  obtain ⟨before, ⟨s, inside, saved⟩, visits⟩ := claimed
  obtain ⟨cartridge, steps, entry⟩ := enters
  have reference : b.Referenced := fun k => (congrFun cartridge.reference k).trans (before k)
  have carried : ∀ {b' : Board}, b.Unseen b' → b'.Referenced := fun unseen k =>
    (congrFun unseen.reference k).trans (reference k)
  by_cases clean : b.Clean
  · have onward : Tsx.Visits G.next (G.seen b :: G.stations first v.log) :=
      visits.onward (.single (steps (reference.clean_iff.mp clean)))
    -- What the commit shows is what the cartridge brought.
    have committed {now : Board} (arrived : now.arrived = b.arrived) (memory : now.memory = b.memory)
        {v' : Tsx.View Board} (ended : ((v.withCore b).withCore now).xend = some v') :
        v'.tran = none ∧ G.stations first v'.log = G.seen b :: G.stations first v.log := by
      have brought : G.brought now = G.seen b := by
        rw [brought, arrived, memory, cartridge.arrived]
        rfl
      simp only [Tsx.View.xend, Tsx.View.withCore, inside, Option.some.injEq] at ended
      rw [← ended, ← brought]
      exact ⟨rfl, Tsx.Showing.stations_durable rfl⟩
    rcases entry with rfl | ⟨rfl, modeled⟩
    · refine sbReopen_rule clean (fun _ => ?_) trivial fun v' ended => ?_
      · have unseen := Board.kept_unseen clean
        refine ret_rule (s := s) inside saved (carried unseen) ?_
        change Tsx.Visits G.next (G.seen b.kept :: G.stations first v.log)
        rw [G.seen_unseen unseen rfl]
        exact onward
      · obtain ⟨closed, station⟩ := committed (b.counted_frame).2.2.2.2.2 rfl ended
        refine xbegin_rule closed b.reopened_r14 (carried b.reopened_unseen) ?_
        change Tsx.Visits G.next (G.seen b.reopened :: G.stations first v'.log)
        rw [station, G.seen_unseen b.reopened_unseen rfl]
        exact onward.again
    · refine sbModeled_rule clean trivial fun v' ended => ?_
      obtain ⟨closed, station⟩ := committed (b.compared_frame).2.2.2.2 rfl ended
      refine leave_rule closed (fun k => ?_) ?_
      · refine (congrFun b.modeled.ejected_ctx.2.2.1 k).trans ?_
        exact (b.compared_xmm k).2.2.trans (reference k)
      · change Tsx.Visits G.next (G.held (taseEject b.modeled.ejected) :: G.stations first v'.log)
        rw [station, G.held_modeled modeled]
        exact onward.again
  · refine tainted_rule (v := v.withCore b) inside clean ?_ fun now _ => ?_
    · exact entry.imp_right And.left
    · exact ⟨s, _, rfl, saved.note rfl, visits.tail⟩

theorem inject_rule {enableTase : Bool} {b : Board} (closed : v.tran = none)
    (reference : ∀ k, b.ctx.xmm xmmReference k = poisonWord)
    (visits : Tsx.Visits G.next (G.held b :: G.stations first v.log)) :
    sbInject.wlp G.speculation (G.claims first) (v.withCore (injected enableTase b)) := by
  have loaded := (injected enableTase b).loaded_frame.2.2.1
  refine sbInject_rule (xbegin_rule closed (injected enableTase b).loaded_var.2.2.2 (fun k => ?_) ?_)
  · exact (congrFun loaded k).trans (reference k)
  · change Tsx.Visits G.next (G.seen (injected enableTase b).loaded :: G.stations first v.log)
    rw [seen_loaded]
    exact visits

end

end Guest

theorem speculation_invariant {τ : Type} {G : Guest τ} {enableTase : Bool} {b : Board}
    (poison : ∀ k, b.ctx.xmm xmmReference k = poisonWord) {c : Tsx.Config Board}
    (reached : Tsx.Steps G.speculation (entering enableTase b) c) :
    Tsx.Invariant G.speculation (G.claims (G.held b)) c := by
  refine Tsx.Invariant.steps (fun v => Guest.fallback_rule) (fun v c s claimed _ enters => ?_)
    (fun v c s claimed resumes => ?_) reached ⟨Tsx.recovers_closed rfl, ?_⟩
  · exact Guest.enter_rule claimed enters
  · obtain ⟨rfl, between, enableTase, interpreter, run, rfl⟩ := resumes
    obtain ⟨closed, reference, visits, last⟩ := claimed
    refine Guest.inject_rule closed (fun k => ?_) ?_
    · exact (congrFun interpreter.reference k).trans (reference k)
    · exact (visits.back last).onward run
  · exact Guest.inject_rule (v := ⟨b, none, []⟩) rfl poison Tsx.Visits.singleton.again

/-- Whenever the target or the interpreter runs, all that has lasted so far, from the context that the
first injection found, is one run of the program, and the present state carries it on: what an abort
threw away has left no trace, and nothing is done twice or left out. -/
theorem speculation_visits {τ : Type} (G : Guest τ) (enableTase : Bool) (b : Board)
    (poison : ∀ k, b.ctx.xmm xmmReference k = poisonWord) (c : Tsx.Config Board)
    (reached : Tsx.Steps G.speculation (entering enableTase b) c) :
    (c.place = .body →
      Tsx.Visits G.next (G.seen c.view.core :: G.stations (G.held b) c.view.log)) ∧
    (c.place = .outside → Tsx.Visits G.next (G.stations (G.held b) c.view.log) ∧
      (G.stations (G.held b) c.view.log).head? = some (G.held (taseEject c.view.core))) := by
  have invariant := speculation_invariant poison reached
  obtain ⟨place, view⟩ := c
  refine ⟨fun body => ?_, fun outside => ?_⟩
  · simp only at body
    subst body
    exact invariant.2.2.2
  · simp only at outside
    subst outside
    exact invariant.2.2.2

theorem stepCounter_blind {gpr gpr' : Gpr → BitVec 64} {flags flags' : Flags}
    (same : ∀ g, g ≠ .r14 → ¬(g = .rax ∧ False) → gpr' g = gpr g)
    (_ : ¬False → flags'.Same flags) : gpr' .rbx = gpr .rbx :=
  same .rbx (by decide) (by simp)

def stepCounter : Guest (BitVec 64) where
  see gpr _ _ := gpr .rbx
  next v w := w = v + 1
  modeled _ := False
  blind := stepCounter_blind

theorem speculation_visits_thrownBack : ∃ c : Tsx.Config Board,
    Tsx.Steps stepCounter.speculation (entering true .atStart) c ∧ c.place = .outside ∧
    Tsx.Visits stepCounter.next (stepCounter.stations 0 c.view.log) ∧
    (stepCounter.stations 0 c.view.log).head? = some (stepCounter.held (taseEject c.view.core)) := by
  have steps : stepCounter.next (stepCounter.seen firstView.core) (stepCounter.seen loadedOnce) := rfl
  have first := keptView_reached (M := stepCounter.speculation) ⟨loadedOnce_cartridge, fun _ => steps, .inl rfl⟩
  have run := (first.tail (@Tsx.Step.abort _ _ _ _ _ 0 rfl rfl)).trans lsbFallback_steps
  exact ⟨_, run, rfl, (speculation_visits stepCounter true .atStart (fun _ => rfl) _ run).2 rfl⟩

end Tase
