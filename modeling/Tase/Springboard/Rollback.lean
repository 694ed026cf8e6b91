import Tase.Springboard.Passage

/-! What an ejection hands to the interpreter: after an abort the registers at the last `xbegin`, after
a commit those at the entry of `sb_modeled`. -/

namespace Tase

structure Target.Agrees (t u : Target) : Prop where
  gpr : ∀ g, g ≠ .r14 → t.gpr g = u.gpr g
  sf : t.flags.sf = u.flags.sf
  zf : t.flags.zf = u.flags.zf
  af : t.flags.af = u.flags.af
  pf : t.flags.pf = u.flags.pf
  cf : t.flags.cf = u.flags.cf

theorem Target.agrees_of_same {t u : Target} (gpr : ∀ g, g ≠ .r14 → t.gpr g = u.gpr g)
    (flags : t.flags.Same u.flags) : t.Agrees u := by
  obtain ⟨sf, zf, af, pf, cf⟩ := Flags.same_iff.mp flags
  exact ⟨gpr, sf, zf, af, pf, cf⟩

theorem Target.Agrees.same {t u : Target} (agrees : t.Agrees u) : t.flags.Same u.flags :=
  Flags.same_iff.mpr ⟨agrees.sf, agrees.zf, agrees.af, agrees.pf, agrees.cf⟩

/-- `s` was the state at the last `xbegin`. There r14 had RAX, and the rest was the target's. -/
structure Snapshot (s : Board) (log : List (Tsx.Event Board)) : Prop where
  last : log.findSome? Tsx.Event.beginning = some s
  target : s.target.Agrees s.arrived
  rax : s.gpr .r14 = s.gpr .rax

theorem Snapshot.note {s : Board} {log : List (Tsx.Event Board)} (snapshot : Snapshot s log)
    {e : Tsx.Event Board} (other : e.beginning = none) : Snapshot s (e :: log) := by
  refine ⟨?_, snapshot.target, snapshot.rax⟩
  rw [List.findSome?_cons, other]
  exact snapshot.last

def rollbackClaims : Tsx.Claims Board where
  body v := v.core.target.Agrees v.core.arrived ∧ ∃ s, v.tran = some ⟨s, 0⟩ ∧ Snapshot s v.log
  outside v := v.tran = none ∧ ∃ s, v.log.findSome? Tsx.Event.beginning = some s ∧
    v.core.ctx.target.Agrees s.arrived
  fallback v := ∃ s status, v.core = s.setGpr .rax status ∧ Snapshot s v.log
  commit _ := True

section

variable {v : Tsx.View Board} {entries : Springboard → List (Tsx.Code Board)}

theorem rollback_recovers {s : Board} (inside : v.tran = some ⟨s, 0⟩) (snapshot : Snapshot s v.log) :
    Tsx.Recovers (springboard entries) rollbackClaims v := by
  intro t found status _
  cases inside.symm.trans found
  exact ⟨s, _, rfl, snapshot.note rfl⟩

theorem rollback_xbegin (closed : v.tran = none) (agrees : v.core.target.Agrees v.core.arrived)
    (rax : v.core.gpr .r14 = v.core.gpr .rax) :
    (Tsx.Code.xbegin .ret).wlp (springboard entries) rollbackClaims v := by
  have opens : v.xbegin = ⟨v.core, some ⟨v.core, 0⟩, .began v.core :: v.log⟩ := by
    simp [Tsx.View.xbegin, closed]
  have snapshot : Snapshot v.core (.began v.core :: v.log) := ⟨rfl, agrees, rax⟩
  simp only [Tsx.Code.wlp, opens]
  refine ⟨rollback_recovers rfl snapshot, rollback_recovers rfl (snapshot.note rfl), agrees, v.core, rfl, ?_⟩
  exact snapshot.note rfl

theorem rollback_fallback (claimed : rollbackClaims.fallback v) (closed : v.tran = none) :
    lsbFallback.wlp (springboard entries) rollbackClaims v := by
  obtain ⟨s, status, core, snapshot⟩ := claimed
  obtain ⟨gregs, flags, _⟩ := v.core.ejected_ctx
  refine lsbFallback_rule ⟨Tsx.recovers_closed closed, closed, s, (snapshot.note rfl).last, ?_⟩
  refine Target.agrees_of_same (fun g other => ?_) (flags.trans ?_)
  · change v.core.ejected.ctx.gregs g = _
    rw [gregs, core, ← snapshot.target.gpr g other]
    by_cases isRax : g = .rax
    · subst isRax
      exact snapshot.rax
    · rw [Function.update_of_ne isRax]
      exact Function.update_of_ne isRax _ _
  · rw [core]
    exact snapshot.target.same

theorem rollback_enter {c : Tsx.Code Board} {b : Board} (claimed : rollbackClaims.body v)
    (cartridge : Cartridge v.core b) (listed : c = sbReopen) :
    c.wlp (springboard entries) rollbackClaims (v.withCore b) := by
  subst listed
  obtain ⟨_, s, inside, snapshot⟩ := claimed
  have agrees : ∀ {b' : Board}, b.Unseen b' → b'.target.Agrees b'.arrived := by
    intro b' unseen
    rw [unseen.arrived, cartridge.arrived]
    exact Target.agrees_of_same unseen.gpr unseen.flags
  by_cases clean : b.Clean
  · refine sbReopen_rule clean (fun _ => ?_) trivial fun v' ended => ?_
    · exact ⟨rollback_recovers inside (snapshot.note rfl), agrees (Board.kept_unseen clean), s, inside,
        snapshot.note rfl⟩
    · have closed : v'.tran = none := by
        simp only [Tsx.View.xend, Tsx.View.withCore, inside, Option.some.injEq] at ended
        rw [← ended]
      exact rollback_xbegin closed (agrees b.reopened_unseen) b.reopened_r14
  · exact tainted_rule (v := v.withCore b) inside clean (.inl rfl) fun now _ =>
      ⟨s, _, rfl, snapshot.note rfl⟩

theorem rollback_inject {enableTase : Bool} {b : Board} (closed : v.tran = none) :
    sbInject.wlp (springboard entries) rollbackClaims (v.withCore (injected enableTase b)) := by
  obtain ⟨gpr, flags, _, _, arrived, _⟩ := (injected enableTase b).loaded_frame
  refine sbInject_rule (rollback_xbegin closed ?_ (injected enableTase b).loaded_var.2.2.2)
  change (injected enableTase b).loaded.target.Agrees (injected enableTase b).loaded.arrived
  rw [arrived]
  exact Target.agrees_of_same gpr flags

end

/-- After an abort the interpreter finds what the target had at the last `xbegin`, and a passage
through `sb_reopen` is not seen by the target. -/
theorem eject_restores (enableTase : Bool) (b : Board) (c : Tsx.Config Board)
    (reached : Tsx.Steps (springboard fun _ => [sbReopen]) (entering enableTase b) c) :
    (c.place = .outside → ∃ s, c.view.log.findSome? Tsx.Event.beginning = some s ∧
      (taseEject c.view.core).ctx.target.Agrees s.arrived ∧
      (taseEject c.view.core).ctx.rip = s.arrived.gpr .r15) ∧
    (c.place = .body → c.view.core.target.Agrees c.view.core.arrived) := by
  have invariant : Tsx.Invariant (springboard fun _ => [sbReopen]) rollbackClaims c := by
    refine Tsx.Invariant.steps (fun v => rollback_fallback) (fun v c s claimed _ enters => ?_)
      (fun v c s claimed resumes => ?_) reached ⟨Tsx.recovers_closed rfl, ?_⟩
    · exact rollback_enter claimed enters.1 (List.mem_singleton.mp enters.2)
    · obtain ⟨rfl, between, enableTase, _, rfl⟩ := resumes
      exact rollback_inject claimed.1
    · exact rollback_inject (v := ⟨b, none, []⟩) rfl
  obtain ⟨place, view⟩ := c
  refine ⟨fun outside => ?_, fun body => ?_⟩
  · simp only at outside
    subst outside
    obtain ⟨_, _, s, last, agrees⟩ := invariant
    exact ⟨s, last, ⟨agrees.gpr, agrees.sf, agrees.zf, agrees.af, agrees.pf, agrees.cf⟩,
      agrees.gpr .r15 (by decide)⟩
  · simp only at body
    subst body
    exact invariant.2.1

theorem eject_restores_thrownBack : keptView.core.gpr .rbx = 1 ∧ ∃ c : Tsx.Config Board,
    Tsx.Steps (springboard fun _ => [sbReopen]) ⟨.body, keptView⟩ c ∧ c.place = .outside ∧
    (∃ s, c.view.log.findSome? Tsx.Event.beginning = some s ∧
      (taseEject c.view.core).ctx.target.Agrees s.arrived ∧
      (taseEject c.view.core).ctx.rip = s.arrived.gpr .r15) ∧
    c.view.core.ctx.gregs .rbx = 0 := by
  have start := keptView_reached (M := springboard fun _ => [sbReopen])
    ⟨loadedOnce_cartridge, List.mem_singleton_self _⟩
  have ejects := (Relation.ReflTransGen.single
    (@Tsx.Step.abort _ (springboard fun _ => [sbReopen]) .body keptView _ 0 rfl rfl)).trans lsbFallback_steps
  exact ⟨by decide, _, ejects, rfl, (eject_restores true .atStart _ (start.trans ejects)).1 rfl, by decide⟩

theorem modeled_gregs (b : Board) (g : Gpr) (other : g ≠ .rax) :
    b.modeled.ejected.ctx.gregs g = b.gpr g ∧ b.modeled.ejected.ctx.gregs .rax = b.gpr .r14 := by
  have gpr : b.modeled.gpr = Function.update b.compared.gpr .rax 0xff000001 := rfl
  rw [b.modeled.ejected_ctx.1, gpr, b.compared_frame.1]
  simp [other]

/-- The commit hands over r14 for RAX: `.Lsb_fallback` reloads RAX as after an abort. -/
theorem sbModeled_stores_iff (entries : Springboard → List (Tsx.Code Board)) (v : Tsx.View Board)
    (start : Board) (inside : v.tran = some ⟨start, 0⟩) (clean : v.core.Clean) :
    ∃ w, Tsx.Steps (springboard entries) ⟨.code sbModeled, v⟩ ⟨.outside, w⟩ ∧
      w.log = .left w.core :: .committed v.core.compared :: v.log ∧
      ((∀ g, g ≠ .r14 → w.core.ctx.gregs g = v.core.gpr g) ↔ v.core.gpr .r14 = v.core.gpr .rax) := by
  refine ⟨_, sbModeled_steps inside clean, rfl, fun stored => ?_, fun same g other => ?_⟩
  · rw [← stored .rax (by decide)]
    exact (modeled_gregs v.core .rbx (by decide)).2.symm
  · by_cases isRax : g = .rax
    · rw [isRax, ← same]
      exact (modeled_gregs v.core .rbx (by decide)).2
    · exact (modeled_gregs v.core g isRax).1

def raxLoaded (n : BitVec 64) : Board :=
  (keptView.core.movImm n .rax).idle

theorem raxLoaded_cartridge (n : BitVec 64) : Cartridge keptView.core (raxLoaded n) :=
  ⟨rfl, fun _ _ => rfl, .inl rfl, rfl, rfl⟩

theorem raxLoaded_clean (n : BitVec 64) : (raxLoaded n).Clean := by
  have unseen := Board.kept_unseen loadedOnce_clean
  refine ⟨fun k same => ?_, fun k => (unseen.zeroed k).2⟩
  have data : (raxLoaded n).xmm xmmData k = 0#16 := (unseen.zeroed k).1
  have poison : (raxLoaded n).xmm xmmReference k = poisonWord := congrFun unseen.reference k
  rw [data, poison] at same
  exact absurd same (by decide)

theorem sbModeled_stores_iff_raxSixteen : ∃ w : Tsx.View Board,
    (∀ g, g ≠ .r14 → w.core.ctx.gregs g = (raxLoaded 16).gpr g) ∧ w.core.ctx.gregs .rbx = 1 ∧
    w.core.ctx.gregs .rax = 16 := by
  -- `sb_reopen` leaves `tran_max` in r14.
  obtain ⟨w, _, _, stored⟩ := sbModeled_stores_iff (fun _ => [sbModeled])
    (keptView.withCore (raxLoaded 16)) _ rfl (raxLoaded_clean 16)
  have all := stored.mpr (by decide)
  exact ⟨w, all, (all .rbx (by decide)).trans (by decide), (all .rax (by decide)).trans (by decide)⟩

theorem modeled_loses_rax : ∃ v w : Tsx.View Board,
    Tsx.Steps (springboard fun _ => [sbReopen, sbModeled]) (entering true .atStart) ⟨.code sbModeled, v⟩ ∧
    v.core.Clean ∧
    Tsx.Steps (springboard fun _ => [sbReopen, sbModeled]) ⟨.code sbModeled, v⟩ ⟨.outside, w⟩ ∧
    w.log = .left w.core :: .committed v.core.compared :: v.log ∧
    w.core.ctx.gregs .rax ≠ v.core.gpr .rax := by
  have start := (keptView_reached (M := springboard fun _ => [sbReopen, sbModeled])
    ⟨loadedOnce_cartridge, List.mem_cons_self⟩).tail
    (.enter ⟨raxLoaded_cartridge 7, List.mem_cons_of_mem _ (List.mem_singleton_self _)⟩)
  refine ⟨_, _, start, raxLoaded_clean 7, sbModeled_steps rfl (raxLoaded_clean 7), rfl, ?_⟩
  rw [(modeled_gregs _ .rbx (by decide)).2]
  decide

end Tase
