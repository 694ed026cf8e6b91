import Tase.Processor.Simulation
import Tase.Translator.Main

/-! Whole programs. On the one side the processor, which fetches instructions by their addresses and goes
through the headers of the cartridges; on the other side the interpreter, which calls the functions that
`main` prints. -/

namespace Tase

open Cpp Relation

/-- Where control can go: the body of a cartridge, from its header as well, and the modeled functions. -/
structure Entries where
  body : BitVec 64 → BitVec 64
  modeled : BitVec 64 → Bool
  idempotent : ∀ a, body (body a) = body a

namespace Entries

variable (E : Entries)

/-- What the program sees of a state between two cartridges. A modeled function does not see RAX. -/
def view (s : Mach) : Mach where
  regs
    | .rip => E.body (s.regs .rip)
    | .efl => 0
    | .gpr g =>
        if g = .r14 ∨ g = .r15 ∨ g = .rax ∧ E.modeled (E.body (s.regs .rip)) then 0 else s.regs (.gpr g)
  mem := s.mem

def atBody (s : Mach) : Mach := s.setReg .rip (E.body (s.regs .rip))

variable {E} {m s : Mach}

theorem view_mem (same : E.view s = E.view m) : s.mem = m.mem :=
  (congrArg Machine.mem same : (E.view s).mem = (E.view m).mem)

theorem view_rip (same : E.view s = E.view m) : E.body (s.regs .rip) = E.body (m.regs .rip) :=
  congrFun (congrArg Machine.regs same) .rip

theorem view_gpr (same : E.view s = E.view m) {g : Gpr} (visible : (Reg.gpr g).hidden = false)
    (kept : ¬(g = .rax ∧ E.modeled (E.body (m.regs .rip)))) : s.regs (.gpr g) = m.regs (.gpr g) := by
  have here := congrFun (congrArg Machine.regs same) (.gpr g)
  simp only [Reg.hidden, Bool.or_eq_false_iff, decide_eq_false_iff_not, Reg.gpr.injEq] at visible
  simpa [view, view_rip same, visible.1.2, visible.2, kept] using here

theorem view_eq (mem : s.mem = m.mem) (rip : E.body (s.regs .rip) = E.body (m.regs .rip))
    (gpr : ∀ g, (Reg.gpr g).hidden = false → ¬(g = .rax ∧ E.modeled (E.body (m.regs .rip))) →
      s.regs (.gpr g) = m.regs (.gpr g)) : E.view s = E.view m := by
  have regs : (E.view s).regs = (E.view m).regs := by
    funext r
    cases r with
    | rip => exact rip
    | efl => rfl
    | gpr g =>
        simp only [view, rip]
        split
        · rfl
        · rename_i kept
          simp only [not_or] at kept
          exact gpr g (by simp [Reg.hidden, kept.1, kept.2.1]) kept.2.2
  unfold view at regs ⊢
  simp only [Machine.mk.injEq]
  exact ⟨regs, mem⟩

theorem view_agree {T : Trust} (agree : Agree T m s) : E.view s = E.view m :=
  view_eq agree.mem (congrArg E.body (agree.regs .rip rfl)) fun _ visible _ => agree.regs _ visible

theorem view_atBody : E.view (E.atBody m) = E.view m := by
  have rip : (E.atBody m).regs .rip = E.body (m.regs .rip) := Machine.setReg_regs_self ..
  refine view_eq rfl (by rw [rip, E.idempotent]) fun g _ _ => ?_
  rw [atBody, Machine.setReg_regs, if_neg (by simp)]

theorem agree_of_view (same : E.view s = E.view m) (counter : s.regs .rip = m.regs .rip)
    (unmodeled : E.modeled (E.body (m.regs .rip)) = false) : Agree .nothing m s := by
  refine ⟨fun r visible => ?_, view_mem same, nofun⟩
  cases r with
  | rip => exact counter
  | efl => cases visible
  | gpr g => exact view_gpr same visible (by simp [unmodeled])

end Entries

/-! The functions that `main` prints. -/

theorem Prints.call {group : List Instruction} {f : Function} {s s' : EmitState} (prints : Prints group f s s')
    (noLoop : ∀ i ∈ group, i.op ≠ .loop) (ub : Undef) (m : Mach) : f.call ub m = stepAll ub group m := by
  obtain ⟨s₁, found, writes⟩ := prints.body
  obtain ⟨_, recorded, _⟩ := Emit.Records.emitBodies group s () f.body s₁ found
  obtain ⟨st, ran, done⟩ := emitBodies_run ub noLoop found ⟨m, fun _ => default⟩
  rw [Function.call_eq ran fun r here => writes ▸ (recorded r here).1, done]
  rfl

def PrintedFor (group : List Instruction) (f : Function) : Prop := ∃ s s', Prints group f s s'

theorem PrintedFor.head {group : List Instruction} {f : Function} (printed : PrintedFor group f) :
    ∃ h more, group = h :: more ∧ h.vaddr = f.vaddr := by
  obtain ⟨s, s', prints⟩ := printed
  cases group with
  | nil => cases prints.named
  | cons h more => exact ⟨h, more, rfl, by simpa using prints.named⟩

theorem PrintsAll.functions {groups : List (List Instruction)} {s s' : EmitState} {lines : List Line}
    (all : PrintsAll groups s lines s') :
    ∃ fs : List Function, lines = fs.flatMap Function.lines ∧ (∀ f ∈ fs, ∃ group ∈ groups, PrintedFor group f) ∧
      (∀ group ∈ groups, ∃ f ∈ fs, PrintedFor group f) ∧
      (fs.map Function.vaddr).Sublist (groups.flatten.map Instruction.vaddr) := by
  induction all with
  | nil => exact ⟨[], rfl, by simp, by simp, .slnil⟩
  | @cons group groups f s s' s'' lines here later ih =>
      obtain ⟨fs, same, each, back, names⟩ := ih
      have printed : PrintedFor group f := ⟨s, s', here⟩
      obtain ⟨h, more, rfl, name⟩ := printed.head
      refine ⟨f :: fs, by rw [same, List.flatMap_cons], ?_, ?_, ?_⟩
      · refine List.forall_mem_cons.mpr ⟨⟨_, by simp, printed⟩, fun f' member => ?_⟩
        obtain ⟨group, found, printed⟩ := each f' member
        exact ⟨group, List.mem_cons_of_mem _ found, printed⟩
      · refine List.forall_mem_cons.mpr ⟨⟨_, by simp, printed⟩, fun group member => ?_⟩
        obtain ⟨f', found, printed⟩ := back group member
        exact ⟨f', List.mem_cons_of_mem _ found, printed⟩
      · simp only [List.map_cons, List.flatten_cons, List.cons_append, List.map_append, ← name]
        exact (names.trans (List.sublist_append_right ..)).cons_cons _

/-- A program: its instructions, its cartridges, what the processor does where the translator does not look,
and what the modeled functions do. -/
structure Binary extends Entries where
  instrs : List Instruction
  pairs : CartridgePairs
  foreign : Foreign
  model : Mach → Mach → Prop
  blind : ∀ {m m' s}, modeled (body (m.regs .rip)) = true → model m m' →
    toEntries.view s = toEntries.view m → ∃ s', model s s' ∧ toEntries.view s' = toEntries.view m'

namespace Binary

variable (P : Binary)

/-- The processor. A header goes through the springboard, which keeps what is seen. -/
inductive Advances : Mach → Mach → Prop
  | fetch {i : Instruction} {s s' : Mach} (listed : i ∈ P.instrs)
      (here : s.regs .rip = BitVec.ofNat 64 i.vaddr) (processed : i.Processed P.foreign s s') : Advances s s'
  | header {s s' : Mach} (ahead : P.body (s.regs .rip) ≠ s.regs .rip)
      (passed : s'.regs .rip = P.body (s.regs .rip)) (same : P.view s' = P.view s) : Advances s s'
  | model {s s' : Mach} (entry : P.modeled (P.body (s.regs .rip)) = true) (called : P.model s s') :
      Advances s s'

abbrev Runs : Mach → Mach → Prop := ReflTransGen P.Advances

def Faults (s : Mach) : Prop :=
  ∃ i ∈ P.instrs, s.regs .rip = BitVec.ofNat 64 i.vaddr ∧ i.DivideError s

structure HasCartridge (group : List Instruction) : Prop where
  listed : ∀ i ∈ group, i ∈ P.instrs
  spans : ∃ h more tail, group = h :: more ∧ P.pairs h.vaddr = some tail ∧ Spans h.vaddr group tail

theorem HasCartridge.eq {P : Binary} {group chain : List Instruction} {head tail : Nat}
    (cartridge : P.HasCartridge group) (laid : Laid P.pairs P.instrs)
    (only : ∀ {a t}, P.pairs a = some t → a = head ∧ t = tail) (spans : Spans head chain tail)
    (inside : ∀ c ∈ chain, c ∈ P.instrs) : group = chain := by
  obtain ⟨listed, h, more, t, rfl, found, here⟩ := cartridge
  obtain ⟨rfl, rfl⟩ := only found
  exact here.unique laid.distinct spans listed inside

/-- Only the last instruction of a cartridge transfers control, and the cartridge passes the check. -/
structure Checked : Prop where
  laid : Laid P.pairs P.instrs
  emitted : ∀ i ∈ P.instrs, i.Emitted
  accepted : ∀ group, P.HasCartridge group → (checked group .nothing).isSome = true ∧
    ∀ i ∈ group.dropLast, i.transfersControl = false

def Quiet : Prop := ∀ i ∈ P.instrs, i.skipped = true → P.foreign.Quiet i

/-- Every processor that looks like `t` comes to look like `t'`, unless there is an exception. -/
def Brings (t t' : Mach) : Prop :=
  ∀ s, P.view s = t → ∃ s', P.Runs s s' ∧ (P.view s' = t' ∨ P.Faults s')

variable {P}

theorem Brings.refl {t : Mach} : P.Brings t t := fun s same => ⟨s, .refl, .inl same⟩

theorem Brings.trans {t t' t'' : Mach} (first : P.Brings t t') (second : P.Brings t' t'') :
    P.Brings t t'' := by
  intro s same
  obtain ⟨s', run, same' | fault⟩ := first s same
  · obtain ⟨s'', run', after⟩ := second s' same'
    exact ⟨s'', run.trans run', after⟩
  · exact ⟨s', run, .inr fault⟩

/-! By addresses. -/

section

variable {group : List Instruction} {T T' : Trust} {a b : Nat} {s s' : Mach}

theorem runs_atBody (s : Mach) : P.Runs s (P.atBody s) := by
  have counter : (P.atBody s).regs .rip = P.body (s.regs .rip) := Machine.setReg_regs_self ..
  by_cases inside : P.body (s.regs .rip) = s.regs .rip
  · have same : P.atBody s = s := by
      rw [Entries.atBody, inside]
      exact Machine.setReg_self ..
    rw [same]
  · exact .single (.header inside counter Entries.view_atBody)

structure Straight (P : Binary) (group : List Instruction) : Prop where
  listed : ∀ i ∈ group, i ∈ P.instrs
  emitted : ∀ i ∈ group, i.Emitted
  quiet : ∀ i ∈ group, i.skipped = true → P.foreign.Quiet i
  straight : ∀ i ∈ group.dropLast, i.transfersControl = false

theorem Straight.tail {i : Instruction} (code : Straight P (i :: group)) : Straight P group := by
  refine ⟨fun j member => code.listed j (by simp [member]), fun j member => code.emitted j (by simp [member]),
    fun j member => code.quiet j (by simp [member]), fun j member => code.straight j ?_⟩
  cases group with
  | nil => cases member
  | cons next rest => exact List.mem_cons_of_mem _ member

theorem Straight.arrives {i : Instruction} (code : Straight P (i :: group)) (more : group ≠ [])
    (trusted : i.trusts T = some T') (here : s.regs .rip = BitVec.ofNat 64 i.vaddr)
    (processed : i.Processed P.foreign s s') : s'.regs .rip = BitVec.ofNat 64 i.stop := by
  have emitted := code.emitted i (by simp)
  have straight : i.transfersControl = false := code.straight i (by
    rw [List.dropLast_cons_of_ne_nil more]
    simp)
  rw [processed.rip (code.quiet i (by simp)) emitted trusted straight, here, Instruction.stop, BitVec.ofNat_add]

theorem Straight.runs (code : Straight P group) (accepted : checked group T = some T') (spans : Spans a group b)
    (here : s.regs .rip = BitVec.ofNat 64 a) (processes : Processes P.foreign group s s') : P.Runs s s' := by
  induction processes generalizing T a with
  | nil => exact .refl
  | @cons i rest s s₁ s' first later ih =>
      obtain ⟨rfl, spans⟩ := spans
      obtain ⟨between, trusted, accepted⟩ := checked_cons accepted
      refine .head (.fetch (code.listed i (by simp)) here first) ?_
      cases rest with
      | nil =>
          cases later
          exact .refl
      | cons next rest => exact ih code.tail accepted spans (code.arrives (by simp) trusted here first)

end

/-! A cartridge at a time. -/

section

variable {group : List Instruction} {ub : Undef} {m s s' : Mach}

theorem HasCartridge.straight (cartridge : P.HasCartridge group) (sound : P.Checked) (quiet : P.Quiet) :
    Straight P group :=
  ⟨cartridge.listed, fun i member => sound.emitted i (cartridge.listed i member),
    fun i member => quiet i (cartridge.listed i member), (sound.accepted group cartridge).2⟩

theorem HasCartridge.follow (cartridge : P.HasCartridge group) (sound : P.Checked) (quiet : P.Quiet)
    (here : (group.head?.map Instruction.vaddr).map (BitVec.ofNat 64) = some (s.regs .rip))
    (body : P.body (s.regs .rip) = s.regs .rip) (unmodeled : P.modeled (s.regs .rip) = false)
    (processes : Processes P.foreign group s s') : P.Brings (P.view s) (P.view s') := by
  intro r same
  obtain ⟨T, accepted⟩ := Option.isSome_iff_exists.mp (sound.accepted group cartridge).1
  obtain ⟨h, more, tail, rfl, _, spans⟩ := cartridge.spans
  have counter : (P.atBody r).regs .rip = s.regs .rip := by
    rw [← body, ← P.view_rip same]
    exact Machine.setReg_regs_self ..
  have agree : Agree .nothing s (P.atBody r) := by
    refine P.agree_of_view ?_ counter (by rw [body, unmodeled])
    rw [P.view_atBody, same]
  have code := cartridge.straight sound quiet
  obtain ⟨r', follows, alike⟩ := processes.follow code.quiet code.emitted accepted agree
  have run := code.runs accepted spans (by simpa [counter] using here.symm) follows
  exact ⟨r', (runs_atBody r).trans run, .inl (P.view_agree alike)⟩

end

structure Emits (P : Binary) (fs : List Function) : Prop where
  text : ∃ l, emitAll P.pairs P.instrs = .ok (fs.flatMap Function.lines, l)
  each : ∀ f ∈ fs, (P.pairs f.vaddr).isSome = true → ∃ group, P.HasCartridge group ∧ PrintedFor group f
  named : (fs.map Function.vaddr).Nodup
  covers : ∀ h ∈ P.instrs, (P.pairs h.vaddr).isSome = true → ∃ f ∈ fs, f.vaddr = h.vaddr

theorem Checked.emits (sound : P.Checked) : ∃ fs, Emits P fs := by
  have laid := sound.laid
  obtain ⟨groups, cut⟩ := laid.ahead.cut laid
  have listed (i : Instruction) : i ∈ sortedInstrs P.instrs ↔ i ∈ P.instrs := sortedInstrs_perm.mem_iff
  obtain ⟨lines, l, printed, _, all⟩ := @Cut.prints P.pairs .initial _ _ _ cut
    (fun i member => sound.emitted i ((listed i).mp member)) rfl 0
  obtain ⟨fs, rfl, each, back, names⟩ := all.functions
  have inside (group : List Instruction) (member : group ∈ groups) (i : Instruction) (here : i ∈ group) :
      i ∈ P.instrs :=
    (listed i).mp (cut.sublist.subset (List.mem_flatten.mpr ⟨group, member, here⟩))
  refine ⟨fs, ⟨l, printed⟩, fun f member head => ?_, ?_, fun h member head => ?_⟩
  · obtain ⟨group, inGroups, found⟩ := each f member
    refine ⟨group, ⟨inside group inGroups, ?_⟩, found⟩
    rcases cut.shapes group inGroups with spans | ⟨i, loose, _, rfl⟩
    · exact spans
    · -- A cartridge begins here, so the instruction is not on its own.
      obtain ⟨h, more, same, name⟩ := found.head
      obtain ⟨rfl, _⟩ := List.cons.inj same
      obtain ⟨tail, head⟩ := Option.isSome_iff_exists.mp head
      rw [← name] at head
      exact absurd ⟨Nat.le_refl _, laid.nonempty _ _ head⟩ (loose i (inside _ inGroups i (by simp)) tail head)
  · exact (cut.partition laid).once.sublist names
  · obtain ⟨tail, head⟩ := Option.isSome_iff_exists.mp head
    obtain ⟨more, inGroups, _⟩ := cut.heads laid ((listed h).mpr member) head
    obtain ⟨f, printed, found⟩ := back _ inGroups
    obtain ⟨h', more', same, name⟩ := found.head
    obtain ⟨rfl, _⟩ := List.cons.inj same
    exact ⟨f, printed, name.symm⟩

theorem Emits.one {fs : List Function} (emits : Emits P fs) :
    ∀ h ∈ P.instrs, (P.pairs h.vaddr).isSome = true → ∃! f, f ∈ fs ∧ f.vaddr = h.vaddr := by
  intro h member head
  obtain ⟨f, printed, name⟩ := emits.covers h member head
  refine ⟨f, ⟨printed, name⟩, fun f' found => ?_⟩
  exact List.inj_on_of_nodup_map emits.named found.1 printed (found.2.trans name.symm)

end Binary

end Tase
