import Mathlib.Data.List.Nodup
import Tase.Translator.Steady

/-! The emission loop of `main`: instructions in the order of their addresses, cartridges as one
function each, everything else on its own. -/

namespace Tase

open Cpp

abbrev CartridgePairs := Nat → Option Nat

structure Session where
  inCartridge : Bool
  currTail : Nat
  emit : EmitState

namespace Instruction

/-- The jump to `sb_reopen` and the load of `r15` in front of a cartridge. -/
def header (i : Instruction) : Bool :=
  textContains i.original "jmpq" && textContains i.original "sb_reopen" ||
    textContains i.original "leaq   0x5(%rip),%r15"

def stop (i : Instruction) : Nat := i.vaddr + i.length

end Instruction

def emitNext (pairs : CartridgePairs) (i : Instruction) (l : Session) :
    Except Error (List Line × Session) :=
  if l.inCartridge then
    if i.stop ≥ l.currTail then do
      let (lines, s) ← emitFunction .last i l.emit
      return (lines, { l with inCartridge := false, emit := s })
    else do
      let (lines, s) ← emitFunction .inside i l.emit
      return (lines, { l with emit := s })
  else
    match pairs i.vaddr with
    | some tail => do
        let (lines, s) ← emitFunction .start i l.emit
        if i.stop ≥ tail then
          let (closing, s') := emitFunctionEpilog s
          return (lines ++ closing, ⟨false, tail, s'⟩)
        else return (lines, ⟨true, tail, s⟩)
    | none =>
        if i.header then return ([], l)
        else do
          let (lines, s) ← emitFunction .alone i l.emit
          return (lines, { l with emit := s })

def emitInstrs (pairs : CartridgePairs) : List Instruction → Session → Except Error (List Line × Session)
  | [], l => .ok ([], l)
  | i :: rest, l => do
      let (lines, l') ← emitNext pairs i l
      let (lines', l'') ← emitInstrs pairs rest l'
      return (lines ++ lines', l'')

def sortedInstrs (allInstrs : List Instruction) : List Instruction :=
  allInstrs.mergeSort fun i j => i.vaddr ≤ j.vaddr

def emitAll (pairs : CartridgePairs) (allInstrs : List Instruction) :
    Except Error (List Line × Session) :=
  emitInstrs pairs (sortedInstrs allInstrs) ⟨false, 0, .initial⟩

def Spans : Nat → List Instruction → Nat → Prop
  | a, [], b => a = b
  | a, i :: rest, b => i.vaddr = a ∧ Spans i.stop rest b

def Loose (pairs : CartridgePairs) (instrs : List Instruction) (i : Instruction) : Prop :=
  ∀ h ∈ instrs, ∀ tail, pairs h.vaddr = some tail → ¬(h.vaddr ≤ i.vaddr ∧ i.vaddr < tail)

/-- Non-empty cartridges that do not overlap, each with a listed head covered by the list. -/
structure Laid (pairs : CartridgePairs) (instrs : List Instruction) : Prop where
  apart : instrs.Pairwise fun i j => i.stop ≤ j.vaddr ∨ j.stop ≤ i.vaddr
  nonempty : ∀ head tail, pairs head = some tail → head < tail
  disjoint : ∀ head tail head' tail', pairs head = some tail → pairs head' = some tail' →
    head < head' → tail ≤ head'
  covered : ∀ h ∈ instrs, ∀ tail, pairs h.vaddr = some tail →
    ∃ chain, Spans h.vaddr chain tail ∧ ∀ c ∈ chain, c ∈ instrs

structure IsCartridge (instrs : List Instruction) (head tail : Nat) (group : List Instruction) :
    Prop where
  first : group.head?.map Instruction.vaddr = some head
  inside : ∀ i, i ∈ group ↔ i ∈ instrs ∧ head ≤ i.vaddr ∧ i.vaddr < tail
  ordered : group.Pairwise fun i j => i.vaddr < j.vaddr

structure Partition (pairs : CartridgePairs) (instrs : List Instruction)
    (groups : List (List Instruction)) : Prop where
  cartridge : ∀ h ∈ instrs, ∀ tail, pairs h.vaddr = some tail →
    ∃ group ∈ groups, IsCartridge instrs h.vaddr tail group
  alone : ∀ i ∈ instrs, Loose pairs instrs i → i.header = false → [i] ∈ groups
  only : ∀ group ∈ groups,
    (∃ h ∈ instrs, ∃ tail, pairs h.vaddr = some tail ∧ IsCartridge instrs h.vaddr tail group) ∨
      ∃ i ∈ instrs, Loose pairs instrs i ∧ i.header = false ∧ group = [i]
  once : (groups.flatten.map Instruction.vaddr).Nodup
  complete : ∀ i, i ∈ groups.flatten ↔
    i ∈ instrs ∧ ¬(Loose pairs instrs i ∧ i.header = true)

/-- `f` is printed for the group, from one state with only `rip` recorded to the next. -/
structure Prints (group : List Instruction) (f : Function) (s s' : EmitState) : Prop where
  named : group.head?.map Instruction.vaddr = some f.vaddr
  body : ∃ s₁, emitBodies group s = .ok ((), f.body, s₁) ∧ f.writes = s₁.bbAssignedRegs
  before : s.bbAssignedRegs = [.rip]
  after : s'.bbAssignedRegs = [.rip]

inductive PrintsAll : List (List Instruction) → EmitState → List Line → EmitState → Prop
  | nil {s : EmitState} : PrintsAll [] s [] s
  | cons {group : List Instruction} {groups : List (List Instruction)} {f : Function}
      {s s' s'' : EmitState} {lines : List Line} (here : Prints group f s s')
      (later : PrintsAll groups s' lines s'') :
      PrintsAll (group :: groups) s (f.lines ++ lines) s''

inductive Cut (pairs : CartridgePairs) (instrs : List Instruction) :
    List Instruction → List (List Instruction) → Prop
  | done : Cut pairs instrs [] []
  | cartridge {i : Instruction} {more rest : List Instruction} {groups : List (List Instruction)}
      {tail : Nat} (head : pairs i.vaddr = some tail) (spans : Spans i.vaddr (i :: more) tail)
      (later : Cut pairs instrs rest groups) :
      Cut pairs instrs (i :: more ++ rest) ((i :: more) :: groups)
  | alone {i : Instruction} {rest : List Instruction} {groups : List (List Instruction)}
      (noHead : pairs i.vaddr = none) (loose : Loose pairs instrs i) (plain : i.header = false)
      (later : Cut pairs instrs rest groups) : Cut pairs instrs (i :: rest) ([i] :: groups)
  | skipped {i : Instruction} {rest : List Instruction} {groups : List (List Instruction)}
      (noHead : pairs i.vaddr = none) (loose : Loose pairs instrs i) (header : i.header = true)
      (later : Cut pairs instrs rest groups) : Cut pairs instrs (i :: rest) groups

/-! The order of the list. -/

def Ascending (instrs : List Instruction) : Prop := instrs.Pairwise fun i j => i.stop ≤ j.vaddr

section

variable {i j : Instruction} {a b : Nat} {chain instrs rest : List Instruction}

theorem Instruction.vaddr_lt_stop (i : Instruction) : i.vaddr < i.stop := by
  have positive := isLength_pos i.bounded
  unfold stop
  omega

theorem Spans.le (spans : Spans a chain b) : a ≤ b := by
  induction chain generalizing a with
  | nil => exact Nat.le_of_eq spans
  | cons i rest ih =>
      obtain ⟨rfl, later⟩ := spans
      exact Nat.le_trans (Nat.le_of_lt i.vaddr_lt_stop) (ih later)

theorem Spans.bounds (spans : Spans a chain b) : ∀ c ∈ chain, a ≤ c.vaddr ∧ c.stop ≤ b := by
  induction chain generalizing a with
  | nil => simp
  | cons i rest ih =>
      obtain ⟨rfl, later⟩ := spans
      intro c member
      have less := i.vaddr_lt_stop
      rcases List.mem_cons.mp member with rfl | inRest
      · exact ⟨Nat.le_refl _, later.le⟩
      · have bounds := ih later c inRest
        omega

theorem Spans.nothing (spans : Spans a chain a) : chain = [] := by
  cases chain with
  | nil => rfl
  | cons i rest =>
      have bounds := spans.bounds i (by simp)
      have less := i.vaddr_lt_stop
      omega

theorem Spans.ascending (spans : Spans a chain b) : Ascending chain := by
  induction chain generalizing a with
  | nil => exact .nil
  | cons i rest ih =>
      obtain ⟨rfl, later⟩ := spans
      exact List.pairwise_cons.mpr ⟨fun c member => (later.bounds c member).1, ih later⟩

theorem Ascending.lt (ascending : Ascending chain) :
    chain.Pairwise fun i j => i.vaddr < j.vaddr := by
  refine List.Pairwise.imp (fun {i j} below => ?_) ascending
  exact Nat.lt_of_lt_of_le i.vaddr_lt_stop below

theorem sortedInstrs_perm : (sortedInstrs instrs).Perm instrs := List.mergeSort_perm _ _

theorem sortedInstrs_ascending
    (apart : instrs.Pairwise fun i j => i.stop ≤ j.vaddr ∨ j.stop ≤ i.vaddr) :
    Ascending (sortedInstrs instrs) := by
  have sorted : (sortedInstrs instrs).Pairwise fun i j => i.vaddr ≤ j.vaddr := by
    have transitive (i j k : Instruction) (first : decide (i.vaddr ≤ j.vaddr) = true)
        (second : decide (j.vaddr ≤ k.vaddr) = true) : decide (i.vaddr ≤ k.vaddr) = true := by
      simp only [decide_eq_true_eq] at first second ⊢
      omega
    have total (i j : Instruction) : (decide (i.vaddr ≤ j.vaddr) || decide (j.vaddr ≤ i.vaddr)) = true := by
      simp only [Bool.or_eq_true, decide_eq_true_eq]
      omega
    simpa [sortedInstrs] using List.pairwise_mergeSort transitive total instrs
  have separate : (sortedInstrs instrs).Pairwise fun i j => i.stop ≤ j.vaddr ∨ j.stop ≤ i.vaddr :=
    (sortedInstrs_perm.pairwise_iff fun {_ _} either => either.symm).mpr apart
  refine List.Pairwise.imp (fun {i j} both => ?_) (sorted.and separate)
  have less := j.vaddr_lt_stop
  omega

theorem Spans.starts (spans : Spans a chain b) (ascending : Ascending instrs)
    (inside : ∀ c ∈ chain, c ∈ instrs) (above : ∀ j ∈ instrs, a ≤ j.vaddr) :
    ∃ rest, instrs = chain ++ rest ∧ ∀ j ∈ rest, b ≤ j.vaddr := by
  induction chain generalizing a instrs with
  | nil =>
      cases spans
      exact ⟨instrs, rfl, above⟩
  | cons c chain ih =>
      obtain ⟨rfl, later⟩ := spans
      cases instrs with
      | nil => cases inside c (by simp)
      | cons l instrs =>
          obtain ⟨first, ascendingRest⟩ := List.pairwise_cons.mp ascending
          have same : l = c := by
            rcases List.mem_cons.mp (inside c (by simp)) with same | inRest
            · exact same.symm
            · have after := first c inRest
              have low := above l (by simp)
              have less := l.vaddr_lt_stop
              omega
          subst same
          have inRest (d : Instruction) (member : d ∈ chain) : d ∈ instrs := by
            rcases List.mem_cons.mp (inside d (by simp [member])) with rfl | inRest
            · have beyond := (later.bounds d member).1
              have less := d.vaddr_lt_stop
              omega
            · exact inRest
          obtain ⟨rest, rfl, beyond⟩ := ih later ascendingRest inRest first
          exact ⟨rest, rfl, beyond⟩

theorem Spans.mem (spans : Spans a chain b) (inside : ∀ c ∈ chain, c ∈ instrs)
    (ascending : Ascending instrs) (member : i ∈ instrs) (low : a ≤ i.vaddr) (high : i.vaddr < b) :
    i ∈ chain := by
  have starts := Spans.starts spans (ascending.filter fun j => decide (a ≤ j.vaddr))
    (fun c here => List.mem_filter.mpr ⟨inside c here, by simpa using (spans.bounds c here).1⟩)
    (fun j here => by simpa using (List.mem_filter.mp here).2)
  obtain ⟨rest, split, beyond⟩ := starts
  have here : i ∈ chain ++ rest := by
    rw [← split]
    exact List.mem_filter.mpr ⟨member, by simpa using low⟩
  rcases List.mem_append.mp here with inChain | inRest
  · exact inChain
  · have past := beyond i inRest
    omega

theorem Laid.distinct {pairs : CartridgePairs} (laid : Laid pairs instrs) : (instrs.map Instruction.vaddr).Nodup := by
  refine List.pairwise_map.mpr (laid.apart.imp fun {i j} apart same => ?_)
  have below := i.vaddr_lt_stop
  have above := j.vaddr_lt_stop
  omega

theorem Spans.unique {chain' : List Instruction} (distinct : (instrs.map Instruction.vaddr).Nodup)
    (spans : Spans a chain b) (spans' : Spans a chain' b) (inside : ∀ c ∈ chain, c ∈ instrs)
    (inside' : ∀ c ∈ chain', c ∈ instrs) : chain = chain' := by
  induction chain generalizing a chain' with
  | nil =>
      cases spans
      exact spans'.nothing.symm
  | cons i chain ih =>
      cases chain' with
      | nil =>
          cases spans'
          exact spans.nothing
      | cons j chain' =>
          obtain ⟨rfl, later⟩ := spans
          obtain ⟨here, later'⟩ := spans'
          obtain ⟨listed, others⟩ := List.forall_mem_cons.mp inside
          obtain ⟨listed', others'⟩ := List.forall_mem_cons.mp inside'
          obtain rfl := List.inj_on_of_nodup_map distinct listed listed' here.symm
          rw [ih later later' others others']

end

/-! What the loop prints for a cut. -/

section

variable {pairs : CartridgePairs} {i : Instruction} {more rest : List Instruction} {tail a : Nat}
  {s s' : EmitState} {lines : List Line} {l l' : Session}

theorem emitInstrs_cons {before : List Line} (head : emitNext pairs i l = .ok (before, l'))
    {l'' : Session} (later : emitInstrs pairs rest l' = .ok (lines, l'')) :
    emitInstrs pairs (i :: rest) l = .ok (before ++ lines, l'') := by
  simp [emitInstrs, head, later, bind, Except.bind, pure, Except.pure]

theorem emitFunction_eq {position : Position} {out : List Code}
    (found : emitBody i s = .ok ((), out, s')) :
    emitFunction position i s =
      .ok ((if position.opens then [.prolog i.vaddr] else []) ++ out.map .stmt ++
        (if position.closes then s'.bbAssignedRegs.map .writeBack ++ [.close] else []),
        if position.closes then s'.cleared else s') := by
  cases position <;> simp [emitFunction, found, Position.opens, Position.closes, emitFunctionProlog,
    emitFunctionEpilog, EmitState.cleared]

theorem emitInstrs_inside (spans : Spans a more tail) (open_ : a < tail)
    (emitted : ∀ j ∈ more, j.Emitted) :
    ∃ out s₁, emitBodies more s = .ok ((), out, s₁) ∧
      ∀ lines l, emitInstrs pairs rest ⟨false, tail, s₁.cleared⟩ = .ok (lines, l) →
        emitInstrs pairs (more ++ rest) ⟨true, tail, s⟩ =
          .ok (out.map .stmt ++ s₁.bbAssignedRegs.map .writeBack ++ [.close] ++ lines, l) := by
  induction more generalizing a s with
  | nil => exact absurd spans (Nat.ne_of_lt open_)
  | cons j more ih =>
      obtain ⟨rfl, later⟩ := spans
      obtain ⟨out, s₁, found⟩ := (emitted j (by simp)).always s
      have reach := later.le
      by_cases last : j.stop = tail
      · obtain rfl : more = [] := (last ▸ later : Spans tail more tail).nothing
        refine ⟨out, s₁, ?_, fun lines l printed => ?_⟩
        · simpa using emitBodies_cons found (rfl : emitBodies [] s₁ = .ok ((), [], s₁))
        · refine emitInstrs_cons ?_ printed
          simp only [emitNext, if_true, ge_iff_le, last, Nat.le_refl, emitFunction_eq found]
          simp [Position.opens, Position.closes, bind, Except.bind, pure, Except.pure]
      · obtain ⟨out', s₂, found', printed⟩ := ih later (by omega) fun k member => emitted k (by simp [member])
        refine ⟨out ++ out', s₂, emitBodies_cons found found', fun lines l next => ?_⟩
        have here : emitNext pairs j ⟨true, tail, s⟩ = .ok (out.map .stmt, ⟨true, tail, s₁⟩) := by
          have short : ¬ j.stop ≥ tail := by omega
          simp only [emitNext, if_true, short, if_false, emitFunction_eq found]
          simp [Position.opens, Position.closes, bind, Except.bind, pure, Except.pure]
        rw [List.cons_append, emitInstrs_cons here (printed lines l next)]
        simp

theorem emitInstrs_cartridge (head : pairs i.vaddr = some tail)
    (spans : Spans i.vaddr (i :: more) tail) (emitted : ∀ j ∈ i :: more, j.Emitted)
    (fresh : s.bbAssignedRegs = [.rip]) :
    ∃ f s', Prints (i :: more) f s s' ∧
      ∀ old lines l, emitInstrs pairs rest ⟨false, tail, s'⟩ = .ok (lines, l) →
        emitInstrs pairs (i :: more ++ rest) ⟨false, old, s⟩ = .ok (f.lines ++ lines, l) := by
  obtain ⟨_, later⟩ := spans
  obtain ⟨out, s₁, found⟩ := (emitted i (by simp)).always s
  have reach := later.le
  by_cases single : i.stop = tail
  · obtain rfl : more = [] := (single ▸ later : Spans tail more tail).nothing
    have bodies : emitBodies [i] s = .ok ((), out, s₁) := by
      simpa using emitBodies_cons found (rfl : emitBodies [] s₁ = .ok ((), [], s₁))
    refine ⟨⟨i.vaddr, out, s₁.bbAssignedRegs⟩, s₁.cleared, ⟨rfl, ⟨s₁, bodies, rfl⟩, fresh, rfl⟩, ?_⟩
    intro old lines l printed
    refine emitInstrs_cons ?_ printed
    simp only [emitNext, head, single, ge_iff_le, Nat.le_refl, if_true, emitFunction_eq found]
    simp [Position.opens, Position.closes, bind, Except.bind, pure, Except.pure, emitFunctionEpilog,
      EmitState.cleared, Function.lines]
  · obtain ⟨out', s₂, found', printed⟩ := @emitInstrs_inside pairs more rest tail _ s₁ later (by omega)
      fun k member => emitted k (by simp [member])
    refine ⟨⟨i.vaddr, out ++ out', s₂.bbAssignedRegs⟩, s₂.cleared,
      ⟨rfl, ⟨s₂, emitBodies_cons found found', rfl⟩, fresh, rfl⟩, fun old lines l next => ?_⟩
    have here : emitNext pairs i ⟨false, old, s⟩ =
        .ok (.prolog i.vaddr :: out.map .stmt, ⟨true, tail, s₁⟩) := by
      have short : ¬ i.stop ≥ tail := by omega
      simp only [emitNext, head, short, if_false, emitFunction_eq found]
      simp [Position.opens, Position.closes, bind, Except.bind, pure, Except.pure]
    rw [List.cons_append, emitInstrs_cons here (printed lines l next)]
    simp [Function.lines]

theorem emitInstrs_alone (noHead : pairs i.vaddr = none) (plain : i.header = false)
    (emitted : i.Emitted) (fresh : s.bbAssignedRegs = [.rip]) :
    ∃ f s', Prints [i] f s s' ∧
      ∀ old lines l, emitInstrs pairs rest ⟨false, old, s'⟩ = .ok (lines, l) →
        emitInstrs pairs (i :: rest) ⟨false, old, s⟩ = .ok (f.lines ++ lines, l) := by
  obtain ⟨out, s₁, found⟩ := emitted.always s
  have bodies : emitBodies [i] s = .ok ((), out, s₁) := by
    simpa using emitBodies_cons found (rfl : emitBodies [] s₁ = .ok ((), [], s₁))
  refine ⟨⟨i.vaddr, out, s₁.bbAssignedRegs⟩, s₁.cleared, ⟨rfl, ⟨s₁, bodies, rfl⟩, fresh, rfl⟩, ?_⟩
  intro old lines l printed
  refine emitInstrs_cons ?_ printed
  simp only [emitNext, noHead, plain, emitFunction_eq found]
  simp [Position.opens, Position.closes, bind, Except.bind, pure, Except.pure, Function.lines]

theorem Cut.prints {instrs : List Instruction} {groups : List (List Instruction)}
    {list : List Instruction} (cut : Cut pairs instrs list groups) (emitted : ∀ j ∈ list, j.Emitted)
    (fresh : s.bbAssignedRegs = [.rip]) (old : Nat) :
    ∃ lines l, emitInstrs pairs list ⟨false, old, s⟩ = .ok (lines, l) ∧ l.inCartridge = false ∧
      PrintsAll groups s lines l.emit := by
  induction cut generalizing s old with
  | done => exact ⟨[], _, rfl, rfl, .nil⟩
  | @cartridge i more rest groups tail head spans later ih =>
      obtain ⟨f, s', prints, next⟩ := @emitInstrs_cartridge pairs i more rest tail s head spans
        (fun j member => emitted j (List.mem_append_left _ member)) fresh
      obtain ⟨lines, l, printed, outside, all⟩ :=
        ih (fun j member => emitted j (List.mem_append_right _ member)) prints.after tail
      exact ⟨f.lines ++ lines, l, next old lines l printed, outside, .cons prints all⟩
  | @alone i rest groups noHead loose plain later ih =>
      obtain ⟨f, s', prints, next⟩ := @emitInstrs_alone pairs i rest s noHead plain
        (emitted i (by simp)) fresh
      obtain ⟨lines, l, printed, outside, all⟩ :=
        ih (fun j member => emitted j (by simp [member])) prints.after old
      exact ⟨f.lines ++ lines, l, next old lines l printed, outside, .cons prints all⟩
  | @skipped i rest groups noHead loose header later ih =>
      obtain ⟨lines, l, printed, outside, all⟩ :=
        ih (fun j member => emitted j (by simp [member])) fresh old
      have here : emitNext pairs i ⟨false, old, s⟩ = .ok ([], ⟨false, old, s⟩) := by
        simp only [emitNext, noHead, header, if_true]
        rfl
      exact ⟨lines, l, emitInstrs_cons here printed, outside, all⟩

end

/-! Which cut it is. -/

section

variable {pairs : CartridgePairs} {instrs : List Instruction}

/-- What is known when the loop has come to the end of a function: the instructions to come, in
order, among them all that cover a cartridge to come, and no earlier cartridge reaches them. -/
structure Ahead (pairs : CartridgePairs) (instrs list : List Instruction) : Prop where
  ascending : Ascending list
  listed : ∀ j ∈ list, j ∈ instrs
  covered : ∀ h ∈ list, ∀ tail, pairs h.vaddr = some tail →
    ∃ chain, Spans h.vaddr chain tail ∧ ∀ c ∈ chain, c ∈ list
  behind : ∀ h ∈ instrs, ∀ tail, pairs h.vaddr = some tail →
    h ∈ list ∨ ∀ j ∈ list, tail ≤ j.vaddr

theorem Ahead.loose {i : Instruction} {rest : List Instruction}
    (ahead : Ahead pairs instrs (i :: rest)) (noHead : pairs i.vaddr = none) :
    Loose pairs instrs i := by
  rintro h listed tail head ⟨low, high⟩
  rcases ahead.behind h listed tail head with here | passed
  · rcases List.mem_cons.mp here with rfl | inRest
    · rw [noHead] at head
      cases head
    · have after := (List.pairwise_cons.mp ahead.ascending).1 h inRest
      have less := i.vaddr_lt_stop
      omega
  · have reached := passed i (by simp)
    omega

theorem Ahead.drop {taken rest : List Instruction} (ahead : Ahead pairs instrs (taken ++ rest))
    (finished : ∀ h ∈ taken, ∀ tail, pairs h.vaddr = some tail → ∀ j ∈ rest, tail ≤ j.vaddr) :
    Ahead pairs instrs rest where
  ascending := (List.pairwise_append.mp ahead.ascending).2.1
  listed j member := ahead.listed j (List.mem_append_right _ member)
  covered h member tail head := by
    obtain ⟨chain, spans, inside⟩ := ahead.covered h (List.mem_append_right _ member) tail head
    refine ⟨chain, spans, fun c here => ?_⟩
    rcases List.mem_append.mp (inside c here) with early | late
    · have before := (List.pairwise_append.mp ahead.ascending).2.2 c early h member
      have low := (spans.bounds c here).1
      have less := c.vaddr_lt_stop
      omega
    · exact late
  behind h listed tail head := by
    rcases ahead.behind h listed tail head with here | passed
    · rcases List.mem_append.mp here with early | late
      · exact .inr (finished h early tail head)
      · exact .inl late
    · exact .inr fun j member => passed j (List.mem_append_right _ member)

theorem Ahead.cut (laid : Laid pairs instrs) {list : List Instruction}
    (ahead : Ahead pairs instrs list) : ∃ groups, Cut pairs instrs list groups := by
  -- a cartridge takes several instructions off the list at once
  induction length : list.length using Nat.strongRecOn generalizing list with
  | ind n ih =>
      cases list with
      | nil => exact ⟨[], .done⟩
      | cons i rest =>
          have shorter : rest.length < n := by
            rw [← length]
            simp
          cases head : pairs i.vaddr with
          | none =>
              have finished : ∀ h ∈ [i], ∀ tail, pairs h.vaddr = some tail →
                  ∀ j ∈ rest, tail ≤ j.vaddr := by
                simp [head]
              have loose := ahead.loose head
              obtain ⟨groups, cut⟩ := ih rest.length shorter (@Ahead.drop pairs instrs [i] rest ahead finished) rfl
              cases header : i.header with
              | true => exact ⟨groups, .skipped head loose header cut⟩
              | false => exact ⟨[i] :: groups, .alone head loose header cut⟩
          | some tail =>
              obtain ⟨chain, spans, inside⟩ := ahead.covered i (by simp) tail head
              have above : ∀ j ∈ i :: rest, i.vaddr ≤ j.vaddr := by
                intro j member
                rcases List.mem_cons.mp member with rfl | inRest
                · exact Nat.le_refl _
                · have after := (List.pairwise_cons.mp ahead.ascending).1 j inRest
                  exact Nat.le_trans (Nat.le_of_lt i.vaddr_lt_stop) after
              obtain ⟨later, split, beyond⟩ := spans.starts ahead.ascending inside above
              cases chain with
              | nil =>
                  have filled := laid.nonempty _ _ head
                  have empty : i.vaddr = tail := spans
                  omega
              | cons c more =>
                  obtain ⟨rfl, rfl⟩ := List.cons.inj split
                  have finished : ∀ h ∈ i :: more, ∀ tail', pairs h.vaddr = some tail' →
                      ∀ j ∈ later, tail' ≤ j.vaddr := by
                    intro h member tail' head' j inLater
                    rcases List.mem_cons.mp member with rfl | inMore
                    · rw [head] at head'
                      cases head'
                      exact beyond j inLater
                    · -- no cartridge starts inside another one
                      have low := (spans.2.bounds h inMore).1
                      have high := (spans.2.bounds h inMore).2
                      have less := i.vaddr_lt_stop
                      have less' := h.vaddr_lt_stop
                      have overlap := laid.disjoint _ _ _ _ head head' (by omega)
                      omega
                  have shorter : later.length < n := by
                    rw [← length, List.length_cons, List.append_eq, List.length_append]
                    omega
                  obtain ⟨groups, cut⟩ := ih later.length shorter
                    (@Ahead.drop pairs instrs (i :: more) later ahead finished) rfl
                  exact ⟨(i :: more) :: groups, .cartridge head spans cut⟩

theorem Laid.ahead (laid : Laid pairs instrs) : Ahead pairs instrs (sortedInstrs instrs) where
  ascending := sortedInstrs_ascending laid.apart
  listed j member := sortedInstrs_perm.mem_iff.mp member
  covered h member tail head := by
    obtain ⟨chain, spans, inside⟩ := laid.covered h (sortedInstrs_perm.mem_iff.mp member) tail head
    exact ⟨chain, spans, fun c here => sortedInstrs_perm.mem_iff.mpr (inside c here)⟩
  behind h listed _ _ := .inl (sortedInstrs_perm.mem_iff.mpr listed)

namespace Cut

variable {list : List Instruction} {groups : List (List Instruction)}

theorem sublist (cut : Cut pairs instrs list groups) : groups.flatten.Sublist list := by
  induction cut with
  | done => exact .slnil
  | cartridge head spans later ih => exact (List.Sublist.refl _).append ih
  | alone noHead loose plain later ih => exact ih.cons_cons _
  | skipped noHead loose header later ih => exact ih.cons _

theorem kept (cut : Cut pairs instrs list groups) {i : Instruction} (member : i ∈ list) :
    i ∈ groups.flatten ∨ (Loose pairs instrs i ∧ i.header = true) := by
  induction cut with
  | done => cases member
  | cartridge head spans later ih =>
      rw [List.flatten_cons, List.mem_append]
      rcases List.mem_append.mp member with here | inRest
      · exact .inl (.inl here)
      · exact (ih inRest).imp_left .inr
  | alone noHead loose plain later ih =>
      rw [List.flatten_cons, List.mem_append]
      rcases List.mem_cons.mp member with rfl | inRest
      · exact .inl (.inl (by simp))
      · exact (ih inRest).imp_left .inr
  | skipped noHead loose header later ih =>
      rcases List.mem_cons.mp member with rfl | inRest
      · exact .inr ⟨loose, header⟩
      · exact ih inRest

theorem shapes (cut : Cut pairs instrs list groups) : ∀ group ∈ groups,
    (∃ h more tail, group = h :: more ∧ pairs h.vaddr = some tail ∧ Spans h.vaddr group tail) ∨
      ∃ i, Loose pairs instrs i ∧ i.header = false ∧ group = [i] := by
  induction cut with
  | done => simp
  | @cartridge i more rest groups tail head spans later ih =>
      exact List.forall_mem_cons.mpr ⟨.inl ⟨i, more, tail, rfl, head, spans⟩, ih⟩
  | @alone i rest groups noHead loose plain later ih =>
      exact List.forall_mem_cons.mpr ⟨.inr ⟨i, loose, plain, rfl⟩, ih⟩
  | skipped noHead loose header later ih => exact ih

theorem heads (cut : Cut pairs instrs list groups) (laid : Laid pairs instrs) {h : Instruction}
    (member : h ∈ list) {tail : Nat} (head : pairs h.vaddr = some tail) :
    ∃ more, h :: more ∈ groups ∧ Spans h.vaddr (h :: more) tail := by
  induction cut with
  | done => cases member
  | @cartridge i more rest groups tail' head' spans later ih =>
      rcases List.mem_append.mp member with here | inRest
      · rcases List.mem_cons.mp here with rfl | inMore
        · rw [head] at head'
          cases head'
          exact ⟨more, by simp, spans⟩
        · have low := (spans.2.bounds h inMore).1
          have high := (spans.2.bounds h inMore).2
          have less := i.vaddr_lt_stop
          have less' := h.vaddr_lt_stop
          have overlap := laid.disjoint _ _ _ _ head' head (by omega)
          omega
      · obtain ⟨more', found, spans'⟩ := ih inRest
        exact ⟨more', by simp [found], spans'⟩
  | @alone i rest groups noHead loose plain later ih =>
      rcases List.mem_cons.mp member with rfl | inRest
      · rw [head] at noHead
        cases noHead
      · obtain ⟨more, found, spans⟩ := ih inRest
        exact ⟨more, by simp [found], spans⟩
  | @skipped i rest groups noHead loose header later ih =>
      rcases List.mem_cons.mp member with rfl | inRest
      · rw [head] at noHead
        cases noHead
      · exact ih inRest

end Cut

theorem Cut.partition {groups : List (List Instruction)} (laid : Laid pairs instrs)
    (cut : Cut pairs instrs (sortedInstrs instrs) groups) : Partition pairs instrs groups := by
  have ascending := sortedInstrs_ascending laid.apart
  have listed (i : Instruction) : i ∈ sortedInstrs instrs ↔ i ∈ instrs := sortedInstrs_perm.mem_iff
  have inside (group : List Instruction) (member : group ∈ groups) (i : Instruction)
      (here : i ∈ group) : i ∈ sortedInstrs instrs :=
    cut.sublist.subset (List.mem_flatten.mpr ⟨group, member, here⟩)
  have isCartridge (h : Instruction) (more : List Instruction) (tail : Nat)
      (member : h :: more ∈ groups) (spans : Spans h.vaddr (h :: more) tail) :
      IsCartridge instrs h.vaddr tail (h :: more) := by
    refine ⟨rfl, fun i => ⟨fun here => ?_, fun within => ?_⟩, spans.ascending.lt⟩
    · have bounds := spans.bounds i here
      have less := i.vaddr_lt_stop
      exact ⟨(listed i).mp (inside _ member i here), bounds.1, by omega⟩
    · exact spans.mem (inside _ member) ascending ((listed i).mpr within.1) within.2.1 within.2.2
  have only (group : List Instruction) (member : group ∈ groups) :
      (∃ h ∈ instrs, ∃ tail, pairs h.vaddr = some tail ∧ IsCartridge instrs h.vaddr tail group) ∨
        ∃ i ∈ instrs, Loose pairs instrs i ∧ i.header = false ∧ group = [i] := by
    rcases cut.shapes group member with ⟨h, more, tail, rfl, head, spans⟩ | ⟨i, loose, plain, rfl⟩
    · have here := (listed h).mp (inside _ member h (by simp))
      exact .inl ⟨h, here, tail, head, isCartridge h more tail member spans⟩
    · exact .inr ⟨i, (listed i).mp (inside _ member i (by simp)), loose, plain, rfl⟩
  -- an instruction in no cartridge can only be in a group of its own
  have single (i : Instruction) (here : i ∈ groups.flatten) (loose : Loose pairs instrs i) :
      i.header = false ∧ [i] ∈ groups := by
    obtain ⟨group, member, inGroup⟩ := List.mem_flatten.mp here
    rcases only group member with ⟨h, inList, tail, head, cartridge⟩ | ⟨j, _, _, plain, rfl⟩
    · exact absurd ((cartridge.inside i).mp inGroup).2 (loose h inList tail head)
    · obtain rfl : i = j := by simpa using inGroup
      exact ⟨plain, member⟩
  refine ⟨fun h inList tail head => ?_, fun i inList loose plain => ?_, only, ?_, fun i => ?_⟩
  · obtain ⟨more, member, spans⟩ := cut.heads laid ((listed h).mpr inList) head
    exact ⟨h :: more, member, isCartridge h more tail member spans⟩
  · rcases cut.kept ((listed i).mpr inList) with here | ⟨_, header⟩
    · exact (single i here loose).2
    · rw [plain] at header
      cases header
  · refine List.pairwise_map.mpr (List.Pairwise.imp (fun {i j} less => Nat.ne_of_lt less) ?_)
    exact ascending.lt.sublist cut.sublist
  · refine ⟨fun here => ⟨(listed i).mp (cut.sublist.subset here), ?_⟩, fun both => ?_⟩
    · rintro ⟨loose, header⟩
      rw [(single i here loose).1] at header
      cases header
    · exact (cut.kept ((listed i).mpr both.1)).resolve_right both.2

end

theorem emitAll_partitions {pairs : CartridgePairs} {instrs : List Instruction}
    (handled : ∀ i ∈ instrs, i.Emitted) (laid : Laid pairs instrs) :
    ∃ lines l groups, emitAll pairs instrs = .ok (lines, l) ∧ l.inCartridge = false ∧
      PrintsAll groups .initial lines l.emit ∧ Partition pairs instrs groups := by
  obtain ⟨groups, cut⟩ := laid.ahead.cut laid
  have emitted (i : Instruction) (member : i ∈ sortedInstrs instrs) : i.Emitted :=
    handled i (sortedInstrs_perm.mem_iff.mp member)
  obtain ⟨lines, l, printed, outside, all⟩ := @Cut.prints pairs .initial _ _ _ cut emitted rfl 0
  exact ⟨lines, l, groups, printed, outside, all, cut.partition laid⟩

def copyAt (vaddr : Nat) : Instruction :=
  -- `mov %rax,%rbx`.
  { original := "mov    %rax,%rbx", vaddr := vaddr, length := 3, op := .mov, size1 := some .q,
    operands := [.reg (.q (.gpr .rax)), .reg (.q (.gpr .rbx))] }

def twoCartridges : CartridgePairs := fun head =>
  if head = 0x1000 then some 0x1006 else if head = 0x1006 then some 0x1009 else none

theorem emitAll_partitions_twoCartridges :
    ∃ lines l groups,
      emitAll twoCartridges [copyAt 0x1009, copyAt 0x1003, copyAt 0x1000, copyAt 0x1006] =
          .ok (lines, l) ∧ l.inCartridge = false ∧
        PrintsAll groups .initial lines l.emit ∧
        Partition twoCartridges [copyAt 0x1009, copyAt 0x1003, copyAt 0x1000, copyAt 0x1006] groups := by
  refine emitAll_partitions ?_ ⟨?_, ?_, ?_, ?_⟩
  · simp only [List.forall_mem_cons]
    exact ⟨⟨.initial, _, _, rfl⟩, ⟨.initial, _, _, rfl⟩, ⟨.initial, _, _, rfl⟩,
      ⟨.initial, _, _, rfl⟩, List.forall_mem_nil _⟩
  · simp [copyAt, Instruction.stop]
  · intro head tail found
    unfold twoCartridges at found
    grind
  · intro head tail head' tail' found found'
    unfold twoCartridges at found found'
    grind
  · simp only [List.forall_mem_cons, twoCartridges, copyAt]
    refine ⟨by simp, by simp, ?_, ?_, by simp⟩
    · rintro tail ⟨⟩
      exact ⟨[copyAt 0x1000, copyAt 0x1003], by simp [Spans, copyAt, Instruction.stop],
        by simp [copyAt]⟩
    · rintro tail ⟨⟩
      exact ⟨[copyAt 0x1006], by simp [Spans, copyAt, Instruction.stop], by simp [copyAt]⟩

end Tase
