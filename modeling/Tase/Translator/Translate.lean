import Tase.Translator.Disassembly
import Tase.Translator.Main

/-! `main` from its input files to the text it prints. -/

namespace Tase

open Cpp Regex

/-! `cartridge_info.txt`. -/

def decimal (n : Nat) : Bool → List Char → Option Nat
  | afterDigit, [] => if afterDigit then some n else none
  | afterDigit, c :: rest =>
      if c.isDigit then decimal (10 * n + (c.toNat - 48)) true rest
      else if c = '_' ∧ afterDigit then decimal n false rest
      else none

def intDec (text : List Char) : Except Error Int :=
  let found : Option Int := match strip text with
    | '-' :: digits => (decimal 0 false digits).map fun n => -(n : Int)
    | '+' :: digits => (decimal 0 false digits).map fun n => (n : Int)
    | digits => (decimal 0 false digits).map fun n => (n : Int)
  match found with
  | some n => .ok n
  | none => .error (.value "invalid literal for int() with base 10")

def cartridgeLine (line : List Char) : Except Error (Int × Int) :=
  match line.splitOn ' ' with
  | [head, tail] => do
      let head ← intDec head
      let tail ← intDec tail
      return (head, tail)
  | _ => .error (.value "wrong number of values to unpack (expected 2)")

/-- The dictionary: the last line with a head counts. No address is negative, and every end is beyond a
negative tail, as it is beyond 0. -/
def cartridgePairs (entries : List (Int × Int)) : CartridgePairs := fun vaddr =>
  (entries.reverse.find? fun entry => entry.1 = (vaddr : Int)).map fun entry => entry.2.toNat

/-! The functions. -/

def springboardNames : List (List Char) := ["sb_open".toList, "sb_modeled_return".toList]

theorem names_lawful : LawfulBEq (List Char) := inferInstance

instance decidableSpringboard (name : List Char) : Decidable (name ∈ springboardNames) :=
  @List.instDecidableMemOfLawfulBEq _ _ names_lawful name springboardNames

def filterList (functionsFile : Option (List (List Char))) : Option (List (List Char)) :=
  functionsFile.map fun lines => lines.map strip ++ springboardNames

structure Collection where
  springboards : List (List Char × Option Instruction)
  allInstrs : List Instruction

def Collection.initial : Collection := ⟨springboardNames.map fun name => (name, none), []⟩

def collectFunction (s : Collection) (entry : List Char × List Instruction) : Except Error Collection :=
  match entry.2 with
  | [] => .error (.assertion "")
  | first :: _ =>
      if entry.1 ∈ springboardNames then
        .ok { s with
          springboards := s.springboards.map fun p => if p.1 = entry.1 then (p.1, some first) else p }
      else .ok { s with allInstrs := s.allInstrs ++ entry.2 }

def collect (asm : List (List Char × List Instruction)) : Except Error Collection :=
  asm.foldlM collectFunction .initial

def afterLast (sep text : List Char) : List Char :=
  -- `text.rpartition(sep)[2]`.
  match text.tails.reverse.find? fun rest => sep.isPrefixOf rest with
  | some rest => rest.drop sep.length
  | none => text

structure Stub where
  vaddr : Nat
  suffix : List Char
deriving DecidableEq

/-- The exceptions of `main`; the last one is the call of a method of `None`. -/
inductive Failure
  | raised (e : Error)
  | attribute
deriving DecidableEq

def emitTaseSpringboard (p : List Char × Option Instruction) : Except Failure Stub :=
  match p.2 with
  | none => .error .attribute
  | some i => .ok ⟨i.vaddr, '_' :: afterLast "sb_".toList p.1⟩

structure Translation where
  stubs : List Stub
  count : Nat
  lines : List Line

def raising {α : Type} : Except Error α → Except Failure α
  | .ok a => .ok a
  | .error e => .error (.raised e)

/-- `main`, for the lines of the functions file, of `cartridge_info.txt` and of the output of objdump. -/
def translate (alnum : Char → Bool) (functionsFile : Option (List (List Char))) (cartridgeInfo : List (List Char))
    (objdump : List (List Char)) : Except Failure Translation := do
  let entries ← raising (cartridgeInfo.mapM cartridgeLine)
  let asm ← raising (parseObjdump (newInstruction alnum) (filterList functionsFile) objdump)
  let s ← raising (collect asm)
  let stubs ← if functionsFile.isSome then s.springboards.mapM emitTaseSpringboard else .ok []
  let (lines, _) ← raising (emitAll (cartridgePairs entries) s.allInstrs)
  return ⟨stubs, s.allInstrs.length, lines⟩

/-! The loop over the functions. -/

section

variable {asm : List (List Char × List Instruction)} {s : Collection}

def lookUp (asm : List (List Char × List Instruction)) (p : List Char × Option Instruction) :
    List Char × Option Instruction :=
  match asm.find? fun entry => entry.1 = p.1 with
  | some entry => (p.1, entry.2.head?)
  | none => p

theorem lookUp_cons_other {entry : List Char × List Instruction} {p : List Char × Option Instruction}
    (other : entry.1 ≠ p.1) : lookUp (entry :: asm) p = lookUp asm p := by
  unfold lookUp
  rw [List.find?_cons_of_neg (by simpa using other)]

theorem lookUp_absent {p : List Char × Option Instruction} (absent : p.1 ∉ asm.map Prod.fst) : lookUp asm p = p := by
  have none : asm.find? (fun entry => entry.1 = p.1) = none := by
    refine List.find?_eq_none.mpr fun entry member same => absent ?_
    rw [← of_decide_eq_true same]
    exact List.mem_map_of_mem member
  simp only [lookUp, none]

theorem collect_from (keys : ∀ p ∈ s.springboards, p.1 ∈ springboardNames) (distinct : (asm.map Prod.fst).Nodup)
    (filled : ∀ entry ∈ asm, entry.2 ≠ []) :
    asm.foldlM collectFunction s = .ok ⟨s.springboards.map (lookUp asm),
      s.allInstrs ++ (asm.filter fun entry => entry.1 ∉ springboardNames).flatMap Prod.snd⟩ := by
  induction asm generalizing s with
  | nil =>
      have same : lookUp [] = id := rfl
      simp [same, pure, Except.pure]
  | cons entry asm ih =>
      rw [List.map_cons, List.nodup_cons] at distinct
      obtain ⟨some, filled⟩ := List.forall_mem_cons.mp filled
      obtain ⟨first, more, found⟩ := List.exists_cons_of_ne_nil some
      rw [List.foldlM_cons]
      by_cases springboard : entry.1 ∈ springboardNames
      · have one : collectFunction s entry = .ok { s with
            springboards := s.springboards.map fun p => if p.1 = entry.1 then (p.1, Option.some first) else p } := by
          simp only [collectFunction, found, springboard, if_true]
        have keys' : ∀ p ∈ s.springboards.map (fun p => if p.1 = entry.1 then (p.1, Option.some first) else p),
            p.1 ∈ springboardNames := by
          intro q member
          obtain ⟨p, old, rfl⟩ := List.mem_map.mp member
          split <;> exact keys p old
        rw [one]
        refine (ih keys' distinct.2 filled).trans ?_
        simp only [List.map_map, List.filter_cons, springboard, not_true_eq_false, decide_false,
          Bool.false_eq_true, if_false]
        refine congrArg (fun l => Except.ok (Collection.mk l _)) (List.map_congr_left fun p _ => ?_)
        simp only [Function.comp_apply]
        by_cases same : p.1 = entry.1
        · have here : lookUp (entry :: asm) p = (p.1, Option.some first) := by
            unfold lookUp
            rw [List.find?_cons_of_pos (by simp [same])]
            simp [found]
          rw [if_pos same, here]
          exact lookUp_absent (same ▸ distinct.1)
        · rw [if_neg same, lookUp_cons_other (Ne.symm same)]
      · have one : collectFunction s entry = .ok { s with allInstrs := s.allInstrs ++ entry.2 } := by
          simp only [collectFunction, found, springboard, if_false]
        rw [one]
        refine (ih (s := { s with allInstrs := s.allInstrs ++ entry.2 }) keys distinct.2 filled).trans ?_
        have kept : (entry :: asm).filter (fun entry => entry.1 ∉ springboardNames) =
            entry :: asm.filter fun entry => entry.1 ∉ springboardNames :=
          List.filter_cons_of_pos (by simpa using springboard)
        rw [kept, List.flatMap_cons, List.append_assoc]
        refine congrArg (fun l => Except.ok (Collection.mk l _)) (List.map_congr_left fun p member => ?_)
        exact (lookUp_cons_other fun same => springboard (same ▸ keys p member)).symm

theorem collect_eq (distinct : (asm.map Prod.fst).Nodup) (filled : ∀ entry ∈ asm, entry.2 ≠ []) :
    collect asm = .ok ⟨springboardNames.map fun name => lookUp asm (name, none),
      (asm.filter fun entry => entry.1 ∉ springboardNames).flatMap Prod.snd⟩ := by
  have keys : ∀ p ∈ Collection.initial.springboards, p.1 ∈ springboardNames := by decide
  rw [collect, collect_from keys distinct filled]
  rfl

theorem emitTaseSpringboard_found {name : List Char} (filled : ∀ entry ∈ asm, entry.2 ≠ [])
    (found : name ∈ asm.map Prod.fst) : ∃ entry ∈ asm, ∃ i ∈ entry.2, entry.1 = name ∧
      emitTaseSpringboard (lookUp asm (name, none)) = .ok ⟨i.vaddr, '_' :: afterLast "sb_".toList name⟩ := by
  obtain ⟨other, member, same⟩ := List.mem_map.mp found
  obtain ⟨entry, first⟩ := Option.isSome_iff_exists.mp
    (List.find?_isSome.mpr ⟨other, member, decide_eq_true same⟩ : (asm.find? fun entry => entry.1 = name).isSome)
  have inside := List.mem_of_find?_eq_some first
  obtain ⟨i, more, instrs⟩ := List.exists_cons_of_ne_nil (filled entry inside)
  have named := List.find?_some first
  refine ⟨entry, inside, i, by simp [instrs], of_decide_eq_true named, ?_⟩
  simp only [lookUp, first, instrs, List.head?_cons, emitTaseSpringboard]

end

/-! Whole runs on printed disassemblies. -/

theorem springboardNames_spaceless : ∀ name ∈ springboardNames, ' ' ∉ name := by decide

theorem duplicateName_space (fname : List Char) (n : Nat) : ' ' ∈ duplicateName fname n := by
  simp [duplicateName]

section

variable {ι : Type} {instruction : List Char → Groups LineGroup → Except Error ι} {s : Disassembly ι}
  {bs : List (FunctionBlock instruction)}

theorem Collected.springboard (collected : Collected s bs)
    (once : bs.Pairwise fun b c => b.fname ∈ springboardNames → b.fname ≠ c.fname) :
    List.Forall₂ (fun entry b => IsEntry entry b ∧ (entry.1 ∈ springboardNames ↔ b.fname ∈ springboardNames))
      s.functionAsm bs := by
  obtain ⟨length, entries⟩ := List.forall₂_iff_get.mp collected.entries
  refine List.forall₂_iff_get.mpr ⟨length, fun k inside inside' => ⟨entries k inside inside', ?_⟩⟩
  rcases (entries k inside inside').key with same | ⟨n, duplicate⟩
  · rw [same]
  · constructor
    · intro listed
      rw [duplicate] at listed
      exact absurd (duplicateName_space _ n) (springboardNames_spaceless _ listed)
    · intro listed
      -- Another function has the name for its key, so the name is printed twice.
      have known := hasKey_iff.mp (collected.named _ (List.get_mem bs ⟨k, inside'⟩))
      obtain ⟨other, member, key⟩ := List.mem_map.mp known
      obtain ⟨⟨j, within⟩, rfl⟩ := List.get_of_mem member
      have named : (bs.get ⟨j, length ▸ within⟩).fname = (bs.get ⟨k, inside'⟩).fname := by
        rcases (entries j within (length ▸ within)).key with same | ⟨n', duplicate'⟩
        · exact same.symm.trans key
        · rw [← key, duplicate'] at listed
          exact absurd (duplicateName_space _ n') (springboardNames_spaceless _ listed)
      have apart : j ≠ k := by
        rintro rfl
        rw [duplicate] at key
        rw [← key] at listed
        exact springboardNames_spaceless _ listed (duplicateName_space _ n)
      rw [List.pairwise_iff_get] at once
      rcases Nat.lt_or_gt_of_ne apart with before | behind
      · exact absurd named (once ⟨j, length ▸ within⟩ ⟨k, inside'⟩ before (named ▸ listed))
      · exact absurd named.symm (once ⟨k, inside'⟩ ⟨j, length ▸ within⟩ behind listed)

end

namespace Att.PrintedDump

variable {alnum : Char → Bool} (d : PrintedDump alnum) (filterFunctions : Option (List (List Char)))

def translated : List Instruction :=
  ((d.kept filterFunctions).filter fun f => f.name.chars ∉ springboardNames).flatMap PrintedFunction.instrs

def Once : Prop :=
  (d.kept filterFunctions).Pairwise fun f g => f.name.chars ∈ springboardNames → f.name.chars ≠ g.name.chars

def HasSpringboard : Prop :=
  ∀ name ∈ springboardNames, ∃ f ∈ d.kept filterFunctions, f.name.chars = name

variable {d filterFunctions}

theorem translated_eq {asm : List (List Char × List Instruction)} {fs : List (PrintedFunction alnum)}
    (entries : List.Forall₂ (fun entry f => entry.2 = f.instrs ∧
      (entry.1 ∈ springboardNames ↔ f.name.chars ∈ springboardNames)) asm fs) :
    (asm.filter fun entry => entry.1 ∉ springboardNames).flatMap Prod.snd =
      (fs.filter fun f => f.name.chars ∉ springboardNames).flatMap PrintedFunction.instrs := by
  induction entries with
  | nil => rfl
  | @cons entry f asm fs here _ ih =>
      obtain ⟨instrs, names⟩ := here
      by_cases springboard : f.name.chars ∈ springboardNames
      · rw [List.filter_cons_of_neg (by simpa using names.mpr springboard),
          List.filter_cons_of_neg (by simpa using springboard), ih]
      · rw [List.filter_cons_of_pos (by simpa using fun listed => springboard (names.mp listed)),
          List.filter_cons_of_pos (by simpa using springboard), List.flatMap_cons, List.flatMap_cons, instrs, ih]

theorem collects (once : d.Once filterFunctions) : ∃ asm : List (List Char × List Instruction),
    parseObjdump (newInstruction alnum) filterFunctions d.text = .ok asm ∧
    collect asm = .ok ⟨springboardNames.map fun name => lookUp asm (name, none), d.translated filterFunctions⟩ ∧
    (∀ entry ∈ asm, entry.2 ≠ []) ∧ ∀ f ∈ d.kept filterFunctions, f.name.chars ∈ asm.map Prod.fst := by
  -- What `main` collects.
  obtain ⟨s, parsed, collected⟩ := d.collected filterFunctions
  have filled : ∀ entry ∈ s.functionAsm, entry.2 ≠ [] := by
    intro entry member
    have inside : entry.2 ∈ s.functionAsm.map Prod.snd := List.mem_map_of_mem member
    rw [entries_instrs collected.entries, List.map_map] at inside
    obtain ⟨f, _, same⟩ := List.mem_map.mp inside
    rw [← same, Function.comp_apply, f.block_instrs]
    simpa [PrintedFunction.instrs] using f.nonempty
  have springboards := collected.springboard (List.pairwise_map.mpr once)
  rw [List.forall₂_map_right_iff] at springboards
  refine ⟨s.functionAsm, parsed, ?_, filled, fun f member => ?_⟩
  · rw [collect_eq collected.distinct filled, translated_eq (springboards.imp fun entry f both => ?_)]
    · rfl
    · exact ⟨both.1.instrs.trans f.block_instrs, both.2⟩
  · exact hasKey_iff.mp (collected.named f.block (List.mem_map_of_mem member))

theorem stubs_printed {asm : List (List Char × List Instruction)} (filled : ∀ entry ∈ asm, entry.2 ≠ [])
    (known : ∀ name ∈ springboardNames, name ∈ asm.map Prod.fst) : ∃ stubs : List Stub,
      (springboardNames.map fun name => lookUp asm (name, none)).mapM emitTaseSpringboard = .ok stubs ∧
      stubs.map Stub.suffix = ["_open".toList, "_modeled_return".toList] := by
  obtain ⟨_, _, i, _, _, first⟩ := emitTaseSpringboard_found filled (known "sb_open".toList (by decide))
  obtain ⟨_, _, j, _, _, second⟩ := emitTaseSpringboard_found filled (known "sb_modeled_return".toList (by decide))
  refine ⟨[⟨i.vaddr, "_open".toList⟩, ⟨j.vaddr, "_modeled_return".toList⟩], ?_, rfl⟩
  simp only [springboardNames, List.map_cons, List.map_nil, List.mapM_cons, List.mapM_nil, first, second]
  rfl

theorem translate_eq {functionsFile : Option (List (List Char))} {cartridgeInfo : List (List Char)}
    {entries : List (Int × Int)} {lines : List Line} {l : Session}
    (once : d.Once (filterList functionsFile))
    (present : functionsFile.isSome = true → d.HasSpringboard (filterList functionsFile))
    (info : cartridgeInfo.mapM cartridgeLine = .ok entries)
    (emitted : emitAll (cartridgePairs entries) (d.translated (filterList functionsFile)) = .ok (lines, l)) :
    ∃ stubs, translate alnum functionsFile cartridgeInfo d.text =
        .ok ⟨stubs, (d.translated (filterList functionsFile)).length, lines⟩ ∧
      stubs.map Stub.suffix = if functionsFile.isSome then ["_open".toList, "_modeled_return".toList] else [] := by
  obtain ⟨asm, parsed, collected, filled, known⟩ := collects once
  have next {α β : Type} (a : α) (f : α → Except Failure β) : Except.ok a >>= f = f a := rfl
  cases functionsFile with
  | none =>
      refine ⟨[], ?_, rfl⟩
      simp only [translate, raising, info, next, parsed, collected, emitted]
      rfl
  | some lines =>
      obtain ⟨stubs, printed, suffixes⟩ := stubs_printed filled fun name listed => by
        obtain ⟨f, member, rfl⟩ := present rfl name listed
        exact known f member
      refine ⟨stubs, ?_, suffixes⟩
      simp only [translate, raising, info, next, parsed, collected, Option.isSome_some, if_true, printed, emitted]
      rfl

end Att.PrintedDump

/-- Nothing is lost between the disassembly and the text that is printed: the instructions of the functions
that were asked for are cut into functions, in the order of their addresses, each instruction in exactly one
of them, apart from the headers of the cartridges. -/
theorem translate_partitions {alnum : Char → Bool} (d : Att.PrintedDump alnum)
    (functionsFile : Option (List (List Char))) {cartridgeInfo : List (List Char)} {entries : List (Int × Int)}
    (once : d.Once (filterList functionsFile))
    (present : functionsFile.isSome = true → d.HasSpringboard (filterList functionsFile))
    (info : cartridgeInfo.mapM cartridgeLine = .ok entries)
    (handled : ∀ i ∈ d.translated (filterList functionsFile), i.Emitted)
    (laid : Laid (cartridgePairs entries) (d.translated (filterList functionsFile))) :
    ∃ t groups s, translate alnum functionsFile cartridgeInfo d.text = .ok t ∧
      t.count = (d.translated (filterList functionsFile)).length ∧
      t.stubs.map Stub.suffix = (if functionsFile.isSome then ["_open".toList, "_modeled_return".toList] else []) ∧
      PrintsAll groups .initial t.lines s ∧ (groups.flatten.Pairwise fun i j => i.vaddr < j.vaddr) ∧
      Partition (cartridgePairs entries) (d.translated (filterList functionsFile)) groups := by
  obtain ⟨groups, cut⟩ := laid.ahead.cut laid
  obtain ⟨lines, l, printed, _, all⟩ := @Cut.prints (cartridgePairs entries) .initial _ _ _ cut
    (fun i member => handled i (sortedInstrs_perm.mem_iff.mp member)) rfl 0
  obtain ⟨stubs, ran, suffixes⟩ := d.translate_eq once present info printed
  have ordered := (sortedInstrs_ascending laid.apart).lt.sublist cut.sublist
  exact ⟨_, groups, l.emit, ran, rfl, suffixes, all, ordered, cut.partition laid⟩

/-! The sample, with its one cartridge. -/

theorem cartridgePairs_singleton (head tail vaddr : Nat) :
    cartridgePairs [(head, tail)] vaddr = if vaddr = head then some tail else none := by
  by_cases here : vaddr = head
  · simp [cartridgePairs, here]
  · simp [cartridgePairs, here, Ne.symm here]

def samplePairs : CartridgePairs := cartridgePairs [((0x40076c : Nat), (0x400774 : Nat))]

theorem samplePairs_some {vaddr tail : Nat} (found : samplePairs vaddr = some tail) :
    vaddr = 0x40076c ∧ tail = 0x400774 := by
  rw [samplePairs, cartridgePairs_singleton] at found
  split at found
  · rename_i here
    exact ⟨here, (Option.some.inj found).symm⟩
  · cases found

theorem sample_info : ["4196204 4196212\n".toList].mapM cartridgeLine = .ok [((0x40076c : Nat), (0x400774 : Nat))] :=
  rfl

theorem sample_laid : Laid samplePairs sampleCode where
  apart := by decide
  nonempty head tail found := by
    obtain ⟨rfl, rfl⟩ := samplePairs_some found
    decide
  disjoint head tail head' tail' found found' before := by
    obtain ⟨rfl, rfl⟩ := samplePairs_some found
    obtain ⟨rfl, rfl⟩ := samplePairs_some found'
    cases Nat.lt_irrefl _ before
  covered h member tail found := by
    obtain ⟨here, rfl⟩ := samplePairs_some found
    rw [here]
    exact ⟨[vectorMove, addRegisters, returnQuad], ⟨rfl, rfl, rfl, rfl⟩, by simp [sampleCode]⟩

theorem sample_emitted : ∀ i ∈ sampleCode, i.Emitted := by
  simp only [sampleCode, List.forall_mem_cons]
  exact ⟨⟨.initial, _, _, rfl⟩, ⟨.initial, _, _, rfl⟩, ⟨.initial, _, _, rfl⟩, ⟨.initial, _, _, rfl⟩,
    ⟨.initial, _, _, rfl⟩, ⟨.initial, _, _, rfl⟩, List.forall_mem_nil _⟩

theorem sample_translated : ∃ d : Att.PrintedDump fun _ => false, d.text = sampleText ∧
    d.translated (filterList (some ["f\n".toList])) = sampleCode ∧ d.Once (filterList (some ["f\n".toList])) ∧
    d.HasSpringboard (filterList (some ["f\n".toList])) := by
  -- The function `f` is asked for, and the routines of the springboard are there.
  obtain ⟨f, g, sbOpen, sbReturn, d, text, functions, names, code, _⟩ := sample_printed
  simp only [List.map_cons, List.map_nil, List.cons.injEq, and_true] at names
  obtain ⟨first, second, third, fourth⟩ := names
  have kept : d.kept (filterList (some ["f\n".toList])) = [f, sbOpen, sbReturn] := by
    simp only [Att.PrintedDump.kept, functions, List.filter_cons, first, second, third, fourth]
    rfl
  refine ⟨d, text, ?_, ?_, ?_⟩
  · rw [Att.PrintedDump.translated, kept]
    simp only [List.filter_cons, first, third, fourth]
    exact (List.append_nil _).trans code
  · rw [Att.PrintedDump.Once, kept]
    simp only [List.pairwise_cons, List.forall_mem_cons, first, third, fourth]
    decide
  · rw [Att.PrintedDump.HasSpringboard, kept]
    exact List.forall_mem_cons.mpr ⟨⟨sbOpen, by simp, third⟩, List.forall_mem_singleton.mpr ⟨sbReturn, by simp, fourth⟩⟩

theorem translate_partitions_sample : ∃ t groups s,
    translate (fun _ => false) (some ["f\n".toList]) ["4196204 4196212\n".toList] sampleText = .ok t ∧ t.count = 6 ∧
      t.stubs.map Stub.suffix = ["_open".toList, "_modeled_return".toList] ∧ PrintsAll groups .initial t.lines s ∧
      (groups.flatten.Pairwise fun i j => i.vaddr < j.vaddr) ∧ Partition samplePairs sampleCode groups ∧
      [padding] ∈ groups := by
  obtain ⟨d, text, code, once, present⟩ := sample_translated
  obtain ⟨t, groups, s, ran, count, stubs, all, ordered, parts⟩ :=
    translate_partitions d (some ["f\n".toList]) once (fun _ => present) sample_info (code ▸ sample_emitted)
      (code ▸ sample_laid)
  rw [code] at count parts
  rw [text] at ran
  have loose : Loose samplePairs sampleCode padding := by
    intro h _ tail found
    obtain ⟨_, rfl⟩ := samplePairs_some found
    exact fun within => absurd within.2 (by decide)
  exact ⟨t, groups, s, ran, count, stubs, all, ordered, parts, parts.alone _ (by simp [sampleCode]) loose (by decide)⟩

end Tase
