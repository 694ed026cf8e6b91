import Tase.Translator.Runs

/-! `emit_function` with its prolog and epilog, and the C++ functions that the printed
lines make up. -/

namespace Tase

open Cpp

inductive Position
  | alone | start | inside | last
deriving DecidableEq, Repr

def Position.opens : Position → Bool
  | .alone | .start => true
  | .inside | .last => false

def Position.closes : Position → Bool
  | .alone | .last => true
  | .start | .inside => false

/-- A printed item. The prolog also declares the 18 `_tmp` locals. -/
inductive Line
  | prolog (vaddr : Nat)
  | stmt (code : Code)
  | writeBack (r : Reg)
  | close
deriving DecidableEq

/-- `var_count` and `BB_ASSIGNED_REGS` when the modules are loaded. -/
def EmitState.initial : EmitState := ⟨0, [.rip], List.mem_singleton_self _⟩

def Print := EmitState → Except Error (List Line × EmitState)

def emitFunctionProlog (i : Instruction) : List Line := [.prolog i.vaddr]

def emitFunctionEpilog (s : EmitState) : List Line × EmitState :=
  (s.bbAssignedRegs.map .writeBack ++ [.close],
    { s with bbAssignedRegs := [.rip], ripRecorded := List.mem_singleton_self _ })

def emitFunction (position : Position) (i : Instruction) : Print := fun s =>
  match emitBody i s with
  | .error e => .error e
  | .ok (_, out, s') =>
      let opening := if position.opens then emitFunctionProlog i else []
      let (closing, s'') := if position.closes then emitFunctionEpilog s' else ([], s')
      .ok (opening ++ out.map .stmt ++ closing, s'')

def Print.andThen (first second : Print) : Print := fun s =>
  match first s with
  | .error e => .error e
  | .ok (lines, s') =>
      match second s' with
      | .error e => .error e
      | .ok (lines', s'') => .ok (lines ++ lines', s'')

def emitRest : List Instruction → Print
  | [] => fun s => .ok (emitFunctionEpilog s)
  | [i] => emitFunction .last i
  | i :: next :: rest => (emitFunction .inside i).andThen (emitRest (next :: rest))

def emitCartridge : List Instruction → Print
  | [] => fun s => .ok ([], s)
  | i :: rest => (emitFunction .start i).andThen (emitRest rest)

structure Function where
  vaddr : Nat
  body : List Code
  writes : List Reg

namespace Function

def lines (f : Function) : List Line :=
  .prolog f.vaddr :: f.body.map .stmt ++ f.writes.map .writeBack ++ [.close]

def codeOf : Line → Option Code
  | .stmt code => some code
  | _ => none

def writeOf : Line → Option Reg
  | .writeBack r => some r
  | _ => none

def ofLines : List Line → Option Function
  | .prolog vaddr :: rest => some ⟨vaddr, rest.filterMap codeOf, rest.filterMap writeOf⟩
  | _ => none

theorem ofLines_lines (f : Function) : ofLines f.lines = some f := by
  have codeStmt : codeOf ∘ Line.stmt = some := rfl
  have codeWrite : codeOf ∘ Line.writeBack = fun _ => none := rfl
  have writeStmt : writeOf ∘ Line.stmt = fun _ => none := rfl
  have writeWrite : writeOf ∘ Line.writeBack = some := rfl
  simp only [lines, ofLines, List.cons_append, List.filterMap_append, List.filterMap_map,
    codeStmt, codeWrite, writeStmt, writeWrite]
  simp [List.filterMap_cons, codeOf, writeOf]

theorem lines_injective {f g : Function} (same : f.lines = g.lines) : f = g := by
  have read := ofLines_lines f
  rw [same, ofLines_lines] at read
  exact (Option.some.inj read).symm

/-- A call: the locals are loaded from `gregs`, the body runs, and the recorded registers
are written back. An early `return` skips the write-back. -/
def call (ub : Undef) (f : Function) (m : Mach) : Mach :=
  match run ub f.body ⟨m, fun _ => default⟩ with
  | .ok st =>
      { regs := fun r => if r ∈ f.writes then st.machine.regs r else m.regs r
        mem := st.machine.mem }
  | .error st => { regs := m.regs, mem := st.machine.mem }

end Function

def printed (print : Print) : Option Function :=
  match print .initial with
  | .ok (lines, _) => Function.ofLines lines
  | .error _ => none

end Tase
