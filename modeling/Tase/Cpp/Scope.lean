import Tase.Cpp.Frame

/-! Scopes: a block declares a local once, and a local is used behind its declaration, in the same
block or in one inside it. -/

namespace Cpp

variable {ρ ν : Type}

namespace Stmt

def declared : Stmt ρ ν → List ν
  | .decl _ v _ => [v]
  | .seq first second => first.declared ++ second.declared
  | _ => []

def made : Stmt ρ ν → List ν
  | .decl _ v _ => [v]
  | .seq first second => first.made ++ second.made
  | .ite _ yes no => yes.made ++ no.made
  | _ => []

def uses : Stmt ρ ν → List ν
  | .decl _ _ e | .setReg _ e | .addReg _ e => e.vars
  | .set v e | .orSet v e => v :: e.vars
  | .dec v => [v]
  | .store _ addr e => addr.vars ++ e.vars
  | .ite c _ _ => c.vars
  | .skip | .seq _ _ | .ret => []

/-- `here` are the locals of the block so far, `outer` those of the blocks around it. -/
def inScope [DecidableEq ν] (outer : List ν) : List ν → Stmt ρ ν → Bool
  | here, .decl _ v e => e.vars.all (· ∈ here ++ outer) && v ∉ here
  | here, .seq first second => first.inScope outer here && second.inScope outer (here ++ first.declared)
  | here, .ite c yes no =>
      c.vars.all (· ∈ here ++ outer) && yes.inScope (here ++ outer) [] && no.inScope (here ++ outer) []
  | here, stmt => stmt.uses.all (· ∈ here ++ outer)

def simple : Stmt ρ ν → Bool
  | .decl _ _ _ | .seq _ _ | .ite _ _ _ => false
  | _ => true

theorem declared_subset_made (stmt : Stmt ρ ν) : ∀ v ∈ stmt.declared, v ∈ stmt.made := by
  induction stmt with
  | seq first second ih ih' =>
      intro v member
      rcases List.mem_append.mp member with left | right
      · exact List.mem_append_left _ (ih v left)
      · exact List.mem_append_right _ (ih' v right)
  | decl t v e => exact fun _ member => member
  | _ => simp [declared]

theorem simple_made {stmt : Stmt ρ ν} (simple : stmt.simple = true) :
    stmt.declared = [] ∧ stmt.made = [] := by
  cases stmt with
  | decl t v e | seq first second | ite c yes no => cases simple
  | _ => exact ⟨rfl, rfl⟩

theorem simple_inScope [DecidableEq ν] {stmt : Stmt ρ ν} (simple : stmt.simple = true)
    {outer here : List ν} (known : ∀ v ∈ stmt.uses, v ∈ here ++ outer) :
    stmt.inScope outer here = true := by
  have all : stmt.uses.all (· ∈ here ++ outer) = true := by simpa using known
  cases stmt with
  | decl t v e | seq first second | ite c yes no => cases simple
  | _ => exact all

end Stmt

section

variable (first second : List (Stmt ρ ν))

theorem block_declared : (block (first ++ second)).declared =
    (block first).declared ++ (block second).declared := by
  induction first with
  | nil => rfl
  | cons stmt rest ih => simp [block, Stmt.declared, ih]

theorem block_made : (block (first ++ second)).made = (block first).made ++ (block second).made := by
  induction first with
  | nil => rfl
  | cons stmt rest ih => simp [block, Stmt.made, ih]

theorem block_inScope [DecidableEq ν] (outer here : List ν) :
    (block (first ++ second)).inScope outer here =
      ((block first).inScope outer here &&
        (block second).inScope outer (here ++ (block first).declared)) := by
  induction first generalizing here with
  | nil => simp [block, Stmt.inScope, Stmt.uses, Stmt.declared]
  | cons stmt rest ih => simp [block, Stmt.inScope, Stmt.declared, ih, Bool.and_assoc]

end

end Cpp
