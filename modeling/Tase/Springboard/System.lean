import Tase.Processor.Program
import Tase.Springboard.Transparency

/-! Everything together: cartridges that the processor runs in transactions, aborts, and an interpreter
that calls the emitted functions in between. What lasts is one run of the processor without any of
this. -/

namespace Tase

open Cpp Relation

def registers (gpr : Gpr → BitVec 64) (rip efl : BitVec 64) : Reg → BitVec 64
  | .rip => rip
  | .efl => efl
  | .gpr g => gpr g

namespace Binary

variable (P : Binary)

/-- The program on the springboard: the address of the body to run is in r15. -/
def shown (gpr : Gpr → BitVec 64) (memory : Mem) : Mach := P.view ⟨registers gpr (gpr .r15) 0, memory⟩

variable {P}

variable (P)

variable {P}

end Binary

end Tase
