import Tase.Processor.Program
import Tase.Translator.Translate

/-! From the disassembly of a binary to the processor that runs it. -/

namespace Tase

open Cpp Relation

end Tase
