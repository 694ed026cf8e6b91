import Tase.Processor.Translated
import Tase.Springboard.Rollback
import Tase.Springboard.Statistics
import Tase.Springboard.System
import Tase.Translator.BitTest
import Tase.Translator.ByteSwap
import Tase.Translator.Carry
import Tase.Translator.Compare
import Tase.Translator.Counter
import Tase.Translator.Divide
import Tase.Translator.Exchange
import Tase.Translator.Filled
import Tase.Translator.Flagless
import Tase.Translator.Main
import Tase.Translator.Objdump
import Tase.Translator.Parity
import Tase.Translator.ParseOperands
import Tase.Translator.PushPop
import Tase.Translator.RegisterFile
import Tase.Translator.Rotate
import Tase.Translator.RotateFlags
import Tase.Translator.ScanCartridge
import Tase.Translator.Scope
import Tase.Translator.ShiftRange
import Tase.Translator.Stack
import Tase.Translator.SubRegister
