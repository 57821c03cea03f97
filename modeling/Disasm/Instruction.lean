import Disasm.Address
import Disasm.Expression

/-! # Instructions

A decoded instruction: its address, its mnemonic, its operands in encoding order
and its raw bytes.
-/

namespace Disasm

structure Instruction where
  address : Address
  arch : Architecture
  mnemonic : String
  operands : List Expression
  bytes : List UInt8
  deriving DecidableEq, Inhabited

namespace Instruction

def isX86 (i : Instruction) : Bool := i.arch.isX86

/-- `lea`, in any letter case, computes an address without an access. -/
def isLea (i : Instruction) : Bool :=
  i.isX86 && i.mnemonic.toList.map Char.toLower == ['l', 'e', 'a']

end Instruction

end Disasm
