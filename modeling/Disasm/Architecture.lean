/-! # Instruction set architectures

An architecture is one of six known instruction sets, or a machine number that
the decoder passes on. Two of them form the x86 family.
-/

namespace Disasm

inductive Architecture where
  | x86_64
  | x86
  | arm64
  | arm
  | riscV64
  | riscV32
  | unknown (machine : UInt16)
  deriving DecidableEq, Repr, Inhabited

namespace Architecture

def name : Architecture → String
  | x86_64 => "x86_64"
  | x86 => "x86"
  | arm64 => "arm64"
  | arm => "arm"
  | riscV64 => "riscv64"
  | riscV32 => "riscv32"
  | unknown _ => "unknown"

/-- The x86 family has the MASM operand text; all others print plainly. -/
def isX86 : Architecture → Bool
  | x86_64 | x86 => true
  | _ => false

end Architecture

end Disasm
