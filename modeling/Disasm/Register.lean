import Disasm.Architecture

/-! # Registers

A register is known by its architecture, its class, a number within the
architecture and a size in bits.
-/

namespace Disasm

inductive RegisterClass where
  | general
  | floatingPoint
  | vector
  | segment
  | programCounter
  | flags
  deriving DecidableEq, Repr, Inhabited

/-- A machine register, as the decoder numbers it. -/
structure Register where
  arch : Architecture
  kind : RegisterClass
  id : UInt16
  size : UInt16
  deriving DecidableEq, Repr, Inhabited

namespace Register

def gpr32 (id : UInt16) : Register := ⟨.x86, .general, id, 32⟩

def segment (id : UInt16) : Register := ⟨.x86, .segment, id, 16⟩

def fsId : UInt16 := 35

/-- The one segment whose override is printed: `fs` of the x86 family. -/
def isFs (r : Register) : Bool :=
  r.arch.isX86 && r.kind == .segment && r.id == fsId

end Register

end Disasm
