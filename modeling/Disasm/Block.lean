import Disasm.Instruction

/-! # Basic blocks

A block is a run of statements with a number, a start address and the reasons
for which it exists. A statement is an instruction or undecoded data.
-/

namespace Disasm

structure BlockId where
  index : UInt32
  deriving DecidableEq, Repr, Inhabited

def BlockId.text (b : BlockId) : String := "bb" ++ toString b.index.toNat

inductive BlockReason where
  | entryPoint
  | callTarget
  | jumpTarget
  | fallthrough
  | jumpTable
  | padding
  | leftover
  deriving DecidableEq, Repr, Inhabited

def BlockReason.name : BlockReason → String
  | entryPoint => "entry point"
  | callTarget => "call target"
  | jumpTarget => "jump target"
  | fallthrough => "fallthrough"
  | jumpTable => "jump table"
  | padding => "padding"
  | leftover => "leftover"

inductive Statement where
  | instruction (i : Instruction)
  | data (address : Address) (bytes : List UInt8)
  deriving DecidableEq, Inhabited

namespace Statement

def instruction? : Statement → Option Instruction
  | instruction i => some i
  | data .. => none

def address : Statement → Address
  | instruction i => i.address
  | data a _ => a

end Statement

structure Block where
  id : BlockId
  start : Address
  statements : List Statement := []
  reasons : List BlockReason := []
  staticData : Bool := false
  deriving DecidableEq, Inhabited

namespace Block

/-- A block with one more reason, unless it has that reason already. -/
def withReason (b : Block) (r : BlockReason) : Block :=
  if r ∈ b.reasons then b else { b with reasons := b.reasons ++ [r] }

def push (b : Block) (s : Statement) : Block := { b with statements := b.statements ++ [s] }

def instructions (b : Block) : List Instruction := b.statements.filterMap Statement.instruction?

def firstData? (b : Block) : Option Address :=
  (b.statements.find? (·.instruction?.isNone)).map Statement.address

/-- The names of the reasons, separated by commas; `none` if there are none. -/
def reasonText (b : Block) : String :=
  match b.reasons with
  | [] => "none"
  | rs => String.intercalate ", " (rs.map BlockReason.name)

end Block

end Disasm
