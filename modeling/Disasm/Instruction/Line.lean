import Disasm.Instruction.Operands

/-! # Instruction lines

A line shows the address of an instruction, its text and, if wanted, its first
bytes. An operand without MASM text makes the line fail.
-/

namespace Disasm

/-- The upper-case hexadecimal of the first bytes; a plus sign shows that some are cut. -/
def dump (bytes : List UInt8) (most : Nat) : String :=
  String.join ((bytes.take most).map Hex.byte) ++ if most < bytes.length then "+" else ""

structure LineError where
  address : Address
  kind : Expression.Kind
  deriving DecidableEq, Repr

def Expression.Kind.message (k : Kind) : String := "unhandled expression kind " ++ k.name

def LineError.message (e : LineError) : String :=
  "instruction at " ++ e.address.text ++ ": " ++ e.kind.message

structure LineStyle where
  names : Naming
  generic : Instruction → Naming → String
  maxBytes : Nat

/-- Standard register names, and plain text outside the x86 family. -/
def LineStyle.standard (labels : Labels) (maxBytes : Nat) : LineStyle :=
  ⟨.standard labels, Instruction.plain, maxBytes⟩

namespace Instruction

def mnemonicWidth : Nat := 9

/-- Blanks put behind a text, up to a number of characters. -/
def padRight (width : Nat) (text : String) : String :=
  text ++ String.ofList (List.replicate (width - text.length) ' ')

/-- The dump at the end of a line; a limit of zero leaves it out. -/
def dumpText (bytes : List UInt8) (most : Nat) : String :=
  if most = 0 then "" else " ; BYTES: " ++ dump bytes most

def masmLine (i : Instruction) (names : Naming) : Attempt LineError String := do
  let operands ← (i.operandsText names).adapt (LineError.mk i.address)
  pure (Hex.upper i.address.toNat ++ ": " ++ padRight mnemonicWidth i.mnemonic ++ " " ++ operands)

def genericLine (i : Instruction) (s : LineStyle) : Attempt LineError String := do
  ExceptT.lift (Logged.record (.generic i.arch i.address))
  pure ("0x" ++ Hex.zeroPad 8 (Hex.upper i.address.toNat) ++ " " ++ s.generic i s.names)

def line (i : Instruction) (s : LineStyle) : Attempt LineError String := do
  let text ← if i.isX86 then i.masmLine s.names else i.genericLine s
  pure (text ++ dumpText i.bytes s.maxBytes)

end Instruction

def missingInstruction : String := "NULL!"

def LineStyle.line? (s : LineStyle) : Option Instruction → Attempt LineError String
  | some i => i.line s
  | none => pure missingInstruction

end Disasm
