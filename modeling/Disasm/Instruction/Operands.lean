import Disasm.Instruction
import Disasm.Operand.Masm
import Disasm.Operand.Plain

/-! # Operands of an instruction

The text of one operand, of all of them, and the plain text of a whole
instruction.
-/

namespace Disasm.Instruction

/-- The MASM text of one operand; a missing operand has a text of its own. -/
def operandText (i : Instruction) (names : Naming) :
    Option Expression → Attempt Expression.Kind String
  | some e => e.masm names i.isLea
  | none => pure missingOperand

/-- The MASM texts of some operands, up to the first that has none. -/
def operandTexts (names : Naming) (lea : Bool) :
    List Expression → Attempt Expression.Kind (List String)
  | [] => pure []
  | e :: es => do
    let text ← e.masm names lea
    let texts ← operandTexts names lea es
    pure (text :: texts)

def operandsText (i : Instruction) (names : Naming) : Attempt Expression.Kind String := do
  let texts ← operandTexts names i.isLea i.operands
  pure (String.intercalate ", " texts)

def plain (i : Instruction) (names : Naming) : String :=
  match i.operands with
  | [] => i.mnemonic
  | es => i.mnemonic ++ " " ++ String.intercalate ", " (es.map (·.plain names))

end Disasm.Instruction
