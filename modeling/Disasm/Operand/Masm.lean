import Disasm.Log
import Disasm.Operand.Indexed

/-! # MASM operand text

The infix text of an operand without parentheses and blanks. Four kinds of
expression have no such text; the first of them in reading order is recorded and
ends the attempt.
-/

namespace Disasm

namespace Expression

def unhandled (k : Kind) : Attempt Kind String := do
  ExceptT.lift (Logged.record (.unhandled k))
  throw k

/-- Joins the terms of a sum; a minus sign of the second takes the place of the plus. -/
def joinSum (l r : String) : String :=
  if r.toList.head? = some '-' then l ++ r else l ++ "+" ++ r

/-- The tag of a segment that is always shown: `fs` alone. -/
def segmentTag (names : Naming) : Expression → String
  | register r => if r.isFs then names.register r ++ ":" else ""
  | _ => ""

/-- The text of an expression. With `lea` set, a memory reference at the root computes an
address and has no segment tag. -/
def masm (names : Naming) : Expression → Bool → Attempt Kind String
  | add l r, _ => do
    let l ← l.masm names false
    let r ← r.masm names false
    pure (joinSum l r)
  | subtract l r, _ => do
    let l ← l.masm names false
    let r ← r.masm names false
    pure (l ++ "-" ++ r)
  | multiply l r, _ => do
    let l ← l.masm names false
    let r ← r.masm names false
    pure (l ++ "*" ++ r)
  | memory a _, _ =>
    match IndexedAddress.ofExpression? a with
    | some i => pure (i.text names.register)
    | none => do
      let a ← a.masm names false
      pure ("[" ++ a ++ "]")
  | segmented s a _, lea =>
    match IndexedAddress.ofExpression? a with
    | some i => pure (i.text names.register)
    | none => do
      let a ← a.masm names false
      pure ((if lea then "" else segmentTag names s) ++ "[" ++ a ++ "]")
  | register r, _ => pure (names.register r)
  | indirect _ index, _ => pure ("(" ++ toString index.toNat ++ ")")
  | integer v, _ => pure (names.literal v)
  | negate _, _ => unhandled .negate
  | shiftLeft _ _, _ => unhandled .shiftLeft
  | float _ _, _ => unhandled .floatValue
  | registerList _, _ => unhandled .registerList

end Expression

def missingOperand : String := "BOGUS:NULL"

end Disasm
