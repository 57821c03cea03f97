import Disasm.Expression
import Disasm.Double.Layout
import Disasm.Operand.Naming

/-! # Plain operand text

The text of an operand outside the x86 family: infix with blanks, brackets around
addresses. Every expression has one.
-/

namespace Disasm.Expression

def plain (names : Naming) : Expression → String
  | add l r => l.plain names ++ " + " ++ r.plain names
  | subtract l r => l.plain names ++ " - " ++ r.plain names
  | multiply l r => l.plain names ++ " * " ++ r.plain names
  | shiftLeft l r => l.plain names ++ ", lsl " ++ r.plain names
  | negate e => "-" ++ e.plain names
  | memory a _ => "[" ++ a.plain names ++ "]"
  | segmented s a _ => s.plain names ++ ":[" ++ a.plain names ++ "]"
  | register r => names.register r
  | indirect r index => names.register r ++ "[" ++ toString index.toNat ++ "]"
  | integer v => names.literal v
  | float _ x => x.text
  | registerList rs => "\x7b" ++ String.intercalate ", " (rs.map names.register) ++ "\x7d"

end Disasm.Expression
