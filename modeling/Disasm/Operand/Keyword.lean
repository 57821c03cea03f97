import Disasm.Log

/-! # Keywords of access sizes

MASM names the size of a memory access by a keyword. Widths without one give a
marker and an error record; vectors are spelled by count and element.
-/

namespace Disasm

def badType : String := "BAD_TYPE"

namespace OperandType

def keyword : OperandType → Logged String
  | integer 8 => pure "byte"
  | integer 16 => pure "word"
  | integer 32 => pure "dword"
  | integer 64 => pure "qword"
  | float 32 => pure "float"
  | float 64 => pure "double"
  | float 80 => pure "ldouble"
  | vector 2 (integer 64) => pure "dqword"
  | vector count element => do
    let inner ← keyword element
    pure ("V" ++ toString count.toNat ++ inner)
  | integer bits => do
    Logged.record (.noIntegerKeyword bits)
    pure badType
  | float bits => do
    Logged.record (.noFloatKeyword bits)
    pure badType

end OperandType

end Disasm
