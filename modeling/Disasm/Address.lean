import Disasm.Hex

/-! # Addresses

A virtual address has 64 bits. Its text is hexadecimal; reading also accepts
upper case, a missing marker, a plus sign and leading zeros.
-/

namespace Disasm

abbrev Address := UInt64

namespace Address

/-- Lower-case hexadecimal behind `0x`. -/
def text (a : Address) : String := Hex.marked a.toNat

/-- Drops one marker `0x` or `0X` from the front. -/
def dropMarker : List Char → List Char
  | '0' :: 'x' :: cs | '0' :: 'X' :: cs => cs
  | cs => cs

def dropPlus : List Char → List Char
  | '+' :: cs => cs
  | cs => cs

/-- Reads a marker, a plus sign, both optional, and digits of a 64-bit number. -/
def parse? (s : String) : Option Address :=
  (Hex.read? (dropPlus (dropMarker s.toList))).bind fun n =>
    if n < UInt64.size then some (UInt64.ofNat n) else none

end Address

end Disasm
