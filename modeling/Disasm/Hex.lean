/-! # Hexadecimal text

Numbers print in hexadecimal without leading zeros, lower or upper case, with
or without the marker `0x`. Reading takes one or more digits of either case.
-/

namespace Disasm.Hex

/-- Lower-case digits, no leading zeros, `0` for zero. -/
def lower (n : Nat) : String := String.ofList (Nat.toDigits 16 n)

def upper (n : Nat) : String := String.ofList ((Nat.toDigits 16 n).map Char.toUpper)

def marked (n : Nat) : String := "0x" ++ lower n

/-- Text with zeros put in front of it, up to a length. -/
def zeroPad (width : Nat) (text : String) : String :=
  String.ofList (List.replicate (width - text.length) '0') ++ text

def byte (b : UInt8) : String := zeroPad 2 (upper b.toNat)

def digit? (c : Char) : Option Nat :=
  if '0' ≤ c ∧ c ≤ '9' then some (c.toNat - '0'.toNat)
  else if 'a' ≤ c ∧ c ≤ 'f' then some (c.toNat - 'a'.toNat + 10)
  else if 'A' ≤ c ∧ c ≤ 'F' then some (c.toNat - 'A'.toNat + 10)
  else none

/-- The number that digits continue, given the number read before them. -/
def readFrom (n : Nat) : List Char → Option Nat
  | [] => some n
  | c :: cs => (digit? c).bind fun d => readFrom (16 * n + d) cs

def read? : List Char → Option Nat
  | [] => none
  | cs => readFrom 0 cs

end Disasm.Hex
