/-! # Decimal numerals

A numeral is a decimal number as it is written: a sign, a whole part, digits
behind the point and an exponent of ten. Its value is an integer times a power
of ten.
-/

namespace Disasm

structure Numeral where
  negative : Bool
  whole : Nat
  fraction : List (Fin 10) := []
  exponent : Option Int := none
  deriving DecidableEq, Repr, Inhabited

namespace Numeral

def ofNat (n : Nat) : Numeral := ⟨false, n, [], none⟩

def digit (d : Fin 10) : Char := Nat.digitChar d.val

/-- The decimal digit that a character between `0` and `9` stands for. -/
def ofChar (c : Char) : Fin 10 := Fin.ofNat 10 (c.toNat - '0'.toNat)

def zeroDigit : Fin 10 := 0

/-- The digits of a natural number, the highest first. -/
def digits (n : Nat) : List (Fin 10) := (Nat.toDigits 10 n).map ofChar

/-- The number that digits continue, given the number written before them. -/
def value (n : Nat) (ds : List (Fin 10)) : Nat := ds.foldl (fun n d => 10 * n + d.val) n

def fractionText : List (Fin 10) → String
  | [] => ""
  | ds => "." ++ String.ofList (ds.map digit)

/-- The exponent behind its mark, if there is one. It always has a sign. -/
def exponentText : Option Int → String
  | none => ""
  | some e => (if e < 0 then "e-" else "e+") ++ toString e.natAbs

def text (n : Numeral) : String :=
  (if n.negative then "-" else "") ++ toString n.whole ++ fractionText n.fraction ++
    exponentText n.exponent

/-- The number with its point moved behind the last digit. -/
def mantissa (n : Numeral) : Nat := value n.whole n.fraction

/-- The power of ten by which the mantissa counts. -/
def scale (n : Numeral) : Int := n.exponent.getD 0 - n.fraction.length

/-- The natural number that is written without sign, point and exponent. -/
def natural? (n : Numeral) : Option Nat :=
  if n.negative || !n.fraction.isEmpty || n.exponent.isSome then none else some n.whole

end Numeral

end Disasm
