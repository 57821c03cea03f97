/-! # Double precision numbers

A number of the IEEE format binary64, held as its bit pattern. A finite one
other than zero is `significand * 2 ^ exponent` with a sign, where the
significand has at most 53 bits.
-/

namespace Disasm

structure Double where
  bits : UInt64
  deriving DecidableEq, Repr, Inhabited

namespace Double

/-- The weight of the lowest bit of the exponent field. -/
def fieldUnit : Nat := Nat.pow 2 52

/-- The pattern of positive infinity; smaller patterns are finite and not negative. -/
def infinityPattern : Nat := 2047 * fieldUnit

/-- The exponent of the lowest bit of a subnormal number. -/
def minExponent : Int := -1074

/-- The pattern without the sign bit. -/
def magnitude (x : Double) : Nat := x.bits.toNat % Nat.pow 2 63

def negative (x : Double) : Bool := Nat.pow 2 63 ≤ x.bits.toNat

def isFinite (x : Double) : Bool := x.magnitude < infinityPattern

/-- The pattern of a magnitude below `2 ^ 63` with a sign. -/
def ofMagnitude (negative : Bool) (magnitude : Nat) : Double :=
  ⟨UInt64.ofNat (if negative then Nat.pow 2 63 + magnitude else magnitude)⟩

/-- The exponent field: zero for zero and the subnormal numbers. -/
def field (x : Double) : Nat := x.magnitude / fieldUnit

/-- The integer that a finite number is a power of two times. -/
def significand (x : Double) : Nat :=
  if x.field = 0 then x.magnitude else x.magnitude % fieldUnit + fieldUnit

/-- The power of two by which the significand counts. -/
def exponent (x : Double) : Int :=
  if x.field = 0 then minExponent else x.field - 1 + minExponent

/-- A quotient rounded to the nearest integer, a half to the even one. -/
def roundQuotient (num den : Nat) : Nat :=
  let q := num / den
  let r := num % den
  if den < 2 * r ∨ (den = 2 * r ∧ q % 2 = 1) then q + 1 else q

/-- The exponent at which a positive quotient has 53 bits, or the least exponent. -/
def quotientExponent (num den : Nat) : Int :=
  let e : Int := Int.ofNat num.log2 - Int.ofNat den.log2 - 52
  let short : Bool :=
    if e < 0 then num * Nat.pow 2 e.natAbs < Nat.pow 2 52 * den
    else num < Nat.pow 2 52 * den * Nat.pow 2 e.natAbs
  max (if short then e - 1 else e) minExponent

/-- The magnitude of the number nearest to a quotient. Rounding up to the next
power of two carries into the exponent field by itself. -/
def nearestMagnitude (num den : Nat) : Nat :=
  if num = 0 then 0
  else
    let e := quotientExponent num den
    let m :=
      if e < 0 then roundQuotient (num * Nat.pow 2 e.natAbs) den
      else roundQuotient num (den * Nat.pow 2 e.natAbs)
    (e - minExponent).toNat * fieldUnit + m

end Double

end Disasm
