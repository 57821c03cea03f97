import Disasm.Double
import Disasm.Numeral

/-! # Reading numbers

As many digits of a number are read as fit 64 bits. What they say is rounded, and then
multiplied or divided by a power of ten. Every step rounds, so a number of many digits is
not always read as the one nearest to it.
-/

namespace Disasm

namespace Double

/-- The number nearest to `num / den * 2 ^ e`, or infinity. -/
def nearest (num den : Nat) (e : Int) : Double :=
  let m := nearestMagnitude (num * Nat.pow 2 e.toNat) (den * Nat.pow 2 (-e).toNat)
  ofMagnitude false (min m infinityPattern)

def ofNat (n : Nat) : Double := nearest n 1 0

/-- The product of two finite numbers without their signs. -/
def mul (x y : Double) : Double :=
  nearest (x.significand * y.significand) 1 (x.exponent + y.exponent)

/-- The quotient of two finite numbers without their signs, the second not zero. -/
def div (x y : Double) : Double :=
  nearest x.significand y.significand (x.exponent - y.exponent)

/-- The exponent of the greatest power of ten that is finite. -/
def maxTenPower : Nat := 308

def tenPower (n : Nat) : Double := ofNat (Nat.pow 10 n)

/-- Divides by the greatest power of ten as often as said and then by a rest, unless the
number gets zero before. -/
def divTenPower (rest : Nat) : Nat → Double → Double
  | 0, x => x.div (tenPower rest)
  | steps + 1, x =>
    if x.significand = 0 then x
    else divTenPower rest steps (x.div (tenPower maxTenPower))

/-- A number of units of a power of ten; none if it is too large. -/
def ofParts? (units : Nat) (exponent : Int) : Option Double :=
  let x := ofNat units
  let n := exponent.natAbs
  if exponent < 0 then
    let steps := (n - 1) / maxTenPower
    some (divTenPower (n - steps * maxTenPower) steps x)
  else if n ≤ maxTenPower then
    let y := x.mul (tenPower n)
    if y.isFinite then some y else none
  else if x.significand = 0 then some x
  else none

end Double

namespace Numeral

/-- Lets digits continue a number as long as it stays below `2 ^ 64`. The second number
counts the digits from the first one on that does not fit. -/
def accumulate (n : Nat) : List (Fin 10) → Nat × Nat
  | [] => (n, 0)
  | d :: ds =>
    if 10 * n + d.val < UInt64.size then accumulate (10 * n + d.val) ds else (n, ds.length + 1)

/-- The digits that are read, as a number of units, and the power of ten that is the unit. Digits
of the whole part that do not fit count for the power, those behind the point for nothing. -/
def parts (n : Numeral) : Nat × Int :=
  let (whole, skipped) := accumulate 0 (digits n.whole)
  let (units, dropped) := accumulate whole n.fraction
  (units, n.exponent.getD 0 + skipped - (n.fraction.length - dropped : Nat))

def double? (n : Numeral) : Option Double :=
  let (units, exponent) := n.parts
  (Double.ofParts? units exponent).map fun x => .ofMagnitude n.negative x.magnitude

end Numeral

/-- How double precision numbers are read. -/
class DoubleReader where
  read : Numeral → Option Double

instance : DoubleReader := ⟨Numeral.double?⟩

end Disasm
