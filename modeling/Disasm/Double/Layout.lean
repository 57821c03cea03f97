import Disasm.Double.Shortest
import Disasm.Numeral

/-! # Layouts of shortest decimals

Listings write every number positionally. Stored numbers always have a point
or an exponent; the exponent is used far from one.
-/

namespace Disasm

namespace Decimal

/-- All digits of a decimal, its point moved by whole zeros where it lies outside them. -/
def positional (negative : Bool) (d : Decimal) : Numeral :=
  if 0 ≤ d.scale then ⟨negative, d.digits * Nat.pow 10 d.scale.toNat, [], none⟩
  else
    let places := d.scale.natAbs
    let unit := Nat.pow 10 places
    let low := Numeral.digits (d.digits % unit)
    ⟨negative, d.digits / unit, List.replicate (places - low.length) Numeral.zeroDigit ++ low, none⟩

/-- One digit before the point and the others behind it, with an exponent. -/
def scientific (negative : Bool) (d : Decimal) : Numeral :=
  match Numeral.digits d.digits with
  | [] => ⟨negative, 0, [], some d.scale⟩
  | h :: t => ⟨negative, h.val, t, some (d.scale + t.length)⟩

end Decimal

namespace Double

/-- A finite number as listings write it; a tie between two shortest decimals goes up. -/
def listed (x : Double) : Numeral := (x.shortest .up).positional x.negative

def text (x : Double) : String :=
  if x.isFinite then x.listed.text
  else if x.magnitude = infinityPattern then (if x.negative then "-inf" else "inf")
  else "NaN"

/-- The least position of the point, from the first digit, at which a stored number
has no exponent. -/
def leastStoredPoint : Int := -4

def greatestStoredPoint : Int := 16

/-- A tenths digit is written even if it is zero. -/
def withTenths (n : Numeral) : Numeral :=
  if n.fraction.isEmpty then { n with fraction := [Numeral.zeroDigit] } else n

/-- The number as it is stored; a tie between two shortest decimals goes to the even one. -/
def stored (x : Double) : Numeral :=
  let d := x.shortest .toEven
  let point := Int.ofNat (Numeral.digits d.digits).length + d.scale
  if leastStoredPoint ≤ point ∧ point ≤ greatestStoredPoint then
    withTenths (d.positional x.negative)
  else d.scientific x.negative

end Double

end Disasm
