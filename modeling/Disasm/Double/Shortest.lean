import Disasm.Double

/-! # Shortest decimals

The shortest decimal of a double precision number is the one of fewest digits
that reads back as that number, and of those the nearest to it. It is found by
trying ever finer powers of ten in exact integer arithmetic.
-/

namespace Disasm

/-- A decimal number, `digits * 10 ^ scale`. -/
structure Decimal where
  digits : Nat
  scale : Int
  deriving DecidableEq, Repr

inductive Tie where
  | toEven
  | up
  deriving DecidableEq, Repr

namespace Double

/-- The numbers that round to a given one, as multiples of a common unit. The
bounds belong to them if `closed` is set. -/
structure Interval where
  low : Nat
  middle : Nat
  high : Nat
  closed : Bool

def Interval.contains (i : Interval) (n : Nat) : Bool :=
  if i.closed then i.low ≤ n && n ≤ i.high else i.low < n && n < i.high

def Interval.mul (i : Interval) (factor : Nat) : Interval :=
  ⟨i.low * factor, i.middle * factor, i.high * factor, i.closed⟩

/-- What rounds to a number, in quarters of its lowest bit. Below a power of two
the neighbour is half as far. -/
def rounding (x : Double) : Interval :=
  let m := x.significand
  let below := if m = fieldUnit ∧ 1 < x.field then 1 else 2
  ⟨4 * m - below, 4 * m, 4 * m + 2, m % 2 = 0⟩

/-- Of the two multiples of `unit` around the middle, the one in the interval; if both are,
the nearer one. -/
def Interval.multiple? (tie : Tie) (i : Interval) (unit : Nat) : Option Nat :=
  let c := i.middle / unit
  let r := i.middle % unit
  match i.contains (c * unit), i.contains ((c + 1) * unit) with
  | true, false => some c
  | false, true => some (c + 1)
  | false, false => none
  | true, true =>
    if unit < 2 * r then some (c + 1)
    else if 2 * r < unit then some c
    else match tie with
      | .up => some (c + 1)
      | .toEven => some (if c % 2 = 0 then c else c + 1)

/-- The multiple of `10 ^ scale` that stands for a number, if one reads back as it. -/
def atScale? (tie : Tie) (x : Double) (scale : Int) : Option Nat :=
  let e := x.exponent - 2
  let i := x.rounding.mul (Nat.pow 2 e.toNat * Nat.pow 10 (-scale).toNat)
  i.multiple? tie (Nat.pow 2 (-e).toNat * Nat.pow 10 scale.toNat)

/-- Tries scales downwards, the first one that has an answer deciding. -/
def search (tie : Tie) (x : Double) (scale : Int) : Nat → Decimal
  | 0 => ⟨0, 0⟩
  | steps + 1 =>
    match x.atScale? tie scale with
    | some digits => ⟨digits, scale⟩
    | none => x.search tie (scale - 1) steps

/-- A scale at which a number is less than one unit. -/
def coarseScale (x : Double) : Int :=
  (Int.ofNat x.significand.log2 + 1 + x.exponent) * 30103 / 100000 + 2

/-- The shortest decimal of a finite number without its sign. Seventeen digits always
suffice. -/
def shortest (tie : Tie) (x : Double) : Decimal :=
  if x.significand = 0 then ⟨0, 0⟩ else x.search tie x.coarseScale 24

end Double

end Disasm
