import Disasm.Expression
import Disasm.Operand.Naming

/-! # Indexed addresses

An indexed address adds a base register, an index register times a scale and a
displacement. Decoders group and order the three terms in every way; all of
them print as `[base+index*scale+displacement]`.
-/

namespace Disasm

structure IndexedAddress where
  base : Register
  index : Register
  scale : Literal
  displacement : Literal
  deriving DecidableEq

namespace IndexedAddress

/-- What one term of a sum does in an indexed address. -/
inductive Term where
  | base (r : Register)
  | index (r : Register) (scale : Literal)
  | displacement (v : Literal)
  deriving DecidableEq

def Term.ofExpression? : Expression → Option Term
  | .register r => some (.base r)
  | .integer v => some (.displacement v)
  | .multiply (.register r) (.integer v) | .multiply (.integer v) (.register r) =>
    some (.index r v)
  | _ => none

/-- One term of each part, in any order. -/
def ofTerms? : Term → Term → Term → Option IndexedAddress
  | .base b, .index x s, .displacement d
  | .base b, .displacement d, .index x s
  | .index x s, .base b, .displacement d
  | .index x s, .displacement d, .base b
  | .displacement d, .base b, .index x s
  | .displacement d, .index x s, .base b => some ⟨b, x, s, d⟩
  | _, _, _ => none

/-- The terms of a sum of three; the sum on the left is split first. -/
def threeTerms? : Expression → Option (Expression × Expression × Expression)
  | .add (.add a b) c => some (a, b, c)
  | .add a (.add b c) => some (a, b, c)
  | _ => none

/-- The indexed address that an expression adds up to. A scale of zero is none. -/
def ofExpression? (e : Expression) : Option IndexedAddress := do
  let (a, b, c) ← threeTerms? e
  let i ← ofTerms? (← Term.ofExpression? a) (← Term.ofExpression? b) (← Term.ofExpression? c)
  if i.scale.unsigned = 0 then none else some i

/-- The factor of the index in hexadecimal without a marker; a factor of one is left out. -/
def scaleText (scale : Literal) : String :=
  if scale.unsigned = 1 then "" else "*" ++ Hex.lower scale.unsigned

/-- The displacement with a sign, taken from the highest bit of its own width. -/
def displacementText (d : Literal) : String :=
  if d.isNegative then "-" ++ Hex.marked d.signed.natAbs else "+" ++ Hex.marked d.unsigned

def text (i : IndexedAddress) (name : Register → String) : String :=
  "[" ++ name i.base ++ "+" ++ name i.index ++ scaleText i.scale ++
    displacementText i.displacement ++ "]"

end IndexedAddress

end Disasm
