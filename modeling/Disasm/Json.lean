import Disasm.Numeral

/-! # JSON values

A JSON value as it is written: numbers keep their digits, objects the order and
repetition of their keys. A text that stops being JSON at some point still has a
value, in which a cut marks that point.
-/

namespace Disasm

/-- A JSON value. A string or a key is `none` where an escape leaves a surrogate alone,
so that no text corresponds to it. -/
inductive Json where
  | null
  | bool (b : Bool)
  | number (n : Numeral)
  | string (s : Option String)
  | array (items : List Json)
  | object (members : List (Option String × Json))
  | cut
  deriving Inhabited

namespace Json

abbrev Member := Option String × Json

def text (s : String) : Json := string (some s)

def nat (n : Nat) : Json := number (.ofNat n)

def record (fields : List (String × Json)) : Json :=
  object (fields.map fun f => (some f.1, f.2))

/-- An object with one member, whose key says what its value is. -/
def tagged (tag : String) (value : Json) : Json := object [(some tag, value)]

mutual

/-- Whether a value holds no cut. -/
def intact : Json → Bool
  | array items => intactItems items
  | object members => intactMembers members
  | cut => false
  | _ => true

def intactItems : List Json → Bool
  | [] => true
  | v :: vs => v.intact && intactItems vs

def intactMembers : List (Option String × Json) → Bool
  | [] => true
  | (_, v) :: ms => v.intact && intactMembers ms

end

end Json

end Disasm
