import Disasm.Json

/-! # Decoding stored values

The steps by which a JSON value becomes a value of the model. Containers may nest
only so deep: `room` says how many levels are left. What a reader does not look
at has to be JSON, and may nest at will.
-/

namespace Disasm

/-- How many arrays and objects a stored value may nest. -/
def nestingLimit : Nat := 127

inductive StorageError where
  | malformed
  | badLabelAddress (key : String)
  deriving DecidableEq, Repr

abbrev Decoded (α : Type) := Except StorageError α

/-- A way to decode a JSON value with some levels of nesting left. -/
abbrev Decoder (α : Type) := Nat → Json → Decoded α

def malformed {α : Type} : Decoded α := .error .malformed

def Decoded.ofOption {α : Type} : Option α → Decoded α
  | some a => .ok a
  | none => malformed

namespace Decoder

def text : Decoder String
  | _, .string (some s) => .ok s
  | _, _ => malformed

def flag : Decoder Bool
  | _, .bool b => .ok b
  | _, _ => malformed

/-- A natural number below a bound, written without sign, point and exponent. -/
def natural (bound : Nat) : Decoder Nat
  | _, .number n =>
    match n.natural? with
    | some k => if k < bound then .ok k else malformed
    | none => malformed
  | _, _ => malformed

def uint8 : Decoder UInt8 := fun room j => (natural UInt8.size room j).map UInt8.ofNat

def uint16 : Decoder UInt16 := fun room j => (natural UInt16.size room j).map UInt16.ofNat

def uint32 : Decoder UInt32 := fun room j => (natural UInt32.size room j).map UInt32.ofNat

def uint64 : Decoder UInt64 := fun room j => (natural UInt64.size room j).map UInt64.ofNat

def list {α : Type} (item : Decoder α) : Decoder (List α)
  | room + 1, .array items => items.mapM (item room)
  | _, _ => malformed

def pair {α β : Type} (first : Decoder α) (second : Decoder β) : Decoder (α × β)
  | room + 1, .array [a, b] => do
    let a ← first room a
    let b ← second room b
    pure (a, b)
  | _, _ => malformed

end Decoder

namespace Json

/-- A tagged value: a bare tag, or an object with one member. -/
def variant? : Nat → Json → Option (String × Option Json)
  | _, .string (some tag) => some (tag, none)
  | _ + 1, .object [(some tag, body)] => some (tag, some body)
  | _, _ => none

/-- The value that a tag without content stands for in a table. -/
def unitVariant {α : Type} (table : List (String × α)) : Decoder α := fun room j =>
  match j.variant? room with
  | some (tag, none) | some (tag, some .null) => .ofOption (table.lookup tag)
  | _ => malformed

/-- Puts a member where its name belongs, unless that place is taken. An unknown name is
passed over if its value is JSON. -/
def place (names : List String) (slots : List (Option Json)) :
    Member → Decoded (List (Option Json))
  | (none, _) => malformed
  | (some key, v) =>
    match names.idxOf? key with
    | none => if v.intact then .ok slots else malformed
    | some i =>
      match slots[i]? with
      | some none => .ok (slots.set i (some v))
      | _ => malformed

/-- The fields of a record in the order of their names, from an object or from an array in
which the last ones may be missing. -/
def fields (names : List String) : Json → Decoded (List (Option Json))
  | .object members => members.foldlM (place names) (names.map fun _ => none)
  | .array items =>
    if items.length ≤ names.length then
      .ok (items.map some ++ List.replicate (names.length - items.length) none)
    else malformed
  | _ => malformed

def orElse {α : Type} (j : Option Json) (decode : Json → Decoded α) (default : α) : Decoded α :=
  match j with
  | some j => decode j
  | none => .ok default

end Json

end Disasm
