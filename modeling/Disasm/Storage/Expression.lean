import Disasm.Expression
import Disasm.Double.Layout
import Disasm.Double.Reader
import Disasm.Storage.Register

/-! # Stored expressions

How operand types and operand expressions are stored. Reading recurses on the
levels of nesting that are left. How numbers are read is left open.
-/

namespace Disasm

def OperandType.toJson : OperandType → Json
  | .integer bits => .tagged "Integer" (.nat bits.toNat)
  | .float bits => .tagged "Float" (.nat bits.toNat)
  | .vector count element =>
    .tagged "Vector" (.record [("count", .nat count.toNat),
      ("element", element.toJson)])

def OperandType.ofJson : Decoder OperandType
  | room + 1, .object [(some "Integer", body)] => (Decoder.uint16 room body).map .integer
  | room + 1, .object [(some "Float", body)] => (Decoder.uint16 room body).map .float
  | room + 2, .object [(some "Vector", body)] => do
    match ← body.fields ["count", "element"] with
    | [some count, some element] =>
      let count ← Decoder.uint16 room count
      let element ← OperandType.ofJson room element
      pure (.vector count element)
    | _ => malformed
  | _, _ => malformed

def Double.toJson (x : Double) : Json := .number x.stored

variable [DoubleReader]

def Double.ofJson : Decoder Double
  | _, .number n => .ofOption (DoubleReader.read n)
  | _, _ => malformed

namespace Expression

/-- The stored form of a memory reference: its address, its segment or null, its type. -/
def memoryFields (address segment : Json) (type : OperandType) : Json :=
  .record [("address", address), ("segment", segment), ("ty", type.toJson)]

def toJson : Expression → Json
  | add l r => .tagged "Add" (.array [l.toJson, r.toJson])
  | subtract l r => .tagged "Subtract" (.array [l.toJson, r.toJson])
  | multiply l r => .tagged "Multiply" (.array [l.toJson, r.toJson])
  | shiftLeft l r => .tagged "ShiftLeft" (.array [l.toJson, r.toJson])
  | negate e => .tagged "Negate" e.toJson
  | memory a type => .tagged "MemoryReference" (memoryFields a.toJson .null type)
  | segmented s a type => .tagged "MemoryReference" (memoryFields a.toJson s.toJson type)
  | register r => .tagged "DirectRegister" r.toJson
  | indirect r index =>
    .tagged "IndirectRegister" (.record [("register", r.toJson),
      ("index", .nat index.toNat)])
  | integer v => .tagged "IntegerValue" v.toJson
  | float bits x =>
    .tagged "FloatValue" (.record [("bits", .nat bits.toNat), ("value", x.toJson)])
  | registerList rs => .tagged "RegisterList" (.array (rs.map Register.toJson))

/-- Reads the fields of a memory reference, given a reader for the expressions in it. -/
def memoryOfJson (inner : Json → Decoded Expression) (room : Nat) (j : Json) :
    Decoded Expression := do
  match ← j.fields ["address", "segment", "ty"] with
  | [some address, segment, some type] =>
    let address ← inner address
    let segment ← match segment with
      | none | some .null => pure none
      | some s => (inner s).map some
    let type ← OperandType.ofJson room type
    pure (.memoryReference address segment type)
  | _ => malformed

def indirectOfJson (room : Nat) (j : Json) : Decoded Expression := do
  match ← j.fields ["register", "index"] with
  | [some r, some index] =>
    let r ← Register.ofJson room r
    let index ← Decoder.uint8 room index
    pure (.indirect r index)
  | _ => malformed

def floatOfJson (room : Nat) (j : Json) : Decoded Expression := do
  match ← j.fields ["bits", "value"] with
  | [some bits, some value] =>
    let bits ← Decoder.uint16 room bits
    let value ← Double.ofJson room value
    pure (.float bits value)
  | _ => malformed

def binary? : String → Option (Expression → Expression → Expression)
  | "Add" => some add
  | "Subtract" => some subtract
  | "Multiply" => some multiply
  | "ShiftLeft" => some shiftLeft
  | _ => none

def leafOfJson (room : Nat) : String → Json → Decoded Expression
  | "DirectRegister", body => (Register.ofJson room body).map register
  | "IntegerValue", body => (Literal.ofJson room body).map integer
  | "RegisterList", body => (Decoder.list Register.ofJson room body).map registerList
  | "IndirectRegister", body =>
    match room with
    | 0 => malformed
    | room + 1 => indirectOfJson room body
  | "FloatValue", body =>
    match room with
    | 0 => malformed
    | room + 1 => floatOfJson room body
  | _, _ => malformed

def ofJson : Decoder Expression
  | room + 1, .object [(some "Negate", body)] => (ofJson room body).map negate
  | room + 2, .object [(some "MemoryReference", body)] => memoryOfJson (ofJson room) room body
  | room + 1, .object [(some tag, body)] =>
    match binary? tag with
    | none => leafOfJson room tag body
    | some op =>
      match room, body with
      | room + 1, .array [l, r] => do
        let l ← ofJson room l
        let r ← ofJson room r
        pure (op l r)
      | _, _ => malformed
  | _, _ => malformed

def memoryReferenceOfJson : Decoder Expression
  | room + 1, j => memoryOfJson (ofJson room) room j
  | _, _ => malformed

def memoryReferenceToJson : Expression → Option Json
  | memory a type => some (memoryFields a.toJson .null type)
  | segmented s a type => some (memoryFields a.toJson s.toJson type)
  | _ => none

end Expression

end Disasm
