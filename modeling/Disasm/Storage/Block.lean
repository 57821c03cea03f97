import Disasm.Block
import Disasm.Storage.Expression

/-! # Stored instructions and blocks

How instructions, statements and basic blocks are stored. The reasons of a block
and its mark for static data may be left out.
-/

namespace Disasm

variable [DoubleReader]

def bytesToJson (bytes : List UInt8) : Json := .array (bytes.map fun b => .nat b.toNat)

def Instruction.toJson (i : Instruction) : Json :=
  .record [("address", .nat i.address.toNat), ("arch", i.arch.toJson),
    ("mnemonic", .text i.mnemonic), ("operands", .array (i.operands.map Expression.toJson)),
    ("bytes", bytesToJson i.bytes)]

def Instruction.ofJson : Decoder Instruction
  | room + 1, j => do
    match ← j.fields ["address", "arch", "mnemonic", "operands", "bytes"] with
    | [some address, some arch, some mnemonic, some operands, some bytes] =>
      let address ← Decoder.uint64 room address
      let arch ← Architecture.ofJson room arch
      let mnemonic ← Decoder.text room mnemonic
      let operands ← Decoder.list Expression.ofJson room operands
      let bytes ← Decoder.list Decoder.uint8 room bytes
      pure ⟨address, arch, mnemonic, operands, bytes⟩
    | _ => malformed
  | _, _ => malformed

namespace Statement

def toJson : Statement → Json
  | instruction i => .tagged "Instruction" i.toJson
  | data address bytes =>
    .tagged "Data" (.record [("address", .nat address.toNat), ("bytes", bytesToJson bytes)])

def dataOfJson (room : Nat) (j : Json) : Decoded Statement := do
  match ← j.fields ["address", "bytes"] with
  | [some address, some bytes] =>
    let address ← Decoder.uint64 room address
    let bytes ← Decoder.list Decoder.uint8 room bytes
    pure (.data address bytes)
  | _ => malformed

def ofJson : Decoder Statement
  | room + 1, .object [(some "Instruction", body)] =>
    (Instruction.ofJson room body).map .instruction
  | room + 2, .object [(some "Data", body)] => dataOfJson room body
  | _, _ => malformed

end Statement

def BlockId.toJson (b : BlockId) : Json := .nat b.index.toNat

def BlockId.ofJson : Decoder BlockId := fun room j => (Decoder.uint32 room j).map BlockId.mk

def BlockReason.tags : List (String × BlockReason) :=
  [("EntryPoint", .entryPoint), ("CallTarget", .callTarget), ("JumpTarget", .jumpTarget),
   ("Fallthrough", .fallthrough), ("JumpTable", .jumpTable), ("Padding", .padding),
   ("Leftover", .leftover)]

def BlockReason.toJson : BlockReason → Json
  | .entryPoint => .text "EntryPoint"
  | .callTarget => .text "CallTarget"
  | .jumpTarget => .text "JumpTarget"
  | .fallthrough => .text "Fallthrough"
  | .jumpTable => .text "JumpTable"
  | .padding => .text "Padding"
  | .leftover => .text "Leftover"

def BlockReason.ofJson : Decoder BlockReason := Json.unitVariant tags

namespace Block

def toJson (b : Block) : Json :=
  .record [("id", b.id.toJson), ("start", .nat b.start.toNat),
    ("statements", .array (b.statements.map Statement.toJson)),
    ("reasons", .array (b.reasons.map BlockReason.toJson)), ("static_data", .bool b.staticData)]

def ofJson : Decoder Block
  | room + 1, j => do
    match ← j.fields ["id", "start", "statements", "reasons", "static_data"] with
    | [some id, some start, some statements, reasons, staticData] =>
      let id ← BlockId.ofJson room id
      let start ← Decoder.uint64 room start
      let statements ← Decoder.list Statement.ofJson room statements
      let reasons ← Json.orElse reasons (Decoder.list BlockReason.ofJson room) []
      let staticData ← Json.orElse staticData (Decoder.flag room) false
      pure ⟨id, start, statements, reasons, staticData⟩
    | _ => malformed
  | _, _ => malformed

end Block

end Disasm
