import Disasm.Register
import Disasm.Literal
import Disasm.Storage.Decode

/-! # Stored registers and literals

How architectures, registers and integer literals are stored.
-/

namespace Disasm

def Architecture.tags : List (String × Architecture) :=
  [("X86_64", .x86_64), ("X86", .x86), ("Arm64", .arm64), ("Arm", .arm),
   ("RiscV64", .riscV64), ("RiscV32", .riscV32)]

def Architecture.toJson : Architecture → Json
  | .x86_64 => .text "X86_64"
  | .x86 => .text "X86"
  | .arm64 => .text "Arm64"
  | .arm => .text "Arm"
  | .riscV64 => .text "RiscV64"
  | .riscV32 => .text "RiscV32"
  | .unknown machine => .tagged "Unknown" (.nat machine.toNat)

def Architecture.ofJson : Decoder Architecture := fun room j =>
  match j.variant? room with
  | some ("Unknown", some body) => (Decoder.uint16 (room - 1) body).map .unknown
  | _ => Json.unitVariant tags room j

def RegisterClass.tags : List (String × RegisterClass) :=
  [("General", .general), ("FloatingPoint", .floatingPoint), ("Vector", .vector),
   ("Segment", .segment), ("ProgramCounter", .programCounter), ("Flags", .flags)]

def RegisterClass.toJson : RegisterClass → Json
  | .general => .text "General"
  | .floatingPoint => .text "FloatingPoint"
  | .vector => .text "Vector"
  | .segment => .text "Segment"
  | .programCounter => .text "ProgramCounter"
  | .flags => .text "Flags"

def RegisterClass.ofJson : Decoder RegisterClass := Json.unitVariant tags

def Register.toJson (r : Register) : Json :=
  .record [("arch", r.arch.toJson), ("class", r.kind.toJson),
    ("id", .nat r.id.toNat), ("size", .nat r.size.toNat)]

def Register.ofJson : Decoder Register
  | room + 1, j => do
    match ← j.fields ["arch", "class", "id", "size"] with
    | [some arch, some kind, some id, some size] =>
      let arch ← Architecture.ofJson room arch
      let kind ← RegisterClass.ofJson room kind
      let id ← Decoder.uint16 room id
      let size ← Decoder.uint16 room size
      pure ⟨arch, kind, id, size⟩
    | _ => malformed
  | _, _ => malformed

def Width.tags : List (String × Width) :=
  [("W8", .w8), ("W16", .w16), ("W32", .w32), ("W64", .w64)]

def Width.toJson : Width → Json
  | .w8 => .text "W8"
  | .w16 => .text "W16"
  | .w32 => .text "W32"
  | .w64 => .text "W64"

def Width.ofJson : Decoder Width := Json.unitVariant tags

def Literal.toJson (v : Literal) : Json :=
  .record [("width", v.width.toJson), ("bits", .nat v.unsigned)]

/-- Reads a literal; bits above its width are dropped. -/
def Literal.ofJson : Decoder Literal
  | room + 1, j => do
    match ← j.fields ["width", "bits"] with
    | [some width, some bits] =>
      let width ← Width.ofJson room width
      let bits ← Decoder.natural UInt64.size room bits
      pure (.ofNat width bits)
    | _ => malformed
  | _, _ => malformed

end Disasm
