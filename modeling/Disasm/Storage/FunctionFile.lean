import Disasm.FunctionFile
import Disasm.Json.Reader
import Disasm.Storage.Block
import Disasm.Storage.Labels

/-! # Stored function files and label files

A function file is read field by field in the order of its text, so that the
first mistake in the text is the one that is reported.
-/

namespace Disasm

namespace FunctionFile

structure Fields where
  name : Option String := none
  entry : Option BlockId := none
  blocks : Option (List Block) := none
  edges : Option (List Edge) := none
  labels : Option Labels := none

namespace Fields

def fill {α : Type} (place : Option α) (decode : Json → Decoded α) (j : Json) :
    Decoded (Option α) :=
  match place with
  | some _ => malformed
  | none => (decode j).map some

/-- Reads one more field. An unknown one is passed over if its value is JSON. -/
def read (room : Nat) (f : Fields) (key : String) (j : Json) : Decoded Fields :=
  match key with
  | "name" => do
    let name ← fill f.name (Decoder.text room) j
    pure { f with name }
  | "entry" => do
    let entry ← fill f.entry (BlockId.ofJson room) j
    pure { f with entry }
  | "blocks" => do
    let blocks ← fill f.blocks (Decoder.list Block.ofJson room) j
    pure { f with blocks }
  | "edges" => do
    let edge := Decoder.pair BlockId.ofJson BlockId.ofJson
    let edges ← fill f.edges (Decoder.list edge room) j
    pure { f with edges }
  | "labels" => do
    let labels ← fill f.labels (Labels.ofJson room) j
    pure { f with labels }
  | _ => if j.intact then pure f else malformed

def readMember (room : Nat) (f : Fields) : Json.Member → Decoded Fields
  | (some key, j) => f.read room key j
  | (none, _) => malformed

/-- The file with these fields. Only the blocks have to be there. -/
def file (f : Fields) : Decoded FunctionFile :=
  match f.blocks with
  | none => malformed
  | some blocks =>
    .ok {
      name := f.name.getD ""
      entry := f.entry.getD ⟨0⟩
      blocks
      edges := f.edges.getD []
      labels := f.labels.getD .empty }

end Fields

def fieldNames : List String := ["name", "entry", "blocks", "edges", "labels"]

/-- Reads a function file from an object, or from an array of its fields. -/
def ofJson : Decoder FunctionFile
  | room + 1, .object members => do
    let fields ← members.foldlM (Fields.readMember room) {}
    fields.file
  | room + 1, .array items => do
    let fields ← (fieldNames.zip items).foldlM (fun (f : Fields) m => f.read room m.1 m.2) {}
    if items.length ≤ fieldNames.length then fields.file else malformed
  | _, _ => malformed

end FunctionFile

/-- Decodes the value of a text that says nothing else. A mistake in the value comes before
whatever follows it. -/
def decodeText {α : Type} (decode : Decoder α) (text : String) : Decoded α := do
  let r := Json.read text
  let a ← decode nestingLimit r.value
  if r.complete then pure a else malformed

def FunctionFile.parse (text : String) : Decoded FunctionFile := decodeText ofJson text

def Labels.parse (text : String) : Decoded Labels := decodeText ofJson text

end Disasm
