import Disasm.Labels
import Disasm.Storage.Decode

/-! # Stored label tables

A label table is stored as an object from address texts to names, in ascending
order of address. Reading checks that all names are texts before it looks at any
address.
-/

namespace Disasm.Labels

def toJson (t : Labels) : Json := .record (t.entries.map fun e => (e.1.text, .text e.2))

/-- A key and a name, both of them texts. -/
def textMember : Json.Member → Decoded (String × String)
  | (some key, .string (some name)) => .ok (key, name)
  | _ => malformed

def binding (entry : String × String) : Decoded (Address × String) :=
  match Address.parse? entry.1 with
  | some a => .ok (a, entry.2)
  | none => .error (.badLabelAddress entry.1)

/-- Reads a label table; of two bindings of one address the later one counts. -/
def ofJson : Decoder Labels
  | _ + 1, .object members => do
    let entries ← members.mapM textMember
    let bindings ← entries.mapM binding
    pure (ofList bindings)
  | _, _ => malformed

end Disasm.Labels
