import Disasm.Block
import Disasm.Instruction.Line

/-! # Listings

A listing shows blocks one after the other: a line of reasons and a marker for
static data where wanted, a line for each instruction, and an empty line. The
first statement that cannot be shown ends it; the text made so far remains.
-/

namespace Disasm

structure ListingOptions where
  maxBytes : Nat := 8
  blockLines : Bool := true
  showReasons : Bool := false
  deriving DecidableEq, Repr

inductive ListingError where
  | line (error : LineError)
  | data (block : BlockId) (address : Address)
  deriving DecidableEq, Repr

def ListingError.message : ListingError → String
  | line e => e.message
  | data b a => "block " ++ b.text ++ " has a non-instruction statement at " ++ a.text

structure Draft where
  text : String
  error : Option ListingError := none
  deriving DecidableEq

def Draft.finish (d : Draft) : Except ListingError String :=
  match d.error with
  | none => .ok d.text
  | some e => .error e

namespace Listing

def staticMarker : String := "; hey, this block is static data!"

def header (o : ListingOptions) (b : Block) : String :=
  (if o.showReasons then "; block reason: " ++ b.reasonText ++ "\n" else "") ++
    if b.staticData then staticMarker ++ "\n" else ""

def footer (o : ListingOptions) : String := if o.blockLines then "\n" else ""

def appendStatements (s : LineStyle) (id : BlockId) :
    String → List Statement → Logged Draft
  | out, [] => pure ⟨out, none⟩
  | out, .data a _ :: _ => pure ⟨out, some (.data id a)⟩
  | out, .instruction i :: rest => do
    match ← (i.line s).run with
    | .ok text => appendStatements s id (out ++ text ++ "\n") rest
    | .error e => pure ⟨out, some (.line e)⟩

def appendBlock (labels : Labels) (o : ListingOptions) (out : String) (b : Block) :
    Logged Draft := do
  let d ← appendStatements (.standard labels o.maxBytes) b.id (out ++ header o b) b.statements
  match d.error with
  | none => pure ⟨d.text ++ footer o, none⟩
  | some _ => pure d

/-- Appends the lines of some blocks, up to the first that cannot be shown. -/
def appendBlocks (labels : Labels) (o : ListingOptions) :
    String → List Block → Logged Draft
  | out, [] => pure ⟨out, none⟩
  | out, b :: bs => do
    let d ← appendBlock labels o out b
    match d.error with
    | none => appendBlocks labels o d.text bs
    | some _ => pure d

def ofBlocks (labels : Labels) (o : ListingOptions) (bs : List Block) :
    Attempt ListingError String := do
  let d ← ExceptT.lift (appendBlocks labels o "" bs)
  ExceptT.mk (pure d.finish)

end Listing

end Disasm
