import Disasm.CommandLine
import Disasm.FlowGraph.Order
import Disasm.Storage.FunctionFile

/-! # The program

A run reads the files that the command line names and prints a listing, or one
line of it. It succeeds with all of the text, or fails with a report and no text.
-/

namespace Disasm

inductive ReadError where
  | notFound
  | isDirectory
  | other (message : String)
  deriving DecidableEq, Repr

def ReadError.message : ReadError → String
  | notFound => "No such file or directory (os error 2)"
  | isDirectory => "Is a directory (os error 21)"
  | other message => message

abbrev Files := String → Except ReadError String

def StorageError.causes : StorageError → List String
  | malformed => []
  | badLabelAddress key => ["invalid label address: " ++ key]

inductive FileKind where
  | function
  | label
  deriving DecidableEq, Repr

def FileKind.name : FileKind → String
  | function => "function file"
  | label => "label file"

inductive Failure where
  | unreadable (kind : FileKind) (path : String) (error : ReadError)
  | unparsable (kind : FileKind) (path : String) (error : StorageError)
  | noInstruction (address : Address)
  | line (error : LineError)
  | graph (error : FunctionFile.GraphError)
  | listing (title : String) (error : ListingError)
  deriving DecidableEq, Repr

namespace Failure

def message : Failure → String
  | unreadable kind path _ => "Failed to read " ++ kind.name ++ ": " ++ path
  | unparsable kind path _ => "Failed to parse " ++ kind.name ++ ": " ++ path
  | noInstruction a => "no instruction at " ++ a.text
  | line e => e.message
  | graph e => e.message
  | listing title _ => "Failed to render function " ++ title

/-- The messages below the message, each the cause of the one before it. -/
def causes : Failure → List String
  | unreadable _ _ e => [e.message]
  | unparsable _ _ e => e.causes
  | noInstruction _ => []
  | line e => [e.kind.message]
  | graph e => e.causes
  | listing _ (.line e) => [e.message, e.kind.message]
  | listing _ (.data b a) => [(ListingError.data b a).message]

/-- Causes on lines of their own, numbered from `i` on. -/
def numbered : Nat → List String → String
  | _, [] => ""
  | i, c :: cs => "    " ++ toString i ++ ": " ++ c ++ "\n" ++ numbered (i + 1) cs

/-- The part of a report that lists causes; a single cause has no number. -/
def causesText : List String → String
  | [] => ""
  | [c] => "\nCaused by:\n    " ++ c ++ "\n"
  | cs => "\nCaused by:\n" ++ numbered 0 cs

def report (f : Failure) : String := "Error: " ++ f.message ++ "\n" ++ causesText f.causes

end Failure

def Files.load {α : Type} (files : Files) (kind : FileKind) (parse : String → Decoded α)
    (path : String) : Except Failure α :=
  match files path with
  | .error e => .error (.unreadable kind path e)
  | .ok text =>
    match parse text with
    | .error e => .error (.unparsable kind path e)
    | .ok a => .ok a

def Files.function (files : Files) (path : String) : Except Failure FunctionFile :=
  files.load .function FunctionFile.parse path

/-- The labels of a function, with those of a label file over them if there is one. -/
def Files.mergedLabels (files : Files) (f : FunctionFile) :
    Option String → Except Failure Labels
  | none => .ok f.labels
  | some path => (files.load .label Labels.parse path).map f.labels.override

namespace FunctionFile

/-- The line of the first instruction at an address, and a line feed. -/
def lineAt (f : FunctionFile) (labels : Labels) (maxBytes : Nat) (a : Address) :
    Except Failure String :=
  match f.instructionAt? a with
  | none => .error (.noInstruction a)
  | some i =>
    match (i.line (.standard labels maxBytes)).run.value with
    | .ok text => .ok (text ++ "\n")
    | .error e => .error (.line e)

def listing (f : FunctionFile) (labels : Labels) (o : ListingOptions) : Except Failure String :=
  match f.graph with
  | .error e => .error (.graph e)
  | .ok g =>
    match (Listing.ofBlocks labels o g.flowOrder).run.value with
    | .ok text => .ok text
    | .error e => .error (.listing f.title e)

end FunctionFile

def Request.answer (r : Request) (files : Files) : Except Failure String := do
  let f ← files.function r.input
  let labels ← files.mergedLabels f r.labels
  match r.address with
  | some a => f.lineAt labels r.options.maxBytes a
  | none => f.listing labels r.options

structure Outcome where
  exitCode : UInt32
  output : String
  errors : String
  deriving DecidableEq, Repr

/-- Runs the program. Help is given, and a command line that cannot be understood is
refused, before any file is read. -/
def run (args : List String) (files : Files) : Outcome :=
  match CommandLine.parse args with
  | .error .help => ⟨0, CommandLine.helpText, ""⟩
  | .error (.misuse e) => ⟨2, "", e.report⟩
  | .ok r =>
    match r.answer files with
    | .error f => ⟨1, "", f.report⟩
    | .ok text => ⟨0, text, ""⟩

end Disasm
