import Disasm.Address
import Disasm.Listing
import Disasm.Terminal

/-! # The command line

One positional argument names the function file; five flags, three of which take
a value, say what to print, and a sixth asks for help instead. Arguments are taken
from left to right. A value that
stands apart from its flag is checked only when the next argument has found its
own place.
-/

namespace Disasm

structure Request where
  input : String
  labels : Option String := none
  options : ListingOptions := {}
  address : Option Address := none
  deriving DecidableEq

namespace CommandLine

inductive Flag where
  | labels
  | maxBytes
  | noBlockLines
  | reasons
  | address
  | help
  deriving DecidableEq, Repr

namespace Flag

def all : List Flag := [labels, maxBytes, noBlockLines, reasons, address, help]

def long : Flag → String
  | labels => "labels"
  | maxBytes => "max-bytes"
  | noBlockLines => "no-block-lines"
  | reasons => "reasons"
  | address => "address"
  | help => "help"

def letter? : Flag → Option Char
  | labels => some 'l'
  | maxBytes => some 'b'
  | noBlockLines => none
  | reasons => some 'r'
  | address => some 'a'
  | help => some 'h'

def takesValue : Flag → Bool
  | labels | maxBytes | address => true
  | noBlockLines | reasons | help => false

/-- A flag with its value as messages show it. -/
def usage : Flag → String
  | labels => "--labels <LABELS>"
  | maxBytes => "--max-bytes <MAX_BYTES>"
  | noBlockLines => "--no-block-lines"
  | reasons => "--reasons"
  | address => "--address <ADDRESS>"
  | help => "--help"

def purpose : Flag → String
  | labels => "Label file mapping hex addresses to names (JSON object)"
  | maxBytes => "Maximum raw bytes shown per instruction (0 hides the dump) [default: 8]"
  | noBlockLines => "Do not separate blocks with blank lines"
  | reasons => "Show why each block exists"
  | address => "Print only the instruction at this address"
  | help => "Print help"

def columnWidth : Nat := (all.map fun f => f.usage.length).foldl max 0

def helpLine (f : Flag) : String :=
  let letter := match f.letter? with
    | some c => "-" ++ String.singleton c ++ ", "
    | none => "    "
  "  " ++ letter ++ Instruction.padRight columnWidth f.usage ++ "  " ++ f.purpose ++ "\n"

def ofLong? (name : String) : Option Flag := all.find? fun f => f.long == name

def ofLetter? (c : Char) : Option Flag := all.find? fun f => f.letter? == some c

end Flag

def inputUsage : String := "<INPUT>"

def helpText : String :=
  "Print MASM-style disassembly listings\n\n" ++
    "Usage: unmasm [OPTIONS] " ++ inputUsage ++ "\n\n" ++
    "Arguments:\n  " ++ inputUsage ++ "  Path to the serialized function (JSON)\n\n" ++
    "Options:\n" ++ String.join (Flag.all.map Flag.helpLine)

inductive CountError where
  | empty
  | invalidDigit
  | tooLarge
  deriving DecidableEq, Repr

def CountError.message : CountError → String
  | empty => "cannot parse integer from empty string"
  | invalidDigit => "invalid digit found in string"
  | tooLarge => "number too large to fit in target type"

def countBound : Nat := UInt64.size

/-- The count that decimal digits continue; the first fault decides. -/
def countFrom (n : Nat) : List Char → Except CountError Nat
  | [] => .ok n
  | c :: cs =>
    if c.isDigit then
      let n := 10 * n + (c.toNat - '0'.toNat)
      if n < countBound then countFrom n cs else .error .tooLarge
    else .error .invalidDigit

/-- Reads a count: decimal digits, with a plus sign or without. -/
def parseCount (s : String) : Except CountError Nat :=
  match s.toList with
  | [] => .error .empty
  | ['+'] => .error .invalidDigit
  | '+' :: cs => countFrom 0 cs
  | cs => countFrom 0 cs

inductive UsageError where
  | unexpectedArgument (arg : String)
  | unexpectedValue (flag : Flag) (value : String)
  | missingValue (usage : String)
  | repeated (flag : Flag)
  | invalidValue (flag : Flag) (value reason : String)
  | missingInput
  deriving DecidableEq, Repr

def quoted (s : String) : String := "'" ++ Terminal.bold s ++ "'"

def UsageError.message : UsageError → String
  | unexpectedArgument arg => "unexpected argument " ++ quoted arg ++ " found"
  | unexpectedValue flag value =>
    "unexpected value " ++ quoted value ++ " for " ++ quoted flag.usage ++
      " found; no more were expected"
  | missingValue usage => "a value is required for " ++ quoted usage ++ " but none was supplied"
  | repeated flag => "the argument " ++ quoted flag.usage ++ " cannot be used multiple times"
  | invalidValue flag value reason =>
    "invalid value " ++ quoted value ++ " for " ++ quoted flag.usage ++ ": " ++ reason
  | missingInput => "the following required arguments were not provided:"

def helpHint : String := "For more information, try " ++ quoted "--help" ++ ".\n"

/-- The report about a command line that cannot be understood, without emphasis. -/
def UsageError.report (e : UsageError) : String :=
  Terminal.strip (Terminal.bold "error:" ++ " " ++ e.message ++ "\n\n" ++ helpHint)

inductive Stop where
  /-- Help is asked for, and no fault was found before. -/
  | help
  /-- The arguments cannot be understood. -/
  | misuse (error : UsageError)
  deriving DecidableEq, Repr

def refuse {α : Type} (e : UsageError) : Except Stop α := .error (.misuse e)

/-- What waits for the next argument to find its place. -/
inductive Pending where
  | nothing
  | flag (f : Flag)
  | value (f : Flag) (value : String)
  | input (value : String)
  deriving DecidableEq

structure Taken where
  input : Option String := none
  labels : Option String := none
  maxBytes : Option Nat := none
  noBlockLines : Bool := false
  reasons : Bool := false
  address : Option Address := none
  pending : Pending := .nothing
  positional : Bool := false
  escaped : Bool := false

namespace Taken

def has (t : Taken) : Flag → Bool
  | .labels => t.labels.isSome
  | .maxBytes => t.maxBytes.isSome
  | .noBlockLines => t.noBlockLines
  | .reasons => t.reasons
  | .address => t.address.isSome
  | .help => false

/-- A path may not be empty. -/
def path (usage value : String) : Except Stop String :=
  if value.isEmpty then refuse (.missingValue usage) else .ok value

/-- Stores a flag with its value; flags without a value ignore it. -/
def store (t : Taken) (f : Flag) (value : String) : Except Stop Taken :=
  if t.has f then refuse (.repeated f)
  else
    match f with
    | .labels => (path f.usage value).map fun p => { t with labels := some p }
    | .maxBytes =>
      match parseCount value with
      | .ok n => .ok { t with maxBytes := some n }
      | .error e => refuse (.invalidValue f value e.message)
    | .noBlockLines => .ok { t with noBlockLines := true }
    | .reasons => .ok { t with reasons := true }
    | .help => .error .help
    | .address =>
      match Address.parse? value with
      | some a => .ok { t with address := some a }
      | none => refuse (.invalidValue f value ("invalid hex address: " ++ value))

/-- Gives what was waiting its place. -/
def settle (t : Taken) : Except Stop Taken :=
  let settled := { t with pending := .nothing }
  match t.pending with
  | .nothing => .ok settled
  | .flag f => refuse (.missingValue f.usage)
  | .value f v => settled.store f v
  | .input v => (path inputUsage v).map fun p => { settled with input := some p }

/-- Takes a flag that stands without a value attached. -/
def takeFlag (t : Taken) (f : Flag) : Except Stop Taken := do
  let t ← t.settle
  if f.takesValue then .ok { t with pending := .flag f } else t.store f ""

def takeFlagWith (t : Taken) (f : Flag) (value : String) : Except Stop Taken := do
  let t ← t.settle
  t.store f value

/-- Takes an argument behind two dashes: a long name, and a value behind `=` if there is one. -/
def takeLong (t : Taken) (body : List Char) : Except Stop Taken :=
  let name := String.ofList (body.takeWhile (· != '='))
  match Flag.ofLong? name, body.dropWhile (· != '=') with
  | none, _ => refuse (.unexpectedArgument ("--" ++ name))
  | some f, [] => t.takeFlag f
  | some f, _ :: value =>
    if f.takesValue then t.takeFlagWith f (String.ofList value)
    else refuse (.unexpectedValue f (String.ofList value))

/-- Takes an argument behind one dash: letters of flags, the last of which may have a value. -/
def takeLetters (t : Taken) : List Char → Except Stop Taken
  | [] => .ok t
  | c :: cs =>
    match Flag.ofLetter? c with
    | none => refuse (.unexpectedArgument ("-" ++ String.singleton c))
    | some f =>
      if f.takesValue then
        match cs with
        | [] => t.takeFlag f
        | '=' :: value => t.takeFlagWith f (String.ofList value)
        | value => t.takeFlagWith f (String.ofList value)
      else do
        let t ← t.takeFlag f
        t.takeLetters cs

/-- Takes an argument that is not a flag: the input, which may be given once. -/
def takePositional (t : Taken) (arg : String) : Except Stop Taken :=
  if t.positional then refuse (.unexpectedArgument arg)
  else do
    let t ← t.settle
    .ok { t with pending := .input arg, positional := true }

def takePlain (t : Taken) (arg : String) : Except Stop Taken :=
  match t.pending with
  | .flag f => .ok { t with pending := .value f arg }
  | _ => t.takePositional arg

/-- Takes one argument. Behind `--` every argument is positional. -/
def take (t : Taken) (arg : String) : Except Stop Taken :=
  if t.escaped then t.takePositional arg
  else
    match arg.toList with
    | ['-', '-'] => .ok { t with escaped := true }
    | '-' :: '-' :: body => t.takeLong body
    | ['-'] => t.takePlain arg
    | '-' :: letters => t.takeLetters letters
    | _ => t.takePlain arg

def request (t : Taken) : Except Stop Request := do
  let t ← t.settle
  match t.input with
  | none => refuse .missingInput
  | some input =>
    .ok {
      input
      labels := t.labels
      options :=
        { maxBytes := t.maxBytes.getD 8
          blockLines := !t.noBlockLines
          showReasons := t.reasons }
      address := t.address }

end Taken

def parse (args : List String) : Except Stop Request := do
  let t ← args.foldlM Taken.take {}
  t.request

end CommandLine

end Disasm
