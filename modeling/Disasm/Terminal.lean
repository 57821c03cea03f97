/-! # Terminal text

Messages may be emphasised by control sequences of a terminal. Where the text does
not go to a terminal, `strip` takes out all such sequences, complete or not, and
every control character that is not a blank. Only a blank interrupts a sequence.
-/

namespace Disasm.Terminal

inductive Phase where
  /-- Text that is shown. -/
  | ground
  /-- An escape that has just begun. -/
  | escape
  /-- An escape of several characters. -/
  | intermediate
  /-- A control sequence, which a letter ends. -/
  | sequence
  /-- An operating system command, which a bell ends. -/
  | command
  /-- A device control string before its parameters. -/
  | deviceEntry
  /-- A device control string within its parameters. -/
  | deviceParameters
  /-- A device control string behind its parameters. -/
  | deviceIntermediate
  /-- A string for a device or an application, or one with bad parameters. -/
  | payload
  deriving DecidableEq, Repr

/-- The control characters that count as blanks and are shown. -/
def isBlank (c : Char) : Bool := c == '\t' || c == '\n' || c == '\x0c' || c == '\r'

def isShown (c : Char) : Bool := isBlank c || (' ' ≤ c && c != '\x7f')

/-- The phase behind the first character of an escape. -/
def opened (c : Char) : Phase :=
  if c < '0' then .intermediate
  else
    match c with
    | '[' => .sequence
    | ']' => .command
    | 'P' => .deviceEntry
    | 'X' | '^' | '_' => .payload
    | _ => .ground

def graphic (c : Char) : Phase → Phase
  | .escape => opened c
  | .intermediate => if c < '0' then .intermediate else .ground
  | .sequence => if c < '@' then .sequence else .ground
  | .deviceEntry =>
    if c < '0' then .deviceIntermediate else if c < '@' then .deviceParameters else .payload
  | .deviceParameters =>
    if c < '0' then .deviceIntermediate else if c < '<' then .deviceParameters else .payload
  | .deviceIntermediate => if c < '0' then .deviceIntermediate else .payload
  | p => p

/-- A string for a device ends at the byte that terminates strings, even within a character. -/
def terminates (c : Char) : Bool := (String.utf8EncodeChar c).contains 0x9c

def hidden (c : Char) (p : Phase) : Phase :=
  if c = '\x1b' then .escape
  else if c = '\x18' ∨ c = '\x1a' then .ground
  else if c < ' ' then if p = .command ∧ c = '\x07' then .ground else p
  else if c < '\x7f' then graphic c p
  else if p = .payload ∧ terminates c then .ground
  else p

def Phase.showsBlanks : Phase → Bool
  | .ground | .escape | .intermediate | .sequence => true
  | _ => false

/-- A place in a text. A blank within an escape or a control sequence interrupts it: the
text is shown up to the next character that plain text hides, and there it goes on. -/
structure Place where
  /-- The phase of the sequence that goes on where the text is hidden again. -/
  phase : Phase
  /-- The character just read was shown. -/
  shown : Bool
  deriving DecidableEq, Repr

/-- A character beyond ASCII that is shown gives up a sequence that was interrupted. -/
def resumed (c : Char) (p : Phase) : Phase := if c < '\x7f' then p else .ground

def step (s : Place) (c : Char) : Place :=
  if isShown c ∧ (s.shown ∨ s.phase = .ground ∨ (isBlank c ∧ s.phase.showsBlanks)) then
    ⟨resumed c s.phase, true⟩
  else ⟨hidden c s.phase, false⟩

def stripFrom : Place → List Char → List Char
  | _, [] => []
  | s, c :: cs =>
    let s := step s c
    if s.shown then c :: stripFrom s cs else stripFrom s cs

def strip (s : String) : String := String.ofList (stripFrom ⟨.ground, true⟩ s.toList)

def bold (s : String) : String := "\x1b[1m" ++ s ++ "\x1b[0m"

end Disasm.Terminal
