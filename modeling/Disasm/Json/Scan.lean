import Disasm.Numeral
import Disasm.Hex

/-! # Numbers and strings of JSON, character by character

Each scan is a state that takes one character at a time and knows whether what
it has taken so far is complete.
-/

namespace Disasm.Json

def digit? (c : Char) : Option (Fin 10) :=
  if c.isDigit then some (Numeral.ofChar c) else none

inductive NumberPart where
  | sign
  | zero
  | whole
  | point
  | fraction
  | mark
  | exponentSign
  | exponent
  deriving DecidableEq, Repr

/-- The part of a number that was taken. Digits of the fraction stand in reverse. -/
structure NumberScan where
  part : NumberPart
  negative : Bool := false
  whole : Nat := 0
  fraction : List (Fin 10) := []
  exponentNegative : Bool := false
  exponent : Nat := 0
  deriving DecidableEq, Repr

namespace NumberScan

/-- The first digit of the whole part; nothing may follow a zero. -/
def firstDigit (n : NumberScan) (d : Fin 10) : NumberScan :=
  { n with part := if d = Numeral.zeroDigit then .zero else .whole, whole := d.val }

def start? (c : Char) : Option NumberScan :=
  if c = '-' then some { part := .sign, negative := true }
  else (digit? c).map { part := .sign : NumberScan }.firstDigit

def afterWhole (n : NumberScan) (c : Char) : Option NumberScan :=
  if c = '.' then some { n with part := .point }
  else if c = 'e' ∨ c = 'E' then some { n with part := .mark }
  else none

def fractionDigit (n : NumberScan) (d : Fin 10) : NumberScan :=
  { n with part := .fraction, fraction := d :: n.fraction }

def exponentDigit (n : NumberScan) (d : Fin 10) : NumberScan :=
  { n with part := .exponent, exponent := 10 * n.exponent + d.val }

def step? (n : NumberScan) (c : Char) : Option NumberScan :=
  match n.part with
  | .sign => (digit? c).map n.firstDigit
  | .zero => n.afterWhole c
  | .whole =>
    match digit? c with
    | some d => some { n with whole := 10 * n.whole + d.val }
    | none => n.afterWhole c
  | .point => (digit? c).map n.fractionDigit
  | .fraction =>
    match digit? c with
    | some d => some (n.fractionDigit d)
    | none => if c = 'e' ∨ c = 'E' then some { n with part := .mark } else none
  | .mark =>
    if c = '+' then some { n with part := .exponentSign }
    else if c = '-' then some { n with part := .exponentSign, exponentNegative := true }
    else (digit? c).map n.exponentDigit
  | .exponentSign | .exponent => (digit? c).map n.exponentDigit

def signedExponent (n : NumberScan) : Int :=
  if n.exponentNegative then -Int.ofNat n.exponent else Int.ofNat n.exponent

def numeral? (n : NumberScan) : Option Numeral :=
  match n.part with
  | .zero | .whole => some ⟨n.negative, n.whole, [], none⟩
  | .fraction => some ⟨n.negative, n.whole, n.fraction.reverse, none⟩
  | .exponent => some ⟨n.negative, n.whole, n.fraction.reverse, some n.signedExponent⟩
  | _ => none

end NumberScan

inductive StringPart where
  | plain
  | escape
  | code (left : Nat) (value : Nat)
  deriving DecidableEq, Repr

/-- The part of a string that was taken. Its characters stand in reverse. `high` is a
surrogate that waits for its partner; `lone` says that one has waited in vain. -/
structure StringScan where
  chars : List Char := []
  high : Option Nat := none
  lone : Bool := false
  part : StringPart := .plain
  deriving DecidableEq, Repr

namespace StringScan

def push (s : StringScan) (c : Char) : StringScan :=
  { chars := c :: s.chars, high := none, lone := s.lone || s.high.isSome, part := .plain }

/-- One more character, written by a code of sixteen bits. -/
def pushUnit (s : StringScan) (u : Nat) : StringScan :=
  if 0xd800 ≤ u ∧ u < 0xdc00 then
    { s with high := some u, lone := s.lone || s.high.isSome, part := .plain }
  else if 0xdc00 ≤ u ∧ u < 0xe000 then
    match s.high with
    | some h =>
      { s with
        chars := Char.ofNat (0x10000 + (h - 0xd800) * 0x400 + (u - 0xdc00)) :: s.chars
        high := none
        part := .plain }
    | none => { s with lone := true, part := .plain }
  else s.push (Char.ofNat u)

/-- The character that a one-letter escape writes. -/
def unescape? : Char → Option Char
  | '"' => some '"'
  | '\\' => some '\\'
  | '/' => some '/'
  | 'b' => some '\x08'
  | 'f' => some '\x0c'
  | 'n' => some '\n'
  | 'r' => some '\r'
  | 't' => some '\t'
  | _ => none

/-- Takes one character other than the closing quote, if the string can go on with it. -/
def step? (s : StringScan) (c : Char) : Option StringScan :=
  match s.part with
  | .plain =>
    if c = '\\' then some { s with part := .escape }
    else if c < ' ' then none
    else some (s.push c)
  | .escape =>
    if c = 'u' then some { s with part := .code 3 0 } else (unescape? c).map s.push
  | .code left value =>
    (Hex.digit? c).map fun d =>
      let value := 16 * value + d
      match left with
      | 0 => s.pushUnit value
      | left + 1 => { s with part := .code left value }

/-- Whether a quote would close the string here. -/
def closes (s : StringScan) : Bool := s.part == .plain

/-- The text of the string, if no surrogate stands alone. -/
def text? (s : StringScan) : Option String :=
  if s.lone || s.high.isSome then none else some (String.ofList s.chars.reverse)

end StringScan

end Disasm.Json
