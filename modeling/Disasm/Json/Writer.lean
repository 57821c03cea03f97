import Disasm.Json
import Disasm.Hex

/-! # Writing JSON

Values are written without blanks. In a string only the quote, the backslash and
the characters below the blank are escaped.
-/

namespace Disasm.Json

/-- The escape of a character by its code, in four lower-case digits. -/
def codeEscape (n : Nat) : String := "\\u" ++ Hex.zeroPad 4 (Hex.lower n)

def escape (c : Char) : String :=
  if c = '"' then "\\\""
  else if c = '\\' then "\\\\"
  else if c = '\n' then "\\n"
  else if c = '\r' then "\\r"
  else if c = '\t' then "\\t"
  else if c = '\x08' then "\\b"
  else if c = '\x0c' then "\\f"
  else if c < ' ' then codeEscape c.toNat
  else String.singleton c

/-- A string between its quotes. A string without a text is written as a lone surrogate. -/
def quote : Option String → String
  | some s => "\"" ++ String.join (s.toList.map escape) ++ "\""
  | none => "\"" ++ codeEscape 0xd800 ++ "\""

mutual

def write : Json → String
  | null => "null"
  | bool b => if b then "true" else "false"
  | number n => n.text
  | string s => quote s
  | array [] => "[]"
  | array (v :: vs) => "[" ++ v.write ++ writeItems vs ++ "]"
  | object [] => "\x7b\x7d"
  | object ((k, v) :: ms) => "\x7b" ++ quote k ++ ":" ++ v.write ++ writeMembers ms ++ "\x7d"
  | cut => ""

/-- The text of the items behind the first. -/
def writeItems : List Json → String
  | [] => ""
  | v :: vs => "," ++ v.write ++ writeItems vs

def writeMembers : List (Option String × Json) → String
  | [] => ""
  | (k, v) :: ms => "," ++ quote k ++ ":" ++ v.write ++ writeMembers ms

end

end Disasm.Json
