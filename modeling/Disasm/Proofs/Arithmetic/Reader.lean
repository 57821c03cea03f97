import Disasm.Proofs.Hex

/-! # Reading arithmetic

Arithmetic text is a row of operands with `+`, `-` or `*` between them. An operand
is a numeral or a name; what stands in brackets belongs to a name. A minus sign
in the place of an operand is the sign of the numeral behind it. Products bind
tighter than sums and differences, and all group to the left.
-/

namespace Disasm.Arithmetic

inductive Operator where
  | plus
  | minus
  | times
  deriving DecidableEq, Repr

namespace Operator

def char : Operator → Char
  | plus => '+'
  | minus => '-'
  | times => '*'

def ofChar? : Char → Option Operator
  | '+' => some plus
  | '-' => some minus
  | '*' => some times
  | _ => none

def apply : Operator → ℤ → ℤ → ℤ
  | plus => (· + ·)
  | minus => (· - ·)
  | times => (· * ·)

end Operator

inductive Formula where
  | numeral (n : ℤ)
  | name (s : String)
  | binary (o : Operator) (l r : Formula)
  deriving DecidableEq, Repr

def Formula.value (env : String → ℤ) : Formula → ℤ
  | numeral n => n
  | name s => env s
  | binary o l r => o.apply (l.value env) (r.value env)

/-- A piece of arithmetic text: an operator, or a longest run without operators. -/
inductive Token where
  | atom (text : String)
  | operator (o : Operator)
  deriving DecidableEq, Repr

/-- The depth of brackets behind a character. -/
def nesting (depth : ℕ) (c : Char) : ℕ :=
  if c = '[' then depth + 1 else if c = ']' then depth - 1 else depth

def flush (run : List Char) (ts : List Token) : List Token :=
  if run.isEmpty then ts else .atom (String.ofList run) :: ts

/-- The tokens of some characters, given the depth of brackets and the run before them. -/
def scan : ℕ → List Char → List Char → List Token
  | _, run, [] => flush run []
  | depth, run, c :: cs =>
    match depth, Operator.ofChar? c with
    | 0, some o => flush run (.operator o :: scan 0 [] cs)
    | _, _ => scan (nesting depth c) (run ++ [c]) cs

def tokens (s : String) : List Token := scan 0 [] s.toList

def numeral? (s : String) : Option ℕ :=
  match s.toList with
  | '0' :: 'x' :: ds => Hex.read? ds
  | _ => none

/-- An operand without a sign: a numeral if it starts with a digit, or else a name. -/
def operand? (s : String) : Option Formula :=
  if s.toList.head?.any Char.isDigit then (numeral? s).map fun n => .numeral n
  else some (.name s)

abbrev Item := Operator × Formula

/-- The operands behind operators. A second operator is the sign of a numeral. -/
def items? : List Token → Option (List Item)
  | [] => some []
  | .operator o :: .atom s :: ts => do
    let x ← operand? s
    let rest ← items? ts
    pure ((o, x) :: rest)
  | .operator o :: .operator .minus :: .atom s :: ts => do
    let n ← numeral? s
    let rest ← items? ts
    pure ((o, .numeral (-n)) :: rest)
  | _ => none

/-- A formula in the making: a product, and how it joins what stands before it. -/
structure Partial where
  join : Formula → Formula
  product : Formula

namespace Partial

def finish (p : Partial) : Formula := p.join p.product

/-- Continues the product, or else joins it to what stands before it and begins another. -/
def push (p : Partial) : Item → Partial
  | (.times, x) => { p with product := .binary .times p.product x }
  | (o, x) => ⟨.binary o p.finish, x⟩

end Partial

/-- The formula of a row of operands. The operator in front of the first does not count. -/
def combine? : List Item → Option Formula
  | [] => none
  | (_, x) :: rest => some (rest.foldl Partial.push ⟨id, x⟩).finish

def read? (s : String) : Option Formula :=
  (items? (.operator .plus :: tokens s)).bind combine?

end Disasm.Arithmetic
