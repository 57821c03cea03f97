import Disasm.Register
import Disasm.Literal
import Disasm.Double

/-! # Operand expressions

An operand is a tree of arithmetic over registers, literals and memory
references. A memory reference may go through a segment, itself an expression.
-/

namespace Disasm

inductive OperandType where
  | integer (bits : UInt16)
  | float (bits : UInt16)
  | vector (count : UInt16) (element : OperandType)
  deriving DecidableEq, Repr, Inhabited

inductive Expression where
  | add (lhs rhs : Expression)
  | subtract (lhs rhs : Expression)
  | multiply (lhs rhs : Expression)
  | shiftLeft (lhs rhs : Expression)
  | negate (operand : Expression)
  | memory (address : Expression) (type : OperandType)
  | segmented (segment address : Expression) (type : OperandType)
  | register (r : Register)
  | indirect (r : Register) (index : UInt8)
  | integer (v : Literal)
  | float (bits : UInt16) (value : Double)
  | registerList (rs : List Register)
  deriving DecidableEq, Inhabited

namespace Expression

inductive Kind where
  | add
  | subtract
  | multiply
  | memoryReference
  | directRegister
  | indirectRegister
  | integerValue
  | negate
  | shiftLeft
  | floatValue
  | registerList
  deriving DecidableEq, Repr, Inhabited

def Kind.name : Kind → String
  | add => "Add"
  | subtract => "Subtract"
  | multiply => "Multiply"
  | memoryReference => "MemoryReference"
  | directRegister => "DirectRegister"
  | indirectRegister => "IndirectRegister"
  | integerValue => "IntegerValue"
  | negate => "Negate"
  | shiftLeft => "ShiftLeft"
  | floatValue => "FloatValue"
  | registerList => "RegisterList"

def kind : Expression → Kind
  | add .. => .add
  | subtract .. => .subtract
  | multiply .. => .multiply
  | shiftLeft .. => .shiftLeft
  | negate .. => .negate
  | memory .. | segmented .. => .memoryReference
  | register .. => .directRegister
  | indirect .. => .indirectRegister
  | integer .. => .integerValue
  | float .. => .floatValue
  | registerList .. => .registerList

def memoryReference (address : Expression) (segment : Option Expression) (type : OperandType) :
    Expression :=
  match segment with
  | none => memory address type
  | some s => segmented s address type

end Expression

end Disasm
