import Disasm.Hex

/-! # Integer literals

A literal is a bit pattern of a declared width. It reads as an unsigned number,
or as a signed one in two's complement, and prints in hexadecimal.
-/

namespace Disasm

inductive Width where
  | w8
  | w16
  | w32
  | w64
  deriving DecidableEq, Repr, Inhabited

namespace Width

def size : Width → Nat
  | w8 => 8
  | w16 => 16
  | w32 => 32
  | w64 => 64

/-- The number all of whose bits are set. -/
def mask (w : Width) : Nat := Nat.pow 2 w.size - 1

/-- The number of which only the highest bit is set. -/
def signBit (w : Width) : Nat := Nat.pow 2 (w.size - 1)

/-- An address fits in exactly the widths of 32 and 64 bits. -/
def holdsAddress : Width → Bool
  | w32 | w64 => true
  | _ => false

end Width

/-- A bit pattern of a declared width. -/
structure Literal where
  width : Width
  bits : BitVec width.size
  deriving DecidableEq

namespace Literal

instance : Inhabited Literal := ⟨⟨.w8, 0⟩⟩

/-- The low bits of a number. -/
def ofNat (w : Width) (n : Nat) : Literal := ⟨w, BitVec.ofNat w.size n⟩

/-- The two's complement pattern of a signed number, cut to the width. -/
def ofInt (w : Width) (i : Int) : Literal := ⟨w, BitVec.ofInt w.size i⟩

def unsigned (v : Literal) : Nat := v.bits.toNat

def signed (v : Literal) : Int := v.bits.toInt

def isNegative (v : Literal) : Bool := v.bits.msb

@[simp] theorem ofNat_unsigned (v : Literal) : ofNat v.width v.unsigned = v := by
  simp [ofNat, unsigned]

@[simp] theorem ofInt_signed (v : Literal) : ofInt v.width v.signed = v := by
  simp [ofInt, signed]

/-- A lone sign bit has no positive counterpart of its width and prints unsigned. -/
def isLoneSign (v : Literal) : Bool := v.unsigned == v.width.signBit

/-- Hexadecimal with a minus sign for negative patterns, a lone sign bit apart. -/
def hex (v : Literal) : String :=
  if v.isNegative && !v.isLoneSign then "-" ++ Hex.marked (-v.bits).toNat
  else Hex.marked v.unsigned

end Literal

end Disasm
