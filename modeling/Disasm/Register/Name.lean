import Disasm.Register

/-! # Register names

The standard assembler name of every register. A number and a size that an
architecture does not use give `unknown`. Names in tables are looked up with the
bounds checked, so that a lookup outside its table would show as `none`.
-/

namespace Disasm.Register

def unknownName : String := "unknown"

namespace X86

def general64 : List String :=
  ["rax", "rcx", "rdx", "rbx", "rsp", "rbp", "rsi", "rdi",
   "r8", "r9", "r10", "r11", "r12", "r13", "r14", "r15"]

def legacy32 : List String := ["eax", "ecx", "edx", "ebx", "esp", "ebp", "esi", "edi"]

def legacy16 : List String := ["ax", "cx", "dx", "bx", "sp", "bp", "si", "di"]

/-- The low bytes of the legacy registers, by number. -/
def legacy8 : List String := ["al", "cl", "dl", "bl", "spl", "bpl", "sil", "dil"]

/-- The second bytes of the first four registers. -/
def highBytes : List String := ["ah", "ch", "dh", "bh"]

def segments : List String := ["cs", "ds", "es", "fs", "gs", "ss"]

/-- An extended register: `r`, its number, and a mark for its size. -/
def extended (id : Nat) (mark : String) : String := "r" ++ toString id ++ mark

/-- A general register below 64 bits: the first eight have a table, the others a mark. -/
def narrow? (table : List String) (mark : String) (id : Nat) : Option String :=
  if id < 8 then table[id]? else some (extended id mark)

def general? (id : Nat) : Nat → Option String
  | 64 => general64[id]?
  | 32 => narrow? legacy32 "d" id
  | 16 => narrow? legacy16 "w" id
  | 8 => narrow? legacy8 "b" id
  | _ => some unknownName

def pointer : Nat → String
  | 64 => "rip"
  | 32 => "eip"
  | 16 => "ip"
  | _ => unknownName

def flags : Nat → String
  | 64 => "rflags"
  | 32 => "eflags"
  | 16 => "flags"
  | _ => unknownName

def vector (index : Nat) : Nat → String
  | 128 => "xmm" ++ toString index
  | 256 => "ymm" ++ toString index
  | _ => unknownName

def name? (id size : Nat) : Option String :=
  if id ≤ 15 then general? id size
  else if id = 16 then some (pointer size)
  else if id = 17 then some (flags size)
  else if 20 ≤ id ∧ id ≤ 23 then highBytes[id - 20]?
  else if 32 ≤ id ∧ id ≤ 37 then segments[id - 32]?
  else if 48 ≤ id ∧ id ≤ 55 then some ("st(" ++ toString (id - 48) ++ ")")
  else if 64 ≤ id ∧ id ≤ 79 then some (vector (id - 64) size)
  else some unknownName

end X86

namespace Arm64

/-- A name that depends on whether the register is used at 64 or 32 bits. -/
def sized (at64 at32 : String) : Nat → String
  | 64 => at64
  | 32 => at32
  | _ => unknownName

def vector (index : Nat) : Nat → String
  | 128 => "v" ++ toString index
  | 64 => "d" ++ toString index
  | 32 => "s" ++ toString index
  | 16 => "h" ++ toString index
  | 8 => "b" ++ toString index
  | _ => unknownName

def name (id size : Nat) : String :=
  if id ≤ 30 then sized ("x" ++ toString id) ("w" ++ toString id) size
  else if id = 31 then sized "sp" "wsp" size
  else if id = 32 then sized "xzr" "wzr" size
  else if id = 33 then "pc"
  else if 64 ≤ id ∧ id ≤ 95 then vector (id - 64) size
  else unknownName

end Arm64

namespace RiscV

def integers : List String :=
  ["zero", "ra", "sp", "gp", "tp", "t0", "t1", "t2", "s0", "s1",
   "a0", "a1", "a2", "a3", "a4", "a5", "a6", "a7",
   "s2", "s3", "s4", "s5", "s6", "s7", "s8", "s9", "s10", "s11",
   "t3", "t4", "t5", "t6"]

/-- The name of RISC-V register `id`, the same at every size. -/
def name? (id : Nat) : Option String :=
  if id ≤ 31 then integers[id]?
  else if id = 32 then some "pc"
  else some unknownName

end RiscV

/-- The name of a register, `none` if a table is read outside its bounds. -/
def name? (r : Register) : Option String :=
  match r.arch with
  | .x86_64 | .x86 => X86.name? r.id.toNat r.size.toNat
  | .arm64 => some (Arm64.name r.id.toNat r.size.toNat)
  | .riscV64 | .riscV32 => RiscV.name? r.id.toNat
  | .arm | .unknown _ => some unknownName

def name (r : Register) : String := r.name?.getD unknownName

end Disasm.Register
