import Mathlib.Data.Nat.Notation
import Mathlib.Tactic.SplitIfs
import Disasm.Register.Name

/-! # Telling registers apart by name

A register name consists of a stem and perhaps a number. On x86 and on 64-bit ARM each stem
belongs to one row of registers, so that stem and number say which register is meant. On
RISC-V the place in the table does. No lookup of a name leaves its table.
-/

namespace Disasm

/-- The architectures whose registers have the same names. -/
inductive NamingFamily where
  | x86
  | arm64
  | riscV
  deriving DecidableEq, Repr

def Architecture.namingFamily? : Architecture → Option NamingFamily
  | x86_64 | x86 => some .x86
  | arm64 => some .arm64
  | riscV64 | riscV32 => some .riscV
  | arm | unknown _ => none

namespace Register

def stem (name : String) : String := String.ofList (name.toList.filter (!·.isDigit))

/-- The number that the digits of a name write, zero if there are none. -/
def number (name : String) : ℕ := Nat.ofDigitChars 10 (name.toList.filter (·.isDigit)) 0

/-- The register that a name belongs to. Each row has a stem and the register at number zero. -/
def readRow? (rows : List (String × ℕ)) (name : String) : Option ℕ :=
  (rows.lookup (stem name)).map (· + number name)

/-! ## Stems and numbers -/

theorem filter_toString (n : ℕ) : (toString n).toList.filter (!·.isDigit) = [] ∧
    (toString n).toList.filter (·.isDigit) = Nat.toDigits 10 n := by
  have hn : (toString n).toList = Nat.toDigits 10 n := Nat.toList_repr
  have hd : ∀ c ∈ Nat.toDigits 10 n, c.isDigit = true := fun c hc =>
    Nat.isDigit_of_mem_toDigits (by decide) (by decide) hc
  rw [hn]
  exact ⟨List.filter_eq_nil_iff.mpr (by simpa using hd), List.filter_eq_self.mpr hd⟩

theorem stem_numbered {front back : String} (hf : front.toList.all (!·.isDigit))
    (hb : back.toList.all (!·.isDigit)) (n : ℕ) :
    stem (front ++ toString n ++ back) = front ++ back := by
  rw [stem, String.toList_append, String.toList_append, List.filter_append, List.filter_append,
    (filter_toString n).1, List.filter_eq_self.mpr (List.all_eq_true.mp hf),
    List.filter_eq_self.mpr (List.all_eq_true.mp hb), List.append_nil, ← String.toList_append,
    String.ofList_toList]

theorem number_numbered {front back : String} (hf : front.toList.all (!·.isDigit))
    (hb : back.toList.all (!·.isDigit)) (n : ℕ) : number (front ++ toString n ++ back) = n := by
  have hnone : ∀ {t : String}, t.toList.all (!·.isDigit) → t.toList.filter (·.isDigit) = [] :=
    fun ht => List.filter_eq_nil_iff.mpr (by simpa using ht)
  rw [number, String.toList_append, String.toList_append, List.filter_append, List.filter_append,
    (filter_toString n).2, hnone hf, hnone hb, List.nil_append, List.append_nil,
    Nat.ofDigitChars_ten_toDigits]

section

variable {rows : List (String × ℕ)} {first n id : ℕ}

theorem readRow?_numbered (front back : String) (hf : front.toList.all (!·.isDigit))
    (hb : back.toList.all (!·.isDigit)) (h : rows.lookup (front ++ back) = some first)
    (hid : first + n = id) : readRow? rows (front ++ toString n ++ back) = some id := by
  rw [readRow?, stem_numbered hf hb, number_numbered hf hb, h, Option.map_some, hid]

theorem readRow?_prefixed (front : String) (hf : front.toList.all (!·.isDigit))
    (h : rows.lookup front = some first) (hid : first + n = id) :
    readRow? rows (front ++ toString n) = some id := by
  have hread := readRow?_numbered front "" hf rfl (by rwa [String.append_empty]) hid
  rwa [String.append_empty] at hread

end

/-- A lookup stays within its table, and its name is `unknown` or belongs to register `id`. -/
def Identifies (read? : String → Option ℕ) (id : ℕ) (found : Option String) : Prop :=
  ∃ s, found = some s ∧ (s = unknownName ∨ read? s = some id)

section

variable {read? : String → Option ℕ} {id : ℕ} {s : String}

theorem Identifies.unknown : Identifies read? id (some unknownName) := ⟨_, rfl, .inl rfl⟩

theorem Identifies.name (h : read? s = some id) : Identifies read? id (some s) := ⟨s, rfl, .inr h⟩

theorem Identifies.table (table : List String) (first : ℕ)
    (h : ∀ e ∈ table.zipIdx first, read? e.1 = some e.2) (hf : first ≤ id)
    (hl : id < first + table.length) : Identifies read? id table[id - first]? := by
  have hg : table[id - first]? = some table[id - first] :=
    List.getElem?_eq_getElem (Nat.sub_lt_left_of_lt_add hf hl)
  exact ⟨_, hg, .inr (h (_, id) (List.mk_mem_zipIdx_iff_le_and_getElem?_sub.mpr ⟨hf, hg⟩))⟩

end

variable {id size index : ℕ}

namespace X86

/-- The rows of x86 registers. A name without a number is a row of one register. -/
def rows : List (String × ℕ) :=
  legacy32.zipIdx ++ legacy16.zipIdx ++ legacy8.zipIdx ++ general64.zipIdx ++
  [("r", 0), ("rd", 0), ("rw", 0), ("rb", 0)] ++
  [("rip", 16), ("eip", 16), ("ip", 16), ("rflags", 17), ("eflags", 17), ("flags", 17)] ++
  highBytes.zipIdx 20 ++ segments.zipIdx 32 ++ [("st()", 48), ("xmm", 64), ("ymm", 64)]

theorem identifies_narrow (table : List String) (mark : String) (hl : table.length = 8)
    (ht : ∀ e ∈ table.zipIdx, readRow? rows e.1 = some e.2) (hm : mark.toList.all (!·.isDigit))
    (hr : rows.lookup ("r" ++ mark) = some 0) :
    Identifies (readRow? rows) id (narrow? table mark id) := by
  unfold narrow?
  split
  · next h => exact .table table 0 ht id.zero_le (by omega)
  · exact .name (readRow?_numbered "r" mark (by decide) hm hr (Nat.zero_add id))

theorem identifies_general (hid : id ≤ 15) : Identifies (readRow? rows) id (general? id size) := by
  unfold general?
  split
  · exact .table general64 0 (by decide +kernel) id.zero_le (Nat.lt_succ_of_le hid)
  · exact identifies_narrow legacy32 "d" rfl (by decide +kernel) (by decide) (by decide +kernel)
  · exact identifies_narrow legacy16 "w" rfl (by decide +kernel) (by decide) (by decide +kernel)
  · exact identifies_narrow legacy8 "b" rfl (by decide +kernel) (by decide) (by decide +kernel)
  · exact .unknown

theorem identifies_pointer : Identifies (readRow? rows) 16 (some (pointer size)) := by
  unfold pointer
  split
  · exact .name (by decide +kernel)
  · exact .name (by decide +kernel)
  · exact .name (by decide +kernel)
  · exact .unknown

theorem identifies_flags : Identifies (readRow? rows) 17 (some (flags size)) := by
  unfold flags
  split
  · exact .name (by decide +kernel)
  · exact .name (by decide +kernel)
  · exact .name (by decide +kernel)
  · exact .unknown

theorem identifies_stack (hid : 48 + index = id) :
    Identifies (readRow? rows) id (some ("st(" ++ toString index ++ ")")) :=
  .name (readRow?_numbered "st(" ")" (by decide) (by decide) (by decide +kernel) hid)

theorem identifies_vector (hid : 64 + index = id) :
    Identifies (readRow? rows) id (some (vector index size)) := by
  unfold vector
  split
  · exact .name (readRow?_prefixed "xmm" (by decide) (by decide +kernel) hid)
  · exact .name (readRow?_prefixed "ymm" (by decide) (by decide +kernel) hid)
  · exact .unknown

theorem identifies_name? (id size : ℕ) : Identifies (readRow? rows) id (name? id size) := by
  unfold name?
  split_ifs with hg hp hf hh hs ht hv
  · exact identifies_general hg
  · exact hp ▸ identifies_pointer
  · exact hf ▸ identifies_flags
  · exact .table highBytes 20 (by decide +kernel) hh.1 (Nat.lt_succ_of_le hh.2)
  · exact .table segments 32 (by decide +kernel) hs.1 (Nat.lt_succ_of_le hs.2)
  · exact identifies_stack (Nat.add_sub_cancel' ht.1)
  · exact identifies_vector (Nat.add_sub_cancel' hv.1)
  · exact .unknown

end X86

namespace Arm64

def rows : List (String × ℕ) :=
  [("x", 0), ("w", 0), ("sp", 31), ("wsp", 31), ("xzr", 32), ("wzr", 32), ("pc", 33),
   ("v", 64), ("d", 64), ("s", 64), ("h", 64), ("b", 64)]

theorem identifies_sized {at64 at32 : String} (h₆₄ : readRow? rows at64 = some id)
    (h₃₂ : readRow? rows at32 = some id) :
    Identifies (readRow? rows) id (some (sized at64 at32 size)) := by
  unfold sized
  split
  · exact .name h₆₄
  · exact .name h₃₂
  · exact .unknown

theorem identifies_vector (hid : 64 + index = id) :
    Identifies (readRow? rows) id (some (vector index size)) := by
  unfold vector
  split
  · exact .name (readRow?_prefixed "v" (by decide) (by decide +kernel) hid)
  · exact .name (readRow?_prefixed "d" (by decide) (by decide +kernel) hid)
  · exact .name (readRow?_prefixed "s" (by decide) (by decide +kernel) hid)
  · exact .name (readRow?_prefixed "h" (by decide) (by decide +kernel) hid)
  · exact .name (readRow?_prefixed "b" (by decide) (by decide +kernel) hid)
  · exact .unknown

theorem identifies_name (id size : ℕ) : Identifies (readRow? rows) id (some (name id size)) := by
  unfold name
  split_ifs with hg hs hz hp hv
  · exact identifies_sized
      (readRow?_prefixed "x" (by decide) (by decide +kernel) (Nat.zero_add id))
      (readRow?_prefixed "w" (by decide) (by decide +kernel) (Nat.zero_add id))
  · exact hs ▸ identifies_sized (by decide +kernel) (by decide +kernel)
  · exact hz ▸ identifies_sized (by decide +kernel) (by decide +kernel)
  · exact hp ▸ .name (by decide +kernel)
  · exact identifies_vector (Nat.add_sub_cancel' hv.1)
  · exact .unknown

end Arm64

namespace RiscV

def read? (name : String) : Option ℕ := (integers ++ ["pc"]).zipIdx.lookup name

theorem identifies_name? (id : ℕ) : Identifies read? id (name? id) := by
  unfold name?
  split_ifs with hi hp
  · exact .table integers 0 (by decide +kernel) id.zero_le (Nat.lt_succ_of_le hi)
  · exact hp ▸ .name (by decide +kernel)
  · exact .unknown

end RiscV

end Register

def NamingFamily.read? : NamingFamily → String → Option ℕ
  | x86 => Register.readRow? Register.X86.rows
  | arm64 => Register.readRow? Register.Arm64.rows
  | riscV => Register.RiscV.read?

namespace Register

theorem identifies_name? {r : Register} {f : NamingFamily} (hf : r.arch.namingFamily? = some f) :
    Identifies f.read? r.id.toNat r.name? := by
  obtain ⟨arch, kind, id, size⟩ := r
  cases arch <;> cases hf
  · exact X86.identifies_name? ..
  · exact X86.identifies_name? ..
  · exact Arm64.identifies_name ..
  · exact RiscV.identifies_name? _
  · exact RiscV.identifies_name? _

theorem name?_of_namingFamily?_eq_none {r : Register} (hf : r.arch.namingFamily? = none) :
    r.name? = some unknownName := by
  obtain ⟨arch, kind, id, size⟩ := r
  cases arch with
  | arm => rfl
  | unknown machine => rfl
  | _ => cases hf

theorem name?_eq_some_name (r : Register) : r.name? = some r.name := by
  have hs : ∃ s, r.name? = some s := by
    cases hf : r.arch.namingFamily? with
    | none => exact ⟨_, name?_of_namingFamily?_eq_none hf⟩
    | some f =>
      obtain ⟨s, hs, -⟩ := identifies_name? hf
      exact ⟨s, hs⟩
  obtain ⟨s, hs⟩ := hs
  rw [name, hs, Option.getD_some]

theorem read?_name {r : Register} {f : NamingFamily} (hf : r.arch.namingFamily? = some f)
    (hn : r.name ≠ unknownName) : f.read? r.name = some r.id.toNat := by
  obtain ⟨s, hs, hread⟩ := identifies_name? hf
  rw [name?_eq_some_name] at hs
  cases hs
  exact hread.resolve_left hn

/-- Registers of one family that share a name other than `unknown` have the same number, whatever
their sizes and classes. No lookup of a name leaves its table. -/
theorem names_tell_registers_apart :
    (∀ r s : Register, r.arch.namingFamily? = s.arch.namingFamily? → r.name = s.name →
      r.name ≠ unknownName → r.id = s.id) ∧
    ∀ r : Register, r.name? = some r.name := by
  refine ⟨fun r s hf hname hn => ?_, name?_eq_some_name⟩
  cases hr : r.arch.namingFamily? with
  | none =>
    rw [name, name?_of_namingFamily?_eq_none hr] at hn
    exact absurd rfl hn
  | some f =>
    have hreadr := read?_name hr hn
    have hreads := read?_name (hf ▸ hr) (hname ▸ hn)
    rw [hname, hreads] at hreadr
    exact UInt16.toNat_inj.mp (Option.some.inj hreadr).symm

/-- The second byte of `rax`, as the two architectures of x86 may give it. -/
def secondByte : Register := ⟨.x86, .general, 20, 8⟩

def wideSecondByte : Register := ⟨.x86_64, .vector, 20, 512⟩

theorem secondByte_tells_register :
    (secondByte.arch.namingFamily? = wideSecondByte.arch.namingFamily? ∧
      secondByte.name = wideSecondByte.name ∧ secondByte.name ≠ unknownName) ∧
    secondByte.id = wideSecondByte.id := by
  have hfamily : secondByte.arch.namingFamily? = wideSecondByte.arch.namingFamily? := rfl
  have hname : secondByte.name = wideSecondByte.name := rfl
  have hknown : secondByte.name ≠ unknownName := by decide
  exact ⟨⟨hfamily, hname, hknown⟩, names_tell_registers_apart.1 _ _ hfamily hname hknown⟩

end Register

end Disasm
