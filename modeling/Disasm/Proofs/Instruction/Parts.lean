import Mathlib.Data.List.Basic
import Disasm.Proofs.Address
import Disasm.Proofs.Attempt
import Disasm.Proofs.Instruction.Dump

/-! # The parts of an instruction line

A line can be taken apart again. It begins with the address, which ends at a colon for
the x86 family and at a blank for all others. The dump stands behind the last mark that
announces one, even if names or other texts in the line hold such marks.
-/

namespace Disasm

open Attempt

/-! ## Taking a line apart -/

def endsAddress (c : Char) : Bool := c == ':' || c == ' '

def addressPart (line : String) : String :=
  String.ofList (line.toList.takeWhile fun c => !endsAddress c)

def addressEnd? (line : String) : Option Char :=
  (line.toList.dropWhile fun c => !endsAddress c).head?

/-- What stands behind the last occurrence of a mark. -/
def behindLast? (mark : List Char) : List Char → Option (List Char)
  | [] => none
  | c :: cs => (behindLast? mark cs).or ((c :: cs).dropPrefix? mark)

def dumpMark : String := " ; BYTES: "

def dumpPart? (line : String) : Option String :=
  (behindLast? dumpMark.toList line.toList).map String.ofList

/-! ## The address -/

namespace Instruction

def addressText (i : Instruction) : String :=
  if i.isX86 then Hex.upper i.address.toNat else "0x" ++ Hex.zeroPad 8 (Hex.upper i.address.toNat)

def addressMark (i : Instruction) : Char := if i.isX86 then ':' else ' '

/-- The text of an instruction in a line, without the dump. -/
def textOf (i : Instruction) (s : LineStyle) : Attempt LineError String :=
  if i.isX86 then i.masmLine s.names else i.genericLine s

theorem parse?_addressText (i : Instruction) : Address.parse? i.addressText = some i.address := by
  unfold addressText
  split
  · exact Address.parse?_upper i.address
  · exact Address.parse?_padded i.address 8

theorem not_mem_addressText {c : Char} (hx : c ∉ ['0', 'x'])
    (h : ∀ d < 16, c ≠ d.digitChar.toUpper) (i : Instruction) : c ∉ i.addressText.toList := by
  unfold addressText
  split
  · exact Hex.not_mem_upper h _
  · rw [String.toList_append, List.mem_append, not_or]
    exact ⟨hx, Hex.not_mem_zeroPad_upper h _ _⟩

theorem endsAddress_of_mem_addressText {i : Instruction} {c : Char}
    (hc : c ∈ i.addressText.toList) : endsAddress c = false := by
  have hne {e : Char} (hx : e ∉ ['0', 'x']) (he : ∀ d < 16, e ≠ d.digitChar.toUpper) : c ≠ e :=
    fun h => not_mem_addressText hx he i (h ▸ hc)
  simp [endsAddress, hne (e := ':') (by decide) (by decide),
    hne (e := ' ') (by decide) (by decide)]

theorem toList_addressText_ne_nil (i : Instruction) : i.addressText.toList ≠ [] := by
  unfold addressText
  split
  · exact Hex.toList_upper_ne_nil _
  · simp

theorem endsAddress_addressMark (i : Instruction) : endsAddress i.addressMark = true := by
  unfold addressMark
  split <;> rfl

/-- A line is the text of the instruction and its dump. -/
theorem outcome_line_eq_ok_iff {i : Instruction} {s : LineStyle} {line : String} :
    outcome (i.line s) = .ok line ↔ ∃ text, outcome (i.textOf s) = .ok text ∧
      line = text ++ dumpText i.bytes s.maxBytes := by
  have h : i.line s =
      i.textOf s >>= fun text => pure (text ++ dumpText i.bytes s.maxBytes) := by
    unfold Instruction.line textOf
    cases i.isX86 <;> rfl
  rw [h, outcome_bind_eq_ok]
  simp [eq_comm]

theorem textOf_begins {i : Instruction} {s : LineStyle} {text : String}
    (h : outcome (i.textOf s) = .ok text) :
    ∃ rest, text = i.addressText ++ String.singleton i.addressMark ++ rest := by
  unfold textOf at h
  unfold addressText addressMark
  split at h
  · next hx =>
    obtain ⟨operands, -, hl⟩ := outcome_bind_eq_ok.mp h
    cases hl
    refine ⟨" " ++ padRight mnemonicWidth i.mnemonic ++ " " ++ operands, ?_⟩
    simp [hx, String.append_assoc]
    rfl
  · next hx =>
    cases h
    refine ⟨s.generic i s.names, ?_⟩
    simp [hx, String.append_assoc]

theorem line_begins {i : Instruction} {s : LineStyle} {line : String}
    (h : outcome (i.line s) = .ok line) :
    ∃ rest, line = i.addressText ++ String.singleton i.addressMark ++ rest := by
  obtain ⟨text, ht, rfl⟩ := outcome_line_eq_ok_iff.mp h
  obtain ⟨rest, rfl⟩ := textOf_begins ht
  exact ⟨rest ++ dumpText i.bytes s.maxBytes, String.append_assoc⟩

end Instruction

theorem addressPart_append {lead rest : String} {c : Char}
    (hl : ∀ c ∈ lead.toList, endsAddress c = false) (hc : endsAddress c = true) :
    addressPart (lead ++ String.singleton c ++ rest) = lead := by
  have hl : ∀ c ∈ lead.toList, (!endsAddress c) = true := fun c hm => by simp [hl c hm]
  simp [addressPart, List.takeWhile_append_of_pos hl, hc]

theorem addressEnd?_append {lead rest : String} {c : Char}
    (hl : ∀ c ∈ lead.toList, endsAddress c = false) (hc : endsAddress c = true) :
    addressEnd? (lead ++ String.singleton c ++ rest) = some c := by
  have hl : ∀ c ∈ lead.toList, (!endsAddress c) = true := fun c hm => by simp [hl c hm]
  simp [addressEnd?, List.dropWhile_append_of_pos hl, hc]

/-! ## The dump -/

theorem behindLast?_append {mark : List Char} (front : List Char) {back rest : List Char}
    (h : behindLast? mark back = some rest) : behindLast? mark (front ++ back) = some rest := by
  induction front with
  | nil => exact h
  | cons c front ih => simp [behindLast?, ih]

theorem toList_dumpMark :
    dumpMark.toList = [' ', ';', ' ', 'B', 'Y', 'T', 'E', 'S', ':', ' '] := by
  decide

theorem behindLast?_eq_none {cs : List Char} (h : ' ' ∉ cs) :
    behindLast? dumpMark.toList cs = none := by
  induction cs with
  | nil => rfl
  | cons c cs ih =>
    rw [List.mem_cons, not_or] at h
    have hc : (c == ' ') = false := beq_false_of_ne (Ne.symm h.1)
    rw [behindLast?, ih h.2, toList_dumpMark]
    simp [List.dropPrefix?, hc]

theorem behindLast?_dumpMark {back : List Char} (hb : ' ' ∉ back) (hs : ';' ∉ back) :
    behindLast? dumpMark.toList (dumpMark.toList ++ back) = some back := by
  have hn := behindLast?_eq_none hb
  rw [toList_dumpMark] at hn ⊢
  -- no suffix of the mark starts another mark, as what stands behind it has no semicolon
  have hd : List.dropPrefix? (' ' :: back) [' ', ';', ' ', 'B', 'Y', 'T', 'E', 'S', ':', ' '] =
      none := by
    cases back with
    | nil => rfl
    | cons c back =>
      rw [List.mem_cons, not_or] at hs
      have hc : (c == ';') = false := beq_false_of_ne (Ne.symm hs.1)
      simp [List.dropPrefix?, hc]
  simp only [List.cons_append, List.nil_append, behindLast?, hn, hd, Option.none_or]
  simp [List.dropPrefix?]

/-- From every line that there is, the address, the family and the dump can be read back, and
the limit on bytes decides on nothing but the dump at its end. -/
theorem line_reads_back (i : Instruction) (s : LineStyle) (line : String)
    (h : outcome (i.line s) = .ok line) :
    Address.parse? (addressPart line) = some i.address ∧
    addressEnd? line = some (if i.isX86 then ':' else ' ') ∧
    (0 < s.maxBytes → dumpPart? line = some (dump i.bytes s.maxBytes)) ∧
    ∃ plain, outcome (i.line { s with maxBytes := 0 }) = .ok plain ∧
      line = plain ++ if s.maxBytes = 0 then "" else " ; BYTES: " ++ dump i.bytes s.maxBytes := by
  obtain ⟨rest, hr⟩ := Instruction.line_begins h
  obtain ⟨text, ht, hl⟩ := Instruction.outcome_line_eq_ok_iff.mp h
  refine ⟨?_, ?_, fun hm => ?_, ?_⟩
  · rw [hr, addressPart_append (fun _ => Instruction.endsAddress_of_mem_addressText)
      i.endsAddress_addressMark]
    exact i.parse?_addressText
  · rw [hr]
    exact addressEnd?_append (fun _ => Instruction.endsAddress_of_mem_addressText)
      i.endsAddress_addressMark
  · have hd : Instruction.dumpText i.bytes s.maxBytes = dumpMark ++ dump i.bytes s.maxBytes :=
      if_neg (Nat.pos_iff_ne_zero.mp hm)
    have hb := behindLast?_dumpMark
      (not_mem_dump (by decide) (by decide) i.bytes s.maxBytes)
      (not_mem_dump (by decide) (by decide) i.bytes s.maxBytes)
    rw [dumpPart?, hl, hd, String.toList_append, String.toList_append, behindLast?_append _ hb]
    simp
  · refine ⟨text, Instruction.outcome_line_eq_ok_iff.mpr ⟨text, ht, ?_⟩, hl⟩
    simp [Instruction.dumpText]

/-- A call whose mnemonic and whose target look like ends of lines. -/
def disguisedCall : Instruction :=
  ⟨0xffffffff, .x86, "call: ; BYTES: 90", [.integer (.ofNat .w32 0x401000)], [0xe8, 0xf5]⟩

def disguisedReturn : Instruction := ⟨0x123456789, .arm64, "ret", [], []⟩

def disguisedStyle : LineStyle :=
  ⟨.standard (.ofList [(0x401000, "go ; BYTES: E8")]), fun i _ => i.mnemonic ++ " ; BYTES: 1:", 1⟩

theorem disguised_reads_back :
    (outcome (disguisedCall.line disguisedStyle) =
        .ok "FFFFFFFF: call: ; BYTES: 90 go ; BYTES: E8 ; BYTES: E8+" ∧
      Address.parse? (addressPart "FFFFFFFF: call: ; BYTES: 90 go ; BYTES: E8 ; BYTES: E8+") =
        some 0xffffffff ∧
      addressEnd? "FFFFFFFF: call: ; BYTES: 90 go ; BYTES: E8 ; BYTES: E8+" = some ':' ∧
      dumpPart? "FFFFFFFF: call: ; BYTES: 90 go ; BYTES: E8 ; BYTES: E8+" = some "E8+") ∧
    outcome (disguisedReturn.line disguisedStyle) =
        .ok "0x123456789 ret ; BYTES: 1: ; BYTES: " ∧
      Address.parse? (addressPart "0x123456789 ret ; BYTES: 1: ; BYTES: ") =
        some 0x123456789 ∧
      addressEnd? "0x123456789 ret ; BYTES: 1: ; BYTES: " = some ' ' ∧
      dumpPart? "0x123456789 ret ; BYTES: 1: ; BYTES: " = some "" := by
  have hc : outcome (disguisedCall.line disguisedStyle) =
    .ok "FFFFFFFF: call: ; BYTES: 90 go ; BYTES: E8 ; BYTES: E8+" := by decide +kernel
  have hr : outcome (disguisedReturn.line disguisedStyle) =
    .ok "0x123456789 ret ; BYTES: 1: ; BYTES: " := by decide +kernel
  obtain ⟨ha, he, hd, -⟩ := line_reads_back _ _ _ hc
  obtain ⟨ha', he', hd', -⟩ := line_reads_back _ _ _ hr
  exact ⟨⟨hc, ha, he, hd (by decide)⟩, hr, ha', he', hd' (by decide)⟩

end Disasm
