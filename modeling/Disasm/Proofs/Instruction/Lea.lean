import Mathlib.Data.List.Forall2
import Disasm.Instruction.Operands
import Disasm.Proofs.Attempt

/-! # What a lea leaves out

A lea computes an address. Its operands have the texts of those of any other
instruction, except that none begins with the tag of a segment.
-/

namespace Disasm

open Attempt

namespace Expression

/-- The tag in front of an operand that is a memory reference through `fs`. -/
def operandTag (names : Naming) : Expression → String
  | segmented (register r) a _ =>
    if IndexedAddress.ofExpression? a = none ∧ r.arch.isX86 ∧ r.kind = .segment ∧
        r.id = Register.fsId then
      names.register r ++ ":"
    else ""
  | _ => ""

variable {names : Naming} {s a : Expression} {type : OperandType}

theorem operandTag_of_indexed {i : IndexedAddress}
    (h : IndexedAddress.ofExpression? a = some i) : operandTag names (segmented s a type) = "" := by
  unfold operandTag
  split
  · next he =>
    cases he
    simp [h]
  · rfl

theorem operandTag_eq_segmentTag (h : IndexedAddress.ofExpression? a = none) :
    operandTag names (segmented s a type) = segmentTag names s := by
  cases s with
  | register r => simp [operandTag, segmentTag, Register.isFs, h, and_assoc]
  | _ => rfl

/-- A tag is all that a lea leaves out of an operand. -/
theorem masm_eq_map_masm_lea (names : Naming) (e : Expression) :
    e.masm names false = (operandTag names e ++ ·) <$> e.masm names true := by
  cases e with
  | segmented s a type =>
    cases hi : IndexedAddress.ofExpression? a with
    | some i => simp [masm, hi, operandTag_of_indexed hi]
    | none => simp [masm, hi, operandTag_eq_segmentTag hi, String.append_assoc]
  | _ => simp [masm, operandTag]

end Expression

namespace Instruction

open Expression

variable {names : Naming} {es : List Expression} {texts : List String} {lea : Bool}

theorem isLea_eq (i : Instruction) : i.isLea = (i.isX86 && i.mnemonic.toLower == "lea") := by
  have hl : "lea".toList = ['l', 'e', 'a'] := by decide
  have hm : i.mnemonic.toLower.toList = i.mnemonic.toList.map Char.toLower := String.toList_map
  rw [isLea, Bool.eq_iff_iff]
  simp [← String.toList_inj, hl, hm]

theorem operandTexts_eq_map_lea (names : Naming) (es : List Expression) :
    operandTexts names false es =
      List.zipWith (fun e t => operandTag names e ++ t) es <$> operandTexts names true es := by
  induction es with
  | nil => simp [operandTexts]
  | cons e es ih => simp [operandTexts, ih, masm_eq_map_masm_lea names e]

theorem outcome_operandTexts_iff : outcome (operandTexts names lea es) = .ok texts ↔
    List.Forall₂ (fun e t => outcome (e.masm names lea) = .ok t) es texts := by
  induction es generalizing texts with
  | nil => simp [operandTexts, eq_comm]
  | cons e es ih =>
    rw [List.forall₂_cons_left_iff]
    constructor
    · intro h
      obtain ⟨t, ht, h⟩ := outcome_bind_eq_ok.mp h
      obtain ⟨ts, hts, h⟩ := outcome_bind_eq_ok.mp h
      cases h
      exact ⟨t, ts, ht, ih.mp hts, rfl⟩
    · rintro ⟨t, ts, ht, hts, rfl⟩
      exact outcome_bind_eq_ok.mpr ⟨t, ht, outcome_bind_eq_ok.mpr ⟨ts, ih.mpr hts, rfl⟩⟩

theorem operandsText_eq_map (i : Instruction) (names : Naming) :
    i.operandsText names = String.intercalate ", " <$> operandTexts names i.isLea i.operands := by
  rw [operandsText, bind_pure_comp]

/-- A lea and another instruction with the same operands fail on the same operand, or their
texts differ in the tags of their operands. -/
theorem operandsText_lea_or_other {i j : Instruction} (hi : i.isLea = true) (hj : j.isLea = false)
    (ho : j.operands = i.operands) (names : Naming) :
    (∃ k, outcome (i.operandsText names) = .error k ∧
      outcome (j.operandsText names) = .error k) ∨
    ∃ texts, List.Forall₂ (fun e t => outcome (e.masm names true) = .ok t) i.operands texts ∧
      outcome (i.operandsText names) = .ok (String.intercalate ", " texts) ∧
      outcome (j.operandsText names) = .ok (String.intercalate ", "
        (List.zipWith (fun e t => operandTag names e ++ t) i.operands texts)) := by
  simp only [operandsText_eq_map, hi, hj, ho, operandTexts_eq_map_lea, map_eq_pure_bind,
    bind_assoc, pure_bind, outcome_bind]
  cases h : outcome (operandTexts names true i.operands) with
  | error k => exact .inl ⟨k, rfl, rfl⟩
  | ok texts => exact .inr ⟨texts, outcome_operandTexts_iff.mp h, rfl, rfl⟩

/-- As the operand of a lea, an expression has the text that it has elsewhere, or the same error,
but for the tag of `fs` in front of a memory reference whose address is not an indexed one. So an
instruction of the x86 family whose mnemonic is changed to or from `lea`, in any letter case, gains
or loses such tags at the front of its operands, and nothing else changes. -/
theorem lea_leaves_out_tags (names : Naming) :
    (∀ e : Expression,
      (∃ k, outcome (e.masm names true) = .error k ∧ outcome (e.masm names false) = .error k) ∨
      ∃ t, outcome (e.masm names true) = .ok t ∧
        outcome (e.masm names false) = .ok (operandTag names e ++ t)) ∧
    ∀ (i : Instruction) (lea other : String), i.isX86 = true → lea.toLower = "lea" →
      other.toLower ≠ "lea" →
      (∃ k, outcome ({ i with mnemonic := lea }.operandsText names) = .error k ∧
        outcome ({ i with mnemonic := other }.operandsText names) = .error k) ∨
      ∃ texts, List.Forall₂ (fun e t => outcome (e.masm names true) = .ok t) i.operands texts ∧
        outcome ({ i with mnemonic := lea }.operandsText names) =
          .ok (String.intercalate ", " texts) ∧
        outcome ({ i with mnemonic := other }.operandsText names) =
          .ok (String.intercalate ", "
            (List.zipWith (fun e t => operandTag names e ++ t) i.operands texts)) := by
  refine ⟨fun e => ?_, fun i lea other hx hl ho => ?_⟩
  · rw [masm_eq_map_masm_lea, map_eq_pure_bind, outcome_bind]
    cases outcome (e.masm names true) with
    | error k => exact .inl ⟨k, rfl, rfl⟩
    | ok t => exact .inr ⟨t, rfl, rfl⟩
  · have hx' (m : String) : { i with mnemonic := m }.isX86 = true := hx
    have hlea : { i with mnemonic := lea }.isLea = true := by simp [isLea_eq, hx', hl]
    have hother : { i with mnemonic := other }.isLea = false := by simp [isLea_eq, ho]
    exact operandsText_lea_or_other hlea hother rfl names

def threadBlock : Expression :=
  segmented (register (.segment Register.fsId)) (integer (.ofNat .w32 0x30)) (.integer 32)

/-- An array element through `fs`, whose address is an indexed one. -/
def threadElement : Expression :=
  segmented (register (.segment Register.fsId))
    (add (register (.gpr32 0))
      (add (multiply (register (.gpr32 1)) (integer (.ofNat .w8 2))) (integer (.ofNat .w8 4))))
    (.integer 32)

def threadAccess (mnemonic : String) : Instruction :=
  ⟨0x401000, .x86, mnemonic,
    [threadBlock, add (register (.gpr32 2)) threadBlock, threadElement], []⟩

theorem threadAccess_leaves_out_tag :
    ((threadAccess "").isX86 = true ∧ "LeA".toLower = "lea" ∧ "mov".toLower ≠ "lea") ∧
    outcome ((threadAccess "LeA").operandsText (.standard .empty)) =
      .ok "[0x30], edx+fs:[0x30], [eax+ecx*2+0x4]" ∧
    outcome ((threadAccess "mov").operandsText (.standard .empty)) =
      .ok "fs:[0x30], edx+fs:[0x30], [eax+ecx*2+0x4]" := by
  have hx : (threadAccess "").isX86 = true := rfl
  have hl : "LeA".toLower = "lea" := by decide +kernel
  have ho : "mov".toLower ≠ "lea" := by decide +kernel
  refine ⟨⟨hx, hl, ho⟩, ?_⟩
  have hu : List.Forall₂ (fun e t => outcome (e.masm (.standard .empty) true) = .ok t)
      (threadAccess "").operands ["[0x30]", "edx+fs:[0x30]", "[eax+ecx*2+0x4]"] :=
    .cons rfl (.cons rfl (.cons rfl .nil))
  have hok := outcome_operandTexts_iff.mpr hu
  obtain ⟨-, h⟩ := lea_leaves_out_tags (.standard .empty)
  rcases h (threadAccess "") "LeA" "mov" hx hl ho with ⟨k, hk, -⟩ | ⟨texts, ht, hlea, hother⟩
  · cases hk
  · cases (outcome_operandTexts_iff.mpr ht).symm.trans hok
    exact ⟨hlea, hother⟩

end Instruction

end Disasm
