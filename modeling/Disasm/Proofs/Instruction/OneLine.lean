import Disasm.Proofs.Instruction.Parts
import Disasm.Proofs.Operand.Masm
import Disasm.Proofs.Register.Name

/-! # Instruction lines are single lines

Operand texts consist of names, labels, numbers and punctuation, so there is no line feed
in a line of an instruction unless a name, a label or the mnemonic holds one.
-/

namespace Disasm

open Attempt

def IsOneLine (s : String) : Prop := '\n' ∉ s.toList

instance : DecidablePred IsOneLine := fun _ => inferInstanceAs (Decidable (¬ _))

structure Naming.OneLine (names : Naming) : Prop where
  register : ∀ r, IsOneLine (names.register r)
  label : ∀ e ∈ names.labels.entries, IsOneLine e.2

variable {s t : String} {names : Naming} {labels : Labels}

/-! ## Numbers and names -/

@[simp] theorem isOneLine_append : IsOneLine (s ++ t) ↔ IsOneLine s ∧ IsOneLine t := by
  simp [IsOneLine]

theorem isOneLine_intercalate {parts : List String} (hs : IsOneLine s)
    (h : ∀ t ∈ parts, IsOneLine t) : IsOneLine (String.intercalate s parts) := by
  induction parts with
  | nil =>
    rw [String.intercalate_nil]
    decide
  | cons t parts ih =>
    obtain ⟨ht, hp⟩ := List.forall_mem_cons.mp h
    by_cases hn : parts = []
    · simpa [hn] using ht
    · simp [String.intercalate_cons_of_ne_nil hn, hs, ht, ih hp]

theorem isOneLine_repr (n : ℕ) : IsOneLine n.repr := by
  intro hc
  have hm : '\n' ∈ Nat.toDigits 10 n := by simpa using hc
  exact absurd (Nat.isDigit_of_mem_toDigits (by decide) (by decide) hm) (by decide)

theorem isOneLine_lower (n : ℕ) : IsOneLine (Hex.lower n) := by
  simpa [IsOneLine] using Hex.not_mem_toDigits (by decide) n

theorem isOneLine_marked (n : ℕ) : IsOneLine (Hex.marked n) :=
  isOneLine_append.mpr ⟨by decide, isOneLine_lower n⟩

theorem Literal.isOneLine_hex (v : Literal) : IsOneLine v.hex := by
  have hs : IsOneLine "-" := by decide
  unfold hex
  split
  · simp [hs, isOneLine_marked]
  · exact isOneLine_marked _

theorem Numeral.isOneLine_text (n : Numeral) : IsOneLine n.text := by
  have hsign : IsOneLine (if n.negative then "-" else "") := by split <;> decide
  have hdigit : ∀ d : Fin 10, digit d ≠ '\n' := by decide
  have hfraction : IsOneLine (fractionText n.fraction) := by
    unfold fractionText
    split
    · decide
    · simp [IsOneLine, hdigit]
  have hexponent : IsOneLine (exponentText n.exponent) := by
    unfold exponentText
    split
    · decide
    · refine isOneLine_append.mpr ⟨?_, isOneLine_repr _⟩
      split <;> decide
  simp [text, hsign, isOneLine_repr, hfraction, hexponent]

theorem Double.isOneLine_text (x : Double) : IsOneLine x.text := by
  unfold text
  split_ifs
  · exact Numeral.isOneLine_text _
  · decide
  · decide
  · decide

theorem Register.isOneLine_name (r : Register) : IsOneLine r.name := fun hc =>
  absurd (List.all_eq_true.mp r.isNameText_name.2 _ hc) (by decide)

namespace Naming.OneLine

theorem standard (h : ∀ e ∈ labels.entries, IsOneLine e.2) : (Naming.standard labels).OneLine :=
  ⟨Register.isOneLine_name, h⟩

theorem literal (h : names.OneLine) (v : Literal) : IsOneLine (names.literal v) := by
  rcases names.literal_eq_hex_or_label v with hv | ⟨e, he, hv⟩
  · exact hv ▸ v.isOneLine_hex
  · exact hv ▸ h.label e he

end Naming.OneLine

/-! ## Operands -/

theorem IndexedAddress.isOneLine_text {name : Register → String} (h : ∀ r, IsOneLine (name r))
    (i : IndexedAddress) : IsOneLine (i.text name) := by
  have hs : IsOneLine (scaleText i.scale) := by
    unfold scaleText
    split
    · decide
    · exact isOneLine_append.mpr ⟨by decide, isOneLine_lower _⟩
  have hd : IsOneLine (displacementText i.displacement) := by
    unfold displacementText
    split <;> exact isOneLine_append.mpr ⟨by decide, isOneLine_marked _⟩
  have hp : IsOneLine "[" ∧ IsOneLine "+" ∧ IsOneLine "]" := by decide
  simp [text, h, hs, hd, hp]

namespace Expression

theorem isOneLine_joinSum (hs : IsOneLine s) (ht : IsOneLine t) : IsOneLine (joinSum s t) := by
  have hp : IsOneLine "+" := by decide
  unfold joinSum
  split <;> simp [hs, ht, hp]

theorem inherited_isOneLine (h : names.OneLine) : Inherited names IsOneLine := by
  have hp : IsOneLine "-" ∧ IsOneLine "*" ∧ IsOneLine "[" ∧ IsOneLine "]" ∧ IsOneLine ":" ∧
    IsOneLine "(" ∧ IsOneLine ")" := by decide
  exact {
    sum := isOneLine_joinSum
    difference := fun hu hv => by simp [hu, hv, hp]
    product := fun hu hv => by simp [hu, hv, hp]
    address := fun hu => by simp [hu, hp]
    tagged := fun r hu => by simp [h.register r, hu, hp]
    indexed := IndexedAddress.isOneLine_text h.register
    register := h.register
    slot := fun n => by simp [isOneLine_repr, hp]
    literal := h.literal }

theorem isOneLine_masm (h : names.OneLine) {e : Expression} {lea : Bool}
    (ht : outcome (e.masm names lea) = .ok t) : IsOneLine t :=
  (inherited_isOneLine h).masm ht

theorem isOneLine_plain (h : names.OneLine) (e : Expression) : IsOneLine (e.plain names) := by
  have hp : ∀ s ∈ [" + ", " - ", " * ", ", lsl ", "-", "[", "]", ":[", ", ", "\x7b", "\x7d"],
    IsOneLine s := by decide
  simp only [List.forall_mem_cons] at hp
  induction e with
  | add l r ihl ihr | subtract l r ihl ihr | multiply l r ihl ihr | shiftLeft l r ihl ihr =>
    simp [plain, ihl, ihr, hp]
  | negate a ih | memory a type ih => simp [plain, ih, hp]
  | segmented s a type ihs ih => simp [plain, ihs, ih, hp]
  | register r => exact h.register r
  | indirect r index => simp [plain, h.register, isOneLine_repr, hp]
  | integer v => exact h.literal v
  | float bits x => exact x.isOneLine_text
  | registerList rs =>
    have hr : IsOneLine (String.intercalate ", " (rs.map names.register)) :=
      isOneLine_intercalate (by decide) (by simp [h.register])
    simp [plain, hr, hp]

end Expression

/-! ## Lines -/

namespace Instruction

variable {i : Instruction} {most : ℕ} {line : String}

theorem isOneLine_addressText (i : Instruction) : IsOneLine i.addressText :=
  not_mem_addressText (by decide) (by decide) i

theorem isOneLine_padRight (width : ℕ) (ht : IsOneLine t) : IsOneLine (padRight width t) := by
  have hb : IsOneLine (String.ofList (List.replicate (width - t.length) ' ')) := by
    simp [IsOneLine]
  exact isOneLine_append.mpr ⟨ht, hb⟩

theorem isOneLine_dumpText (bytes : List UInt8) (most : ℕ) : IsOneLine (dumpText bytes most) := by
  unfold dumpText
  split
  · decide
  · exact isOneLine_append.mpr ⟨by decide, not_mem_dump (by decide) (by decide) _ _⟩

theorem isOneLine_operandTexts (h : names.OneLine) {lea : Bool} {es : List Expression}
    {texts : List String} (ht : outcome (operandTexts names lea es) = .ok texts) :
    ∀ t ∈ texts, IsOneLine t := by
  induction es generalizing texts with
  | nil =>
    cases ht
    simp
  | cons e es ih =>
    obtain ⟨u, hu, ht⟩ := outcome_bind_eq_ok.mp ht
    obtain ⟨us, hus, ht⟩ := outcome_bind_eq_ok.mp ht
    cases ht
    exact List.forall_mem_cons.mpr ⟨Expression.isOneLine_masm h hu, ih hus⟩

theorem isOneLine_operandsText (h : names.OneLine)
    (ht : outcome (i.operandsText names) = .ok t) : IsOneLine t := by
  obtain ⟨texts, hts, ht⟩ := outcome_bind_eq_ok.mp ht
  cases ht
  exact isOneLine_intercalate (by decide) (isOneLine_operandTexts h hts)

theorem isOneLine_plain (h : names.OneLine) (hm : IsOneLine i.mnemonic) :
    IsOneLine (i.plain names) := by
  unfold plain
  split
  · exact hm
  · have ho : IsOneLine (String.intercalate ", " (i.operands.map (·.plain names))) :=
      isOneLine_intercalate (by decide) (by simp [Expression.isOneLine_plain h])
    exact isOneLine_append.mpr ⟨isOneLine_append.mpr ⟨hm, by decide⟩, ho⟩

theorem isOneLine_line (h : ∀ e ∈ labels.entries, IsOneLine e.2) (hm : IsOneLine i.mnemonic)
    (hl : outcome (i.line (.standard labels most)) = .ok line) : IsOneLine line := by
  have hn : (Naming.standard labels).OneLine := .standard h
  obtain ⟨text, ht, rfl⟩ := outcome_line_eq_ok_iff.mp hl
  refine isOneLine_append.mpr ⟨?_, isOneLine_dumpText _ _⟩
  have ha := i.isOneLine_addressText
  unfold addressText at ha
  unfold textOf at ht
  split at ht
  · next hx =>
    rw [if_pos hx] at ha
    obtain ⟨operands, ho, ht⟩ := outcome_bind_eq_ok.mp ht
    have ho := isOneLine_operandsText hn (outcome_adapt_eq_ok.mp ho)
    have hp : IsOneLine ": " ∧ IsOneLine " " := by decide
    cases ht
    simp [ha, hp, isOneLine_padRight _ hm, ho]
  · next hx =>
    rw [if_neg hx] at ha
    have hp : IsOneLine " " := by decide
    cases ht
    exact isOneLine_append.mpr ⟨isOneLine_append.mpr ⟨ha, hp⟩, isOneLine_plain hn hm⟩

end Instruction

end Disasm
