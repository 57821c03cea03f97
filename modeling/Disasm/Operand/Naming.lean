import Disasm.Register.Name
import Disasm.Labels

/-! # Naming

Operand text depends on how registers are called and on the labels that stand
for address-sized literals.
-/

namespace Disasm

structure Naming where
  register : Register → String
  labels : Labels

namespace Naming

def standard (labels : Labels) : Naming := ⟨Register.name, labels⟩

def literal (names : Naming) (v : Literal) : String := v.text names.labels

/-- A literal shows as a label or in hexadecimal. -/
theorem literal_eq_hex_or_label (names : Naming) (v : Literal) :
    names.literal v = v.hex ∨ ∃ e ∈ names.labels.entries, names.literal v = e.2 := by
  unfold literal Literal.text
  cases hv : v.label? names.labels with
  | none => exact .inl rfl
  | some w =>
    simp only [Literal.label?, Option.ite_none_right_eq_some] at hv
    exact .inr ⟨_, Labels.mem_entries_of_get? hv.2, rfl⟩

end Naming

end Disasm
