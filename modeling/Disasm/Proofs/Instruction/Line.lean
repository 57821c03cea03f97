import Disasm.Instruction.Line
import Disasm.Proofs.Operand.Unsupported

/-! # Instructions without a line

The line of an x86 instruction fails on the first operand that has no MASM text.
Any other instruction has a line. Names and the dump play no part in this.
-/

namespace Disasm.Instruction

open Attempt

/-- The error of the first operand that has no MASM text, for an instruction that needs it. -/
def rejection? (i : Instruction) (names : Naming) : Option LineError :=
  if i.isX86 then
    (i.operands.findSome? fun e => failure? (e.masm names i.isLea)).map (LineError.mk i.address)
  else none

theorem rejection?_names (i : Instruction) (names names' : Naming) :
    i.rejection? names = i.rejection? names' := by
  simp only [rejection?, Expression.failure?_masm]

theorem failure?_operandTexts (names : Naming) (lea : Bool) (es : List Expression) :
    failure? (operandTexts names lea es) = es.findSome? fun e => failure? (e.masm names lea) := by
  induction es with
  | nil => rfl
  | cons e es ih =>
    have h : failure? (operandTexts names lea (e :: es)) =
        (failure? (e.masm names lea)).or (failure? (operandTexts names lea es)) :=
      failure?_bind fun text => by rw [bind_pure_comp, failure?_map]
    rw [h, ih, List.findSome?_cons]
    cases failure? (e.masm names lea) <;> rfl

theorem failure?_masmLine (i : Instruction) (names : Naming) : failure? (i.masmLine names) =
    (i.operands.findSome? fun e => failure? (e.masm names i.isLea)).map
      (LineError.mk i.address) := by
  rw [← failure?_operandTexts]
  simp [masmLine, operandsText, failure?_adapt]

theorem failure?_genericLine (i : Instruction) (s : LineStyle) :
    failure? (i.genericLine s) = none := rfl

theorem failure?_line (i : Instruction) (s : LineStyle) :
    failure? (i.line s) = i.rejection? s.names := by
  cases h : i.isX86 with
  | true => simpa [line, rejection?, h] using i.failure?_masmLine s.names
  | false => simpa [line, rejection?, h] using i.failure?_genericLine s

theorem rejection?_eq_none_iff {i : Instruction} {s : LineStyle} : i.rejection? s.names = none ↔
    (i.isX86 → ∃ line, outcome (i.line s) = .ok line) := by
  rw [← failure?_eq_none_iff, i.failure?_line s]
  constructor
  · exact fun h _ => h
  · intro h
    cases hx : i.isX86 with
    | true => exact h hx
    | false => simp [rejection?, hx]

end Disasm.Instruction
