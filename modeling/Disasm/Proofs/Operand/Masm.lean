import Disasm.Operand.Masm
import Disasm.Proofs.Attempt

/-! # Expressions with MASM text

An expression has MASM text when its parts have, and its text is put together
from theirs. An indexed address has text whatever its terms are. What every way of
putting texts together keeps is therefore true of every MASM text.
-/

namespace Disasm.Expression

open Attempt

variable {names : Naming} {l r a s : Expression} {type : OperandType} {lea : Bool} {t : String}

attribute [local simp] masm outcome_bind_eq_ok outcome_map_eq_ok

theorem outcome_masm_add : outcome ((add l r).masm names lea) = .ok t ↔
    ∃ u v, outcome (l.masm names false) = .ok u ∧ outcome (r.masm names false) = .ok v ∧
      joinSum u v = t := by
  simp

theorem outcome_masm_subtract : outcome ((subtract l r).masm names lea) = .ok t ↔
    ∃ u v, outcome (l.masm names false) = .ok u ∧ outcome (r.masm names false) = .ok v ∧
      u ++ "-" ++ v = t := by
  simp

theorem outcome_masm_multiply : outcome ((multiply l r).masm names lea) = .ok t ↔
    ∃ u v, outcome (l.masm names false) = .ok u ∧ outcome (r.masm names false) = .ok v ∧
      u ++ "*" ++ v = t := by
  simp

theorem outcome_masm_memory_indexed {i : IndexedAddress}
    (h : IndexedAddress.ofExpression? a = some i) :
    outcome ((memory a type).masm names lea) = .ok (i.text names.register) := by
  simp [h]

theorem outcome_masm_memory (h : IndexedAddress.ofExpression? a = none) :
    outcome ((memory a type).masm names lea) = .ok t ↔
      ∃ u, outcome (a.masm names false) = .ok u ∧ "[" ++ u ++ "]" = t := by
  simp [h]

theorem outcome_masm_segmented_indexed {i : IndexedAddress}
    (h : IndexedAddress.ofExpression? a = some i) :
    outcome ((segmented s a type).masm names lea) = .ok (i.text names.register) := by
  simp [h]

theorem outcome_masm_segmented (h : IndexedAddress.ofExpression? a = none) :
    outcome ((segmented s a type).masm names lea) = .ok t ↔
      ∃ u, outcome (a.masm names false) = .ok u ∧
        (if lea then "" else segmentTag names s) ++ "[" ++ u ++ "]" = t := by
  simp [h]

/-! ## What texts inherit from their parts -/

/-- A property of texts that names and literals have and that is kept wherever MASM text is put
together. -/
structure Inherited (names : Naming) (P : String → Prop) : Prop where
  sum {u v : String} : P u → P v → P (joinSum u v)
  difference {u v : String} : P u → P v → P (u ++ "-" ++ v)
  product {u v : String} : P u → P v → P (u ++ "*" ++ v)
  address {u : String} : P u → P ("[" ++ u ++ "]")
  tagged {u : String} (r : Register) : P u → P (names.register r ++ ":" ++ u)
  indexed (i : IndexedAddress) : P (i.text names.register)
  register (r : Register) : P (names.register r)
  slot (n : Nat) : P ("(" ++ toString n ++ ")")
  literal (v : Literal) : P (names.literal v)

namespace Inherited

variable {P : String → Prop} {e : Expression}

theorem segmentTag (h : Inherited names P) (s : Expression) {u : String} (hu : P u) :
    P (Expression.segmentTag names s ++ u) := by
  unfold Expression.segmentTag
  split
  · split
    · exact h.tagged _ hu
    · simpa using hu
  · simpa using hu

/-- A property that is handed on by the parts of an expression is one of its MASM text. -/
theorem masm (h : Inherited names P) (ht : outcome (e.masm names lea) = .ok t) : P t := by
  induction e generalizing lea t with
  | add l r ihl ihr =>
    obtain ⟨u, v, hu, hv, rfl⟩ := outcome_masm_add.mp ht
    exact h.sum (ihl hu) (ihr hv)
  | subtract l r ihl ihr =>
    obtain ⟨u, v, hu, hv, rfl⟩ := outcome_masm_subtract.mp ht
    exact h.difference (ihl hu) (ihr hv)
  | multiply l r ihl ihr =>
    obtain ⟨u, v, hu, hv, rfl⟩ := outcome_masm_multiply.mp ht
    exact h.product (ihl hu) (ihr hv)
  | memory a type ih =>
    cases hi : IndexedAddress.ofExpression? a with
    | some i =>
      cases (outcome_masm_memory_indexed hi).symm.trans ht
      exact h.indexed i
    | none =>
      obtain ⟨u, hu, rfl⟩ := (outcome_masm_memory hi).mp ht
      exact h.address (ih hu)
  | segmented s a type _ ih =>
    cases hi : IndexedAddress.ofExpression? a with
    | some i =>
      cases (outcome_masm_segmented_indexed hi).symm.trans ht
      exact h.indexed i
    | none =>
      obtain ⟨u, hu, rfl⟩ := (outcome_masm_segmented hi).mp ht
      have ha : P ("[" ++ u ++ "]") := h.address (ih hu)
      cases lea with
      | true => simpa using ha
      | false => simpa [String.append_assoc] using h.segmentTag s ha
  | register r =>
    cases ht
    exact h.register r
  | indirect r index =>
    cases ht
    exact h.slot index.toNat
  | integer v =>
    cases ht
    exact h.literal v
  | _ => cases ht

end Inherited

end Disasm.Expression
