import Disasm.Proofs.Operand.Unsupported

/-! # The labels that can show in MASM text

A label shows only in the place of a literal of 32 or 64 bits other than zero, outside
segments and indexed addresses. Two label tables that agree on these literals give the
same text, and no table decides whether there is one.
-/

namespace Disasm

open Attempt

def Literal.IsAddress (v : Literal) : Prop :=
  (v.width = .w32 ∨ v.width = .w64) ∧ v.unsigned ≠ 0

instance : DecidablePred Literal.IsAddress := fun _ => inferInstanceAs (Decidable (_ ∧ _))

def Literal.address (v : Literal) : Address := UInt64.ofNat v.unsigned

/-- Two label tables give the same labels for the literals that stand for addresses. -/
def Labels.AgreeOn (vs : List Literal) (s t : Labels) : Prop :=
  ∀ v ∈ vs, v.IsAddress → s.get? v.address = t.get? v.address

instance (vs : List Literal) (s t : Labels) : Decidable (Labels.AgreeOn vs s t) :=
  inferInstanceAs (Decidable (∀ v ∈ vs, _))

namespace Expression

/-- The literals of a tree from left to right, without those of segments and indexed addresses. -/
def literals : Expression → List Literal
  | add l r | subtract l r | multiply l r | shiftLeft l r => l.literals ++ r.literals
  | negate e => e.literals
  | memory a _ | segmented _ a _ =>
    if IndexedAddress.ofExpression? a = none then a.literals else []
  | integer v => [v]
  | register _ | indirect _ _ | float _ _ | registerList _ => []

end Expression

open Expression

variable {s t : Labels} {name : Register → String} {v : Literal} {vs ws : List Literal}

namespace Labels.AgreeOn

theorem left (h : AgreeOn (vs ++ ws) s t) : AgreeOn vs s t :=
  fun v hv => h v (List.mem_append_left _ hv)

theorem right (h : AgreeOn (vs ++ ws) s t) : AgreeOn ws s t :=
  fun v hv => h v (List.mem_append_right _ hv)

theorem label? (h : AgreeOn vs s t) (hv : v ∈ vs) : v.label? s = v.label? t := by
  unfold Literal.label?
  split
  · next hw =>
    by_cases hz : v.unsigned = 0
    · simp [hz]
    · refine h v hv ⟨?_, hz⟩
      cases hc : v.width <;> simp_all [Width.holdsAddress]
  · rfl

end Labels.AgreeOn

namespace Expression

theorem masm_congr_labels {e : Expression} {lea : Bool} (h : Labels.AgreeOn e.literals s t) :
    e.masm ⟨name, s⟩ lea = e.masm ⟨name, t⟩ lea := by
  induction e generalizing lea with
  | add l r ihl ihr => simp only [masm, ihl h.left, ihr h.right]
  | subtract l r ihl ihr => simp only [masm, ihl h.left, ihr h.right]
  | multiply l r ihl ihr => simp only [masm, ihl h.left, ihr h.right]
  | memory a type ih =>
    cases hi : IndexedAddress.ofExpression? a with
    | some i => simp only [masm, hi]
    | none =>
      rw [literals, if_pos hi] at h
      simp only [masm, hi, ih h]
  | segmented s a type _ ih =>
    cases hi : IndexedAddress.ofExpression? a with
    | some i => simp only [masm, hi]
    | none =>
      rw [literals, if_pos hi] at h
      simp only [masm, hi, ih h]
      rfl
  | integer v =>
    have hv : v.label? s = v.label? t := h.label? (List.mem_singleton_self v)
    simp only [masm, Naming.literal, Literal.text, hv]
  | _ => rfl

/-- Two label tables give an expression the same text, or the same error, if they agree on its
literals of 32 and 64 bits other than zero, those of segments and indexed addresses apart. So the
label of address zero makes no difference, nor does that of an address at which no such literal
stands, and labels never decide whether there is a text. -/
theorem masm_determined_by_address_labels (name : Register → String) (e : Expression)
    (lea : Bool) :
    (∀ s t : Labels, Labels.AgreeOn e.literals s t →
      e.masm ⟨name, s⟩ lea = e.masm ⟨name, t⟩ lea) ∧
    (∀ (s t : Labels) (a : Address), (∀ b, b ≠ a → s.get? b = t.get? b) →
      (a = 0 ∨ ∀ v ∈ e.literals, v.IsAddress → v.address ≠ a) →
      e.masm ⟨name, s⟩ lea = e.masm ⟨name, t⟩ lea) ∧
    ∀ s t : Labels, failure? (e.masm ⟨name, s⟩ lea) = failure? (e.masm ⟨name, t⟩ lea) := by
  refine ⟨fun s t h => masm_congr_labels h, fun s t a h ha => ?_, fun s t => ?_⟩
  · refine masm_congr_labels fun v hv hw => ?_
    by_cases he : v.address = a
    · rcases ha with rfl | ha
      · rw [he, Labels.get?_zero, Labels.get?_zero]
      · exact absurd he (ha v hv hw)
    · exact h _ he
  · rw [failure?_masm, failure?_masm]

def offsets : Expression :=
  segmented (integer (.ofNat .w32 0x402000))
    (add
      (memory
        (add (add (register (.gpr32 0)) (multiply (register (.gpr32 1)) (integer (.ofNat .w32 4))))
          (integer (.ofNat .w32 0x401000))) (.integer 32))
      (add (integer (.ofNat .w8 0x40)) (integer (.ofNat .w32 0x403000)))) (.integer 32)

def shownLabel : Labels := .ofList [(0x403000, "start")]

/-- The same table with labels for zero and for all other literals. -/
def hiddenLabels : Labels :=
  .ofList [(0, "null"), (4, "four"), (0x40, "byte"), (0x401000, "table"), (0x402000, "segment"),
    (0x403000, "start")]

theorem offsets_determined_by_label :
    (Labels.AgreeOn offsets.literals hiddenLabels shownLabel ∧
      ∀ v ∈ offsets.literals, v.IsAddress → v.address ≠ 0x401000) ∧
    outcome (offsets.masm ⟨Register.name, hiddenLabels⟩ false) =
      .ok "[[eax+ecx*4+0x401000]+0x40+start]" ∧
    outcome (offsets.masm ⟨Register.name, shownLabel.insert 0x401000 "table"⟩ false) =
      .ok "[[eax+ecx*4+0x401000]+0x40+start]" := by
  have hagree : Labels.AgreeOn offsets.literals hiddenLabels shownLabel := by decide +kernel
  have haway : ∀ v ∈ offsets.literals, v.IsAddress → v.address ≠ 0x401000 := by decide +kernel
  have ht : outcome (offsets.masm ⟨Register.name, shownLabel⟩ false) =
    .ok "[[eax+ecx*4+0x401000]+0x40+start]" := rfl
  obtain ⟨hsame, hone, -⟩ := masm_determined_by_address_labels Register.name offsets false
  refine ⟨⟨hagree, haway⟩, ?_, ?_⟩
  · rw [hsame _ _ hagree, ht]
  · rw [hone _ shownLabel 0x401000 (fun b hb => ?_) (.inr haway), ht]
    simp [Labels.get?, Labels.find?_insert, hb]

end Expression

end Disasm
