import Disasm.Operand.Masm
import Disasm.Proofs.Operand.ReadBack

/-! # Displacements and terms of sums

A displacement takes its sign from its highest bit, a literal in a sum the one that its
text shows. Both ways the same digits are shown. The signs agree except for a lone sign
bit: it is a negative displacement, but shows without a minus sign in a sum.
-/

namespace Disasm

/-- What a literal without a label adds to the text of a sum. -/
def Literal.summandText (v : Literal) : String :=
  if v.hex.toList.head? = some '-' then v.hex else "+" ++ v.hex

namespace Expression

theorem joinSum_hex (t : String) (v : Literal) : joinSum t v.hex = t ++ v.summandText := by
  unfold joinSum Literal.summandText
  split
  · rfl
  · exact String.append_assoc ..

theorem masm_add_unlabelled {names : Naming} {v : Literal} (h : v.label? names.labels = none)
    (l : Expression) (lea : Bool) :
    (add l (integer v)).masm names lea = (· ++ v.summandText) <$> l.masm names false := by
  have hv : names.literal v = v.hex := by rw [Naming.literal, Literal.text, h, Option.getD_none]
  simp only [masm, hv, pure_bind, joinSum_hex, map_eq_pure_bind]

end Expression

namespace IndexedAddress

def magnitudeText (d : Literal) : String := Hex.marked d.signed.natAbs

theorem displacementText_eq_magnitude (d : Literal) :
    displacementText d = (if d.signed < 0 then "-" else "+") ++ magnitudeText d := by
  rw [← String.toList_inj, toList_displacementText]
  unfold signChar magnitudeText
  split <;> simp

theorem summandText_eq_magnitude (d : Literal) :
    d.summandText = (if d.shown < 0 then "-" else "+") ++ magnitudeText d := by
  simp only [Literal.summandText, Literal.hex_eq_signed_shown, Hex.head?_signed, magnitudeText,
    ← Literal.natAbs_shown]
  unfold Hex.signed
  split <;> rfl

/-- A lone sign bit has the digits of its text in both places, behind opposite signs. -/
theorem displacementText_of_isLoneSign {d : Literal} (h : d.isLoneSign) :
    displacementText d = "-" ++ d.hex ∧ d.summandText = "+" ++ d.hex := by
  have hpos : 0 < d.width.signBit := Nat.two_pow_pos _
  have hsigned : d.signed < 0 := by
    rw [Literal.signed_of_isLoneSign h]
    omega
  have hshown : ¬ d.shown < 0 := by
    rw [Literal.shown_of_isLoneSign h]
    omega
  have hhex : d.hex = magnitudeText d := by
    rw [Literal.hex_eq_signed_shown, Hex.signed, if_neg hshown, Literal.natAbs_shown, magnitudeText]
  rw [displacementText_eq_magnitude, summandText_eq_magnitude, if_pos hsigned, if_neg hshown, hhex]
  exact ⟨rfl, rfl⟩

theorem displacementText_eq_summandText_iff {d : Literal} :
    displacementText d = d.summandText ↔ ¬ d.isLoneSign := by
  constructor
  · intro he h
    obtain ⟨hd, hs⟩ := displacementText_of_isLoneSign h
    rw [hd, hs, String.append_left_inj] at he
    exact absurd he (by decide)
  · intro h
    rw [displacementText_eq_magnitude, summandText_eq_magnitude, Literal.shown_of_not_isLoneSign h]

/-- The text of an indexed address in front of its displacement. -/
def front (i : IndexedAddress) (name : Register → String) : String :=
  "[" ++ name i.base ++ "+" ++ name i.index ++ scaleText i.scale

/-- An indexed address shows its displacement as a sum shows a literal without a label, unless
the displacement is a lone sign bit. A lone sign bit has the same digits in both, behind a minus
sign in the address and behind a plus sign in the sum. -/
theorem text_shows_displacement_as_summand (i : IndexedAddress) (name : Register → String) :
    (i.text name = i.front name ++ i.displacement.summandText ++ "]" ↔
      i.displacement.unsigned ≠ 2 ^ (i.displacement.width.size - 1)) ∧
    (i.displacement.unsigned = 2 ^ (i.displacement.width.size - 1) →
      i.text name = i.front name ++ ("-" ++ i.displacement.hex) ++ "]" ∧
      i.displacement.summandText = "+" ++ i.displacement.hex) ∧
    (∀ (names : Naming) (e : Expression) (lea : Bool), i.displacement.label? names.labels = none →
      (e.add (.integer i.displacement)).masm names lea =
        (· ++ i.displacement.summandText) <$> e.masm names false) := by
  have htext : i.text name = i.front name ++ displacementText i.displacement ++ "]" := rfl
  have hlone : i.displacement.isLoneSign ↔
      i.displacement.unsigned = 2 ^ (i.displacement.width.size - 1) := Literal.isLoneSign_iff
  refine ⟨?_, fun h => ?_, fun names e lea h => Expression.masm_add_unlabelled h e lea⟩
  · rw [htext, String.append_left_inj, String.append_right_inj,
      displacementText_eq_summandText_iff, hlone]
  · obtain ⟨hd, hs⟩ := displacementText_of_isLoneSign (hlone.mpr h)
    rw [htext, hd]
    exact ⟨rfl, hs⟩

def lowestOffset : IndexedAddress := ⟨.gpr32 0, .gpr32 1, .ofNat .w8 2, .ofNat .w8 0x80⟩

theorem lowestOffset_shows_other_sign :
    lowestOffset.displacement.unsigned = 2 ^ (lowestOffset.displacement.width.size - 1) ∧
    lowestOffset.text Register.name = "[eax+ecx*2-0x80]" ∧
    lowestOffset.displacement.label? Labels.empty = none ∧
    ∀ r lea, (Expression.add (.register r) (.integer lowestOffset.displacement)).masm
      (.standard .empty) lea = pure (r.name ++ "+0x80") := by
  obtain ⟨-, hlone, hsum⟩ := text_shows_displacement_as_summand lowestOffset Register.name
  have hbits : lowestOffset.displacement.unsigned =
      2 ^ (lowestOffset.displacement.width.size - 1) := rfl
  obtain ⟨ht, hs⟩ := hlone hbits
  refine ⟨hbits, ht.trans (by decide +kernel), rfl, fun r lea => ?_⟩
  have hplus : "+" ++ lowestOffset.displacement.hex = "+0x80" := by decide +kernel
  rw [hsum (.standard .empty) _ lea rfl, hs, hplus]
  rfl

end IndexedAddress

end Disasm
