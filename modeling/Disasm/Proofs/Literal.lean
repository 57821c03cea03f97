import Mathlib.Data.Int.ModEq
import Mathlib.Tactic.Ring
import Disasm.Literal
import Disasm.Proofs.Hex

/-! # The number that a literal shows

The hexadecimal text of a literal shows its signed number, except that a lone
sign bit shows as a positive number. Literals of one width show different numbers
if their bits differ, so the text of a literal loses nothing.
-/

namespace Disasm.Literal

def shown (v : Literal) : ℤ := if v.isLoneSign then v.unsigned else v.signed

theorem unsigned_ofNat (w : Width) (n : ℕ) : (ofNat w n).unsigned = n % 2 ^ w.size :=
  BitVec.toNat_ofNat n w.size

theorem unsigned_lt (v : Literal) : v.unsigned < 2 ^ v.width.size := v.bits.isLt

theorem unsigned_lt_size (v : Literal) : v.unsigned < UInt64.size := by
  have hw : v.width.size ≤ 64 := by cases v.width <;> decide
  exact v.unsigned_lt.trans_le (Nat.pow_le_pow_right (by decide) hw)

theorem signed_eq (v : Literal) :
    v.signed = if v.isNegative then (v.unsigned : ℤ) - 2 ^ v.width.size else v.unsigned := by
  simp only [signed, isNegative, unsigned, BitVec.toInt_eq_msb_cond]
  norm_cast

theorem isNegative_iff (v : Literal) : v.isNegative = true ↔ v.width.signBit ≤ v.unsigned := by
  simp [isNegative, BitVec.msb_eq_decide, Width.signBit, unsigned]

theorem isNegative_eq_testBit (v : Literal) :
    v.isNegative = v.unsigned.testBit (v.width.size - 1) :=
  BitVec.msb_eq_getLsbD_last v.bits

theorem isNegative_eq_decide (v : Literal) : v.isNegative = decide (v.signed < 0) :=
  BitVec.msb_eq_toInt

theorem natAbs_signed_of_nonneg {v : Literal} (h : ¬ v.signed < 0) :
    v.signed.natAbs = v.unsigned := by
  have hn : v.isNegative = false := by rw [isNegative_eq_decide, decide_eq_false h]
  simp [signed_eq, hn]

theorem natAbs_signed {v : Literal} (h : v.unsigned.testBit (v.width.size - 1)) :
    v.signed.natAbs = 2 ^ v.width.size - v.unsigned := by
  have hlt := v.unsigned_lt
  have hs : v.signed = (v.unsigned : ℤ) - (2 ^ v.width.size : ℕ) := by
    simp [signed_eq, isNegative_eq_testBit, h]
  omega

theorem toNat_neg_bits {v : Literal} (h : 0 < v.unsigned) :
    (-v.bits).toNat = 2 ^ v.width.size - v.unsigned := by
  rw [BitVec.toNat_neg]
  exact Nat.mod_eq_of_lt (Nat.sub_lt (by positivity) h)

theorem hex_eq_signed_shown (v : Literal) : v.hex = Hex.signed v.shown := by
  by_cases hl : v.isLoneSign
  · simp [hex, shown, hl, Hex.signed]
  · by_cases hn : v.isNegative
    · have hlt := v.unsigned_lt
      have hpos : 0 < v.unsigned :=
        Nat.lt_of_lt_of_le (by simp [Width.signBit]) (v.isNegative_iff.mp hn)
      have hs : v.shown = (v.unsigned : ℤ) - (2 ^ v.width.size : ℕ) := by
        simp [shown, hl, signed_eq, hn]
      have hneg : v.shown < 0 := by omega
      have habs : v.shown.natAbs = 2 ^ v.width.size - v.unsigned := by omega
      simp [hex, hl, hn, Hex.signed, hneg, habs, toNat_neg_bits hpos]
    · simp [hex, shown, hl, hn, signed_eq, Hex.signed]

/-! ## The lone sign bit -/

theorem two_pow_size (w : Width) : 2 ^ w.size = 2 * w.signBit := by
  cases w <;> rfl

theorem cast_two_pow_size (w : Width) : (2 ^ w.size : ℤ) = 2 * w.signBit := by
  exact_mod_cast two_pow_size w

variable {v : Literal}

theorem isLoneSign_iff : v.isLoneSign = true ↔ v.unsigned = v.width.signBit := beq_iff_eq

theorem shown_of_isLoneSign (h : v.isLoneSign) : v.shown = v.width.signBit := by
  simp [shown, h, isLoneSign_iff.mp h]

theorem shown_of_not_isLoneSign (h : ¬ v.isLoneSign) : v.shown = v.signed := by
  simp [shown, h]

theorem signed_of_isLoneSign (h : v.isLoneSign) : v.signed = -v.width.signBit := by
  have hu : v.unsigned = v.width.signBit := isLoneSign_iff.mp h
  rw [signed_eq, if_pos (v.isNegative_iff.mpr hu.ge), hu, cast_two_pow_size]
  ring

theorem natAbs_shown (v : Literal) : v.shown.natAbs = v.signed.natAbs := by
  by_cases h : v.isLoneSign
  · rw [shown_of_isLoneSign h, signed_of_isLoneSign h, Int.natAbs_neg]
  · rw [shown_of_not_isLoneSign h]

/-! ## The range of what is shown -/

/-- Patterns up to the lone sign bit show unsigned, the ones above it as negative numbers. -/
theorem shown_eq (v : Literal) : v.shown =
    if v.unsigned ≤ v.width.signBit then (v.unsigned : ℤ) else v.unsigned - 2 ^ v.width.size := by
  by_cases h : v.isLoneSign
  · rw [shown_of_isLoneSign h, isLoneSign_iff.mp h, if_pos le_rfl]
  · have hne : v.unsigned ≠ v.width.signBit := mt isLoneSign_iff.mpr h
    rw [shown_of_not_isLoneSign h, signed_eq]
    by_cases hn : v.isNegative
    · have hle : v.width.signBit ≤ v.unsigned := v.isNegative_iff.mp hn
      rw [if_pos hn, if_neg (by omega)]
    · have hlt : v.unsigned < v.width.signBit := not_le.mp (mt v.isNegative_iff.mpr hn)
      rw [if_neg hn, if_pos hlt.le]

theorem shown_modEq (v : Literal) : v.shown ≡ v.unsigned [ZMOD 2 ^ v.width.size] := by
  rw [shown_eq]
  split
  · rfl
  · exact Int.modEq_iff_dvd.mpr (by simp)

theorem shown_bounds (v : Literal) :
    -(v.width.signBit : ℤ) < v.shown ∧ v.shown ≤ v.width.signBit := by
  have hpos : 0 < v.width.signBit := Nat.two_pow_pos _
  have hlt : v.unsigned < 2 * v.width.signBit := two_pow_size v.width ▸ v.unsigned_lt
  rw [shown_eq, cast_two_pow_size]
  split <;> omega

theorem shown_inj {w : Width} {x y : BitVec w.size} :
    (⟨w, x⟩ : Literal).shown = (⟨w, y⟩ : Literal).shown ↔ x = y := by
  refine ⟨fun h => ?_, fun h => by rw [h]⟩
  have hx : (x.toNat : ℤ) ≡ y.toNat [ZMOD 2 ^ w.size] :=
    (shown_modEq ⟨w, x⟩).symm.trans (h ▸ shown_modEq ⟨w, y⟩)
  have hmod : x.toNat ≡ y.toNat [MOD 2 ^ w.size] := by exact_mod_cast hx
  exact BitVec.eq_of_toNat_eq (hmod.eq_of_lt_of_lt x.isLt y.isLt)

/-- The text of a literal denotes one integer, with a minus sign exactly for a negative one. It is
the number that is congruent to the pattern and lies above the lowest signed one; a lone sign bit
shows as a positive number, and zero has no sign. Two patterns of one width have the same text only
if they are equal. -/
theorem hex_loses_nothing :
    (∀ v : Literal, ∃ n : ℤ, (∀ m, Hex.Denotes v.hex.toList m ↔ m = n) ∧
      (v.hex.toList.head? = some '-' ↔ n < 0) ∧ n ≡ v.unsigned [ZMOD 2 ^ v.width.size] ∧
      -(2 ^ (v.width.size - 1)) < n ∧ n ≤ 2 ^ (v.width.size - 1)) ∧
    (∀ w : Width, Hex.Denotes (ofNat w (2 ^ (w.size - 1))).hex.toList (2 ^ (w.size - 1))) ∧
    (∀ v : Literal, v.hex ≠ "-0x0") ∧
    ∀ (w : Width) (x y : BitVec w.size),
      (⟨w, x⟩ : Literal).hex = (⟨w, y⟩ : Literal).hex ↔ x = y := by
  have hsign (w : Width) : (w.signBit : ℤ) = 2 ^ (w.size - 1) := by simp [Width.signBit]
  simp only [hex_eq_signed_shown]
  refine ⟨fun v => ⟨v.shown, fun m => ?_, Hex.head?_signed, v.shown_modEq, ?_⟩, fun w => ?_,
    fun v => Hex.signed_ne_minus_zero _, fun w x y => ?_⟩
  · constructor
    · exact fun hm => hm.unique (Hex.denotes_signed _)
    · rintro rfl
      exact Hex.denotes_signed _
  · rw [← hsign]
    exact v.shown_bounds
  · have hlone : (ofNat w (2 ^ (w.size - 1))).shown = 2 ^ (w.size - 1) := by
      cases w <;> rfl
    rw [hlone]
    exact Hex.denotes_signed _
  · rw [Hex.signed_inj, shown_inj]

end Disasm.Literal
