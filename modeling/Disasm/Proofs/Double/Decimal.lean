import Disasm.Proofs.Double.Rounding

/-! # The number nearest to a decimal

A decimal in the interval of a finite number has that number as the nearest one: the tests for
numbers far outside the range do not apply to it.
-/

namespace Disasm.Double

/-- The magnitude nearest to `mantissa * 10 ^ scale`. Far outside the range the power of
ten is not computed. -/
def decimalMagnitude (mantissa : Nat) (scale : Int) : Nat :=
  if mantissa = 0 then 0
  else if Int.ofNat (mantissa.log2 / 4) + scale > 310 then infinityPattern
  else if Int.ofNat (mantissa.log2 / 3) + scale < -330 then 0
  else if scale < 0 then nearestMagnitude mantissa (Nat.pow 10 scale.natAbs)
  else nearestMagnitude (mantissa * Nat.pow 10 scale.natAbs) 1

def ofDecimal? (negative : Bool) (mantissa : Nat) (scale : Int) : Option Double :=
  let magnitude := decimalMagnitude mantissa scale
  if magnitude < infinityPattern then some (ofMagnitude negative magnitude) else none

variable {x : Double} {r : ℚ}

theorem Rounds.lt (h : x.Rounds r) (hf : x.isFinite) : r < 2 ^ 1024 := by
  have hm : (x.significand : ℚ) + 1 ≤ 2 ^ 53 := by exact_mod_cast x.significand_lt
  have hs : r / 2 ^ x.exponent < 2 ^ 53 := by linarith [h.nearest.high]
  have he : (2 : ℚ) ^ x.exponent ≤ 2 ^ (971 : ℤ) := zpow_le_zpow_right₀ one_le_two (exponent_le hf)
  rw [div_lt_iff₀ (by positivity)] at hs
  calc r < 2 ^ 53 * 2 ^ x.exponent := hs
    _ ≤ 2 ^ 53 * 2 ^ (971 : ℤ) := by gcongr
    _ = 2 ^ 1024 := by rw [← zpow_natCast, ← zpow_natCast, ← zpow_add₀ two_ne_zero]; rfl

theorem Rounds.gt (h : x.Rounds r) (hx : x.significand ≠ 0) : (2 : ℚ) ^ (-1075 : ℤ) ≤ r := by
  have hm : (1 : ℚ) ≤ x.significand := by exact_mod_cast Nat.one_le_iff_ne_zero.mpr hx
  have hs : 1 / 2 ≤ r / 2 ^ x.exponent := by linarith [h.nearest.low]
  have he : (2 : ℚ) ^ minExponent ≤ 2 ^ x.exponent :=
    zpow_le_zpow_right₀ one_le_two x.minExponent_le_exponent
  rw [le_div_iff₀ (by positivity)] at hs
  calc (2 : ℚ) ^ (-1075 : ℤ) = 1 / 2 * 2 ^ minExponent := by
        rw [minExponent, one_div, ← zpow_neg_one, ← zpow_add₀ two_ne_zero]; rfl
    _ ≤ 1 / 2 * 2 ^ x.exponent := by gcongr
    _ ≤ r := hs

theorem two_pow_lt_overflow : (2 : ℚ) ^ 1024 < 10 ^ (311 : ℤ) := by
  have h : 2 ^ 1024 < 10 ^ 311 := by decide +kernel
  exact_mod_cast h

theorem underflow_lt_two_pow : (10 : ℚ) ^ (-330 : ℤ) < 2 ^ (-1075 : ℤ) := by
  have h : 2 ^ 1075 < 10 ^ 330 := by decide +kernel
  rw [zpow_neg, zpow_neg]
  refine inv_strictAnti₀ (by positivity) ?_
  exact_mod_cast h

theorem ten_pow_le {n : ℕ} (h : n ≠ 0) : (10 : ℚ) ^ (n.log2 / 4) ≤ n := by
  have hn : 10 ^ (n.log2 / 4) ≤ n :=
    calc 10 ^ (n.log2 / 4) ≤ (2 ^ 4) ^ (n.log2 / 4) := Nat.pow_le_pow_left (by decide) _
      _ = 2 ^ (4 * (n.log2 / 4)) := (Nat.pow_mul ..).symm
      _ ≤ 2 ^ n.log2 := Nat.pow_le_pow_right (by decide) (by omega)
      _ ≤ n := Nat.log2_self_le h
  exact_mod_cast hn

theorem lt_ten_pow (n : ℕ) : (n : ℚ) < 10 ^ (n.log2 / 3 + 1) := by
  have hn : n < 10 ^ (n.log2 / 3 + 1) :=
    calc n < 2 ^ (n.log2 + 1) := Nat.lt_log2_self
      _ ≤ 2 ^ (3 * (n.log2 / 3 + 1)) := Nat.pow_le_pow_right (by decide) (by omega)
      _ = (2 ^ 3) ^ (n.log2 / 3 + 1) := Nat.pow_mul ..
      _ ≤ 10 ^ (n.log2 / 3 + 1) := Nat.pow_le_pow_left (by decide) _
  exact_mod_cast hn

variable {mantissa : ℕ} {scale : ℤ}

theorem not_overflow (hm : mantissa ≠ 0) (h : (mantissa : ℚ) * 10 ^ scale < 2 ^ 1024) :
    ¬ Int.ofNat (mantissa.log2 / 4) + scale > 310 := by
  intro hs
  have hp : (10 : ℚ) ^ (311 : ℤ) ≤ mantissa * 10 ^ scale :=
    calc (10 : ℚ) ^ (311 : ℤ) ≤ 10 ^ (Int.ofNat (mantissa.log2 / 4) + scale) :=
          zpow_le_zpow_right₀ (by norm_num) (by omega)
      _ = 10 ^ (mantissa.log2 / 4) * 10 ^ scale := by
          rw [zpow_add₀ (by norm_num)]
          rfl
      _ ≤ mantissa * 10 ^ scale := mul_le_mul_of_nonneg_right (ten_pow_le hm) (by positivity)
  exact absurd (h.trans two_pow_lt_overflow) (not_lt.mpr hp)

theorem not_underflow (h : (2 : ℚ) ^ (-1075 : ℤ) ≤ mantissa * 10 ^ scale) :
    ¬ Int.ofNat (mantissa.log2 / 3) + scale < -330 := by
  intro hs
  have hp : (mantissa : ℚ) * 10 ^ scale < 10 ^ (-330 : ℤ) :=
    calc (mantissa : ℚ) * 10 ^ scale < 10 ^ (mantissa.log2 / 3 + 1) * 10 ^ scale :=
          mul_lt_mul_of_pos_right (lt_ten_pow mantissa) (by positivity)
      _ = 10 ^ (Int.ofNat (mantissa.log2 / 3) + 1 + scale) := by
          rw [zpow_add₀ (by norm_num)]
          rfl
      _ ≤ 10 ^ (-330 : ℤ) := zpow_le_zpow_right₀ (by norm_num) (by omega)
  exact absurd (underflow_lt_two_pow.trans_le h) (not_lt.mpr hp.le)

/-- A decimal in the interval of a finite number has it as the nearest one. -/
theorem decimalMagnitude_of_rounds (hf : x.isFinite) (hx : x.significand ≠ 0)
    (h : x.Rounds (mantissa * 10 ^ scale)) : decimalMagnitude mantissa scale = x.magnitude := by
  have hgt := h.gt hx
  have hm : mantissa ≠ 0 := by
    rintro rfl
    rw [Nat.cast_zero, zero_mul] at hgt
    exact absurd hgt (not_le.mpr (by positivity))
  rw [decimalMagnitude, if_neg hm, if_neg (not_overflow hm (h.lt hf)), if_neg (not_underflow hgt)]
  split
  · next hs =>
    obtain ⟨n, rfl⟩ : ∃ n : ℕ, scale = -n := ⟨scale.natAbs, by omega⟩
    refine nearestMagnitude_of_rounds hm (by simp) ?_
    simpa [zpow_neg, div_eq_mul_inv] using h
  · next hs =>
    obtain ⟨n, rfl⟩ : ∃ n : ℕ, scale = n := ⟨scale.natAbs, by omega⟩
    refine nearestMagnitude_of_rounds (by simp [hm]) one_ne_zero ?_
    simpa using h

end Disasm.Double
