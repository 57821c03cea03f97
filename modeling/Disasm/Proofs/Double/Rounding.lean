import Mathlib.Data.Rat.Cast.Order
import Mathlib.Algebra.Order.Field.Power
import Mathlib.Tactic.FieldSimp
import Mathlib.Tactic.Linarith
import Mathlib.Tactic.NormNum
import Mathlib.Tactic.Positivity
import Mathlib.Tactic.Ring
import Disasm.Double.Shortest

/-! # Rounding to double precision

A number rounds to a double precision number if it lies in its interval. Every quotient in
the interval has that number as its nearest one, also where the exponent of the quotient is
the one below.
-/

namespace Disasm.Double

/-! ## Quotients -/

/-- An integer is nearest to a number, and even if the number lies half-way to the next. -/
structure Nearest (q : ℕ) (r : ℚ) : Prop where
  low : (q : ℚ) - 1 / 2 ≤ r
  high : r ≤ q + 1 / 2
  tie : q % 2 = 1 → (q : ℚ) - 1 / 2 < r ∧ r < q + 1 / 2

theorem roundQuotient_eq {num den q : ℕ} (hd : den ≠ 0) (h : Nearest q (num / den)) :
    roundQuotient num den = q := by
  have hd' : (0 : ℚ) < den := by positivity
  have hlo : 2 * (q * den) ≤ 2 * num + den := by
    have h₁ := (le_div_iff₀ hd').mp h.low
    have h₂ : 2 * ((q : ℚ) * den) ≤ 2 * num + den := by linarith
    exact_mod_cast h₂
  have hhi : 2 * num ≤ 2 * (q * den) + den := by
    have h₁ := (div_le_iff₀ hd').mp h.high
    have h₂ : 2 * (num : ℚ) ≤ 2 * (q * den) + den := by linarith
    exact_mod_cast h₂
  have htie : q % 2 = 1 → 2 * (q * den) < 2 * num + den ∧ 2 * num < 2 * (q * den) + den := by
    intro hq
    have h₁ := (lt_div_iff₀ hd').mp (h.tie hq).1
    have h₂ := (div_lt_iff₀ hd').mp (h.tie hq).2
    have h₃ : 2 * ((q : ℚ) * den) < 2 * num + den := by linarith
    have h₄ : 2 * (num : ℚ) < 2 * (q * den) + den := by linarith
    exact ⟨by exact_mod_cast h₃, by exact_mod_cast h₄⟩
  have hm : num = num / den * den + num % den := (Nat.div_add_mod' num den).symm
  have hr : num % den < den := Nat.mod_lt _ (Nat.pos_of_ne_zero hd)
  unfold roundQuotient
  generalize num / den = c at *
  generalize num % den = r at *
  -- the integers apart from the two around the quotient are more than a half away
  obtain h | rfl | rfl | h : q + 1 ≤ c ∨ q = c ∨ q = c + 1 ∨ c + 2 ≤ q := by omega
  · have h := Nat.mul_le_mul_right den h
    rw [Nat.add_mul] at h
    omega
  · simp only
    split <;> omega
  · simp only [Nat.add_mul, Nat.one_mul] at hlo hhi htie
    simp only
    split <;> omega
  · have h := Nat.mul_le_mul_right den h
    rw [Nat.add_mul] at h
    omega

theorem div_zpow_of_neg (num den : ℕ) {e : ℤ} (h : e < 0) :
    ((num * 2 ^ e.natAbs : ℕ) : ℚ) / den = num / den / 2 ^ e := by
  obtain ⟨n, rfl⟩ : ∃ n : ℕ, e = -n := ⟨e.natAbs, by omega⟩
  rw [zpow_neg, zpow_natCast, div_inv_eq_mul, Int.natAbs_neg, Int.natAbs_natCast]
  push_cast
  ring

theorem div_zpow_of_nonneg (num den : ℕ) {e : ℤ} (h : 0 ≤ e) :
    (num : ℚ) / (den * 2 ^ e.natAbs : ℕ) = num / den / 2 ^ e := by
  obtain ⟨n, rfl⟩ : ∃ n : ℕ, e = n := ⟨e.natAbs, by omega⟩
  simp [div_div]

theorem div_zpow_sub_one (r : ℚ) (e : ℤ) : r / 2 ^ (e - 1) = 2 * (r / 2 ^ e) := by
  rw [zpow_sub_one₀ two_ne_zero]
  field_simp

theorem div_zpow_le {r : ℚ} (hr : 0 ≤ r) {d e : ℤ} (h : d ≤ e) : r / 2 ^ e ≤ r / 2 ^ d :=
  div_le_div_of_nonneg_left hr (by positivity) (zpow_le_zpow_right₀ one_le_two h)

/-- The logarithms of a quotient leave a factor of four. -/
theorem log2_bounds {num den : ℕ} (hn : num ≠ 0) (hd : den ≠ 0) :
    (den : ℚ) * 2 ^ num.log2 < 2 * (num * 2 ^ den.log2) ∧
      (num : ℚ) * 2 ^ den.log2 < 2 * (den * 2 ^ num.log2) := by
  have hlt : ∀ n m : ℕ, m ≠ 0 → n * 2 ^ m.log2 < 2 * (m * 2 ^ n.log2) := by
    intro n m hm
    calc n * 2 ^ m.log2 < 2 ^ (n.log2 + 1) * 2 ^ m.log2 :=
          Nat.mul_lt_mul_of_pos_right Nat.lt_log2_self (Nat.two_pow_pos _)
      _ ≤ 2 ^ (n.log2 + 1) * m := Nat.mul_le_mul_left _ (Nat.log2_self_le hm)
      _ = 2 * (m * 2 ^ n.log2) := by ring
  exact ⟨by exact_mod_cast hlt den num hn, by exact_mod_cast hlt num den hd⟩

/-- Short of the least exponent, a quotient gets the exponent at which it has 53 bits. -/
theorem exists_quotientExponent {num den : ℕ} (hn : num ≠ 0) (hd : den ≠ 0) :
    ∃ e, quotientExponent num den = max e minExponent ∧ (2 : ℚ) ^ 52 ≤ num / den / 2 ^ e ∧
      (num : ℚ) / den / 2 ^ e < 2 ^ 53 := by
  obtain ⟨hl, hh⟩ := log2_bounds hn hd
  set e : ℤ := Int.ofNat num.log2 - Int.ofNat den.log2 - 52 with he
  have hv : (num : ℚ) / den / 2 ^ e = num * 2 ^ den.log2 / (den * 2 ^ num.log2) * 2 ^ 52 := by
    rw [he, zpow_sub₀ two_ne_zero, zpow_sub₀ two_ne_zero]
    simp only [Int.ofNat_eq_natCast, zpow_natCast]
    field_simp
  have hlow : (2 : ℚ) ^ 51 < num / den / 2 ^ e := by
    rw [hv, div_mul_eq_mul_div, lt_div_iff₀ (by positivity)]
    linarith
  have hhigh : (num : ℚ) / den / 2 ^ e < 2 ^ 53 := by
    rw [hv, div_mul_eq_mul_div, div_lt_iff₀ (by positivity)]
    linarith
  have hshort : (if e < 0 then decide (num * 2 ^ e.natAbs < 2 ^ 52 * den)
      else decide (num < 2 ^ 52 * den * 2 ^ e.natAbs)) ↔ (num : ℚ) / den / 2 ^ e < 2 ^ 52 := by
    split
    · next h =>
      rw [← div_zpow_of_neg num den h, div_lt_iff₀ (by positivity), decide_eq_true_eq]
      norm_cast
    · next h =>
      rw [← div_zpow_of_nonneg num den (not_lt.mp h), div_lt_iff₀ (by positivity),
        decide_eq_true_eq, mul_assoc]
      norm_cast
  have hq : quotientExponent num den =
      max (if (num : ℚ) / den / 2 ^ e < 2 ^ 52 then e - 1 else e) minExponent := by
    simp only [quotientExponent, Nat.pow_eq, ← he, hshort]
  by_cases hs : (num : ℚ) / den / 2 ^ e < 2 ^ 52
  · refine ⟨e - 1, by rw [hq, if_pos hs], ?_, ?_⟩ <;> rw [div_zpow_sub_one] <;> linarith
  · exact ⟨e, by rw [hq, if_neg hs], not_lt.mp hs, hhigh⟩

theorem nearestMagnitude_eq {num den q : ℕ} {e : ℤ} (hn : num ≠ 0) (hd : den ≠ 0)
    (he : quotientExponent num den = e) (h : Nearest q (num / den / 2 ^ e)) :
    nearestMagnitude num den = (e - minExponent).toNat * fieldUnit + q := by
  rw [nearestMagnitude, if_neg hn]
  simp only [he, Nat.pow_eq]
  congr 1
  split
  · next hs =>
    rw [← div_zpow_of_neg num den hs] at h
    exact roundQuotient_eq hd h
  · next hs =>
    rw [← div_zpow_of_nonneg num den (not_lt.mp hs)] at h
    exact roundQuotient_eq (by positivity) h

/-! ## Intervals -/

def Interval.Holds (i : Interval) (r : ℚ) : Prop :=
  if i.closed then i.low ≤ r ∧ r ≤ i.high else i.low < r ∧ r < i.high

/-- A number lies among those that round to a double precision number. -/
def Rounds (x : Double) (r : ℚ) : Prop := x.rounding.Holds (r / 2 ^ (x.exponent - 2))

theorem fieldUnit_eq : fieldUnit = 2 ^ 52 := rfl

theorem significand_lt (x : Double) : x.significand < 2 ^ 53 := by
  unfold significand field
  rw [fieldUnit_eq]
  split <;> omega

theorem minExponent_le_exponent (x : Double) : minExponent ≤ x.exponent := by
  unfold exponent
  split <;> omega

theorem exponent_le {x : Double} (h : x.isFinite) : x.exponent ≤ 971 := by
  have hm : x.magnitude < infinityPattern := by simpa [isFinite] using h
  have hi : infinityPattern = 2047 * 2 ^ 52 := rfl
  unfold exponent field
  rw [fieldUnit_eq, minExponent]
  split <;> omega

theorem le_significand {x : Double} (h : minExponent < x.exponent) :
    2 ^ 52 ≤ x.significand ∧ 1 < x.field := by
  unfold exponent at h
  unfold significand
  rw [fieldUnit_eq]
  split at h
  · omega
  · next hf =>
    rw [if_neg hf]
    omega

/-- The pattern counts units of the field from the least exponent on. -/
theorem magnitude_eq (x : Double) :
    x.magnitude = (x.exponent - minExponent).toNat * fieldUnit + x.significand := by
  unfold exponent significand field
  rw [fieldUnit_eq]
  split <;> omega

variable {x : Double} {r : ℚ}

theorem div_exponent_sub_two : r / 2 ^ (x.exponent - 2) = 4 * (r / 2 ^ x.exponent) := by
  have h : x.exponent - 2 = x.exponent - 1 - 1 := by ring
  rw [h, div_zpow_sub_one, div_zpow_sub_one]
  ring

theorem low_rounding (x : Double) : 4 * x.significand ≤ x.rounding.low + 2 ∧
    (x.significand = 2 ^ 52 → 1 < x.field → 4 * x.significand ≤ x.rounding.low + 1) := by
  unfold rounding
  rw [fieldUnit_eq]
  constructor
  · dsimp only
    split <;> omega
  · intro hm hf
    simp only [hm, hf, and_self, if_true]
    omega

theorem high_rounding (x : Double) : (x.rounding.high : ℚ) = 4 * x.significand + 2 := by
  simp [rounding]

/-- What rounds to a number is nearest to it in units of its lowest bit. -/
theorem Rounds.nearest (h : x.Rounds r) : Nearest x.significand (r / 2 ^ x.exponent) := by
  have hl : 4 * (x.significand : ℚ) ≤ x.rounding.low + 2 := by exact_mod_cast x.low_rounding.1
  have hc : x.rounding.closed = decide (x.significand % 2 = 0) := rfl
  rw [Rounds, Interval.Holds, div_exponent_sub_two, x.high_rounding, hc] at h
  split at h
  · next he =>
    obtain ⟨h₁, h₂⟩ := h
    refine ⟨by linarith, by linarith, fun ho => ?_⟩
    simp [ho] at he
  · obtain ⟨h₁, h₂⟩ := h
    exact ⟨by linarith, by linarith, fun _ => ⟨by linarith, by linarith⟩⟩

/-- Below a power of two, what rounds to it is nearer. -/
theorem Rounds.quarter (h : x.Rounds r) (hm : x.significand = 2 ^ 52) (hf : 1 < x.field) :
    (x.significand : ℚ) - 1 / 4 ≤ r / 2 ^ x.exponent := by
  have hl : 4 * (x.significand : ℚ) ≤ x.rounding.low + 1 := by
    exact_mod_cast x.low_rounding.2 hm hf
  rw [Rounds, Interval.Holds, div_exponent_sub_two] at h
  split at h <;> linarith [h.1]

/-- A quotient in the interval of a number has it as the nearest one. -/
theorem nearestMagnitude_of_rounds {num den : ℕ} (hn : num ≠ 0) (hd : den ≠ 0)
    (h : x.Rounds (num / den)) : nearestMagnitude num den = x.magnitude := by
  obtain ⟨e, he, hl, hh⟩ := exists_quotientExponent hn hd
  have hr : (0 : ℚ) ≤ num / den := by positivity
  have hm : (x.significand : ℚ) + 1 ≤ 2 ^ 53 := by exact_mod_cast x.significand_lt
  have hmin := x.minExponent_le_exponent
  have hle : e ≤ x.exponent := by
    by_contra hlt
    have hd := div_zpow_le hr (show x.exponent ≤ e - 1 by omega)
    rw [div_zpow_sub_one] at hd
    linarith [h.nearest.high]
  obtain hex | hex : max e minExponent = x.exponent ∨ max e minExponent < x.exponent := by omega
  · rw [nearestMagnitude_eq hn hd (he.trans hex) h.nearest, magnitude_eq]
  · -- the quotient lies below the power of two from which the exponent counts, and rounds up
    obtain ⟨hp, hf⟩ := le_significand (show minExponent < x.exponent by omega)
    have hs : 2 * ((num : ℚ) / den / 2 ^ x.exponent) < 2 ^ 53 := by
      rw [← div_zpow_sub_one]
      exact (div_zpow_le hr (show e ≤ x.exponent - 1 by omega)).trans_lt hh
    have hm : x.significand = 2 ^ 52 := by
      have h : (x.significand : ℚ) < 2 ^ 52 + 1 := by linarith [h.nearest.low]
      have h : x.significand < 2 ^ 52 + 1 := by exact_mod_cast h
      omega
    have hq := h.quarter hm hf
    rw [hm] at hq
    push_cast at hq
    have hee : e = x.exponent - 1 := by
      by_contra hne
      have hd := div_zpow_le hr (show e ≤ x.exponent - 1 - 1 by omega)
      rw [div_zpow_sub_one, div_zpow_sub_one] at hd
      linarith
    have hx : quotientExponent num den = x.exponent - 1 := by omega
    have hn' : Nearest (2 ^ 53) (num / den / 2 ^ (x.exponent - 1)) := by
      rw [div_zpow_sub_one]
      refine ⟨?_, ?_, fun ho => by omega⟩ <;> push_cast <;> linarith
    rw [nearestMagnitude_eq hn hd hx hn', magnitude_eq, hm, fieldUnit_eq]
    omega

end Disasm.Double
