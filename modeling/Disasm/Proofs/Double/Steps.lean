import Disasm.Double.Reader
import Disasm.Proofs.Double.Stored

/-! # Rounded steps

A product, a quotient and a natural number are rounded to the double precision number nearest to
them. What is rounded depends only on the quotient, not on how it is written. A quotient that has
at most 53 bits is not changed, and any other is at most doubled.
-/

namespace Disasm.Double

/-! ## Rounding a quotient -/

theorem nearest_roundQuotient {num den : ℕ} (hd : den ≠ 0) :
    Nearest (roundQuotient num den) (num / den) := by
  have hd' : (0 : ℚ) < den := by positivity
  have hm : (num : ℚ) = (num / den : ℕ) * den + (num % den : ℕ) := by
    exact_mod_cast (Nat.div_add_mod' num den).symm
  have hr : num % den < den := Nat.mod_lt _ (Nat.pos_of_ne_zero hd)
  have hq : (num : ℚ) / den = (num / den : ℕ) + (num % den : ℕ) / den := by
    rw [hm]
    field_simp
  unfold roundQuotient
  rw [hq]
  generalize num / den = c
  generalize num % den = r at hr
  have h₀ : (0 : ℚ) ≤ r / den := by positivity
  have h₁ : (r : ℚ) / den < 1 := by
    rw [div_lt_one hd']
    exact_mod_cast hr
  dsimp only
  split
  · next h =>
    have hh : (1 : ℚ) / 2 ≤ r / den ∧ ((c + 1) % 2 = 1 → (1 : ℚ) / 2 < r / den) := by
      rw [div_le_div_iff₀ two_pos hd', div_lt_div_iff₀ two_pos hd']
      constructor
      · exact_mod_cast (show 1 * den ≤ r * 2 by omega)
      · intro hc
        exact_mod_cast (show 1 * den < r * 2 by omega)
    have hs : ((c + 1 : ℕ) : ℚ) = c + 1 := Nat.cast_succ c
    exact ⟨by linarith [hh.1], by linarith, fun hc => ⟨by linarith [hh.2 hc], by linarith⟩⟩
  · next h =>
    have hh : (r : ℚ) / den ≤ 1 / 2 ∧ (c % 2 = 1 → (r : ℚ) / den < 1 / 2) := by
      rw [div_le_div_iff₀ hd' two_pos, div_lt_div_iff₀ hd' two_pos]
      constructor
      · exact_mod_cast (show r * 2 ≤ 1 * den by omega)
      · intro hc
        exact_mod_cast (show r * 2 < 1 * den by omega)
    exact ⟨by linarith, by linarith [hh.1], fun hc => ⟨by linarith, by linarith [hh.2 hc]⟩⟩

namespace Nearest

variable {q q' : ℕ} {r : ℚ}

theorem self (n : ℕ) : Nearest n n where
  low := by linarith
  high := by linarith
  tie _ := ⟨by linarith, by linarith⟩

theorem le_of_nearest (h : Nearest q r) (h' : Nearest q' r) : q ≤ q' := by
  by_contra hlt
  have hle : (q' : ℚ) + 1 ≤ q := by exact_mod_cast not_le.mp hlt
  have hle' : (q : ℚ) ≤ q' + 1 := by linarith [h.low, h'.high]
  have hle' : q ≤ q' + 1 := by exact_mod_cast hle'
  -- the number lies half-way between the two, so the odd one is not nearest
  rcases Nat.mod_two_eq_zero_or_one q' with ho | ho
  · linarith [(h.tie (by omega)).1, h'.high]
  · linarith [(h'.tie ho).2, h.low]

theorem unique (h : Nearest q r) (h' : Nearest q' r) : q = q' :=
  le_antisymm (h.le_of_nearest h') (h'.le_of_nearest h)

theorem le_two_mul (h : Nearest q r) (hr : 0 ≤ r) : (q : ℚ) ≤ 2 * r := by
  rcases Nat.eq_zero_or_pos q with rfl | hq
  · simpa using hr
  · have hq : (1 : ℚ) ≤ q := by exact_mod_cast hq
    linarith [h.low]

end Nearest

theorem exists_nearest (num : ℕ) {den : ℕ} (hd : den ≠ 0) (e : ℤ) :
    ∃ q, Nearest q (num / den / 2 ^ e) := by
  rcases lt_or_ge e 0 with h | h
  · rw [← div_zpow_of_neg num den h]
    exact ⟨_, nearest_roundQuotient hd⟩
  · rw [← div_zpow_of_nonneg num den h]
    exact ⟨_, nearest_roundQuotient (by positivity)⟩

/-- A number is rounded to `q * 2 ^ e`, to 53 bits or to the least exponent. -/
structure RoundsAt (r : ℚ) (e : ℤ) (q : ℕ) : Prop where
  nearest : Nearest q (r / 2 ^ e)
  lt : r / 2 ^ e < 2 ^ 53
  normal : 2 ^ 52 ≤ q ∨ e = minExponent
  le : minExponent ≤ e
  least : ∀ k, minExponent ≤ k → r / 2 ^ k < 2 ^ 53 → e ≤ k

theorem exists_roundsAt (num : ℕ) {den : ℕ} (hd : den ≠ 0) :
    ∃ e q, RoundsAt (num / den) e q ∧
      nearestMagnitude num den = (e - minExponent).toNat * fieldUnit + q := by
  by_cases hn : num = 0
  · have hm : nearestMagnitude num den = 0 := by simp [hn, nearestMagnitude]
    refine ⟨minExponent, 0, ⟨?_, ?_, .inr rfl, le_rfl, fun k hk _ => hk⟩, by simp [hm]⟩
    · simpa [hn] using Nearest.self 0
    · simp [hn]
  · obtain ⟨e, he, hl, hh⟩ := exists_quotientExponent hn hd
    obtain ⟨q, hq⟩ := exists_nearest num hd (max e minExponent)
    have hr : (0 : ℚ) ≤ num / den := by positivity
    have hm := nearestMagnitude_eq hn hd he hq
    refine ⟨max e minExponent, q, ⟨hq, ?_, ?_, le_max_right .., ?_⟩, hm⟩
    · exact (div_zpow_le hr (le_max_left ..)).trans_lt hh
    · rcases max_choice e minExponent with hm | hm
      · rw [hm] at hq
        have h : (2 : ℚ) ^ 52 < q + 1 := by linarith [hq.high]
        have h : 2 ^ 52 < q + 1 := by exact_mod_cast h
        exact .inl (by omega)
      · exact .inr hm
    · intro k hk hlt
      refine max_le ?_ hk
      by_contra hke
      have hle := div_zpow_le hr (show k ≤ e - 1 by omega)
      rw [div_zpow_sub_one] at hle
      linarith

namespace RoundsAt

variable {r : ℚ} {e e' : ℤ} {q q' : ℕ}

theorem unique (h : RoundsAt r e q) (h' : RoundsAt r e' q') : e = e' ∧ q = q' := by
  obtain rfl : e = e' := le_antisymm (h.least e' h'.le h'.lt) (h'.least e h.le h.lt)
  exact ⟨rfl, h.nearest.unique h'.nearest⟩

theorem bits (h : RoundsAt r e q) : q ≤ 2 ^ 53 := by
  have hq : (q : ℚ) < 2 ^ 53 + 1 := by linarith [h.nearest.low, h.lt]
  have hq : q < 2 ^ 53 + 1 := by exact_mod_cast hq
  omega

theorem magnitude_lt (h : RoundsAt r e q) (hr : r < 2 ^ 200) :
    (e - minExponent).toNat * fieldUnit + q < infinityPattern := by
  -- the bound is far above 64 bits, with which reading begins, and far below infinity
  have he : e ≤ 147 := by
    refine h.least 147 (by decide) ?_
    rw [div_lt_iff₀ (by positivity)]
    calc r < 2 ^ 200 := hr
      _ = 2 ^ 53 * 2 ^ 147 := pow_add 2 53 147
  have hq := h.bits
  have hi : infinityPattern = 2047 * 2 ^ 52 := rfl
  rw [hi, fieldUnit_eq, minExponent]
  omega

end RoundsAt

theorem nearestMagnitude_congr {num den num' den' : ℕ} (hd : den ≠ 0) (hd' : den' ≠ 0)
    (h : (num : ℚ) / den = num' / den') :
    nearestMagnitude num den = nearestMagnitude num' den' := by
  obtain ⟨e, q, hq, hm⟩ := exists_roundsAt num hd
  obtain ⟨e', q', hq', hm'⟩ := exists_roundsAt num' hd'
  obtain ⟨rfl, rfl⟩ := hq.unique (h ▸ hq')
  rw [hm, hm']

theorem nearestMagnitude_lt {num den : ℕ} (hd : den ≠ 0) (h : (num : ℚ) / den < 2 ^ 200) :
    nearestMagnitude num den < infinityPattern := by
  obtain ⟨e, q, hq, hm⟩ := exists_roundsAt num hd
  exact hm ▸ hq.magnitude_lt h

/-! ## Amounts -/

/-- The number that a finite double precision number is, without its sign. -/
def amount (x : Double) : ℚ := x.significand * 2 ^ x.exponent

theorem amount_ofMagnitude {k q : ℕ} (negative : Bool) (hq : q ≤ 2 ^ 53)
    (hk : 2 ^ 52 ≤ q ∨ k = 0) (h : k * fieldUnit + q < infinityPattern) :
    (ofMagnitude negative (k * fieldUnit + q)).amount = q * 2 ^ (k + minExponent) := by
  unfold amount significand exponent field
  rw [magnitude_ofMagnitude h.le, fieldUnit_eq]
  obtain hs | ⟨hn, hq⟩ | rfl : q < 2 ^ 52 ∨ (2 ^ 52 ≤ q ∧ q < 2 ^ 53) ∨ q = 2 ^ 53 := by omega
  · obtain rfl : k = 0 := by omega
    have hf : (0 * 2 ^ 52 + q) / 2 ^ 52 = 0 := by omega
    rw [if_pos hf, if_pos hf]
    simp
  · have hf : (k * 2 ^ 52 + q) / 2 ^ 52 = k + 1 := by omega
    have hs : (k * 2 ^ 52 + q) % 2 ^ 52 + 2 ^ 52 = q := by omega
    rw [hf, if_neg (Nat.succ_ne_zero k), if_neg (Nat.succ_ne_zero k), hs]
    congr 2
    push_cast
    ring
  · -- all bits carry into the exponent
    have hf : (k * 2 ^ 52 + 2 ^ 53) / 2 ^ 52 = k + 1 + 1 := by omega
    have hs : (k * 2 ^ 52 + 2 ^ 53) % 2 ^ 52 + 2 ^ 52 = 2 ^ 52 := by omega
    have he : ((k + 1 + 1 : ℕ) : ℤ) - 1 + minExponent = k + minExponent + 1 := by
      push_cast
      ring
    rw [hf, if_neg (Nat.succ_ne_zero _), if_neg (Nat.succ_ne_zero _), hs, he,
      zpow_add_one₀ two_ne_zero]
    push_cast
    ring

theorem scaled_quotient (num den : ℕ) (e : ℤ) :
    ((num * 2 ^ e.toNat : ℕ) : ℚ) / (den * 2 ^ (-e).toNat : ℕ) = num / den * 2 ^ e := by
  obtain ⟨n, rfl | rfl⟩ := e.eq_nat_or_neg
  · rw [Int.toNat_natCast, Int.toNat_neg_natCast, pow_zero, mul_one, zpow_natCast]
    push_cast
    ring
  · rw [neg_neg, Int.toNat_natCast, Int.toNat_neg_natCast, pow_zero, mul_one, zpow_neg,
      zpow_natCast]
    push_cast
    field_simp

section Nearest

variable {num den : ℕ} {e : ℤ}

theorem magnitude_nearest (hd : den ≠ 0) {num' den' : ℕ} (hd' : den' ≠ 0)
    (h : (num : ℚ) / den * 2 ^ e = num' / den') :
    (nearest num den e).magnitude = min (nearestMagnitude num' den') infinityPattern := by
  rw [← scaled_quotient] at h
  unfold nearest
  rw [magnitude_ofMagnitude (min_le_right _ _), Nat.pow_eq, Nat.pow_eq,
    nearestMagnitude_congr (by positivity) hd' h]

theorem exists_roundsAt_nearest (hd : den ≠ 0) (hr : (num : ℚ) / den * 2 ^ e < 2 ^ 200) :
    ∃ E q, RoundsAt (num / den * 2 ^ e) E q ∧ (nearest num den e).isFinite ∧
      (nearest num den e).amount = q * 2 ^ E := by
  have hs : den * 2 ^ (-e).toNat ≠ 0 := by positivity
  obtain ⟨E, q, hq, hm⟩ := exists_roundsAt (num * 2 ^ e.toNat) hs
  rw [scaled_quotient] at hq
  have hlt := hq.magnitude_lt hr
  have hn : nearest num den e =
      ofMagnitude false ((E - minExponent).toNat * fieldUnit + q) := by
    simp only [nearest, Nat.pow_eq, hm, min_eq_left hlt.le]
  have hk : 2 ^ 52 ≤ q ∨ (E - minExponent).toNat = 0 := hq.normal.imp_right fun h => by simp [h]
  have hE : ((E - minExponent).toNat : ℤ) + minExponent = E := by
    have := hq.le
    omega
  refine ⟨E, q, hq, ?_, ?_⟩
  · rw [hn, isFinite, magnitude_ofMagnitude hlt.le, decide_eq_true_eq]
    exact hlt
  · rw [hn, amount_ofMagnitude false hq.bits hk hlt, hE]

theorem isFinite_nearest (hd : den ≠ 0) (hr : (num : ℚ) / den * 2 ^ e < 2 ^ 200) :
    (nearest num den e).isFinite := by
  obtain ⟨E, q, -, hf, -⟩ := exists_roundsAt_nearest hd hr
  exact hf

theorem amount_nearest_le (hd : den ≠ 0) (hr : (num : ℚ) / den * 2 ^ e < 2 ^ 200) :
    (nearest num den e).amount ≤ 2 * (num / den * 2 ^ e) := by
  obtain ⟨E, q, hq, -, ha⟩ := exists_roundsAt_nearest hd hr
  have hq := hq.nearest.le_two_mul (by positivity)
  rw [← mul_div_assoc, le_div_iff₀ (by positivity)] at hq
  exact ha ▸ hq

/-- A number of at most 53 bits is not changed. -/
theorem amount_nearest_of_bits (hd : den ≠ 0) (hr : (num : ℚ) / den * 2 ^ e < 2 ^ 200)
    {m : ℕ} (hm : m < 2 ^ 53) {k : ℤ} (hk : minExponent ≤ k)
    (h : (num : ℚ) / den * 2 ^ e = m * 2 ^ k) : (nearest num den e).amount = m * 2 ^ k := by
  obtain ⟨E, q, hq, -, ha⟩ := exists_roundsAt_nearest hd hr
  rw [h] at hq
  have hE : E ≤ k := by
    refine hq.least k hk ?_
    rw [mul_div_cancel_right₀ _ (by positivity)]
    exact_mod_cast hm
  obtain ⟨n, rfl⟩ : ∃ n : ℕ, k = E + n := ⟨(k - E).toNat, by omega⟩
  have hi : (m : ℚ) * 2 ^ (E + n) / 2 ^ E = (m * 2 ^ n : ℕ) := by
    rw [zpow_add₀ two_ne_zero, zpow_natCast]
    push_cast
    field_simp
  have hn := hq.nearest
  rw [hi] at hn
  rw [ha, hn.unique (.self _), zpow_add₀ two_ne_zero, zpow_natCast]
  push_cast
  ring

end Nearest

/-! ## Numbers, products and quotients -/

variable {n : ℕ}

theorem quotient_ofNat (n : ℕ) : (n : ℚ) / (1 : ℕ) * 2 ^ (0 : ℤ) = n := by simp

theorem quotient_ofNat_lt (h : n < 2 ^ 200) : (n : ℚ) / (1 : ℕ) * 2 ^ (0 : ℤ) < 2 ^ 200 := by
  rw [quotient_ofNat]
  exact_mod_cast h

theorem isFinite_ofNat (h : n < 2 ^ 200) : (ofNat n).isFinite :=
  isFinite_nearest one_ne_zero (quotient_ofNat_lt h)

theorem amount_ofNat_le (h : n < 2 ^ 200) : (ofNat n).amount ≤ 2 * n :=
  (amount_nearest_le one_ne_zero (quotient_ofNat_lt h)).trans_eq (by rw [quotient_ofNat])

theorem amount_ofNat_of_bits (h : n < 2 ^ 200) {m k : ℕ} (hm : m < 2 ^ 53) (hn : n = m * 2 ^ k) :
    (ofNat n).amount = n := by
  have hq : (n : ℚ) / (1 : ℕ) * 2 ^ (0 : ℤ) = m * 2 ^ (k : ℤ) := by
    rw [quotient_ofNat, zpow_natCast]
    exact_mod_cast hn
  have ha := amount_nearest_of_bits one_ne_zero (quotient_ofNat_lt h) hm
    (show minExponent ≤ k by rw [minExponent]; omega) hq
  rw [← hq, quotient_ofNat] at ha
  exact ha

theorem amount_ofNat (h : n < 2 ^ 53) : (ofNat n).amount = n :=
  amount_ofNat_of_bits (k := 0) (h.trans (by decide)) h (Nat.mul_one n).symm

/-- A power of ten is a power of two times one of five. -/
theorem amount_tenPower (h : n ≤ 22) : (tenPower n).amount = 10 ^ n := by
  have h5 : 5 ^ n < 2 ^ 53 := (Nat.pow_le_pow_right (by decide) h).trans_lt (by decide)
  have h10 : 10 ^ n < 2 ^ 200 := (Nat.pow_le_pow_right (by decide) h).trans_lt (by decide)
  exact_mod_cast amount_ofNat_of_bits h10 h5 (Nat.mul_pow 5 2 n)

theorem quotient_mul (x y : Double) :
    ((x.significand * y.significand : ℕ) : ℚ) / (1 : ℕ) * 2 ^ (x.exponent + y.exponent) =
      x.amount * y.amount := by
  rw [amount, amount, zpow_add₀ two_ne_zero]
  push_cast
  ring

theorem quotient_div (x y : Double) :
    (x.significand : ℚ) / y.significand * 2 ^ (x.exponent - y.exponent) = x.amount / y.amount := by
  rw [amount, amount, zpow_sub₀ two_ne_zero, mul_div_mul_comm]

end Disasm.Double
