import Disasm.Proofs.Double.Rounding

/-! # Shortest decimals round back

The shortest decimal of a number lies in its interval. The search ends because the multiples
of its last power of ten are closer to each other than the interval is wide.
-/

namespace Disasm.Double

/-! ## Multiples -/

namespace Interval

variable {i : Interval} {tie : Tie} {unit c : ℕ}

theorem contains_of_multiple? (h : i.multiple? tie unit = some c) : i.contains (c * unit) := by
  simp only [multiple?] at h
  split at h
  · next h₁ _ => exact Option.some.inj h ▸ h₁
  · next _ h₂ => exact Option.some.inj h ▸ h₂
  · cases h
  · next h₁ h₂ =>
    split at h
    · exact Option.some.inj h ▸ h₂
    · split at h
      · exact Option.some.inj h ▸ h₁
      · cases tie with
        | up => exact Option.some.inj h ▸ h₂
        | toEven =>
          rw [← Option.some.inj h]
          split
          · exact h₁
          · exact h₂

theorem exists_multiple? (h : i.contains ((i.middle / unit + 1) * unit)) :
    ∃ c, i.multiple? tie unit = some c := by
  simp only [multiple?, h]
  cases i.contains (i.middle / unit * unit) with
  | false => exact ⟨_, rfl⟩
  | true =>
    dsimp only
    split
    · exact ⟨_, rfl⟩
    · split
      · exact ⟨_, rfl⟩
      · cases tie <;> exact ⟨_, rfl⟩

/-- Where the unit is less than the way from the middle to the upper bound, the next multiple
above the middle lies inside. -/
theorem contains_next (hu : unit ≠ 0) (hlo : i.low ≤ i.middle) (hhi : i.middle + unit < i.high) :
    i.contains ((i.middle / unit + 1) * unit) := by
  have h₁ := Nat.lt_div_mul_add (a := i.middle) (Nat.pos_of_ne_zero hu)
  have h₂ := Nat.div_mul_le_self i.middle unit
  rw [Nat.add_mul, Nat.one_mul]
  unfold contains
  split <;> simp only [Bool.and_eq_true, decide_eq_true_eq] <;> omega

theorem contains_mul {factor n : ℕ} (h : factor ≠ 0) :
    (i.mul factor).contains n ↔ i.Holds (n / factor) := by
  have hf : (0 : ℚ) < factor := by positivity
  have hle : ∀ m : ℕ, m * factor ≤ n ↔ (m : ℚ) ≤ n / factor := by
    intro m
    rw [le_div_iff₀ hf]
    norm_cast
  have hge : ∀ m : ℕ, n ≤ m * factor ↔ (n : ℚ) / factor ≤ m := by
    intro m
    rw [div_le_iff₀ hf]
    norm_cast
  have hlt := fun m => not_le.symm.trans ((not_congr (hge m)).trans not_le)
  have hgt := fun m => not_le.symm.trans ((not_congr (hle m)).trans not_le)
  unfold Holds contains mul
  dsimp only
  split <;> simp only [Bool.and_eq_true, decide_eq_true_eq, hle, hge, hlt, hgt]

end Interval

/-! ## Scales -/

variable {x : Double} {tie : Tie} {scale : ℤ} {c : ℕ}

def factor (x : Double) (scale : ℤ) : ℕ := 2 ^ (x.exponent - 2).toNat * 10 ^ (-scale).toNat

def step (x : Double) (scale : ℤ) : ℕ := 2 ^ (-(x.exponent - 2)).toNat * 10 ^ scale.toNat

theorem atScale?_eq (tie : Tie) (x : Double) (scale : ℤ) :
    x.atScale? tie scale = (x.rounding.mul (x.factor scale)).multiple? tie (x.step scale) := rfl

theorem zpow_eq_div {b : ℚ} (hb : b ≠ 0) (e : ℤ) : b ^ e = b ^ e.toNat / b ^ (-e).toNat := by
  rw [← zpow_natCast, ← zpow_natCast, ← zpow_sub₀ hb]
  congr 1
  omega

theorem step_div_factor (x : Double) (scale : ℤ) :
    (x.step scale : ℚ) / x.factor scale = 10 ^ scale / 2 ^ (x.exponent - 2) := by
  rw [zpow_eq_div (by norm_num), zpow_eq_div two_ne_zero, step, factor]
  push_cast
  field_simp

theorem factor_ne_zero (x : Double) (scale : ℤ) : x.factor scale ≠ 0 := by
  unfold factor
  positivity

theorem rounds_of_atScale? (h : x.atScale? tie scale = some c) : x.Rounds (c * 10 ^ scale) := by
  rw [atScale?_eq] at h
  have hc := (Interval.contains_mul (x.factor_ne_zero scale)).mp (Interval.contains_of_multiple? h)
  rw [Nat.cast_mul, mul_div_assoc, step_div_factor, ← mul_div_assoc] at hc
  exact hc

theorem step_ne_zero (x : Double) (scale : ℤ) : x.step scale ≠ 0 := by
  unfold step
  positivity

theorem step_lt_factor (h : (10 : ℚ) ^ scale < 2 ^ (x.exponent - 1)) :
    x.step scale < 2 * x.factor scale := by
  have hf : (0 : ℚ) < x.factor scale := by
    exact_mod_cast Nat.pos_of_ne_zero (x.factor_ne_zero scale)
  have he : (1 : ℤ) + (x.exponent - 2) = x.exponent - 1 := by ring
  have hs : (x.step scale : ℚ) / x.factor scale < 2 := by
    rw [step_div_factor, div_lt_iff₀ (by positivity), ← zpow_one_add₀ two_ne_zero, he]
    exact h
  rw [div_lt_iff₀ hf] at hs
  exact_mod_cast hs

/-- A scale finer than half the lowest bit has a multiple in the interval. -/
theorem exists_atScale? (h : (10 : ℚ) ^ scale < 2 ^ (x.exponent - 1)) :
    ∃ c, x.atScale? tie scale = some c := by
  have hs := step_lt_factor h
  have hlo : x.rounding.low * x.factor scale ≤ 4 * x.significand * x.factor scale :=
    Nat.mul_le_mul_right _ (Nat.sub_le ..)
  have hhi : x.rounding.high * x.factor scale =
      4 * x.significand * x.factor scale + 2 * x.factor scale := Nat.add_mul ..
  rw [atScale?_eq]
  refine Interval.exists_multiple? (Interval.contains_next (x.step_ne_zero scale) hlo ?_)
  change 4 * x.significand * x.factor scale + _ < x.rounding.high * x.factor scale
  omega

/-! ## The search -/

theorem rounds_search {steps : ℕ} (h : ∃ k < steps, ∃ c, x.atScale? tie (scale - k) = some c) :
    x.Rounds ((x.search tie scale steps).digits * 10 ^ (x.search tie scale steps).scale) := by
  induction steps generalizing scale with
  | zero =>
    obtain ⟨k, hk, -⟩ := h
    omega
  | succ steps ih =>
    -- the first scale with a multiple decides, and none is left out on the way to it
    unfold search
    cases hs : x.atScale? tie scale with
    | some digits => exact rounds_of_atScale? hs
    | none =>
      obtain ⟨k, hk, c, hc⟩ := h
      cases k with
      | zero => simp [hs] at hc
      | succ k =>
        refine ih ⟨k, by omega, c, ?_⟩
        rw [← hc]
        congr 1
        push_cast
        ring

/-! ## The last scale -/

theorem ten_pow_le_two_pow (n : ℕ) : 10 ^ n ≤ 2 ^ (10 * (n / 3) + 4 * (n % 3)) :=
  calc 10 ^ n = 10 ^ (3 * (n / 3) + n % 3) := by rw [Nat.div_add_mod]
    _ = (10 ^ 3) ^ (n / 3) * 10 ^ (n % 3) := by rw [Nat.pow_add, Nat.pow_mul]
    _ ≤ (2 ^ 10) ^ (n / 3) * (2 ^ 4) ^ (n % 3) :=
        Nat.mul_le_mul (Nat.pow_le_pow_left (by decide) _) (Nat.pow_le_pow_left (by decide) _)
    _ = 2 ^ (10 * (n / 3) + 4 * (n % 3)) := by rw [Nat.pow_add, Nat.pow_mul, Nat.pow_mul]

theorem two_pow_le_ten_pow (n : ℕ) : 2 ^ (33 * (n / 10) + 3 * (n % 10)) ≤ 10 ^ n :=
  calc 2 ^ (33 * (n / 10) + 3 * (n % 10)) = (2 ^ 33) ^ (n / 10) * (2 ^ 3) ^ (n % 10) := by
        rw [Nat.pow_add, Nat.pow_mul, Nat.pow_mul]
    _ ≤ (10 ^ 10) ^ (n / 10) * 10 ^ (n % 10) :=
        Nat.mul_le_mul (Nat.pow_le_pow_left (by decide) _) (Nat.pow_le_pow_left (by decide) _)
    _ = 10 ^ (10 * (n / 10) + n % 10) := by rw [Nat.pow_add, Nat.pow_mul]
    _ = 10 ^ n := by rw [Nat.div_add_mod]

/-- The logarithm of two, taken as 0.30103, is close enough for all exponents there are. -/
theorem ten_zpow_le {k t : ℤ} (hk : k.natAbs ≤ 1100) (ht : 100000 * t ≤ 30103 * k) :
    (10 : ℚ) ^ t ≤ 2 ^ (k + 15) := by
  obtain ⟨n, rfl | rfl⟩ := t.eq_nat_or_neg
  · have h : (10 : ℚ) ^ n ≤ 2 ^ (10 * (n / 3) + 4 * (n % 3)) := by
      exact_mod_cast ten_pow_le_two_pow n
    rw [zpow_natCast]
    refine h.trans ?_
    rw [← zpow_natCast]
    exact zpow_le_zpow_right₀ one_le_two (by push_cast; omega)
  · have h : (2 : ℚ) ^ (33 * (n / 10) + 3 * (n % 10)) ≤ 10 ^ n := by
      exact_mod_cast two_pow_le_ten_pow n
    rw [zpow_neg, zpow_natCast]
    refine (inv_anti₀ (by positivity) h).trans ?_
    rw [← zpow_natCast, ← zpow_neg]
    exact zpow_le_zpow_right₀ one_le_two (by push_cast; omega)

/-- Twenty-three scales below the first one, the multiples are fine enough. -/
theorem fine_scale (h : x.isFinite) : (10 : ℚ) ^ (x.coarseScale - 23) < 2 ^ (x.exponent - 1) := by
  have hm : x.significand.log2 ≤ 52 := by
    by_cases hz : x.significand = 0
    · simp [hz]
    · exact Nat.lt_succ_iff.mp ((Nat.log2_lt hz).mpr x.significand_lt)
  have hlo := x.minExponent_le_exponent
  have hhi := exponent_le h
  rw [minExponent] at hlo
  set k : ℤ := Int.ofNat x.significand.log2 + 1 + x.exponent with hk
  have hc : x.coarseScale - 23 = k * 30103 / 100000 - 21 := by
    rw [coarseScale, ← hk]
    ring
  have hkk : k ≤ x.exponent + 53 ∧ k.natAbs ≤ 1100 := by
    rw [hk, Int.ofNat_eq_natCast]
    omega
  calc (10 : ℚ) ^ (x.coarseScale - 23) = 10 ^ (k * 30103 / 100000) / 10 ^ 21 := by
        rw [hc, zpow_sub₀ (by norm_num)]
        norm_cast
    _ ≤ 2 ^ (k + 15) / 10 ^ 21 := by
        gcongr
        exact ten_zpow_le hkk.2 (by omega)
    _ < 2 ^ (k + 15) / 2 ^ 69 := by
        gcongr
        norm_num
    _ = 2 ^ (k - 54) := by
        rw [← zpow_natCast, ← zpow_sub₀ two_ne_zero]
        congr 1
        ring
    _ ≤ 2 ^ (x.exponent - 1) := zpow_le_zpow_right₀ one_le_two (by omega)

/-- The shortest decimal of a number rounds to it. -/
theorem rounds_shortest (tie : Tie) (h : x.isFinite) (hx : x.significand ≠ 0) :
    x.Rounds ((x.shortest tie).digits * 10 ^ (x.shortest tie).scale) := by
  rw [shortest, if_neg hx]
  exact rounds_search ⟨23, by omega, exists_atScale? (fine_scale h)⟩

end Disasm.Double
