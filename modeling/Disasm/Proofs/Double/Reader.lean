import Disasm.Proofs.Double.Steps

/-! # Readers of numbers

A reader is lawful if it gives back every finite number from its stored form and gives no other
numbers. The reader that takes the nearest number is lawful. The reader of the program gives only
finite numbers, and it gives the nearest one if all digits fit 53 bits and the power of ten has
no rounding error.
-/

namespace Disasm

/-- The finite numbers are read from their stored forms, and no other numbers are read. -/
class LawfulDoubleReader [DoubleReader] : Prop where
  read_stored : ∀ x : Double, x.isFinite → DoubleReader.read x.stored = some x
  isFinite_of_read : ∀ (n : Numeral) (x : Double), DoubleReader.read n = some x → x.isFinite

/-- The reader that takes the number nearest to what is written. -/
abbrev DoubleReader.nearest : DoubleReader := ⟨Numeral.nearest?⟩

theorem DoubleReader.lawful_nearest : @LawfulDoubleReader nearest :=
  @LawfulDoubleReader.mk nearest (fun _ => Double.nearest?_stored)
    fun _ _ => Double.isFinite_of_nearest?

/-! ## Digits -/

namespace Numeral

variable {n : ℕ} {ds : List (Fin 10)}

theorem le_value (n : ℕ) (ds : List (Fin 10)) : n ≤ value n ds := by
  induction ds generalizing n with
  | nil => exact le_rfl
  | cons d ds ih =>
    have h : 10 * n + d.val ≤ value n (d :: ds) := ih _
    omega

theorem accumulate_of_lt (h : value n ds < UInt64.size) : accumulate n ds = (value n ds, 0) := by
  induction ds generalizing n with
  | nil => rfl
  | cons d ds ih =>
    have hd : 10 * n + d.val < UInt64.size := (le_value _ ds).trans_lt h
    rw [accumulate, if_pos hd, ih h]
    rfl

theorem accumulate_lt (h : n < UInt64.size) : (accumulate n ds).1 < UInt64.size := by
  induction ds generalizing n with
  | nil => exact h
  | cons d ds ih =>
    rw [accumulate]
    split
    · next hd => exact ih hd
    · exact h

theorem parts_of_lt {n : Numeral} (h : n.mantissa < UInt64.size) :
    n.parts = (n.mantissa, n.scale) := by
  have hv : value 0 (digits n.whole) = n.whole := by simp [value_digits]
  have hw : n.whole < UInt64.size := (le_value _ n.fraction).trans_lt h
  simp [parts, accumulate_of_lt (hv ▸ hw), hv, accumulate_of_lt h, mantissa, scale]

theorem units_lt (n : Numeral) : n.parts.1 < UInt64.size :=
  accumulate_lt (accumulate_lt (by decide))

end Numeral

namespace Double

/-! ## Numbers of few digits -/

variable {units n : ℕ} {x : Double}

theorem decimalMagnitude_of_short {scale : ℤ} (hu : units < 2 ^ 53) (hs : scale.natAbs ≤ 22) :
    decimalMagnitude units scale =
      if scale < 0 then nearestMagnitude units (10 ^ scale.natAbs)
      else nearestMagnitude (units * 10 ^ scale.natAbs) 1 := by
  unfold decimalMagnitude
  by_cases h0 : units = 0
  · simp [h0, nearestMagnitude]
  · have hl : units.log2 < 53 := (Nat.log2_lt h0).mpr hu
    simp only [Int.ofNat_eq_natCast]
    rw [if_neg h0, if_neg (by omega), if_neg (by omega)]
    rfl

theorem magnitude_mul_tenPower (hu : units < 2 ^ 53) (hn : n ≤ 22) :
    ((ofNat units).mul (tenPower n)).magnitude =
      min (nearestMagnitude (units * 10 ^ n) 1) infinityPattern := by
  refine magnitude_nearest one_ne_zero one_ne_zero ?_
  rw [quotient_mul, amount_ofNat hu, amount_tenPower hn]
  simp

theorem significand_tenPower_ne_zero (hn : n ≤ 22) : (tenPower n).significand ≠ 0 := by
  intro h
  have ha := amount_tenPower hn
  rw [amount, h, Nat.cast_zero, zero_mul] at ha
  exact absurd ha.symm (by positivity)

theorem magnitude_div_tenPower (hu : units < 2 ^ 53) (hn : n ≤ 22) :
    ((ofNat units).div (tenPower n)).magnitude =
      min (nearestMagnitude units (10 ^ n)) infinityPattern := by
  refine magnitude_nearest (significand_tenPower_ne_zero hn) (by positivity) ?_
  rw [quotient_div, amount_ofNat hu, amount_tenPower hn]
  simp

/-- Both the units and the power of ten are exact, so that only the last step rounds. -/
theorem ofParts?_of_short {scale : ℤ} (hu : units < 2 ^ 53) (hs : scale.natAbs ≤ 22) :
    ∃ x, ofParts? units scale = some x ∧ x.magnitude = decimalMagnitude units scale ∧
      decimalMagnitude units scale < infinityPattern := by
  have hq : (units : ℚ) < 2 ^ 53 := by exact_mod_cast hu
  rw [decimalMagnitude_of_short hu hs]
  unfold ofParts?
  dsimp only
  split
  · have hlt : nearestMagnitude units (10 ^ scale.natAbs) < infinityPattern := by
      refine nearestMagnitude_lt (by positivity) ?_
      have hle : (units : ℚ) / (10 ^ scale.natAbs : ℕ) ≤ units :=
        div_le_self (by positivity) (by exact_mod_cast Nat.one_le_pow _ _ (by decide))
      linarith
    have h0 : (scale.natAbs - 1) / maxTenPower = 0 := Nat.div_eq_of_lt (by rw [maxTenPower]; omega)
    refine ⟨_, rfl, ?_, hlt⟩
    rw [h0, Nat.zero_mul, Nat.sub_zero, divTenPower, magnitude_div_tenPower hu hs,
      min_eq_left hlt.le]
  · have hlt : nearestMagnitude (units * 10 ^ scale.natAbs) 1 < infinityPattern := by
      refine nearestMagnitude_lt one_ne_zero ?_
      have hp := Nat.pow_le_pow_right (show 0 < 10 by decide) hs
      have hm : units * 10 ^ scale.natAbs < 2 ^ 200 :=
        (Nat.mul_lt_mul_of_lt_of_le hu hp (by positivity)).trans (by decide)
      rw [Nat.cast_one, div_one]
      exact_mod_cast hm
    have hm : ((ofNat units).mul (tenPower scale.natAbs)).magnitude =
        nearestMagnitude (units * 10 ^ scale.natAbs) 1 :=
      (magnitude_mul_tenPower hu hs).trans (min_eq_left hlt.le)
    rw [if_pos (show scale.natAbs ≤ maxTenPower by rw [maxTenPower]; omega),
      if_pos (by simpa [isFinite, hm] using hlt)]
    exact ⟨_, rfl, hm, hlt⟩

/-- A numeral whose digits fit 53 bits is read as the nearest number if the power of ten is one
of those that have no rounding error. -/
theorem double?_of_short {n : Numeral} (hm : n.mantissa < 2 ^ 53) (hs : n.scale.natAbs ≤ 22) :
    n.double? = n.nearest? := by
  obtain ⟨x, hx, hmag, hlt⟩ := ofParts?_of_short hm hs
  rw [Numeral.double?, Numeral.parts_of_lt (hm.trans (by decide))]
  simp only [hx, Option.map_some, hmag]
  rw [Numeral.nearest?, ofDecimal?, if_pos hlt]

/-- With more digits, the number that is read need not be the nearest one. -/
example : let n : Numeral := ⟨false, 51, [2, 4, 8, 1, 7, 8, 3, 7, 5, 5, 0, 5, 4, 0, 4], none⟩
    n.double? ≠ n.nearest? := by
  decide +kernel

/-- A finite number whose stored form has few digits is read back by the program. -/
theorem double?_stored_of_short (hx : x.isFinite) (hm : x.stored.mantissa < 2 ^ 53)
    (hs : x.stored.scale.natAbs ≤ 22) : x.stored.double? = some x :=
  (double?_of_short hm hs).trans (nearest?_stored hx)

/-! ## Numbers that are read are finite -/

theorem le_tenPower : ∀ n ≤ maxTenPower,
    2 ^ 52 ≤ (tenPower n).significand ∧ -52 ≤ (tenPower n).exponent := by
  decide +kernel

theorem le_amount {e : ℤ} (hs : 2 ^ 52 ≤ x.significand) (he : e ≤ x.exponent) :
    (2 : ℚ) ^ (52 + e) ≤ x.amount := by
  have hs : (2 : ℚ) ^ 52 ≤ x.significand := by exact_mod_cast hs
  have he : (2 : ℚ) ^ e ≤ 2 ^ x.exponent := zpow_le_zpow_right₀ one_le_two he
  rw [zpow_add₀ two_ne_zero, amount]
  exact mul_le_mul hs he (by positivity) (by positivity)

theorem one_le_amount_tenPower (hn : n ≤ maxTenPower) : 1 ≤ (tenPower n).amount := by
  obtain ⟨hs, he⟩ := le_tenPower n hn
  simpa using le_amount hs he

theorem two_le_amount_tenPower : 2 ≤ (tenPower maxTenPower).amount := by
  have he : -51 ≤ (tenPower maxTenPower).exponent := by decide +kernel
  simpa using le_amount (le_tenPower _ le_rfl).1 he

theorem div_of_one_le {y : Double} (hx : x.amount ≤ 2 ^ 65) (hy : 1 ≤ y.amount) :
    (x.div y).isFinite ∧ (x.div y).amount ≤ 2 * (x.amount / y.amount) := by
  have hs : y.significand ≠ 0 := by
    intro h
    rw [amount, h, Nat.cast_zero, zero_mul] at hy
    exact absurd hy (by norm_num)
  have h0 : 0 ≤ x.amount := by
    unfold amount
    positivity
  have hr : (x.significand : ℚ) / y.significand * 2 ^ (x.exponent - y.exponent) < 2 ^ 200 := by
    rw [quotient_div]
    linarith [div_le_self h0 hy]
  exact ⟨isFinite_nearest hs hr, (amount_nearest_le hs hr).trans_eq (by rw [quotient_div])⟩

theorem isFinite_divTenPower {rest : ℕ} (hr : rest ≤ maxTenPower) (steps : ℕ)
    (hf : x.isFinite) (hx : x.amount ≤ 2 ^ 65) : (divTenPower rest steps x).isFinite := by
  induction steps generalizing x with
  | zero => exact (div_of_one_le hx (one_le_amount_tenPower hr)).1
  | succ steps ih =>
    rw [divTenPower]
    split
    · exact hf
    · -- the power of ten makes up for the rounding
      obtain ⟨hf, ha⟩ := div_of_one_le hx (one_le_amount_tenPower le_rfl)
      refine ih hf (ha.trans ?_)
      rw [← mul_div_assoc, div_le_iff₀ (by linarith [two_le_amount_tenPower])]
      nlinarith [two_le_amount_tenPower]

theorem isFinite_of_ofParts? {scale : ℤ} (hu : units < 2 ^ 64)
    (h : ofParts? units scale = some x) : x.isFinite := by
  have hu' : (units : ℚ) < 2 ^ 64 := by exact_mod_cast hu
  have hlt : units < 2 ^ 200 := hu.trans (by decide)
  have hf := isFinite_ofNat hlt
  unfold ofParts? at h
  dsimp only at h
  split at h
  · cases h
    refine isFinite_divTenPower ?_ _ hf ((amount_ofNat_le hlt).trans (by linarith))
    rw [maxTenPower]
    omega
  · split at h
    · obtain ⟨hy, hx⟩ := Option.ite_none_right_eq_some.mp h
      cases hx
      exact hy
    · obtain ⟨-, hx⟩ := Option.ite_none_right_eq_some.mp h
      cases hx
      exact hf

theorem isFinite_of_double? {n : Numeral} (h : n.double? = some x) : x.isFinite := by
  obtain ⟨y, hy, rfl⟩ := Option.map_eq_some_iff.mp h
  have hf := isFinite_of_ofParts? n.units_lt hy
  rw [isFinite, decide_eq_true_eq] at hf
  simp [isFinite, magnitude_ofMagnitude hf.le, hf]

end Double

end Disasm
