import Disasm.Double.Layout
import Disasm.Proofs.Double.Decimal
import Disasm.Proofs.Double.Shortest
import Disasm.Proofs.Numeral

/-! # Stored numbers read back

A stored number denotes the shortest decimal in each of its layouts, so the number nearest to
it is the one that was stored, the sign of zero included.
-/

namespace Disasm

def Numeral.nearest? (n : Numeral) : Option Double :=
  Double.ofDecimal? n.negative n.mantissa n.scale

def Numeral.amount (n : Numeral) : ℚ := n.mantissa * 10 ^ n.scale

namespace Decimal

def amount (d : Decimal) : ℚ := d.digits * 10 ^ d.scale

theorem amount_scientific (negative : Bool) (d : Decimal) :
    (d.scientific negative).amount = d.amount := by
  obtain ⟨digits, scale⟩ := d
  have hv := Numeral.value_digits 0 digits
  unfold scientific
  cases hd : Numeral.digits digits with
  | nil => exact absurd hd (Numeral.digits_ne_nil digits)
  | cons h t =>
    have hm : Numeral.value h.val t = digits := by
      rw [hd] at hv
      simpa [Numeral.value] using hv
    simp [Numeral.amount, amount, Numeral.mantissa, Numeral.scale, hm]

/-- The digits behind the point of a positional numeral. -/
theorem fraction_positional (digits : ℕ) {places : ℕ} (hp : places ≠ 0) :
    let low := Numeral.digits (digits % 10 ^ places)
    let fraction := List.replicate (places - low.length) Numeral.zeroDigit ++ low
    fraction.length = places ∧ Numeral.value (digits / 10 ^ places) fraction = digits := by
  intro low fraction
  have hl : low.length ≤ places :=
    Numeral.length_digits_le hp (Nat.mod_lt _ (Nat.pow_pos (by decide)))
  constructor
  · simp only [fraction, List.length_append, List.length_replicate]
    omega
  · rw [Numeral.value_append, Numeral.value_zeros, Numeral.value_digits, mul_assoc, ← pow_add,
      Nat.sub_add_cancel hl, Nat.div_add_mod']

theorem amount_positional (negative : Bool) (d : Decimal) :
    (d.positional negative).amount = d.amount := by
  obtain ⟨digits, scale⟩ := d
  unfold positional
  dsimp only
  split
  · next hs =>
    obtain ⟨n, rfl⟩ : ∃ n : ℕ, scale = n := ⟨scale.toNat, by omega⟩
    simp [Numeral.amount, amount, Numeral.mantissa, Numeral.scale, Numeral.value]
  · next hs =>
    obtain ⟨n, rfl⟩ : ∃ n : ℕ, scale = -n := ⟨scale.natAbs, by omega⟩
    obtain ⟨hl, hv⟩ := fraction_positional digits (show n ≠ 0 by omega)
    simp only [Numeral.amount, amount, Numeral.mantissa, Numeral.scale, Int.natAbs_neg,
      Int.natAbs_natCast, Nat.pow_eq, hl, hv, Option.getD_none, zero_sub]

end Decimal

namespace Double

theorem amount_withTenths (n : Numeral) : (withTenths n).amount = n.amount := by
  unfold withTenths
  split
  · next h =>
    rw [List.isEmpty_iff] at h
    have hm : Numeral.value n.whole [Numeral.zeroDigit] = n.whole * 10 := Numeral.value_zeros _ 1
    simp only [Numeral.amount, Numeral.mantissa, Numeral.scale, h, hm]
    rw [List.length_singleton, List.length_nil, zpow_sub₀ (by norm_num), zpow_sub₀ (by norm_num),
      Numeral.value, List.foldl_nil]
    push_cast
    field_simp
  · rfl

theorem stored_cases (x : Double) :
    x.stored = withTenths ((x.shortest .toEven).positional x.negative) ∨
      x.stored = (x.shortest .toEven).scientific x.negative := by
  rw [stored]
  exact ite_eq_or_eq ..

theorem amount_stored (x : Double) : x.stored.amount = (x.shortest .toEven).amount := by
  rcases x.stored_cases with h | h <;> rw [h]
  · rw [amount_withTenths, Decimal.amount_positional]
  · rw [Decimal.amount_scientific]

theorem negative_stored (x : Double) : x.stored.negative = x.negative := by
  rcases x.stored_cases with h | h <;> rw [h]
  · unfold withTenths Decimal.positional
    dsimp only
    split <;> split <;> rfl
  · unfold Decimal.scientific
    split <;> rfl

theorem ofMagnitude_magnitude (x : Double) : ofMagnitude x.negative x.magnitude = x := by
  obtain ⟨bits⟩ := x
  have h := bits.toNat_lt
  simp only [ofMagnitude, negative, magnitude, Nat.pow_eq, decide_eq_true_eq]
  congr 1
  rw [← UInt64.toNat_inj, UInt64.toNat_ofNat']
  split <;> omega

theorem magnitude_ofMagnitude {negative : Bool} {m : ℕ} (h : m ≤ infinityPattern) :
    (ofMagnitude negative m).magnitude = m := by
  have hi : infinityPattern = 2047 * 2 ^ 52 := rfl
  simp only [ofMagnitude, magnitude, Nat.pow_eq, UInt64.toNat_ofNat']
  split <;> omega

theorem magnitude_of_significand {x : Double} (h : x.significand = 0) : x.magnitude = 0 := by
  have hu := fieldUnit_eq
  unfold significand at h
  split at h <;> omega

/-- A finite number is nearest to its stored form. -/
theorem nearest?_stored {x : Double} (h : x.isFinite) : x.stored.nearest? = some x := by
  have hm : decimalMagnitude x.stored.mantissa x.stored.scale = x.magnitude := by
    by_cases hx : x.significand = 0
    · have ha : x.stored.amount = 0 := by
        rw [amount_stored, shortest, if_pos hx]
        simp [Decimal.amount]
      have hp : (10 : ℚ) ^ x.stored.scale ≠ 0 := zpow_ne_zero _ (by norm_num)
      have hz : x.stored.mantissa = 0 := by exact_mod_cast (mul_eq_zero_iff_right hp).mp ha
      rw [hz, decimalMagnitude, if_pos rfl, magnitude_of_significand hx]
    · refine decimalMagnitude_of_rounds h hx ?_
      have hr := rounds_shortest .toEven h hx
      rw [← Decimal.amount, ← amount_stored] at hr
      exact hr
  have hlt : x.magnitude < infinityPattern := by simpa [isFinite] using h
  rw [Numeral.nearest?, ofDecimal?, hm, negative_stored, if_pos hlt, ofMagnitude_magnitude]

theorem isFinite_of_nearest? {n : Numeral} {x : Double} (h : n.nearest? = some x) : x.isFinite := by
  rw [Numeral.nearest?, ofDecimal?] at h
  obtain ⟨hm, hx⟩ := Option.ite_none_right_eq_some.mp h
  cases hx
  simp [isFinite, magnitude_ofMagnitude hm.le, hm]

end Double

end Disasm
