import Mathlib.Data.Nat.Notation
import Mathlib.Tactic.IntervalCases
import Mathlib.Tactic.Ring
import Disasm.Numeral

/-! # Decimal digits

The digits of a number continue a numeral by that number. A number below a power of ten has
no more digits than that power has zeros.
-/

namespace Disasm.Numeral

theorem ofChar_digitChar {d : ℕ} (hd : d < 10) : ofChar d.digitChar = ⟨d, hd⟩ := by
  interval_cases d <;> rfl

theorem digits_of_lt {n : ℕ} (h : n < 10) : digits n = [⟨n, h⟩] := by
  rw [digits, Nat.toDigits_of_lt_base h, List.map_singleton, ofChar_digitChar h]

theorem digits_of_ge {n : ℕ} (h : 10 ≤ n) :
    digits n = digits (n / 10) ++ [⟨n % 10, Nat.mod_lt n (by decide)⟩] := by
  rw [digits, Nat.toDigits_eq_if (by decide), if_neg (not_lt.mpr h), List.map_append,
    List.map_singleton, ofChar_digitChar (Nat.mod_lt n (by decide)), digits]

theorem digits_ne_nil (n : ℕ) : digits n ≠ [] := by
  simp [digits, Nat.toDigits_ne_nil]

theorem value_append (n : ℕ) (ds es : List (Fin 10)) :
    value n (ds ++ es) = value (value n ds) es := List.foldl_append ..

theorem value_digits (m n : ℕ) : value m (digits n) = m * 10 ^ (digits n).length + n := by
  induction n using Nat.strongRecOn with
  | _ n ih =>
    by_cases hn : n < 10
    · simp [digits_of_lt hn, value, mul_comm]
    · rw [digits_of_ge (not_lt.mp hn), value_append, ih (n / 10) (by omega), List.length_append,
        List.length_singleton]
      set k := (digits (n / 10)).length
      calc value (m * 10 ^ k + n / 10) [⟨n % 10, _⟩] = 10 * (m * 10 ^ k + n / 10) + n % 10 := rfl
        _ = m * 10 ^ (k + 1) + (10 * (n / 10) + n % 10) := by ring
        _ = m * 10 ^ (k + 1) + n := by rw [Nat.div_add_mod]

theorem value_zeros (n k : ℕ) : value n (List.replicate k zeroDigit) = n * 10 ^ k := by
  induction k generalizing n with
  | zero => exact (Nat.mul_one n).symm
  | succ k ih =>
    rw [List.replicate_succ]
    exact (ih (10 * n)).trans (by ring)

theorem length_digits_le {n k : ℕ} (hk : k ≠ 0) (h : n < 10 ^ k) : (digits n).length ≤ k := by
  induction k generalizing n with
  | zero => exact absurd rfl hk
  | succ k ih =>
    by_cases hn : n < 10
    · simp [digits_of_lt hn]
    · have hd : n / 10 < 10 ^ k := by
        rw [Nat.div_lt_iff_lt_mul (by decide)]
        rwa [pow_succ] at h
      have hk : k ≠ 0 := by
        rintro rfl
        omega
      rw [digits_of_ge (not_lt.mp hn), List.length_append]
      exact Nat.succ_le_succ (ih hk hd)

end Disasm.Numeral
