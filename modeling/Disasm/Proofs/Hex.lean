import Mathlib.Data.List.Forall2
import Mathlib.Data.Nat.Digits.Defs
import Mathlib.Tactic.IntervalCases
import Mathlib.Tactic.Ring
import Disasm.Hex

/-! # Reading hexadecimal text back

Digits of either case read as the number that they write in base sixteen, and nothing
else reads as a number. So the digits of a number read back as that number, in lower and
in upper case and with zeros in front. A signed number shows its magnitude behind a
minus sign.
-/

namespace Disasm.Hex

theorem digit?_digitChar {d : ℕ} (hd : d < 16) : digit? d.digitChar = some d := by
  interval_cases d <;> rfl

theorem readFrom_append (n : ℕ) (s t : List Char) :
    readFrom n (s ++ t) = (readFrom n s).bind fun m => readFrom m t := by
  induction s generalizing n with
  | nil => rfl
  | cons c s ih =>
    simp only [List.cons_append, readFrom]
    cases digit? c with
    | none => rfl
    | some d => exact ih _

theorem readFrom_zero_toDigits (n : ℕ) : readFrom 0 (Nat.toDigits 16 n) = some n := by
  induction n using Nat.strongRecOn with
  | _ n ih =>
    rw [Nat.toDigits_eq_if (by omega)]
    split
    · next hn => simp [readFrom, digit?_digitChar hn]
    · next hn =>
      rw [readFrom_append, ih (n / 16) (by omega)]
      simp only [Option.bind_some, readFrom, digit?_digitChar (Nat.mod_lt n (by omega))]
      rw [Nat.div_add_mod]

theorem read?_toDigits (n : ℕ) : read? (Nat.toDigits 16 n) = some n := by
  rw [← readFrom_zero_toDigits n]
  cases h : Nat.toDigits 16 n with
  | nil => exact absurd h Nat.toDigits_ne_nil
  | cons c cs => rfl

theorem exists_digitChar_of_mem {n : ℕ} {c : Char} (hc : c ∈ Nat.toDigits 16 n) :
    ∃ d < 16, c = d.digitChar := by
  induction n using Nat.strongRecOn with
  | _ n ih =>
    rw [Nat.toDigits_eq_if (by omega)] at hc
    split at hc
    · next hn => exact ⟨n, hn, List.mem_singleton.mp hc⟩
    · next hn =>
      rcases List.mem_append.mp hc with hc | hc
      · exact ih (n / 16) (by omega) hc
      · exact ⟨n % 16, Nat.mod_lt n (by omega), List.mem_singleton.mp hc⟩

theorem not_mem_toDigits {c : Char} (h : ∀ d < 16, c ≠ d.digitChar) (n : ℕ) :
    c ∉ Nat.toDigits 16 n := by
  intro hc
  obtain ⟨d, hd, rfl⟩ := exists_digitChar_of_mem hc
  exact h d hd rfl

@[simp] theorem toList_lower (n : ℕ) : (lower n).toList = Nat.toDigits 16 n :=
  String.toList_ofList

@[simp] theorem toList_marked (n : ℕ) : (marked n).toList = '0' :: 'x' :: Nat.toDigits 16 n := by
  simp [marked]

/-! ## Upper case -/

theorem digit?_toUpper_digitChar {d : ℕ} (hd : d < 16) : digit? d.digitChar.toUpper = some d := by
  interval_cases d <;> rfl

@[simp] theorem toList_upper (n : ℕ) : (upper n).toList = (Nat.toDigits 16 n).map Char.toUpper :=
  String.toList_ofList

theorem exists_digitChar_of_mem_upper {n : ℕ} {c : Char} (hc : c ∈ (upper n).toList) :
    ∃ d < 16, c = d.digitChar.toUpper := by
  rw [toList_upper, List.mem_map] at hc
  obtain ⟨c, hc, rfl⟩ := hc
  obtain ⟨d, hd, rfl⟩ := exists_digitChar_of_mem hc
  exact ⟨d, hd, rfl⟩

theorem not_mem_upper {c : Char} (h : ∀ d < 16, c ≠ d.digitChar.toUpper) (n : ℕ) :
    c ∉ (upper n).toList := by
  intro hc
  obtain ⟨d, hd, rfl⟩ := exists_digitChar_of_mem_upper hc
  exact h d hd rfl

theorem not_mem_zeroPad_upper {c : Char} (h : ∀ d < 16, c ≠ d.digitChar.toUpper)
    (width n : ℕ) : c ∉ (zeroPad width (upper n)).toList := by
  rw [zeroPad, String.toList_append, String.toList_ofList, List.mem_append, not_or]
  refine ⟨fun hc => ?_, not_mem_upper h n⟩
  exact h 0 (by omega) (List.eq_of_mem_replicate hc)

theorem readFrom_map_toUpper {cs : List Char} (h : ∀ c ∈ cs, ∃ d < 16, c = d.digitChar) (n : ℕ) :
    readFrom n (cs.map Char.toUpper) = readFrom n cs := by
  induction cs generalizing n with
  | nil => rfl
  | cons c cs ih =>
    obtain ⟨⟨d, hd, rfl⟩, hcs⟩ := List.forall_mem_cons.mp h
    simp only [List.map_cons, readFrom, digit?_digitChar hd, digit?_toUpper_digitChar hd,
      Option.bind_some, ih hcs]

theorem readFrom_zero_upper (n : ℕ) : readFrom 0 (upper n).toList = some n := by
  rw [toList_upper, readFrom_map_toUpper fun _ => exists_digitChar_of_mem, readFrom_zero_toDigits]

theorem readFrom_zero_zeros (k : ℕ) (cs : List Char) :
    readFrom 0 (List.replicate k '0' ++ cs) = readFrom 0 cs := by
  induction k with
  | zero => rfl
  | succ k ih => exact ih

theorem read?_eq_readFrom {cs : List Char} (h : cs ≠ []) : read? cs = readFrom 0 cs := by
  cases cs with
  | nil => exact absurd rfl h
  | cons c cs => rfl

theorem toList_upper_ne_nil (n : ℕ) : (upper n).toList ≠ [] := by
  simp [Nat.toDigits_ne_nil]

theorem read?_upper (n : ℕ) : read? (upper n).toList = some n := by
  rw [read?_eq_readFrom (toList_upper_ne_nil n), readFrom_zero_upper]

theorem read?_zeroPad_upper (width n : ℕ) : read? (zeroPad width (upper n)).toList = some n := by
  have h : (zeroPad width (upper n)).toList =
      List.replicate (width - (upper n).length) '0' ++ (upper n).toList := by
    rw [zeroPad, String.toList_append, String.toList_ofList]
  rw [h, read?_eq_readFrom (by simp [Nat.toDigits_ne_nil]), readFrom_zero_zeros,
    readFrom_zero_upper]

/-! ## What digits write -/

/-- A character is the digit of a number below sixteen, in either case. -/
def IsDigit (c : Char) (d : ℕ) : Prop := d < 16 ∧ (c = d.digitChar ∨ c = d.digitChar.toUpper)

/-- Digits of either case, the highest first, write a number in base sixteen. -/
def Writes (cs : List Char) (n : ℕ) : Prop :=
  ∃ ds, List.Forall₂ IsDigit cs ds ∧ Nat.ofDigits 16 ds.reverse = n

instance (c : Char) (d : ℕ) : Decidable (IsDigit c d) := inferInstanceAs (Decidable (_ ∧ _))

variable {c first last : Char} {cs : List Char} {d n m : ℕ}

/-- What holds of the characters with the numbers from `first` to `last` holds between the two. -/
theorem of_between {P : Char → Prop} (hc : first ≤ c ∧ c ≤ last)
    (h : ∀ k ≤ last.toNat, first.toNat ≤ k → P (Char.ofNat k)) : P c := by
  rw [← Char.ofNat_toNat c]
  exact h c.toNat hc.2 hc.1

theorem isDigit_of_digit? (h : digit? c = some d) : IsDigit c d := by
  unfold digit? at h
  split at h
  · next hc =>
    cases h
    apply of_between hc
    decide
  · split at h
    · next hc =>
      cases h
      apply of_between hc
      decide
    · split at h
      · next hc =>
        cases h
        apply of_between hc
        decide
      · cases h

theorem digit?_eq_some_iff : digit? c = some d ↔ IsDigit c d := by
  refine ⟨isDigit_of_digit?, ?_⟩
  rintro ⟨hd, rfl | rfl⟩
  · exact digit?_digitChar hd
  · exact digit?_toUpper_digitChar hd

/-- Digits that continue a number are read as those of a number behind it. -/
theorem readFrom_eq_some_iff : readFrom n cs = some m ↔
    ∃ ds, List.Forall₂ IsDigit cs ds ∧ n * 16 ^ ds.length + Nat.ofDigits 16 ds.reverse = m := by
  induction cs generalizing n with
  | nil => simp [readFrom]
  | cons c cs ih =>
    have hvalue (d : ℕ) (ds : List ℕ) :
        n * 16 ^ (d :: ds).length + Nat.ofDigits 16 (d :: ds).reverse =
          (16 * n + d) * 16 ^ ds.length + Nat.ofDigits 16 ds.reverse := by
      rw [List.reverse_cons, Nat.ofDigits_append, Nat.ofDigits_singleton, List.length_reverse,
        List.length_cons, pow_succ]
      ring
    simp only [readFrom, Option.bind_eq_some_iff, digit?_eq_some_iff, ih]
    constructor
    · rintro ⟨d, hd, ds, hds, rfl⟩
      exact ⟨d :: ds, .cons hd hds, hvalue d ds⟩
    · rintro ⟨_, hd | ⟨hd, hds⟩, rfl⟩
      exact ⟨_, hd, _, hds, (hvalue _ _).symm⟩

theorem read?_eq_some_iff : read? cs = some n ↔ cs ≠ [] ∧ Writes cs n := by
  cases cs with
  | nil => simp [read?]
  | cons c cs => simp [read?, readFrom_eq_some_iff, Writes]

theorem Writes.not_mem (h : Writes cs n) (hc : digit? c = none) : c ∉ cs := by
  obtain ⟨ds, hds, -⟩ := h
  induction hds with
  | nil => exact List.not_mem_nil
  | @cons first d _ _ hd _ ih =>
    have hne : c ≠ first := by
      rintro rfl
      rw [digit?_eq_some_iff.mpr hd] at hc
      cases hc
    exact List.not_mem_cons_of_ne_of_not_mem hne ih

/-! ## Numerals -/

/-- Lower-case digits without a superfluous leading zero write a number. -/
structure IsNumeral (cs : List Char) (n : ℕ) : Prop where
  ne_nil : cs ≠ []
  lower : ∀ c ∈ cs, ∃ d < 16, c = d.digitChar
  leading : cs.head? = some '0' → cs = ['0']
  writes : Writes cs n

theorem IsNumeral.unique (hn : IsNumeral cs n) (hm : IsNumeral cs m) : n = m := by
  have hread : read? cs = some n := read?_eq_some_iff.mpr ⟨hn.ne_nil, hn.writes⟩
  rw [read?_eq_some_iff.mpr ⟨hm.ne_nil, hm.writes⟩] at hread
  exact (Option.some.inj hread).symm

theorem eq_zero_of_head?_toDigits (h : (Nat.toDigits 16 n).head? = some '0') : n = 0 := by
  induction n using Nat.strongRecOn with
  | _ n ih =>
    rw [Nat.toDigits_eq_if (by omega)] at h
    split at h
    · next hn =>
      have hd : n.digitChar = '0' := Option.some.inj h
      interval_cases n <;> first | rfl | cases hd
    · next hn =>
      rw [List.head?_append_of_ne_nil _ Nat.toDigits_ne_nil] at h
      have hz : n / 16 = 0 := ih (n / 16) (by omega) h
      omega

theorem isNumeral_toDigits (n : ℕ) : IsNumeral (Nat.toDigits 16 n) n where
  ne_nil := Nat.toDigits_ne_nil
  lower _ := exists_digitChar_of_mem
  leading h := by rw [eq_zero_of_head?_toDigits h]; rfl
  writes := (read?_eq_some_iff.mp (read?_toDigits n)).2

/-! ## Signs -/

/-- The magnitude behind `0x`, with a minus sign in front for a negative number. -/
def signed (i : ℤ) : String := if i < 0 then "-" ++ marked i.natAbs else marked i.natAbs

/-- A numeral behind `0x`, with or without a minus sign in front, denotes an integer. -/
inductive Denotes : List Char → ℤ → Prop where
  | plain {cs : List Char} {n : ℕ} : IsNumeral cs n → Denotes ('0' :: 'x' :: cs) n
  | negated {cs : List Char} {n : ℕ} : IsNumeral cs n → Denotes ('-' :: '0' :: 'x' :: cs) (-n)

variable {i j : ℤ}

theorem Denotes.unique (hi : Denotes cs i) (hj : Denotes cs j) : i = j := by
  cases hi with
  | plain hn =>
    cases hj with
    | plain hm => rw [hn.unique hm]
  | negated hn =>
    cases hj with
    | negated hm => rw [hn.unique hm]

theorem toList_signed (i : ℤ) : (signed i).toList =
    (if i < 0 then ['-'] else []) ++ '0' :: 'x' :: Nat.toDigits 16 i.natAbs := by
  unfold signed
  split <;> simp

theorem denotes_signed (i : ℤ) : Denotes (signed i).toList i := by
  rw [toList_signed]
  split
  · next h =>
    have hi : i = -(i.natAbs : ℤ) := by omega
    nth_rewrite 2 [hi]
    exact .negated (isNumeral_toDigits _)
  · next h =>
    have hi : i = (i.natAbs : ℤ) := by omega
    nth_rewrite 2 [hi]
    exact .plain (isNumeral_toDigits _)

theorem head?_signed : (signed i).toList.head? = some '-' ↔ i < 0 := by
  rw [toList_signed]
  split <;> simp [*]

theorem signed_inj : signed i = signed j ↔ i = j := by
  refine ⟨fun h => ?_, congrArg signed⟩
  have hj : Denotes (signed i).toList j := h ▸ denotes_signed j
  exact (denotes_signed i).unique hj

theorem signed_ne_minus_zero (i : ℤ) : signed i ≠ "-0x0" := by
  intro h
  have hneg : i < 0 := head?_signed.mp (by rw [h]; rfl)
  have hzero : Denotes (signed i).toList (-(0 : ℕ)) := by
    rw [h]
    exact .negated (isNumeral_toDigits 0)
  exact hneg.ne ((denotes_signed i).unique hzero)

end Disasm.Hex
