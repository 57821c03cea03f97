import Mathlib.Data.Nat.Notation
import Mathlib.Tactic.IntervalCases
import Disasm.Json.Scan
import Disasm.Json.Writer
import Disasm.Proofs.Hex

/-! # Scanning what was written

The scan of a written number ends complete and holds that number, and so does the scan of
the characters between the quotes of a written string.
-/

namespace Disasm.Json

/-! ## Numbers -/

theorem digit?_digitChar {d : ℕ} (hd : d < 10) : digit? d.digitChar = some ⟨d, hd⟩ := by
  interval_cases d <;> rfl

theorem digit?_digit (d : Fin 10) : digit? (Numeral.digit d) = some d := digit?_digitChar d.isLt

namespace NumberScan

def run? (n : NumberScan) (cs : List Char) : Option NumberScan := cs.foldlM step? n

theorem run?_append (n : NumberScan) (cs ds : List Char) :
    n.run? (cs ++ ds) = (n.run? cs).bind fun m => m.run? ds := List.foldlM_append ..

theorem run?_cons (n : NumberScan) (c : Char) (cs : List Char) :
    n.run? (c :: cs) = (n.step? c).bind fun m => m.run? cs := List.foldlM_cons ..

def lastPart (n : Numeral) : NumberPart :=
  if n.exponent.isSome then .exponent
  else if n.fraction.isEmpty then if n.whole = 0 then .zero else .whole
  else .fraction

/-- What a scan holds behind the text of a number. -/
def ofNumeral (n : Numeral) : NumberScan where
  part := lastPart n
  negative := n.negative
  whole := n.whole
  fraction := n.fraction.reverse
  exponentNegative := n.exponent.any (· < 0)
  exponent := (n.exponent.map Int.natAbs).getD 0

@[simp] theorem numeral?_ofNumeral (n : Numeral) : (ofNumeral n).numeral? = some n := by
  obtain ⟨negative, whole, fraction, exponent⟩ := n
  cases exponent with
  | some e =>
    have he : (ofNumeral ⟨negative, whole, fraction, some e⟩).signedExponent = e := by
      by_cases hn : e < 0
      · simp [ofNumeral, signedExponent, hn, abs_of_neg]
      · simp [ofNumeral, signedExponent, hn, abs_of_nonneg (not_lt.mp hn)]
    simp [numeral?, he]
    simp [ofNumeral, lastPart]
  | none =>
    cases fraction with
    | cons d ds => simp [ofNumeral, lastPart, numeral?]
    | nil => by_cases hw : whole = 0 <;> simp [ofNumeral, lastPart, numeral?, hw]

theorem run?_whole (b : Bool) (n : ℕ) : run? { part := .sign, negative := b }
    (Nat.toDigits 10 n) = some (ofNumeral ⟨b, n, [], none⟩) := by
  induction n using Nat.strongRecOn with
  | _ n ih =>
    rw [Nat.toDigits_eq_if (by omega)]
    split
    · next hn =>
      simp [run?, step?, digit?_digitChar hn, firstDigit, ofNumeral, lastPart, Numeral.zeroDigit]
    · next hn =>
      have hd : n / 10 ≠ 0 := by omega
      rw [run?_append, ih (n / 10) (by omega)]
      simp [run?, step?, ofNumeral, lastPart, hd, digit?_digitChar (Nat.mod_lt n (by omega))]
      omega

theorem run?_digits (n : NumberScan) (hn : n.part = .fraction) (ds : List (Fin 10)) :
    n.run? (ds.map Numeral.digit) = some { n with fraction := ds.reverse ++ n.fraction } := by
  induction ds generalizing n with
  | nil => simp [run?]
  | cons d ds ih =>
    have hs : n.step? (Numeral.digit d) = some (n.fractionDigit d) := by
      simp [step?, hn, digit?_digit]
    rw [List.map_cons, run?_cons, hs, Option.bind_some, ih _ rfl]
    simp [fractionDigit, hn]

theorem run?_fractionText (b : Bool) (n : ℕ) (ds : List (Fin 10)) :
    (ofNumeral ⟨b, n, [], none⟩).run? (Numeral.fractionText ds).toList =
      some (ofNumeral ⟨b, n, ds, none⟩) := by
  cases ds with
  | nil => rfl
  | cons d ds =>
    have hp : (ofNumeral ⟨b, n, [], none⟩).step? '.' =
        some { ofNumeral ⟨b, n, [], none⟩ with part := .point } := by
      by_cases hn : n = 0 <;> simp [ofNumeral, lastPart, step?, afterWhole, digit?, hn]
    have ht : (Numeral.fractionText (d :: ds)).toList =
        '.' :: Numeral.digit d :: ds.map Numeral.digit := by
      simp [Numeral.fractionText]
    rw [ht, run?_cons, hp, Option.bind_some, run?_cons]
    simp only [step?, digit?_digit, Option.map_some, Option.bind_some]
    rw [run?_digits _ rfl]
    simp [fractionDigit, ofNumeral, lastPart]

theorem run?_natAbs (n : NumberScan) (hn : n.part = .exponentSign) (he : n.exponent = 0)
    (e : ℕ) : n.run? (Nat.toDigits 10 e) = some { n with part := .exponent, exponent := e } := by
  induction e using Nat.strongRecOn with
  | _ e ih =>
    rw [Nat.toDigits_eq_if (by omega)]
    split
    · next hd => simp [run?, step?, hn, he, digit?_digitChar hd, exponentDigit]
    · next hd =>
      rw [run?_append, ih (e / 10) (by omega)]
      simp [run?, step?, digit?_digitChar (Nat.mod_lt e (by omega)), exponentDigit]
      omega

theorem run?_exponentText (b : Bool) (n : ℕ) (ds : List (Fin 10)) (e : Option ℤ) :
    (ofNumeral ⟨b, n, ds, none⟩).run? (Numeral.exponentText e).toList =
      some (ofNumeral ⟨b, n, ds, e⟩) := by
  cases e with
  | none => rfl
  | some e =>
    have hp : (ofNumeral ⟨b, n, ds, none⟩).step? 'e' =
        some { ofNumeral ⟨b, n, ds, none⟩ with part := .mark } := by
      cases ds with
      | cons d ds => simp [ofNumeral, lastPart, step?, digit?]
      | nil => by_cases hn : n = 0 <;> simp [ofNumeral, lastPart, step?, afterWhole, digit?, hn]
    have ht : (Numeral.exponentText (some e)).toList =
        'e' :: (if e < 0 then '-' else '+') :: Nat.toDigits 10 e.natAbs := by
      by_cases hn : e < 0 <;> simp [Numeral.exponentText, hn]
    have hs : step? { ofNumeral ⟨b, n, ds, none⟩ with part := .mark }
        (if e < 0 then '-' else '+') =
          some { ofNumeral ⟨b, n, ds, none⟩ with
            part := .exponentSign, exponentNegative := e < 0 } := by
      by_cases hn : e < 0 <;> simp [ofNumeral, step?, hn]
    rw [ht, run?_cons, hp, Option.bind_some, run?_cons, hs, Option.bind_some, run?_natAbs _ rfl rfl]
    simp [ofNumeral, lastPart]

def unsignedText (n : Numeral) : List Char :=
  Nat.toDigits 10 n.whole ++ (Numeral.fractionText n.fraction).toList ++
    (Numeral.exponentText n.exponent).toList

theorem toList_text (n : Numeral) :
    n.text.toList = if n.negative then '-' :: unsignedText n else unsignedText n := by
  cases hn : n.negative <;> simp [Numeral.text, unsignedText, hn]

theorem run?_unsignedText (n : Numeral) :
    run? { part := .sign, negative := n.negative } (unsignedText n) = some (ofNumeral n) := by
  rw [unsignedText, run?_append, run?_append, run?_whole, Option.bind_some, run?_fractionText,
    Option.bind_some, run?_exponentText]

theorem start?_of_step? {c : Char} {n : NumberScan} (h : step? { part := .sign } c = some n) :
    start? c = some n := by
  have hc : c ≠ '-' := by
    rintro rfl
    cases h
  rwa [start?, if_neg hc]

/-- A number is scanned from its first character on. -/
theorem scan_text (n : Numeral) : ∃ c cs first, n.text.toList = c :: cs ∧
    start? c = some first ∧ first.run? cs = some (ofNumeral n) := by
  rw [toList_text]
  have hr := run?_unsignedText n
  cases hn : n.negative with
  | true => exact ⟨'-', _, _, rfl, rfl, hn ▸ hr⟩
  | false =>
    cases ht : unsignedText n with
    | nil => simp [unsignedText, Nat.toDigits_ne_nil] at ht
    | cons c cs =>
      rw [ht, hn, run?_cons] at hr
      obtain ⟨first, hf, hr⟩ := Option.bind_eq_some_iff.mp hr
      exact ⟨c, cs, first, rfl, start?_of_step? hf, hr⟩

theorem step?_ofNumeral_eq_none (n : Numeral) {c : Char} (hc : c = ',' ∨ c = ']' ∨ c = '\x7d') :
    (ofNumeral n).step? c = none := by
  obtain ⟨negative, whole, fraction, exponent⟩ := n
  have hd : digit? c = none := by rcases hc with rfl | rfl | rfl <;> rfl
  have ha : ∀ n : NumberScan, n.afterWhole c = none := by
    intro n
    rcases hc with rfl | rfl | rfl <;> rfl
  have he : ¬ (c = 'e' ∨ c = 'E') := by rcases hc with rfl | rfl | rfl <;> decide
  cases exponent with
  | some e => simp [ofNumeral, lastPart, step?, hd]
  | none =>
    cases fraction with
    | cons d ds => simp [ofNumeral, lastPart, step?, hd, he]
    | nil => by_cases hw : whole = 0 <;> simp [ofNumeral, lastPart, step?, hd, ha, hw]

end NumberScan

/-! ## Strings -/

theorem escape_cases (c : Char) :
    (∃ e, (escape c).toList = ['\\', e] ∧ e ≠ 'u' ∧ StringScan.unescape? e = some c) ∨
    (c < ' ' ∧ (escape c).toList = (codeEscape c.toNat).toList) ∨
    (c ≠ '"' ∧ c ≠ '\\' ∧ ¬ c < ' ' ∧ (escape c).toList = [c]) := by
  have hshort : ∀ c ∈ ['"', '\\', '\n', '\r', '\t', '\x08', '\x0c'],
      ∃ e, (escape c).toList = ['\\', e] ∧ e ≠ 'u' ∧ StringScan.unescape? e = some c := by
    simp only [List.forall_mem_cons]
    exact ⟨⟨_, rfl, by decide, rfl⟩, ⟨_, rfl, by decide, rfl⟩, ⟨_, rfl, by decide, rfl⟩,
      ⟨_, rfl, by decide, rfl⟩, ⟨_, rfl, by decide, rfl⟩, ⟨_, rfl, by decide, rfl⟩,
      ⟨_, rfl, by decide, rfl⟩, by simp⟩
  by_cases hc : c ∈ ['"', '\\', '\n', '\r', '\t', '\x08', '\x0c']
  · exact .inl (hshort c hc)
  · simp only [List.mem_cons, List.not_mem_nil, or_false, not_or] at hc
    obtain ⟨h₁, h₂, h₃, h₄, h₅, h₆, h₇⟩ := hc
    by_cases hs : c < ' '
    · exact .inr (.inl ⟨hs, by simp [escape, *]⟩)
    · exact .inr (.inr ⟨h₁, h₂, hs, by simp [escape, *]⟩)

theorem toList_codeEscape {u : ℕ} (hu : u < 32) : (codeEscape u).toList =
    ['\\', 'u', (0).digitChar, (0).digitChar, (u / 16).digitChar, (u % 16).digitChar] := by
  interval_cases u <;> rfl

namespace StringScan

def taken (cs : List Char) : StringScan := { chars := cs.reverse }

/-- Takes one character that does not close the string. -/
def take? (s : StringScan) (c : Char) : Option StringScan :=
  if c = '"' ∧ s.closes then none else s.step? c

def run? (s : StringScan) (cs : List Char) : Option StringScan := cs.foldlM take? s

theorem run?_append (s : StringScan) (cs ds : List Char) :
    s.run? (cs ++ ds) = (s.run? cs).bind fun t => t.run? ds := List.foldlM_append ..

theorem run?_cons (s : StringScan) (c : Char) (cs : List Char) :
    s.run? (c :: cs) = (s.take? c).bind fun t => t.run? cs := List.foldlM_cons ..

theorem take?_digit (s : StringScan) (left value : ℕ) {d : ℕ} (hd : d < 16) :
    take? { s with part := .code (left + 1) value } d.digitChar =
      some { s with part := .code left (16 * value + d) } := by
  simp [take?, closes, step?, Hex.digit?_digitChar hd]

theorem take?_lastDigit (s : StringScan) (value : ℕ) {d : ℕ} (hd : d < 16) :
    take? { s with part := .code 0 value } d.digitChar =
      some (pushUnit { s with part := .code 0 value } (16 * value + d)) := by
  simp [take?, closes, step?, Hex.digit?_digitChar hd]

theorem run?_code (cs : List Char) {a b c d : ℕ} (ha : a < 16) (hb : b < 16) (hc : c < 16)
    (hd : d < 16) : ∃ s : StringScan, s.chars = cs.reverse ∧ s.high = none ∧ s.lone = false ∧
      (taken cs).run? ['\\', 'u', a.digitChar, b.digitChar, c.digitChar, d.digitChar] =
        some (s.pushUnit (16 * (16 * (16 * a + b) + c) + d)) := by
  have hu : ((taken cs).run? ['\\', 'u']) = some { taken cs with part := .code 3 0 } := rfl
  have ht := run?_append (taken cs) ['\\', 'u'] [a.digitChar, b.digitChar, c.digitChar, d.digitChar]
  rw [hu, Option.bind_some] at ht
  refine ⟨{ taken cs with part := .code 0 (16 * (16 * a + b) + c) }, rfl, rfl, rfl, ht.trans ?_⟩
  simp only [run?, List.foldlM_cons, List.foldlM_nil, take?_digit _ _ _ ha, take?_digit _ _ _ hb,
    take?_digit _ _ _ hc, take?_lastDigit _ _ hd, Option.bind_eq_bind, Option.bind_some, mul_zero,
    zero_add, Option.pure_def]

theorem pushUnit_toNat {s : StringScan} {c : Char} (hh : s.high = none) (hl : s.lone = false)
    (hc : c.toNat < 0xd800) : s.pushUnit c.toNat = { chars := c :: s.chars } := by
  have h₁ : ¬ (0xd800 ≤ c.toNat ∧ c.toNat < 0xdc00) := by omega
  have h₂ : ¬ (0xdc00 ≤ c.toNat ∧ c.toNat < 0xe000) := by omega
  simp [pushUnit, h₁, h₂, push, hh, hl]

theorem run?_escape (cs : List Char) (c : Char) :
    (taken cs).run? (escape c).toList = some (taken (cs ++ [c])) := by
  rcases escape_cases c with ⟨e, he, hu, hc⟩ | ⟨hc, he⟩ | ⟨hq, hb, hc, he⟩
  · rw [he]
    simp [run?, take?, closes, taken, step?, hu, hc, push]
  · have hn : c.toNat < 32 := hc
    obtain ⟨s, hs, hh, hl, hr⟩ := run?_code cs (a := 0) (b := 0) (c := c.toNat / 16)
      (d := c.toNat % 16) (by omega) (by omega) (by omega) (by omega)
    have hv : 16 * (16 * (16 * 0 + 0) + c.toNat / 16) + c.toNat % 16 = c.toNat := by omega
    rw [he, toList_codeEscape hn, hr, hv, pushUnit_toNat hh hl (by omega), hs, taken]
    simp
  · rw [he]
    simp [run?, take?, closes, taken, step?, hq, hb, hc, push]

theorem run?_escapes (cs ds : List Char) :
    (taken cs).run? (ds.flatMap fun c => (escape c).toList) = some (taken (cs ++ ds)) := by
  induction ds generalizing cs with
  | nil => simp [run?]
  | cons d ds ih =>
    rw [List.flatMap_cons, run?_append, run?_escape, Option.bind_some, ih]
    simp

theorem closes_taken (cs : List Char) : (taken cs).closes := rfl

theorem text?_taken (cs : List Char) : (taken cs).text? = some (String.ofList cs) := by
  simp [taken, text?]

def quotedText : Option String → List Char
  | some s => s.toList.flatMap fun c => (escape c).toList
  | none => (codeEscape 0xd800).toList

theorem toList_quote (s : Option String) : (quote s).toList = '"' :: quotedText s ++ ['"'] := by
  cases s with
  | none => rfl
  | some s =>
    have hj : (String.join (s.toList.map escape)).toList = quotedText (some s) := by
      rw [String.toList_join, quotedText, List.flatMap_map]
    simp [quote, hj]

theorem run?_quotedText (s : Option String) :
    ∃ t : StringScan, run? {} (quotedText s) = some t ∧ t.closes ∧ t.text? = s := by
  cases s with
  | none => exact ⟨_, rfl, rfl, rfl⟩
  | some s =>
    refine ⟨_, run?_escapes [] s.toList, closes_taken _, ?_⟩
    simp [text?_taken]

end StringScan

end Disasm.Json
