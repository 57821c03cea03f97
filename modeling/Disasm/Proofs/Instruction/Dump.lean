import Disasm.Instruction.Line
import Disasm.Proofs.Hex

/-! # Reading a dump back

A dump shows each byte as two upper-case digits with nothing between them, and a plus
sign at its end if bytes are cut. So the bytes that it shows can be read back, and so
can whether there are more. Dumps with nothing cut are equal only for equal bytes.
-/

namespace Disasm

namespace Hex

def upperDigit (d : ℕ) : Char := d.digitChar.toUpper

def pair (b : UInt8) : List Char := [upperDigit (b.toNat / 16), upperDigit (b.toNat % 16)]

example : (List.range 16).map upperDigit = "0123456789ABCDEF".toList := by decide

theorem toList_byte (b : UInt8) : (byte b).toList = pair b := by
  have hb : b.toNat < 256 := b.toNat_lt
  have hlist : (byte b).toList =
      List.replicate (2 - (upper b.toNat).toList.length) '0' ++ (upper b.toNat).toList := by
    rw [byte, zeroPad, String.toList_append, String.toList_ofList, String.length_toList]
  rw [hlist, toList_upper, List.length_map]
  by_cases h : b.toNat < 16
  · have hdigits : Nat.toDigits 16 b.toNat = [b.toNat.digitChar] := Nat.toDigits_of_lt_base h
    have hhigh : b.toNat / 16 = 0 := Nat.div_eq_of_lt h
    have hlow : b.toNat % 16 = b.toNat := Nat.mod_eq_of_lt h
    rw [hdigits, pair, hhigh, hlow]
    rfl
  · have hlow : b.toNat / 16 < 16 := by omega
    have hdigits : Nat.toDigits 16 b.toNat =
        [(b.toNat / 16).digitChar, (b.toNat % 16).digitChar] := by
      rw [Nat.toDigits_of_base_le (by decide) (by omega), Nat.toDigits_of_lt_base hlow]
      rfl
    rw [hdigits]
    rfl

theorem digit?_upperDigit {d : ℕ} (hd : d < 16) : digit? (upperDigit d) = some d :=
  digit?_toUpper_digitChar hd

end Hex

/-- Reads pairs of digits as bytes. A plus sign behind them says that bytes are cut. -/
def readDump? : List Char → Option (List UInt8 × Bool)
  | [] => some ([], false)
  | ['+'] => some ([], true)
  | c :: d :: cs => do
    let high ← Hex.digit? c
    let low ← Hex.digit? d
    let (bytes, cut) ← readDump? cs
    pure (UInt8.ofNat (16 * high + low) :: bytes, cut)
  | _ => none

def cutMark (cut : Bool) : List Char := if cut then ['+'] else []

variable {bytes others : List UInt8} {most : ℕ}

theorem toList_dump (bytes : List UInt8) (most : ℕ) : (dump bytes most).toList =
    (bytes.take most).flatMap Hex.pair ++ cutMark (most < bytes.length) := by
  have hpairs : ∀ bytes : List UInt8,
      (String.join (bytes.map Hex.byte)).toList = bytes.flatMap Hex.pair := by
    intro bytes
    rw [String.toList_join, List.flatMap_map]
    simp only [Hex.toList_byte]
  rw [dump, String.toList_append, hpairs, cutMark]
  by_cases h : most < bytes.length <;> simp [h]

theorem not_mem_dump {c : Char} (hp : c ≠ '+') (h : ∀ d < 16, c ≠ d.digitChar.toUpper)
    (bytes : List UInt8) (most : ℕ) : c ∉ (dump bytes most).toList := by
  rw [toList_dump, List.mem_append, not_or]
  constructor
  · intro hc
    obtain ⟨b, -, hc⟩ := List.mem_flatMap.mp hc
    have hb : b.toNat < 256 := b.toNat_lt
    rcases List.mem_pair.mp hc with rfl | rfl
    · exact h (b.toNat / 16) (by omega) rfl
    · exact h (b.toNat % 16) (by omega) rfl
  · rw [cutMark]
    split <;> simp [hp]

theorem readDump?_pairs (bytes : List UInt8) (cut : Bool) :
    readDump? (bytes.flatMap Hex.pair ++ cutMark cut) = some (bytes, cut) := by
  induction bytes with
  | nil => cases cut <;> rfl
  | cons b bytes ih =>
    have hb : b.toNat < 256 := b.toNat_lt
    have hhigh := Hex.digit?_upperDigit (d := b.toNat / 16) (by omega)
    have hlow := Hex.digit?_upperDigit (d := b.toNat % 16) (by omega)
    have hbyte : UInt8.ofNat (16 * (b.toNat / 16) + b.toNat % 16) = b := by
      rw [Nat.div_add_mod, UInt8.ofNat_toNat]
    have hsplit : (b :: bytes).flatMap Hex.pair ++ cutMark cut =
        Hex.upperDigit (b.toNat / 16) :: Hex.upperDigit (b.toNat % 16) ::
          (bytes.flatMap Hex.pair ++ cutMark cut) := rfl
    rw [hsplit, readDump?, hhigh, hlow, ih]
    change some (UInt8.ofNat (16 * (b.toNat / 16) + b.toNat % 16) :: bytes, cut) = _
    rw [hbyte]

theorem readDump?_dump (bytes : List UInt8) (most : ℕ) :
    readDump? (dump bytes most).toList = some (bytes.take most, decide (most < bytes.length)) := by
  rw [toList_dump, readDump?_pairs]

theorem dump_inj_of_le (hb : bytes.length ≤ most) (ho : others.length ≤ most) :
    dump bytes most = dump others most ↔ bytes = others := by
  constructor
  · intro h
    have hread := readDump?_dump bytes most
    rw [h, readDump?_dump, List.take_of_length_le hb, List.take_of_length_le ho] at hread
    exact (congrArg Prod.fst (Option.some.inj hread)).symm
  · rintro rfl
    rfl

/-- A dump is the upper-case digits of the bytes up to the limit, two for each byte, with one
plus sign behind them if and only if there are more bytes. It reads back as these bytes and
whether there are more. Of bytes within the limit no two lists have the same dump. -/
theorem dump_shows_bytes_exactly (bytes : List UInt8) (most : ℕ) :
    (dump bytes most).toList = (bytes.take (min bytes.length most)).flatMap Hex.pair ++
      (if most < bytes.length then ['+'] else []) ∧
    readDump? (dump bytes most).toList =
      some (bytes.take (min bytes.length most), decide (most < bytes.length)) ∧
    ∀ others : List UInt8, bytes.length ≤ most → others.length ≤ most →
      (dump bytes most = dump others most ↔ bytes = others) := by
  have htake : bytes.take (min bytes.length most) = bytes.take most := by
    rw [min_comm, ← List.take_take, List.take_length]
  rw [htake]
  refine ⟨?_, readDump?_dump bytes most, fun others hb ho => dump_inj_of_le hb ho⟩
  rw [toList_dump, cutMark]
  simp

/-- A zero byte in front is shown, up to a limit of exactly that many bytes. -/
theorem zero_in_front_shown :
    (([0x00, 0x0f] : List UInt8).length ≤ 2 ∧ ([0x0f] : List UInt8).length ≤ 2) ∧
    dump [0x00, 0x0f] 2 ≠ dump [0x0f] 2 ∧
    readDump? (dump [0x00, 0x0f, 0xa0] 2).toList = some ([0x00, 0x0f], true) := by
  obtain ⟨-, -, hinj⟩ := dump_shows_bytes_exactly [0x00, 0x0f] 2
  obtain ⟨-, hread, -⟩ := dump_shows_bytes_exactly [0x00, 0x0f, 0xa0] 2
  refine ⟨⟨le_rfl, Nat.le_succ 1⟩, ?_, hread⟩
  rw [ne_eq, hinj [0x0f] le_rfl (Nat.le_succ 1)]
  decide

end Disasm
