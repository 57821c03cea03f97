import Disasm.Address
import Disasm.Proofs.Hex

/-! # Reading addresses

The text of an address is one or more digits of a number below two to the power of 64,
with a marker and a plus sign in front, both optional. No other text is read. So an
address reads back from each text that it is printed as: lower case behind the marker,
upper case, and upper case behind the marker with zeros in front.
-/

namespace Disasm.Address

theorem dropMarker_of_not_mem {cs : List Char} (hx : 'x' ∉ cs) (hX : 'X' ∉ cs) :
    dropMarker cs = cs := by
  unfold dropMarker
  split <;> simp_all

theorem dropPlus_of_not_mem {cs : List Char} (h : '+' ∉ cs) : dropPlus cs = cs := by
  unfold dropPlus
  split <;> simp_all

theorem parse?_eq_some {s : String} {a : Address}
    (h : Hex.read? (dropPlus (dropMarker s.toList)) = some a.toNat) : parse? s = some a := by
  rw [parse?, h, Option.bind_some, if_pos a.toNat_lt, UInt64.ofNat_toNat]

@[simp] theorem parse?_text (a : Address) : parse? a.text = some a := by
  refine parse?_eq_some ?_
  rw [text, Hex.toList_marked, dropMarker, dropPlus_of_not_mem (Hex.not_mem_toDigits (by decide) _),
    Hex.read?_toDigits]

theorem parse?_upper (a : Address) : parse? (Hex.upper a.toNat) = some a := by
  have hmem {c : Char} (h : ∀ d < 16, c ≠ d.digitChar.toUpper) := Hex.not_mem_upper h a.toNat
  refine parse?_eq_some ?_
  rw [dropMarker_of_not_mem (hmem (by decide)) (hmem (by decide)),
    dropPlus_of_not_mem (hmem (by decide)), Hex.read?_upper]

theorem parse?_padded (a : Address) (width : ℕ) :
    parse? ("0x" ++ Hex.zeroPad width (Hex.upper a.toNat)) = some a := by
  refine parse?_eq_some ?_
  have h : ("0x" ++ Hex.zeroPad width (Hex.upper a.toNat)).toList =
      '0' :: 'x' :: (Hex.zeroPad width (Hex.upper a.toNat)).toList := by
    rw [String.toList_append]
    rfl
  rw [h, dropMarker, dropPlus_of_not_mem (Hex.not_mem_zeroPad_upper (by decide) _ _),
    Hex.read?_zeroPad_upper]

/-! ## What is read -/

/-- A marker, a plus sign, both optional, and one or more digits write a number. -/
def Writes (s : String) (n : ℕ) : Prop :=
  ∃ marker ∈ ["", "0x", "0X"], ∃ sign ∈ ["", "+"], ∃ digits : List Char, digits ≠ [] ∧
    s = marker ++ sign ++ String.ofList digits ∧ Hex.Writes digits n

variable {s : String} {cs : List Char} {n : ℕ}

theorem exists_marker (cs : List Char) :
    ∃ marker ∈ ["", "0x", "0X"], cs = marker.toList ++ dropMarker cs := by
  unfold dropMarker
  split
  · exact ⟨"0x", by simp, rfl⟩
  · exact ⟨"0X", by simp, rfl⟩
  · exact ⟨"", by simp, rfl⟩

theorem exists_sign (cs : List Char) : ∃ sign ∈ ["", "+"], cs = sign.toList ++ dropPlus cs := by
  unfold dropPlus
  split
  · exact ⟨"+", by simp, rfl⟩
  · exact ⟨"", by simp, rfl⟩

/-- Digits are neither a marker nor a sign, so both are dropped as they are written. -/
theorem drop_of_writes (h : Hex.Writes cs n) {marker sign : String}
    (hm : marker ∈ ["", "0x", "0X"]) (hs : sign ∈ ["", "+"]) :
    dropPlus (dropMarker (marker.toList ++ (sign.toList ++ cs))) = cs := by
  have hx : 'x' ∉ cs := h.not_mem rfl
  have hX : 'X' ∉ cs := h.not_mem rfl
  have hplus : '+' ∉ cs := h.not_mem rfl
  have hsign : dropPlus (sign.toList ++ cs) = cs := by
    simp only [List.mem_cons, List.not_mem_nil, or_false] at hs
    rcases hs with rfl | rfl
    · exact dropPlus_of_not_mem hplus
    · rfl
  have hmarker : dropMarker (marker.toList ++ (sign.toList ++ cs)) = sign.toList ++ cs := by
    simp only [List.mem_cons, List.not_mem_nil, or_false] at hs hm
    rcases hm with rfl | rfl | rfl
    · rcases hs with rfl | rfl
      · exact dropMarker_of_not_mem hx hX
      · exact dropMarker_of_not_mem (by simp [hx]) (by simp [hX])
    · rfl
    · rfl
  rw [hmarker, hsign]

theorem read?_eq_some_iff :
    Hex.read? (dropPlus (dropMarker s.toList)) = some n ↔ Writes s n := by
  constructor
  · intro h
    obtain ⟨hne, hw⟩ := Hex.read?_eq_some_iff.mp h
    obtain ⟨marker, hm, hmarker⟩ := exists_marker s.toList
    obtain ⟨sign, hs, hsign⟩ := exists_sign (dropMarker s.toList)
    refine ⟨marker, hm, sign, hs, _, hne, ?_, hw⟩
    rw [← String.toList_inj, String.toList_append, String.toList_append, String.toList_ofList,
      List.append_assoc, ← hsign, ← hmarker]
  · rintro ⟨marker, hm, sign, hs, digits, hne, rfl, hw⟩
    rw [String.toList_append, String.toList_append, String.toList_ofList, List.append_assoc,
      drop_of_writes hw hm hs]
    exact Hex.read?_eq_some_iff.mpr ⟨hne, hw⟩

theorem read?_of_parse? {a : Address} (h : parse? s = some a) :
    Hex.read? (dropPlus (dropMarker s.toList)) = some a.toNat := by
  obtain ⟨n, hn, ha⟩ := Option.bind_eq_some_iff.mp h
  obtain ⟨hlt, ha⟩ := Option.ite_none_right_eq_some.mp ha
  cases ha
  rw [hn, UInt64.toNat_ofNat_of_lt' hlt]

theorem map_parse?_eq_some_iff :
    (parse? s).map UInt64.toNat = some n ↔ Writes s n ∧ n < 2 ^ 64 := by
  rw [← read?_eq_some_iff, Option.map_eq_some_iff]
  constructor
  · rintro ⟨a, ha, rfl⟩
    exact ⟨read?_of_parse? ha, a.toNat_lt⟩
  · rintro ⟨hr, hlt⟩
    have hn : (UInt64.ofNat n).toNat = n := UInt64.toNat_ofNat_of_lt' hlt
    exact ⟨UInt64.ofNat n, parse?_eq_some (hr.trans (congrArg some hn.symm)), hn⟩

/-- Exactly the texts of numbers below two to the power of 64 are read, as these numbers, and an
address is read back from each text that it is printed as. -/
theorem parse?_reads_what_is_written :
    (∀ s n, (parse? s).map UInt64.toNat = some n ↔ Writes s n ∧ n < 2 ^ 64) ∧
    (∀ s, parse? s = none ↔ ∀ n < 2 ^ 64, ¬ Writes s n) ∧
    ∀ a : Address, parse? (Hex.marked a.toNat) = some a ∧ parse? (Hex.upper a.toNat) = some a ∧
      parse? ("0x" ++ Hex.zeroPad 8 (Hex.upper a.toNat)) = some a := by
  refine ⟨fun s n => map_parse?_eq_some_iff, fun s => ?_,
    fun a => ⟨parse?_text a, parse?_upper a, parse?_padded a 8⟩⟩
  rw [← Option.map_eq_none_iff (f := UInt64.toNat), Option.eq_none_iff_forall_ne_some]
  simp only [ne_eq, map_parse?_eq_some_iff, not_and']

example : ["", "0x", "+", "0x0X1", "+0x1", "0x-1", "1_0", " 1", "１", "10000000000000000"].map
    parse? = List.replicate 10 none := by decide +kernel

end Disasm.Address
