import Mathlib.Data.Nat.Bitwise
import Disasm.Proofs.Storage.Expression

/-! # The numbers of a literal

A literal keeps the low bits of a number. Read as a signed number it is the one number
in the range of its width that is congruent to what was put in. A word of 64 bits gives
the same numbers by masks and shifts. A stored literal is cut to its width when it is
read, and a tree that is read has no other literals than those stored in it.
-/

namespace Disasm

open Attempt

/-! ## Signed numbers -/

/-- The numbers that a width holds in two's complement. -/
def Width.Holds (w : Width) (i : ℤ) : Prop := -2 ^ (w.size - 1) ≤ i ∧ i < 2 ^ (w.size - 1)

namespace Literal

variable {w : Width} {n : ℕ} {i : ℤ} {v : Literal}

theorem bmod_eq_iff {k : ℤ} :
    i.bmod (2 ^ w.size) = k ↔ w.Holds k ∧ (2 ^ w.size : ℤ) ∣ k - i := by
  have hsize : ((2 ^ w.size : ℕ) : ℤ) = 2 * 2 ^ (w.size - 1) := by
    cases w <;> rfl
  have hlow : ((2 ^ w.size : ℕ) : ℤ) / 2 = 2 ^ (w.size - 1) := by omega
  have hhigh : (((2 ^ w.size : ℕ) : ℤ) + 1) / 2 = 2 ^ (w.size - 1) := by omega
  rw [Int.bmod_eq_iff (by positivity), hlow, hhigh, Nat.cast_pow, Nat.cast_ofNat, Width.Holds,
    and_assoc]

theorem signed_ofNat_iff :
    (ofNat w n).signed = i ↔ w.Holds i ∧ i ≡ n [ZMOD 2 ^ w.size] := by
  have hbits : (ofNat w n).signed = (n : ℤ).bmod (2 ^ w.size) := BitVec.toInt_ofNat' n
  rw [hbits, bmod_eq_iff, Int.modEq_comm, Int.modEq_iff_dvd]

theorem signed_ofInt_iff : (ofInt w i).signed = i ↔ w.Holds i := by
  have hbits : (ofInt w i).signed = i.bmod (2 ^ w.size) := BitVec.toInt_ofInt i
  rw [hbits, bmod_eq_iff, sub_self]
  exact and_iff_left (dvd_zero _)

theorem signed_spec (v : Literal) :
    v.width.Holds v.signed ∧ v.signed ≡ v.unsigned [ZMOD 2 ^ v.width.size] := by
  apply signed_ofNat_iff.mp
  rw [ofNat_unsigned]

end Literal

/-! ## Words of 64 bits -/

namespace Word

def mask : Width → BitVec 64
  | .w64 => BitVec.allOnes 64
  | w => (1#64 <<< w.size) - 1#64

def signBit (w : Width) : BitVec 64 := 1#64 <<< (w.size - 1)

/-- The low bits of a word. -/
def clip (w : Width) (b : BitVec 64) : BitVec 64 := b &&& mask w

/-- The low bits of a word as a signed word: shifted to its high end and back. -/
def extend (w : Width) (b : BitVec 64) : BitVec 64 :=
  (b <<< (64 - w.size)).sshiftRight (64 - w.size)

variable {w : Width} {b : BitVec 64}

theorem toNat_mask (w : Width) : (mask w).toNat = w.mask := by cases w <;> rfl

theorem toNat_signBit (w : Width) : (signBit w).toNat = w.signBit := by cases w <;> rfl

theorem toNat_clip (w : Width) (b : BitVec 64) :
    (clip w b).toNat = (Literal.ofNat w b.toNat).unsigned := by
  rw [clip, BitVec.toNat_and, toNat_mask, Literal.unsigned_ofNat]
  exact Nat.and_two_pow_sub_one_eq_mod _ _

theorem toInt_extend_clip (w : Width) (b : BitVec 64) :
    (extend w (clip w b)).toInt = (Literal.ofNat w b.toNat).signed := by
  generalize hv : Literal.ofNat w b.toNat = v
  obtain rfl : v.width = w := hv ▸ rfl
  have hpos : (0 : ℤ) < 2 ^ (64 - v.width.size) := by positivity
  -- The shift to the high end scales the signed number up to the range of the word.
  have hscaled : ((v.unsigned : ℤ) * 2 ^ (64 - v.width.size)).bmod (2 ^ 64) =
      v.signed * 2 ^ (64 - v.width.size) := by
    obtain ⟨⟨hlow, hhigh⟩, hmod⟩ := v.signed_spec
    have htop : (2 : ℤ) ^ 63 = 2 ^ (v.width.size - 1) * 2 ^ (64 - v.width.size) := by
      cases v.width <;> rfl
    have hall : (2 : ℤ) ^ 64 = 2 ^ v.width.size * 2 ^ (64 - v.width.size) := by
      cases v.width <;> rfl
    apply (Literal.bmod_eq_iff (w := .w64)).mpr
    refine ⟨⟨?_, ?_⟩, ?_⟩
    · change -(2 : ℤ) ^ 63 ≤ _
      rw [htop, ← neg_mul]
      exact mul_le_mul_of_nonneg_right hlow hpos.le
    · change _ < (2 : ℤ) ^ 63
      rw [htop]
      exact mul_lt_mul_of_pos_right hhigh hpos
    · change (2 : ℤ) ^ 64 ∣ _
      rw [hall, ← sub_mul]
      exact mul_dvd_mul_right (Int.modEq_iff_dvd.mp hmod.symm) _
  rw [extend, BitVec.toInt_sshiftRight, BitVec.toInt_shiftLeft, toNat_clip, hv,
    Nat.shiftLeft_eq, Nat.cast_mul, Nat.cast_pow, Nat.cast_ofNat, hscaled,
    Int.shiftRight_eq_div_pow, Nat.cast_pow, Nat.cast_ofNat]
  exact Int.mul_ediv_cancel _ hpos.ne'

theorem clip_and_signBit (w : Width) (b : BitVec 64) :
    clip w b &&& signBit w ≠ 0#64 ↔ (Literal.ofNat w b.toNat).isNegative := by
  have hand (n : ℕ) : n &&& w.signBit = (n.testBit (w.size - 1)).toNat * w.signBit :=
    Nat.and_two_pow n (w.size - 1)
  have hpos : w.signBit ≠ 0 := (Nat.two_pow_pos _).ne'
  rw [ne_eq, ← BitVec.toNat_inj, BitVec.toNat_and, toNat_clip, toNat_signBit, hand,
    Literal.isNegative_eq_testBit]
  change ¬ _ = 0 ↔ (Literal.ofNat w b.toNat).unsigned.testBit (w.size - 1)
  simp [hpos]

end Word

namespace Literal

variable {w : Width} {n : ℕ} {i : ℤ} {v : Literal}

/-- A signed number goes through a word of 64 bits on its way into a literal. -/
theorem ofInt_eq_ofNat (w : Width) (i : ℤ) : ofInt w i = ofNat w (BitVec.ofInt 64 i).toNat := by
  have hdvd : 2 ^ w.size ∣ 2 ^ 64 := by
    apply pow_dvd_pow
    cases w <;> decide
  have hword : ((BitVec.ofInt 64 i).toNat : ℤ).bmod (2 ^ 64) = i.bmod (2 ^ 64) := by
    rw [← BitVec.toInt_eq_toNat_bmod, BitVec.toInt_ofInt]
  have hbits : BitVec.ofInt w.size i = BitVec.ofNat w.size (BitVec.ofInt 64 i).toNat := by
    apply BitVec.eq_of_toInt_eq
    rw [BitVec.toInt_ofInt, BitVec.toInt_ofNat', ← Int.bmod_bmod_of_dvd hdvd, ← hword,
      Int.bmod_bmod_of_dvd hdvd]
  rw [ofInt, ofNat, hbits]

/-! ## Stored literals -/

theorem ofJson_record (w : Width) {n : ℕ} (hn : n < UInt64.size) (room : ℕ) :
    Literal.ofJson (room + 1) (.record [("width", w.toJson), ("bits", .nat n)]) =
      .ok (ofNat w n) :=
  ofJson_eq_ok_iff.mpr ⟨room, _, _, w, n, rfl, rfl, by cases w <;> rfl,
    Decoder.natural_nat hn room, rfl⟩

end Literal

/-! ## The literals of a tree -/

namespace Expression

/-- All literals of a tree, those of segments and indexed addresses too. -/
def constants : Expression → List Literal
  | add l r | subtract l r | multiply l r | shiftLeft l r => l.constants ++ r.constants
  | negate e => e.constants
  | memory a _ => a.constants
  | segmented s a _ => s.constants ++ a.constants
  | integer v => [v]
  | register _ | indirect _ _ | float _ _ | registerList _ => []

variable {room : ℕ} {tag : String} {j : Json} {e : Expression} {v : Literal}

theorem mem_constants_memoryReference {address : Expression} {segment : Option Expression}
    {type : OperandType} : v ∈ (memoryReference address segment type).constants ↔
      (∃ s ∈ segment, v ∈ s.constants) ∨ v ∈ address.constants := by
  cases segment <;> simp [memoryReference, constants]

theorem constants_of_binary? {op : Expression → Expression → Expression}
    (h : binary? tag = some op) (l r : Expression) :
    (op l r).constants = l.constants ++ r.constants := by
  unfold binary? at h
  split at h <;> cases h <;> rfl

theorem ofJson_of_leafOfJson (h : leafOfJson room tag j = .ok e) (hv : v ∈ e.constants) :
    Literal.ofJson room j = .ok v := by
  obtain ⟨r, -, rfl⟩ | ⟨u, hu, rfl⟩ | ⟨rs, -, rfl⟩ | ⟨_, _, r, index, -, -, rfl⟩ |
    ⟨_, _, bits, x, -, -, rfl⟩ := leafOfJson_cases h
  · cases hv
  · rwa [List.mem_singleton.mp hv]
  · cases hv
  · cases hv
  · cases hv

/-- Every literal of a tree that is read is read from a value inside the stored tree. -/
theorem exists_within_of_ofJson (h : ofJson room j = .ok e) (hv : v ∈ e.constants) :
    ∃ s room', s.Within j ∧ Literal.ofJson room' s = .ok v := by
  induction room using Nat.strongRecOn generalizing e j with
  | _ room ih =>
    obtain ⟨inner, tag, body, rfl, hcase⟩ := ofJson_cases h
    have hbody : body.Within (.tagged tag body) := .member List.mem_cons_self (.refl _)
    -- what a part of the tree holds stands in the value from which that part is read
    have hpart {part : Json} {a : Expression} (hlt : inner < room) (hp : part.Within body)
        (ha : ofJson inner part = .ok a) (hv : v ∈ a.constants) :
        ∃ s room', s.Within (.tagged tag body) ∧ Literal.ofJson room' s = .ok v := by
      obtain ⟨s, room', hs, hv⟩ := ih inner hlt ha hv
      exact ⟨s, room', hs.trans (hp.trans hbody), hv⟩
    obtain ⟨rfl, hleaf⟩ | ⟨rfl, a, ha, rfl⟩ | ⟨rfl, hmem⟩ |
      ⟨rfl, op, l, r, a, b, hop, rfl, hl, hr, rfl⟩ := hcase
    · exact ⟨body, inner, hbody, ofJson_of_leafOfJson hleaf hv⟩
    · exact hpart (by omega) (.refl _) ha hv
    · obtain ⟨address, segment, type, rfl, ⟨_, hwa, ha⟩, hs, -⟩ := of_memoryOfJson hmem
      rcases mem_constants_memoryReference.mp hv with ⟨s, hms, hv⟩ | hv
      · obtain ⟨_, hws, hs⟩ := hs s hms
        exact hpart (by omega) hws hs hv
      · exact hpart (by omega) hwa ha hv
    · rw [constants_of_binary? hop] at hv
      rcases List.mem_append.mp hv with hv | hv
      · exact hpart (by omega) (.item (by simp) (.refl _)) hl hv
      · exact hpart (by omega) (.item (by simp) (.refl _)) hr hv

end Expression

namespace Literal

/-- A number that is put in a literal leaves its remainder and the one signed number in range that
is congruent to it, which is negative exactly if the pattern is; a signed number comes back exactly
if it is in range, and both readings of a literal give it back. Words of 64 bits lead to the same
numbers. A literal that is read holds its stored number, also as a part of a tree that is read,
and no literal of a tree is out of bounds. -/
theorem numbers_of_pattern :
    (∀ (w : Width) (n : ℕ), (ofNat w n).unsigned = n % 2 ^ w.size ∧
      (∀ i, (ofNat w n).signed = i ↔ w.Holds i ∧ i ≡ n [ZMOD 2 ^ w.size]) ∧
      ((ofNat w n).isNegative ↔ (ofNat w n).signed < 0)) ∧
    (∀ (w : Width) (i : ℤ), ((ofInt w i).signed = i ↔ w.Holds i) ∧
      ofInt w i = ofNat w (BitVec.ofInt 64 i).toNat) ∧
    (∀ v : Literal, ofNat v.width v.unsigned = v ∧ ofInt v.width v.signed = v) ∧
    (∀ (w : Width) (b : BitVec 64),
      (Word.clip w b).toNat = (ofNat w b.toNat).unsigned ∧
      (Word.extend w (Word.clip w b)).toInt = (ofNat w b.toNat).signed ∧
      (Word.clip w b &&& Word.signBit w ≠ 0#64 ↔ (ofNat w b.toNat).isNegative)) ∧
    (∀ (w : Width) (n room : ℕ), n < UInt64.size →
      Literal.ofJson (room + 1) (.record [("width", w.toJson), ("bits", .nat n)]) =
        .ok (ofNat w n)) ∧
    (∀ (room : ℕ) (j : Json) (v : Literal), Literal.ofJson room j = .ok v →
      ∃ room' width bits w n, j.fields ["width", "bits"] = .ok [some width, some bits] ∧
        Width.ofJson room' width = .ok w ∧ Decoder.natural UInt64.size room' bits = .ok n ∧
        v = ofNat w n) ∧
    (∀ (room : ℕ) (j : Json) (e : Expression), Expression.ofJson room j = .ok e →
      ∀ v ∈ e.constants, ∃ s room', s.Within j ∧ Literal.ofJson room' s = .ok v) ∧
    ∀ (e : Expression), ∀ v ∈ e.constants, v.unsigned < 2 ^ v.width.size := by
  refine ⟨fun w n => ⟨unsigned_ofNat w n, fun i => signed_ofNat_iff, ?_⟩,
    fun w i => ⟨signed_ofInt_iff, ofInt_eq_ofNat w i⟩,
    fun v => ⟨v.ofNat_unsigned, v.ofInt_signed⟩,
    fun w b => ⟨Word.toNat_clip w b, Word.toInt_extend_clip w b, Word.clip_and_signBit w b⟩,
    fun w n room hn => ofJson_record w hn room, fun room j v h => ?_,
    fun room j e h v hv => Expression.exists_within_of_ofJson h hv, fun e v _ => v.unsigned_lt⟩
  · rw [isNegative_eq_decide, decide_eq_true_iff]
  · obtain ⟨room', width, bits, w, n, -, hfields, hwidth, hbits, hv⟩ := ofJson_eq_ok_iff.mp h
    exact ⟨room', width, bits, w, n, hfields, hwidth, hbits, hv⟩

/-- The stored form of a byte whose number is too large. -/
def overlong : Json := .record [("width", .text "W8"), ("bits", .nat 300)]

theorem overlong_is_cut :
    (ofInt .w32 (-8)).signed = -8 ∧ (ofInt .w8 200).signed ≠ 200 ∧
    (300 < UInt64.size ∧ Literal.ofJson 1 overlong = .ok (ofNat .w8 300)) ∧
    (ofNat .w8 300).unsigned = 44 ∧
    ∃ e : Expression, Expression.ofJson 3 (.tagged "Negate" (.tagged "IntegerValue" overlong)) =
      .ok e ∧ ofNat .w8 300 ∈ e.constants ∧
      ∃ s room, s.Within (.tagged "Negate" (.tagged "IntegerValue" overlong)) ∧
        Literal.ofJson room s = .ok (ofNat .w8 300) := by
  obtain ⟨hnat, hint, -, -, hstored, -, htree, -⟩ := numbers_of_pattern
  have hsize : 300 < UInt64.size := by decide
  have hlit : Literal.ofJson 1 overlong = .ok (ofNat .w8 300) := hstored .w8 300 0 hsize
  have hread : Expression.ofJson 3 (.tagged "Negate" (.tagged "IntegerValue" overlong)) =
      .ok (.negate (.integer (ofNat .w8 300))) := rfl
  refine ⟨(hint .w32 (-8)).1.mpr ?_, mt (hint .w8 200).1.mp ?_, ⟨hsize, hlit⟩, (hnat .w8 300).1,
    _, hread, List.mem_singleton_self _, htree 3 _ _ hread _ (List.mem_singleton_self _)⟩
  · constructor <;> decide
  · rintro ⟨-, hhigh⟩
    exact absurd hhigh (by decide)

end Literal

end Disasm
