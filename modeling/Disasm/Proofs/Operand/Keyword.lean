import Mathlib.Data.Nat.Notation
import Mathlib.Data.List.Basic
import Disasm.Operand.Keyword

/-! # Types told apart by keyword

A keyword is a word, or the count of a vector in front of the keyword of its elements. No keyword
begins with a digit, so the count ends where the digits do and the type can be read off. The
marker stands where the innermost type has no word, and one record names that type.
-/

namespace Disasm

inductive Scalar where
  | integer (bits : UInt16)
  | float (bits : UInt16)
  deriving DecidableEq, Repr

namespace Scalar

def type : Scalar → OperandType
  | integer bits => .integer bits
  | float bits => .float bits

/-- The scalar types that have a keyword. -/
def words : List (Scalar × String) :=
  [(integer 8, "byte"), (integer 16, "word"), (integer 32, "dword"), (integer 64, "qword"),
   (float 32, "float"), (float 64, "double"), (float 80, "ldouble")]

def keyword? (s : Scalar) : Option String := words.lookup s

def text : Scalar → String
  | integer bits => "Integer(" ++ toString bits.toNat ++ ")"
  | float bits => "Float(" ++ toString bits.toNat ++ ")"

def missing : Scalar → LogRecord
  | integer bits => .noIntegerKeyword bits
  | float bits => .noFloatKeyword bits

variable {s : Scalar} {w : String}

theorem text_missing (s : Scalar) :
    s.missing.text = "ERROR no pointer keyword for operand type " ++ s.text := by
  have happend (a b : String) (n : ℕ) :
      a ++ b ++ toString n ++ ")" = a ++ (b ++ toString n ++ ")") := by
    simp only [String.append_assoc]
  cases s with
  | integer bits => exact happend "ERROR no pointer keyword for operand type " "Integer(" _
  | float bits => exact happend "ERROR no pointer keyword for operand type " "Float(" _

theorem mem_words (h : s.keyword? = some w) : (s, w) ∈ words := by
  obtain ⟨before, after, hw, -⟩ := List.lookup_eq_some_iff.mp h
  rw [hw]
  exact List.mem_append_right before List.mem_cons_self

theorem keyword_type (h : s.keyword? = some w) : s.type.keyword = pure w := by
  have hall : ∀ e ∈ words, e.1.type.keyword = pure e.2 := by decide
  exact hall _ (mem_words h)

theorem keyword_type_of_none (h : s.keyword? = none) :
    s.type.keyword = ⟨badType, [s.missing]⟩ := by
  have hn : s ∉ words.map Prod.fst := by
    intro hm
    obtain ⟨e, he, rfl⟩ := List.mem_map.mp hm
    simpa using List.lookup_eq_none_iff.mp h e he
  cases s with
  | integer bits =>
    rw [type, OperandType.keyword]
    · rfl
    all_goals rintro rfl; exact hn (by decide)
  | float bits =>
    rw [type, OperandType.keyword]
    · rfl
    all_goals rintro rfl; exact hn (by decide)

end Scalar

namespace OperandType

/-- The innermost type of a type, below all vectors. -/
def scalar : OperandType → Scalar
  | integer bits => .integer bits
  | float bits => .float bits
  | vector _ element => element.scalar

/-- The types that have a word of their own. -/
def words : List (OperandType × String) :=
  Scalar.words.map (fun e => (e.1.type, e.2)) ++ [(vector 2 (integer 64), "dqword")]

/-- Some text is a word for a type, or the count of a vector in front of a text for its elements. -/
inductive Spells : OperandType → List Char → Prop where

  | word {e : OperandType × String} : e ∈ words → Spells e.1 e.2.toList

  | counted {element : OperandType} {cs : List Char} (count : UInt16) : Spells element cs →
      Spells (vector count element) ('V' :: (Nat.toDigits 10 count.toNat ++ cs))

variable {t u element : OperandType} {count : UInt16} {cs : List Char}

theorem value_keyword_vector (h : ¬ (count = 2 ∧ element = integer 64)) :
    (vector count element).keyword.value =
      "V" ++ toString count.toNat ++ element.keyword.value := by
  rw [keyword]
  · rfl
  rintro rfl rfl
  exact h ⟨rfl, rfl⟩

theorem records_keyword_vector :
    (vector count element).keyword.records = element.keyword.records := by
  by_cases h : count = 2 ∧ element = integer 64
  · obtain ⟨rfl, rfl⟩ := h
    rfl
  · rw [keyword, Logged.records_bind, Logged.records_pure, List.append_nil]
    rintro rfl rfl
    exact h ⟨rfl, rfl⟩

/-! ## The marker -/

theorem records_keyword (t : OperandType) :
    t.keyword.records = if t.scalar.keyword? = none then [t.scalar.missing] else [] := by
  have hs : ∀ s : Scalar,
      s.type.keyword.records = if s.keyword? = none then [s.missing] else [] := by
    intro s
    cases h : s.keyword? with
    | none => rw [Scalar.keyword_type_of_none h, if_pos rfl]
    | some w => rw [Scalar.keyword_type h, Logged.records_pure, if_neg (Option.some_ne_none w)]
  induction t with
  | integer bits => exact hs (.integer bits)
  | float bits => exact hs (.float bits)
  | vector count element ih => rw [records_keyword_vector, ih, scalar]

theorem keyword_ends_with_badType (h : t.scalar.keyword? = none) :
    ∃ front, t.keyword.value = front ++ badType := by
  induction t with
  | integer bits =>
    exact ⟨"", congrArg Logged.value (Scalar.keyword_type_of_none (s := .integer bits) h)⟩
  | float bits =>
    exact ⟨"", congrArg Logged.value (Scalar.keyword_type_of_none h)⟩
  | vector count element ih =>
    obtain ⟨front, hf⟩ := ih h
    have hn : ¬ (count = 2 ∧ element = integer 64) := by
      rintro ⟨-, rfl⟩
      cases h
    exact ⟨_, by rw [value_keyword_vector hn, hf, ← String.append_assoc]⟩

/-! ## Words and counts -/

theorem spells_keyword (h : t.scalar.keyword? ≠ none) : Spells t t.keyword.value.toList := by
  have hs : ∀ s : Scalar, s.keyword? ≠ none → Spells s.type s.type.keyword.value.toList := by
    intro s h
    obtain ⟨w, hw⟩ := Option.ne_none_iff_exists'.mp h
    have hm : (s.type, w) ∈ words :=
      List.mem_append_left _ (List.mem_map.mpr ⟨(s, w), Scalar.mem_words hw, rfl⟩)
    rw [Scalar.keyword_type hw]
    exact .word hm
  induction t with
  | integer bits => exact hs (.integer bits) h
  | float bits => exact hs (.float bits) h
  | vector count element ih =>
    by_cases hn : count = 2 ∧ element = integer 64
    · obtain ⟨rfl, rfl⟩ := hn
      have hw : (vector 2 (integer 64), "dqword") ∈ words := by decide
      exact .word hw
    · have hc := (ih h).counted count
      rw [value_keyword_vector hn]
      simpa using hc

theorem Spells.head (h : Spells t cs) : ∃ c rest, cs = c :: rest ∧ c.isDigit = false := by
  cases h with
  | @word e he =>
    have hall : ∀ e ∈ words, e.2.toList.head?.any (!·.isDigit) := by decide
    obtain ⟨c, hc, hd⟩ := (Option.any_eq_true _ _).mp (hall e he)
    obtain ⟨rest, hrest⟩ := List.head?_eq_some_iff.mp hc
    exact ⟨c, rest, hrest, by simpa using hd⟩
  | counted count h => exact ⟨'V', _, rfl, rfl⟩

theorem Spells.last (h : Spells t cs) : ∃ c ∈ cs.getLast?, c.isLower = true := by
  induction h with
  | @word e he =>
    have hall : ∀ e ∈ words, e.2.toList.getLast?.any (·.isLower) := by decide
    exact (Option.any_eq_true _ _).mp (hall e he)
  | @counted element cs count _ ih =>
    obtain ⟨c, hc, hl⟩ := ih
    rw [← List.cons_append]
    exact ⟨c, List.mem_getLast?_append_of_mem_getLast? hc, hl⟩

theorem Spells.ne_append_badType (h : Spells t cs) (front : List Char) :
    cs ≠ front ++ badType.toList := by
  rintro rfl
  obtain ⟨c, hc, hl⟩ := h.last
  rw [List.getLast?_append] at hc
  cases hc
  exact absurd hl (by decide)

theorem takeWhile_digits (n : ℕ) (h : ∃ c rest, cs = c :: rest ∧ c.isDigit = false) :
    (Nat.toDigits 10 n ++ cs).takeWhile Char.isDigit = Nat.toDigits 10 n := by
  obtain ⟨c, rest, rfl, hc⟩ := h
  have hd : ∀ d ∈ Nat.toDigits 10 n, d.isDigit = true := fun d hd =>
    Nat.isDigit_of_mem_toDigits (by decide) (by decide) hd
  rw [List.takeWhile_append_of_pos hd, List.takeWhile_cons_of_neg (by simp [hc]), List.append_nil]

theorem Spells.unique (ht : Spells t cs) (hu : Spells u cs) : t = u := by
  have hv : ∀ e ∈ words, e.2.toList.head? ≠ some 'V' := by decide
  generalize hds : cs = ds at hu
  induction ht generalizing u ds with
  | @word e he =>
    cases hu with
    | @word f hf =>
      have hall : ∀ e ∈ words, ∀ f ∈ words, e.2.toList = f.2.toList → e.1 = f.1 := by
        decide +kernel
      exact hall e he f hf hds
    | counted count h => exact absurd (congrArg List.head? hds) (hv e he)
  | @counted element cs count h ih =>
    cases hu with
    | @word f hf => exact absurd (congrArg List.head? hds.symm) (hv f hf)
    | @counted element' ds count' h' =>
      -- Neither text of the elements begins with a digit, so the counts are the same digits.
      have hrest := List.tail_eq_of_cons_eq hds
      have hdigits := congrArg (List.takeWhile Char.isDigit) hrest
      rw [takeWhile_digits _ h.head, takeWhile_digits _ h'.head] at hdigits
      rw [hdigits, List.append_cancel_left_eq] at hrest
      have hcount : count.toNat = count'.toNat :=
        calc count.toNat
          _ = Nat.ofDigitChars 10 (Nat.toDigits 10 count.toNat) 0 :=
            Nat.ofDigitChars_ten_toDigits.symm
          _ = Nat.ofDigitChars 10 (Nat.toDigits 10 count'.toNat) 0 := by rw [hdigits]
          _ = count'.toNat := Nat.ofDigitChars_ten_toDigits
      rw [UInt16.toNat_inj.mp hcount, ih ds hrest h']

/-- The keyword of a type ends in the marker if and only if its innermost type has no keyword.
Then one record is left, an error that names the innermost type, and else there is none. Two types
whose innermost types have keywords share their own only if they are equal. -/
theorem keyword_tells_type :
    (∀ t : OperandType,
      ((∃ front, t.keyword.value = front ++ badType) ↔ t.scalar.keyword? = none) ∧
      (t.scalar.keyword? = none → ∃ r, t.keyword.records = [r] ∧
        r.text = "ERROR no pointer keyword for operand type " ++ t.scalar.text) ∧
      (t.scalar.keyword? ≠ none → t.keyword.records = [])) ∧
    ∀ t u : OperandType, t.scalar.keyword? ≠ none → u.scalar.keyword? ≠ none →
      (t.keyword.value = u.keyword.value ↔ t = u) := by
  refine ⟨fun t => ⟨⟨?_, keyword_ends_with_badType⟩, fun h => ?_, fun h => ?_⟩,
    fun t u ht hu => ⟨fun he => ?_, congrArg (keyword · |>.value)⟩⟩
  · rintro ⟨front, hf⟩
    by_contra hn
    refine (spells_keyword hn).ne_append_badType front.toList ?_
    rw [hf, String.toList_append]
  · rw [records_keyword, if_pos h]
    exact ⟨_, rfl, t.scalar.text_missing⟩
  · rw [records_keyword, if_neg h]
  · exact (spells_keyword ht).unique (he ▸ spells_keyword hu)

/-- Two pairs of quadwords. A pair has a word of its own. -/
def pairs : OperandType := vector 2 (vector 2 (integer 64))

def many : OperandType := vector 22 (integer 64)

/-- A vector of half-precision numbers, for which there is no keyword. -/
def halves : OperandType := vector 4 (float 16)

theorem pairs_keyword_tells_type :
    (pairs.scalar.keyword? ≠ none ∧ many.scalar.keyword? ≠ none ∧
      halves.scalar.keyword? = none) ∧
    pairs.keyword.value ≠ many.keyword.value ∧ pairs.keyword.records = [] ∧
    (∃ front, halves.keyword.value = front ++ badType) ∧
    ∃ r, halves.keyword.records = [r] ∧
      r.text = "ERROR no pointer keyword for operand type Float(16)" := by
  obtain ⟨hmarker, htell⟩ := keyword_tells_type
  have hpairs : pairs.scalar.keyword? ≠ none := by decide
  have hmany : many.scalar.keyword? ≠ none := by decide
  have hhalves : halves.scalar.keyword? = none := by decide
  refine ⟨⟨hpairs, hmany, hhalves⟩, ?_, (hmarker pairs).2.2 hpairs,
    (hmarker halves).1.mpr hhalves, (hmarker halves).2.1 hhalves⟩
  rw [ne_eq, htell pairs many hpairs hmany]
  decide

end OperandType

end Disasm
