import Disasm.Operand.Indexed
import Disasm.Proofs.Literal
import Disasm.Proofs.Register.Name

/-! # Reading indexed addresses back

The text of an indexed address consists of words with operators between them. Names
without operators and brackets, the scale and the displacement with its sign can be
read from it, so that two addresses have the same text only if these agree.
-/

namespace Disasm

/-- Text in which there is neither an operator nor a bracket. -/
def IsUnmarked (s : String) : Prop := ∀ c ∈ s.toList, c ∉ ['+', '-', '*', '[', ']']

namespace IndexedAddress

structure Reading where
  base : String
  index : String
  scale : ℕ
  displacement : ℤ
  deriving DecidableEq

def isOperator (c : Char) : Bool := c ∈ ['+', '-', '*']

/-- The characters in front of the first operator, and the rest. -/
def word (cs : List Char) : List Char × List Char :=
  (cs.takeWhile (!isOperator ·), cs.dropWhile (!isOperator ·))

/-- The factor behind a `*`, or one where there is no `*`, and the rest. -/
def scale? : List Char → Option (ℕ × List Char)
  | '*' :: cs => (Hex.read? (word cs).1).map fun n => (n, (word cs).2)
  | cs => some (1, cs)

/-- A number behind `0x`, up to the closing bracket. -/
def magnitude? : List Char → Option ℕ
  | '0' :: 'x' :: cs => Hex.read? (cs.takeWhile (· != ']'))
  | _ => none

def displacement? : List Char → Option ℤ
  | '+' :: cs => (magnitude? cs).map fun (n : ℕ) => (n : ℤ)
  | '-' :: cs => (magnitude? cs).map fun (n : ℕ) => -(n : ℤ)
  | _ => none

def readFrom? : List Char → Option Reading
  | '[' :: cs =>
    match word cs with
    | (base, '+' :: cs) => do
      let (scale, cs') ← scale? (word cs).2
      let displacement ← displacement? cs'
      pure ⟨String.ofList base, String.ofList (word cs).1, scale, displacement⟩
    | _ => none
  | _ => none

def read? (text : String) : Option Reading := readFrom? text.toList

variable {l r : List Char} {s : String} {sign : Char}

/-! ## Words -/

theorem word_append (hl : ∀ c ∈ l, isOperator c = false) {c : Char} (hc : isOperator c = true) :
    word (l ++ c :: r) = (l, c :: r) := by
  have hl : ∀ c ∈ l, (!isOperator c) = true := fun c hm => by simp [hl c hm]
  simp [word, List.takeWhile_append_of_pos hl, List.dropWhile_append_of_pos hl, hc]

theorem isOperator_of_isUnmarked (h : IsUnmarked s) : ∀ c ∈ s.toList, isOperator c = false := by
  intro c hc
  have hn := h c hc
  simp only [List.mem_cons, not_or] at hn
  simp [isOperator, hn]

theorem isOperator_of_mem_toDigits (n : ℕ) : ∀ c ∈ Nat.toDigits 16 n, isOperator c = false := by
  intro c hc
  obtain ⟨d, hd, rfl⟩ := Hex.exists_digitChar_of_mem hc
  interval_cases d <;> rfl

/-! ## Numbers -/

theorem scale?_scaleText (scale : Literal) (hs : sign = '+' ∨ sign = '-') :
    scale? ((scaleText scale).toList ++ sign :: r) = some (scale.unsigned, sign :: r) := by
  have ho : isOperator sign = true := by rcases hs with rfl | rfl <;> rfl
  unfold scaleText
  split
  · next h =>
    rw [h]
    rcases hs with rfl | rfl <;> rfl
  · have hw : word (Nat.toDigits 16 scale.unsigned ++ sign :: r) = _ :=
      word_append (isOperator_of_mem_toDigits _) ho
    simp [scale?, hw, Hex.read?_toDigits]

theorem magnitude?_digits (n : ℕ) :
    magnitude? ('0' :: 'x' :: (Nat.toDigits 16 n ++ [']'])) = some n := by
  have hd : ∀ c ∈ Nat.toDigits 16 n, (c != ']') = true := fun c hc => by
    have hn : c ≠ ']' := fun h => Hex.not_mem_toDigits (by decide) n (h ▸ hc)
    simp [hn]
  simp [magnitude?, List.takeWhile_append_of_pos hd, Hex.read?_toDigits]

/-- The sign of a number, a plus sign too. -/
def signChar (i : ℤ) : Char := if i < 0 then '-' else '+'

theorem signChar_eq (i : ℤ) : signChar i = '+' ∨ signChar i = '-' := by
  unfold signChar
  split
  · exact .inr rfl
  · exact .inl rfl

/-- A displacement shows its signed number, whatever its width is. -/
theorem toList_displacementText (d : Literal) : (displacementText d).toList =
    signChar d.signed :: '0' :: 'x' :: Nat.toDigits 16 d.signed.natAbs := by
  unfold displacementText signChar
  rw [d.isNegative_eq_decide]
  by_cases h : d.signed < 0
  · simp [h]
  · simp [h, Literal.natAbs_signed_of_nonneg h]

theorem displacement?_signed (i : ℤ) :
    displacement? (signChar i :: '0' :: 'x' :: (Nat.toDigits 16 i.natAbs ++ [']'])) = some i := by
  unfold signChar
  split <;> rw [displacement?, magnitude?_digits, Option.map_some, Option.some_inj] <;> omega

/-! ## Addresses -/

theorem word_scaleText (hl : ∀ c ∈ l, isOperator c = false) (scale : Literal)
    (hs : sign = '+' ∨ sign = '-') :
    word (l ++ ((scaleText scale).toList ++ sign :: r)) =
      (l, (scaleText scale).toList ++ sign :: r) := by
  unfold scaleText
  split
  · exact word_append hl (by rcases hs with rfl | rfl <;> rfl)
  · have ho : isOperator '*' = true := rfl
    simpa using word_append (r := Nat.toDigits 16 scale.unsigned ++ sign :: r) hl ho

theorem read?_text {name : Register → String} (h : ∀ r, IsUnmarked (name r))
    (i : IndexedAddress) : read? (i.text name) =
      some ⟨name i.base, name i.index, i.scale.unsigned, i.displacement.signed⟩ := by
  have ht : (i.text name).toList = '[' :: ((name i.base).toList ++ '+' :: ((name i.index).toList ++
      ((scaleText i.scale).toList ++ signChar i.displacement.signed ::
        '0' :: 'x' :: (Nat.toDigits 16 i.displacement.signed.natAbs ++ [']'])))) := by
    simp [text, toList_displacementText]
  have hs := signChar_eq i.displacement.signed
  rw [read?, ht, readFrom?, word_append (isOperator_of_isUnmarked (h i.base)) rfl]
  simp only [word_scaleText (isOperator_of_isUnmarked (h i.index)) _ hs, scale?_scaleText _ hs,
    Option.bind_eq_bind, Option.bind_some, displacement?_signed, String.ofList_toList]
  rfl

theorem text_congr {name : Register → String} {i j : IndexedAddress}
    (hb : name i.base = name j.base) (hx : name i.index = name j.index)
    (hs : i.scale.unsigned = j.scale.unsigned)
    (hd : i.displacement.signed = j.displacement.signed) : i.text name = j.text name := by
  have ht : displacementText i.displacement = displacementText j.displacement := by
    rw [← String.toList_inj, toList_displacementText, toList_displacementText, hd]
  rw [text, text, hb, hx, scaleText, scaleText, hs, ht]

/-- With names that hold neither operators nor brackets, the text of an indexed address says how
both registers are called, what the scale is and what the displacement is as a signed number, and
it says nothing else. -/
theorem text_eq_text_iff (name : Register → String) (h : ∀ r, IsUnmarked (name r))
    (i j : IndexedAddress) :
    (i.text name = j.text name ↔ name i.base = name j.base ∧ name i.index = name j.index ∧
      i.scale.unsigned = j.scale.unsigned ∧ i.displacement.signed = j.displacement.signed) ∧
    read? (i.text name) =
      some ⟨name i.base, name i.index, i.scale.unsigned, i.displacement.signed⟩ := by
  refine ⟨⟨fun ht => ?_, fun ⟨hb, hx, hs, hd⟩ => text_congr hb hx hs hd⟩, read?_text h i⟩
  have hr : read? (i.text name) = read? (j.text name) := congrArg read? ht
  rw [read?_text h, read?_text h] at hr
  simpa using hr

theorem isUnmarked_name (r : Register) : IsUnmarked r.name := by
  intro c hc hm
  have hn : Register.isNameChar c := List.all_eq_true.mp r.isNameText_name.2 c hc
  simp only [List.mem_cons, List.not_mem_nil, or_false] at hm
  rcases hm with rfl | rfl | rfl | rfl | rfl <;> exact absurd hn (by decide)

def unscaled (width : Width) (displacement : Literal) : IndexedAddress :=
  ⟨.gpr32 0, .gpr32 1, .ofNat width 1, displacement⟩

theorem unscaled_text_eq_text_iff :
    (∀ r, IsUnmarked (Register.name r)) ∧
    (unscaled .w8 (.ofNat .w8 0x80)).text Register.name =
      (unscaled .w64 (.ofNat .w64 0xffffffffffffff80)).text Register.name ∧
    (unscaled .w8 (.ofNat .w8 0x80)).text Register.name ≠
      (unscaled .w8 (.ofNat .w16 0x80)).text Register.name ∧
    read? ((unscaled .w8 (.ofNat .w8 0x80)).text Register.name) = some ⟨"eax", "ecx", 1, -0x80⟩ := by
  obtain ⟨hsame, hread⟩ := text_eq_text_iff Register.name isUnmarked_name
    (unscaled .w8 (.ofNat .w8 0x80)) (unscaled .w64 (.ofNat .w64 0xffffffffffffff80))
  obtain ⟨hother, -⟩ := text_eq_text_iff Register.name isUnmarked_name
    (unscaled .w8 (.ofNat .w8 0x80)) (unscaled .w8 (.ofNat .w16 0x80))
  refine ⟨isUnmarked_name, hsame.mpr ⟨rfl, rfl, by decide, by decide⟩, fun ht => ?_, hread⟩
  exact absurd (hother.mp ht).2.2.2 (by decide)

end IndexedAddress

end Disasm
