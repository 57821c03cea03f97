import Disasm.Proofs.Arithmetic.Text
import Disasm.Proofs.Literal
import Disasm.Proofs.Operand.Masm

/-! # The meaning of MASM text

The text of an operand reads as arithmetic with the value of the operand, unless
an operand of a product or a subtrahend is a sum or a difference: there is no
grouping in the text. Registers, labels and memory references read as names.
-/

namespace Disasm

open Arithmetic Attempt

/-- Some text without operators and brackets that does not start with a digit. -/
def IsWord (s : String) : Prop :=
  s.toList.head?.any (!·.isDigit) ∧ s.toList.all (· ∉ ['+', '-', '*', '[', ']'])

instance : DecidablePred IsWord := fun _ => inferInstanceAs (Decidable (_ ∧ _))

namespace Expression

def tagNames (names : Naming) : Expression → List String
  | register r => if r.isFs then [names.register r] else []
  | _ => []

def shownNames (names : Naming) : Expression → Bool → List String
  | add l r, _ => l.shownNames names false ++ r.shownNames names false
  | subtract l r, _ => l.shownNames names false ++ r.shownNames names false
  | multiply l r, _ => l.shownNames names false ++ r.shownNames names false
  | memory a _, _ =>
    match IndexedAddress.ofExpression? a with
    | some i => [names.register i.base, names.register i.index]
    | none => a.shownNames names false
  | segmented s a _, lea =>
    match IndexedAddress.ofExpression? a with
    | some i => [names.register i.base, names.register i.index]
    | none => (if lea then [] else tagNames names s) ++ a.shownNames names false
  | register r, _ => [names.register r]
  | integer v, _ => (v.label? names.labels).toList
  | _, _ => []

def isSum : Expression → Bool
  | add .. | subtract .. => true
  | _ => false

/-- Arithmetic over registers, literals and memory references, in which no operand of a product
and no subtrahend is a sum or a difference. -/
def Ungrouped : Expression → Prop
  | add l r => l.Ungrouped ∧ r.Ungrouped
  | subtract l r => l.Ungrouped ∧ r.Ungrouped ∧ r.isSum = false
  | multiply l r => l.Ungrouped ∧ r.Ungrouped ∧ l.isSum = false ∧ r.isSum = false
  | memory .. | segmented .. | register _ | integer _ => True
  | _ => False

/-- The text of an expression, empty where there is none. -/
def masmText (names : Naming) (e : Expression) (lea : Bool) : String :=
  (outcome (e.masm names lea)).toOption.getD ""

/-- The value of an expression, given those of the texts of its registers, labels and memory
references. A literal without a label stands for the number that it shows. -/
def value (names : Naming) (env : String → ℤ) : Expression → Bool → ℤ
  | add l r, _ => l.value names env false + r.value names env false
  | subtract l r, _ => l.value names env false - r.value names env false
  | multiply l r, _ => l.value names env false * r.value names env false
  | integer v, _ => (v.label? names.labels).elim v.shown env
  | e, lea => env (e.masmText names lea)

end Expression

/-! ## Texts as names -/

theorem IsWord.not_mem {s : String} (h : IsWord s) :
    ∀ c ∈ s.toList, c ∉ ['+', '-', '*', '[', ']'] :=
  fun c hc => of_decide_eq_true (List.all_eq_true.mp h.2 c hc)

theorem IsWord.neutral {s : String} (h : IsWord s) : Neutral s.toList := .of_forall h.not_mem

theorem IsWord.isName_append {s t : String} (hs : IsWord s) (ht : Neutral t.toList) :
    IsName (s ++ t) := by
  obtain ⟨c, hc, hd⟩ := (Option.any_eq_true ..).mp hs.1
  obtain ⟨cs, hc⟩ := List.head?_eq_some_iff.mp hc
  refine ⟨?_, c, cs ++ t.toList, by simp [hc], by simpa using hd, ?_⟩
  · rw [String.toList_append]
    exact hs.neutral.append ht
  · rintro rfl
    exact hs.not_mem '-' (by simp [hc]) (by simp)

theorem IsWord.isName {s : String} (h : IsWord s) : IsName s := by
  simpa using h.isName_append (t := "") Neutral.nil

theorem neutral_brackets {s : String} (h : Enclosed s.toList) :
    Neutral ("[" ++ s ++ "]").toList := by
  simpa using h.brackets

theorem isName_brackets {s : String} (h : Enclosed s.toList) : IsName ("[" ++ s ++ "]") where
  neutral := neutral_brackets h
  head := ⟨'[', s.toList ++ [']'], by simp, by decide, by decide⟩

namespace IndexedAddress

theorem enclosed_scaleText (scale : Literal) : Enclosed (scaleText scale).toList := by
  unfold scaleText
  split
  · exact Neutral.nil.enclosed
  · rw [String.toList_append]
    exact (Enclosed.of_forall (by simp)).append (Neutral.lower _).enclosed

theorem enclosed_displacementText (d : Literal) : Enclosed (displacementText d).toList := by
  unfold displacementText
  split <;> rw [String.toList_append]
  · exact (Enclosed.of_forall (by simp)).append (Neutral.marked _).enclosed
  · exact (Enclosed.of_forall (by simp)).append (Neutral.marked _).enclosed

theorem isName_text {i : IndexedAddress} {name : Register → String}
    (hb : IsWord (name i.base)) (hx : IsWord (name i.index)) : IsName (i.text name) := by
  have hp : Enclosed "+".toList := .of_forall (by simp)
  have hs := (enclosed_scaleText i.scale).append (enclosed_displacementText i.displacement)
  have h : Enclosed (name i.base ++ ("+" ++ (name i.index ++
      (scaleText i.scale ++ displacementText i.displacement)))).toList := by
    simp only [String.toList_append]
    exact hb.neutral.enclosed.append (hp.append (hx.neutral.enclosed.append hs))
  have ht : i.text name = "[" ++ (name i.base ++ ("+" ++ (name i.index ++
      (scaleText i.scale ++ displacementText i.displacement)))) ++ "]" := by
    simp only [text, String.append_assoc]
  rw [ht]
  exact isName_brackets h

end IndexedAddress

namespace Expression

variable {names : Naming} {e l r a s : Expression} {type : OperandType} {lea : Bool} {t u : String}

/-! ## Brackets -/

theorem segmentTag_eq (names : Naming) (s : Expression) :
    segmentTag names s = "" ∨ ∃ w ∈ tagNames names s, segmentTag names s = w ++ ":" := by
  cases s with
  | register r =>
    by_cases hr : r.isFs
    · exact .inr ⟨names.register r, by simp [tagNames, hr], by simp [segmentTag, hr]⟩
    · exact .inl (by simp [segmentTag, hr])
  | _ => exact .inl rfl

theorem isName_tagged (hs : ∀ w ∈ tagNames names s, IsWord w) (hu : Enclosed u.toList) :
    IsName (segmentTag names s ++ "[" ++ u ++ "]") := by
  rcases segmentTag_eq names s with h | ⟨w, hw, h⟩
  · simpa [h] using isName_brackets hu
  · have hc : Neutral ":".toList := .of_forall (by simp)
    have ht : Neutral (":" ++ ("[" ++ u ++ "]")).toList := by
      rw [String.toList_append]
      exact hc.append (neutral_brackets hu)
    simpa only [h, String.append_assoc] using (hs w hw).isName_append ht

/-- In brackets, a scan passes over the text that an expression has with words for names. -/
def HasEnclosedText (names : Naming) (e : Expression) : Prop :=
  ∀ lea t, outcome (e.masm names lea) = .ok t → (∀ w ∈ e.shownNames names lea, IsWord w) →
    Enclosed t.toList

theorem isName_memory (ha : HasEnclosedText names a)
    (h : outcome ((memory a type).masm names lea) = .ok t)
    (hw : ∀ w ∈ (memory a type).shownNames names lea, IsWord w) : IsName t := by
  cases hi : IndexedAddress.ofExpression? a with
  | some i =>
    rw [outcome_masm_memory_indexed hi] at h
    cases h
    simp only [shownNames, hi] at hw
    exact IndexedAddress.isName_text (hw _ (by simp)) (hw _ (by simp))
  | none =>
    obtain ⟨u, hu, rfl⟩ := (outcome_masm_memory hi).mp h
    simp only [shownNames, hi] at hw
    exact isName_brackets (ha false u hu hw)

theorem isName_segmented (ha : HasEnclosedText names a)
    (h : outcome ((segmented s a type).masm names lea) = .ok t)
    (hw : ∀ w ∈ (segmented s a type).shownNames names lea, IsWord w) : IsName t := by
  cases hi : IndexedAddress.ofExpression? a with
  | some i =>
    rw [outcome_masm_segmented_indexed hi] at h
    cases h
    simp only [shownNames, hi] at hw
    exact IndexedAddress.isName_text (hw _ (by simp)) (hw _ (by simp))
  | none =>
    obtain ⟨u, hu, rfl⟩ := (outcome_masm_segmented hi).mp h
    simp only [shownNames, hi] at hw
    obtain ⟨hs, hw⟩ := List.forall_mem_append.mp hw
    have hu := ha false u hu hw
    cases lea with
    | true => simpa using isName_brackets hu
    | false => simpa using isName_tagged hs hu

theorem enclosed_between {o : String} (hl : Enclosed t.toList) (ho : Enclosed o.toList)
    (hr : Enclosed u.toList) : Enclosed (t ++ o ++ u).toList := by
  simpa only [String.toList_append] using (hl.append ho).append hr

theorem enclosed_joinSum (hl : Enclosed t.toList) (hr : Enclosed u.toList) :
    Enclosed (joinSum t u).toList := by
  unfold joinSum
  split
  · rw [String.toList_append]
    exact hl.append hr
  · exact enclosed_between hl (.of_forall (by simp)) hr

theorem enclosed_hex (v : Literal) : Enclosed v.hex.toList := by
  have hm : Enclosed "-".toList := .of_forall (by simp)
  unfold Literal.hex
  split
  · rw [String.toList_append]
    exact hm.append (Neutral.marked _).enclosed
  · exact (Neutral.marked _).enclosed

theorem enclosed_literal {v : Literal} (hw : ∀ w ∈ v.label? names.labels, IsWord w) :
    Enclosed (names.literal v).toList := by
  unfold Naming.literal Literal.text
  cases hv : v.label? names.labels with
  | none => exact enclosed_hex v
  | some w => exact (hw w hv).neutral.enclosed

theorem enclosed_number (n : ℕ) : Enclosed (toString n).toList := by
  refine .of_forall fun c hc => ?_
  have hc : c ∈ Nat.toDigits 10 n := by simpa using hc
  have hd : c.isDigit := Nat.isDigit_of_mem_toDigits (by decide) (by decide) hc
  rintro hb
  obtain rfl | rfl : c = '[' ∨ c = ']' := by simpa using hb
  · exact absurd hd (by decide)
  · exact absurd hd (by decide)

theorem hasEnclosedText (names : Naming) (e : Expression) : HasEnclosedText names e := by
  induction e with
  | add l r ihl ihr =>
    intro lea t h hw
    obtain ⟨u, v, hu, hv, rfl⟩ := outcome_masm_add.mp h
    obtain ⟨hl, hr⟩ := List.forall_mem_append.mp hw
    exact enclosed_joinSum (ihl _ _ hu hl) (ihr _ _ hv hr)
  | subtract l r ihl ihr =>
    intro lea t h hw
    obtain ⟨u, v, hu, hv, rfl⟩ := outcome_masm_subtract.mp h
    obtain ⟨hl, hr⟩ := List.forall_mem_append.mp hw
    exact enclosed_between (ihl _ _ hu hl) (.of_forall (by simp)) (ihr _ _ hv hr)
  | multiply l r ihl ihr =>
    intro lea t h hw
    obtain ⟨u, v, hu, hv, rfl⟩ := outcome_masm_multiply.mp h
    obtain ⟨hl, hr⟩ := List.forall_mem_append.mp hw
    exact enclosed_between (ihl _ _ hu hl) (.of_forall (by simp)) (ihr _ _ hv hr)
  | memory a type ih => exact fun lea t h hw => (isName_memory ih h hw).neutral.enclosed
  | segmented s a type _ ih => exact fun lea t h hw => (isName_segmented ih h hw).neutral.enclosed
  | register r =>
    intro lea t h hw
    cases h
    exact (hw _ (by simp [shownNames])).neutral.enclosed
  | indirect r index =>
    intro lea t h _
    cases h
    exact enclosed_between (.of_forall (by simp)) (enclosed_number _) (.of_forall (by simp))
  | integer v =>
    intro lea t h hw
    cases h
    exact enclosed_literal (by simpa [shownNames] using hw)
  | _ => intro lea t h; cases h

/-! ## The text as a formula -/

def formula (names : Naming) : Expression → Bool → Formula
  | add l r, _ => .binary .plus (l.formula names false) (r.formula names false)
  | subtract l r, _ => .binary .minus (l.formula names false) (r.formula names false)
  | multiply l r, _ => .binary .times (l.formula names false) (r.formula names false)
  | integer v, _ => (v.label? names.labels).elim (.numeral v.shown) .name
  | e, lea => .name (e.masmText names lea)

attribute [local simp] formula

theorem masmText_eq (h : outcome (e.masm names lea) = .ok t) : e.masmText names lea = t := by
  simp [masmText, h, Except.toOption]

theorem value_formula (names : Naming) (env : String → ℤ) (e : Expression) (lea : Bool) :
    (e.formula names lea).value env = e.value names env lea := by
  induction e generalizing lea with
  | add l r ihl ihr => simp only [formula, value, Formula.value, Operator.apply, ihl, ihr]
  | subtract l r ihl ihr => simp only [formula, value, Formula.value, Operator.apply, ihl, ihr]
  | multiply l r ihl ihr => simp only [formula, value, Formula.value, Operator.apply, ihl, ihr]
  | integer v => cases hv : v.label? names.labels <;> simp [formula, value, Formula.value, hv]
  | _ => rfl

theorem isSum_formula (names : Naming) (e : Expression) (lea : Bool) :
    (e.formula names lea).isSum = e.isSum := by
  cases e with
  | integer v => cases hv : v.label? names.labels <;> simp [formula, hv, isSum, Formula.isSum]
  | _ => rfl

theorem Ungrouped.formula (h : e.Ungrouped) : (e.formula names lea).Ungrouped := by
  induction e generalizing lea with
  | add l r ihl ihr => exact ⟨ihl h.1, ihr h.2⟩
  | subtract l r ihl ihr =>
    obtain ⟨hl, hr, hs⟩ := h
    exact ⟨ihl hl, ihr hr, (isSum_formula ..).trans hs⟩
  | multiply l r ihl ihr =>
    obtain ⟨hl, hr, hsl, hsr⟩ := h
    exact ⟨ihl hl, ihr hr, (isSum_formula ..).trans hsl, (isSum_formula ..).trans hsr⟩
  | integer v =>
    cases hv : v.label? names.labels <;> simp [Expression.formula, hv, Formula.Ungrouped]
  | _ => trivial

/-- The names in the formula of an expression stand for registers, labels and references. -/
theorem Ungrouped.isName (h : e.Ungrouped) (ht : outcome (e.masm names lea) = .ok t)
    (hw : ∀ w ∈ e.shownNames names lea, IsWord w) :
    ∀ s ∈ (e.formula names lea).names, IsName s := by
  induction e generalizing lea t with
  | add l r ihl ihr =>
    obtain ⟨u, v, hu, hv, -⟩ := outcome_masm_add.mp ht
    obtain ⟨hl, hr⟩ := List.forall_mem_append.mp hw
    exact List.forall_mem_append.mpr ⟨ihl h.1 hu hl, ihr h.2 hv hr⟩
  | subtract l r ihl ihr =>
    obtain ⟨u, v, hu, hv, -⟩ := outcome_masm_subtract.mp ht
    obtain ⟨hl, hr⟩ := List.forall_mem_append.mp hw
    exact List.forall_mem_append.mpr ⟨ihl h.1 hu hl, ihr h.2.1 hv hr⟩
  | multiply l r ihl ihr =>
    obtain ⟨u, v, hu, hv, -⟩ := outcome_masm_multiply.mp ht
    obtain ⟨hl, hr⟩ := List.forall_mem_append.mp hw
    exact List.forall_mem_append.mpr ⟨ihl h.1 hu hl, ihr h.2.1 hv hr⟩
  | memory a type =>
    have hn : IsName t := isName_memory (hasEnclosedText names a) ht hw
    simpa [Expression.formula, Formula.names, masmText_eq ht] using hn
  | segmented s a type =>
    have hn : IsName t := isName_segmented (hasEnclosedText names a) ht hw
    simpa [Expression.formula, Formula.names, masmText_eq ht] using hn
  | register r =>
    have hn : IsName (names.register r) := (hw _ (by simp [shownNames])).isName
    cases ht
    simpa [Expression.formula, Formula.names, masmText, masm, Except.toOption] using hn
  | integer v =>
    cases hv : v.label? names.labels with
    | none => simp [Expression.formula, hv, Formula.names]
    | some w =>
      have hn : IsName w := (hw w (by simp [shownNames, hv])).isName
      simpa [Expression.formula, hv, Formula.names] using hn
  | _ => exact h.elim

theorem Ungrouped.text_formula (h : e.Ungrouped) (ht : outcome (e.masm names lea) = .ok t) :
    (e.formula names lea).text = t := by
  induction e generalizing lea t with
  | add l r ihl ihr =>
    obtain ⟨u, v, hu, hv, rfl⟩ := outcome_masm_add.mp ht
    rw [Expression.formula, Formula.text, ihl h.1 hu, ihr h.2 hv]
  | subtract l r ihl ihr =>
    obtain ⟨u, v, hu, hv, rfl⟩ := outcome_masm_subtract.mp ht
    rw [Expression.formula, Formula.text, ihl h.1 hu, ihr h.2.1 hv]
  | multiply l r ihl ihr =>
    obtain ⟨u, v, hu, hv, rfl⟩ := outcome_masm_multiply.mp ht
    rw [Expression.formula, Formula.text, ihl h.1 hu, ihr h.2.1 hv]
  | memory a type => exact masmText_eq ht
  | segmented s a type => exact masmText_eq ht
  | register r => exact masmText_eq ht
  | integer v =>
    cases ht
    cases hv : v.label? names.labels with
    | none => simp [Expression.formula, hv, Formula.text, Literal.text, Naming.literal,
        Literal.hex_eq_signed_shown]
    | some w => simp [Expression.formula, hv, Formula.text, Literal.text, Naming.literal]
  | _ => exact h.elim

/-- The text of an operand, read as arithmetic, has the value of the operand. -/
theorem masm_preserves_value (names : Naming) (env : String → ℤ) (e : Expression) (lea : Bool)
    (t : String) (he : e.Ungrouped) (hw : ∀ w ∈ e.shownNames names lea, IsWord w)
    (ht : outcome (e.masm names lea) = .ok t) :
    (read? t).map (Formula.value env) = some (e.value names env lea) := by
  have hf : (e.formula names lea).Ungrouped := he.formula
  have hn : ∀ s ∈ (e.formula names lea).names, IsName s := he.isName ht hw
  rw [← he.text_formula ht, Formula.value_read?_text hf hn env, value_formula]

/-- A sum whose second term starts with a negative literal, less a label. -/
def folded : Expression :=
  subtract
    (add (register (.gpr32 0))
      (multiply (integer (.ofInt .w32 (-4)))
        (segmented (register (.segment Register.fsId))
          (add (register (.gpr32 1)) (integer (.ofNat .w8 8))) (.integer 32))))
    (integer (.ofNat .w32 0x401000))

def oneLabel : Naming := .standard (.ofList [(0x401000, "start")])

theorem folded_preserves_value :
    (folded.Ungrouped ∧ (∀ w ∈ folded.shownNames oneLabel false, IsWord w) ∧
      outcome (folded.masm oneLabel false) = .ok "eax-0x4*fs:[ecx+0x8]-start") ∧
    ∀ env, (read? "eax-0x4*fs:[ecx+0x8]-start").map (Formula.value env) =
      some (env "eax" + -4 * env "fs:[ecx+0x8]" - env "start") := by
  have he : folded.Ungrouped := by simp [folded, Ungrouped, isSum]
  have hw : ∀ w ∈ folded.shownNames oneLabel false, IsWord w := by decide +kernel
  have ht : outcome (folded.masm oneLabel false) = .ok "eax-0x4*fs:[ecx+0x8]-start" := rfl
  exact ⟨⟨he, hw, ht⟩, fun env => masm_preserves_value oneLabel env folded false _ he hw ht⟩

end Expression

end Disasm
