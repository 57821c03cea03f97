import Mathlib.Data.List.Basic
import Mathlib.Tactic.IntervalCases
import Disasm.Operand.Masm
import Disasm.Operand.Plain
import Disasm.Proofs.Hex
import Disasm.Proofs.Register.Name

/-! # The language of both texts

Sums, differences, products, registers, literals and memory references have a text
in MASM and a plain one. The first is the second without its blanks and without the
plus signs that stand before a minus sign, unless an address has an indexed form.
-/

namespace Disasm

/-- Text from which every `+-` is replaced by `-`. -/
def mergeSigns : List Char → List Char
  | '+' :: '-' :: cs => '-' :: mergeSigns cs
  | c :: cs => c :: mergeSigns cs
  | [] => []

/-- The characters of a text that are not blanks. -/
def visible (s : String) : List Char := s.toList.filter (· ≠ ' ')

/-- A text without blanks in which every `+-` is then replaced by `-`. -/
def condensed (s : String) : String := String.ofList (mergeSigns (visible s))

/-- Some text without blanks and plus signs. -/
def IsSolid (s : String) : Prop := s ≠ "" ∧ ' ' ∉ s.toList ∧ '+' ∉ s.toList

instance : DecidablePred IsSolid := fun _ => inferInstanceAs (Decidable (_ ∧ _))

structure Naming.Solid (names : Naming) : Prop where
  register : ∀ r, IsSolid (names.register r)
  label : ∀ e ∈ names.labels.entries, IsSolid e.2

/-- What both syntaxes write, without addresses that have an indexed form. -/
def Expression.Common : Expression → Prop
  | add l r | subtract l r | multiply l r => l.Common ∧ r.Common
  | memory a _ => IndexedAddress.ofExpression? a = none ∧ a.Common
  | register _ | integer _ => True
  | _ => False

variable {s t : String} {l r : List Char}

/-! ## Signs -/

theorem mergeSigns_cons (c : Char) (cs : List Char) : mergeSigns (c :: cs) =
    if c = '+' ∧ cs.head? = some '-' then mergeSigns cs else c :: mergeSigns cs := by
  split
  · next h =>
    obtain ⟨rfl, h⟩ := h
    obtain ⟨ds, rfl⟩ := List.head?_eq_some_iff.mp h
    cases ds <;> simp [mergeSigns]
  · next h =>
    rw [mergeSigns]
    rintro ds rfl rfl
    exact h ⟨rfl, rfl⟩

theorem mergeSigns_append (h : l.getLast? ≠ some '+') :
    mergeSigns (l ++ r) = mergeSigns l ++ mergeSigns r := by
  induction l with
  | nil => rfl
  | cons c cs ih =>
    cases cs with
    | nil =>
      have hc : c ≠ '+' := by simpa using h
      simp [mergeSigns_cons, hc, mergeSigns]
    | cons d ds =>
      have hd : mergeSigns (d :: ds ++ r) = mergeSigns (d :: ds) ++ mergeSigns r :=
        ih (by simpa [List.getLast?_cons_cons] using h)
      rw [List.cons_append, mergeSigns_cons c, mergeSigns_cons c, hd]
      by_cases hm : c = '+' ∧ d = '-'
      · simp [hm]
      · simp [hm]

theorem head?_mergeSigns (h : l.head? ≠ some '+') : (mergeSigns l).head? = l.head? := by
  cases l with
  | nil => rfl
  | cons c cs =>
    have hc : c ≠ '+' := by simpa using h
    simp [mergeSigns_cons, hc]

theorem mergeSigns_of_not_mem (h : '+' ∉ l) : mergeSigns l = l := by
  induction l with
  | nil => rfl
  | cons c cs ih =>
    obtain ⟨hc, hcs⟩ : '+' ≠ c ∧ '+' ∉ cs := by simpa using h
    simp [mergeSigns_cons, hc.symm, ih hcs]

theorem visible_append (s t : String) : visible (s ++ t) = visible s ++ visible t := by
  simp [visible]

theorem condensed_append (h : (visible s).getLast? ≠ some '+') :
    condensed (s ++ t) = condensed s ++ condensed t := by
  simp [condensed, visible_append, mergeSigns_append h]

theorem condensed_append_append {u : String} (hs : (visible s).getLast? ≠ some '+')
    (hu : (visible u).getLast? ≠ some '+') :
    condensed (s ++ u ++ t) = condensed s ++ condensed u ++ condensed t := by
  rw [String.append_assoc, condensed_append hs, condensed_append hu, String.append_assoc]

/-- Some visible text that neither starts nor ends with a plus sign. -/
structure IsFirm (s : String) : Prop where
  ne_nil : visible s ≠ []
  head : (visible s).head? ≠ some '+'
  last : (visible s).getLast? ≠ some '+'

theorem IsFirm.between (hs : IsFirm s) (u : String) (ht : IsFirm t) : IsFirm (s ++ u ++ t) where
  ne_nil := by simp [visible_append, hs.ne_nil]
  head := by
    rw [visible_append, visible_append, List.append_assoc, List.head?_append_of_ne_nil _ hs.ne_nil]
    exact hs.head
  last := by
    rw [visible_append, List.getLast?_append_of_ne_nil _ ht.ne_nil]
    exact ht.last

theorem IsSolid.visible (h : IsSolid s) : visible s = s.toList := by
  refine List.filter_eq_self.mpr fun c hc => ?_
  have hn : c ≠ ' ' := fun he => h.2.1 (he ▸ hc)
  simpa using hn

theorem IsSolid.condensed (h : IsSolid s) : condensed s = s := by
  rw [Disasm.condensed, h.visible, mergeSigns_of_not_mem h.2.2, String.ofList_toList]

theorem IsSolid.isFirm (h : IsSolid s) : IsFirm s where
  ne_nil := by simpa [h.visible] using h.1
  head he := h.2.2 (List.mem_of_head? (h.visible ▸ he))
  last he := h.2.2 (List.mem_of_getLast? (h.visible ▸ he))

/-! ## Names and numbers -/

theorem IsSolid.of_forall (hn : s ≠ "") (h : ∀ c ∈ s.toList, c ≠ ' ' ∧ c ≠ '+') : IsSolid s :=
  ⟨hn, fun hm => (h _ hm).1 rfl, fun hm => (h _ hm).2 rfl⟩

theorem IsSolid.append (hs : IsSolid s) (ht : IsSolid t) : IsSolid (s ++ t) := by
  refine ⟨?_, ?_, ?_⟩
  · intro he
    exact hs.1 (by simp_all)
  · simp [hs.2.1, ht.2.1]
  · simp [hs.2.2, ht.2.2]

theorem isSolid_marked (n : ℕ) : IsSolid (Hex.marked n) := by
  refine .of_forall (fun he => by simpa using congrArg String.toList he) fun c hc => ?_
  rw [Hex.toList_marked, List.mem_cons, List.mem_cons] at hc
  rcases hc with rfl | rfl | hc
  · decide
  · decide
  · obtain ⟨d, hd, rfl⟩ := Hex.exists_digitChar_of_mem hc
    interval_cases d <;> decide

theorem Literal.isSolid_hex (v : Literal) : IsSolid v.hex := by
  unfold hex
  split
  · exact .append (by decide) (isSolid_marked _)
  · exact isSolid_marked _

theorem Register.isSolid_name (r : Register) : IsSolid r.name := by
  refine .of_forall r.isNameText_name.1 fun c hc => ?_
  have hn : isNameChar c := List.all_eq_true.mp r.isNameText_name.2 c hc
  constructor
  · rintro rfl
    exact absurd hn (by decide)
  · rintro rfl
    exact absurd hn (by decide)

namespace Naming.Solid

variable {names : Naming}

theorem standard {labels : Labels} (h : ∀ e ∈ labels.entries, IsSolid e.2) :
    (Naming.standard labels).Solid := ⟨Register.isSolid_name, h⟩

theorem literal (h : names.Solid) (v : Literal) : IsSolid (names.literal v) := by
  rcases names.literal_eq_hex_or_label v with hv | ⟨e, he, hv⟩
  · exact hv ▸ v.isSolid_hex
  · exact hv ▸ h.label e he

end Naming.Solid

/-! ## Expressions -/

theorem condensed_sum (hs : IsFirm s) (ht : IsFirm t) :
    condensed (s ++ " + " ++ t) = Expression.joinSum (condensed s) (condensed t) := by
  have hv : visible (" + " ++ t) = '+' :: visible t := by simp [visible]
  -- Folding does not reach the first character, so both texts show the same sign there.
  have hh : (condensed t).toList.head? = (visible t).head? := by
    rw [condensed, String.toList_ofList, head?_mergeSigns ht.head]
  rw [String.append_assoc, condensed_append hs.last, Expression.joinSum, hh, String.append_assoc]
  by_cases hm : (visible t).head? = some '-'
  · simp [hm, condensed, hv, mergeSigns_cons]
  · simp [hm, condensed, hv, mergeSigns_cons]

namespace Expression

variable {names : Naming} {e : Expression}

theorem Common.isFirm_plain (he : e.Common) (hn : names.Solid) : IsFirm (e.plain names) := by
  induction e with
  | add l r ihl ihr => exact (ihl he.1).between " + " (ihr he.2)
  | subtract l r ihl ihr => exact (ihl he.1).between " - " (ihr he.2)
  | multiply l r ihl ihr => exact (ihl he.1).between " * " (ihr he.2)
  | memory a type _ =>
    have ho : IsSolid "[" := by decide
    have hc : IsSolid "]" := by decide
    exact ho.isFirm.between (a.plain names) hc.isFirm
  | register r => exact (hn.register r).isFirm
  | integer v => exact (hn.literal v).isFirm
  | _ => exact he.elim

/-- An expression that both syntaxes write has MASM text, for a lea and otherwise: its plain text
without blanks, in which every plus sign before a minus sign is left out. -/
theorem masm_eq_condensed_plain (names : Naming) (hn : names.Solid) (e : Expression)
    (he : e.Common) (lea : Bool) : e.masm names lea = pure (condensed (e.plain names)) := by
  induction e generalizing lea with
  | add l r ihl ihr =>
    have hl := he.1.isFirm_plain hn
    have hr := he.2.isFirm_plain hn
    simp only [masm, plain, ihl he.1, ihr he.2, pure_bind, condensed_sum hl hr]
  | subtract l r ihl ihr =>
    have hl := he.1.isFirm_plain hn
    have ho : condensed " - " = "-" := by decide
    simp only [masm, plain, ihl he.1, ihr he.2, pure_bind]
    rw [condensed_append_append hl.last (by decide), ho]
  | multiply l r ihl ihr =>
    have hl := he.1.isFirm_plain hn
    have ho : condensed " * " = "*" := by decide
    simp only [masm, plain, ihl he.1, ihr he.2, pure_bind]
    rw [condensed_append_append hl.last (by decide), ho]
  | memory a type ih =>
    have ha := he.2.isFirm_plain hn
    have ho : condensed "[" = "[" := by decide
    have hc : condensed "]" = "]" := by decide
    simp only [masm, plain, he.1, ih he.2, pure_bind]
    rw [condensed_append_append (by decide) ha.last, ho, hc]
  | register r => simp only [masm, plain, (hn.register r).condensed]
  | integer v => simp only [masm, plain, (hn.literal v).condensed]
  | _ => exact he.elim

def negativeTerms : Expression :=
  add (register (.gpr32 0)) (add (integer (.ofInt .w8 (-2)))
    (memory (add (register (.gpr32 4)) (integer (.ofNat .w32 0x401000))) (.integer 32)))

def signedLabel : Naming := .standard (.ofList [(0x401000, "-start")])

theorem negativeTerms_eq_condensed_plain :
    (signedLabel.Solid ∧ negativeTerms.Common) ∧
    negativeTerms.plain signedLabel = "eax + -0x2 + [esp + -start]" ∧
    negativeTerms.masm signedLabel true = pure "eax-0x2+[esp-start]" := by
  have hn : signedLabel.Solid := .standard (by decide +kernel)
  have he : negativeTerms.Common := ⟨trivial, trivial, rfl, trivial, trivial⟩
  have hp : negativeTerms.plain signedLabel = "eax + -0x2 + [esp + -start]" := by decide +kernel
  refine ⟨⟨hn, he⟩, hp, ?_⟩
  rw [masm_eq_condensed_plain signedLabel hn negativeTerms he true, hp]
  rfl

end Expression

end Disasm
