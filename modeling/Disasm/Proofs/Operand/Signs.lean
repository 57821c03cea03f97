import Mathlib.Data.List.Chain
import Disasm.Proofs.Operand.Agreement
import Disasm.Proofs.Operand.Masm

/-! # Signs in MASM text

A plus sign is left out in front of a minus sign, so no MASM text has a plus sign at
either end or directly before a minus sign, as long as names and labels have no plus
signs and names do not begin with a minus sign.
-/

namespace Disasm

open Attempt

def IsPlusless (s : String) : Prop := s ≠ "" ∧ '+' ∉ s.toList

instance : DecidablePred IsPlusless := fun _ => inferInstanceAs (Decidable (_ ∧ _))

/-- Labels without plus signs, and names that do not begin with a minus sign either. -/
structure Naming.Plusless (names : Naming) : Prop where
  register : ∀ r, IsPlusless (names.register r) ∧ (names.register r).toList.head? ≠ some '-'
  label : ∀ e ∈ names.labels.entries, IsPlusless e.2

/-- Some text with no plus sign at its ends and none in front of a minus sign. -/
structure IsMerged (s : String) : Prop where
  ne_nil : s.toList ≠ []
  head : s.toList.head? ≠ some '+'
  last : s.toList.getLast? ≠ some '+'
  chain : s.toList.IsChain fun c d => ¬(c = '+' ∧ d = '-')

variable {s t : String} {names : Naming} {labels : Labels}

/-! ## Plus signs -/

theorem IsSolid.isPlusless (h : IsSolid s) : IsPlusless s := ⟨h.1, h.2.2⟩

theorem Register.IsNameText.isPlusless (h : Register.IsNameText s) : IsPlusless s :=
  ⟨h.1, fun hp => absurd (List.all_eq_true.mp h.2 _ hp) (by decide)⟩

theorem IsPlusless.isMerged (h : IsPlusless s) : IsMerged s where
  ne_nil := mt String.toList_eq_nil_iff.mp h.1
  head he := h.2 (List.mem_of_head? he)
  last he := h.2 (List.mem_of_getLast? he)
  chain := by
    refine List.Pairwise.isChain (List.pairwise_of_forall_mem_list fun c hc d _ => ?_)
    rintro ⟨rfl, -⟩
    exact h.2 hc

namespace IsMerged

theorem append (hs : IsMerged s) (ht : IsMerged t) : IsMerged (s ++ t) where
  ne_nil := by simp [hs.ne_nil]
  head := by
    rw [String.toList_append, List.head?_append_of_ne_nil _ hs.ne_nil]
    exact hs.head
  last := by
    rw [String.toList_append, List.getLast?_append_of_ne_nil _ ht.ne_nil]
    exact ht.last
  chain := by
    rw [String.toList_append, List.isChain_append]
    refine ⟨hs.chain, ht.chain, fun c hc d _ => ?_⟩
    rintro ⟨rfl, -⟩
    exact hs.last hc

theorem plus (hs : IsMerged s) (ht : IsMerged t) (hm : t.toList.head? ≠ some '-') :
    IsMerged (s ++ "+" ++ t) where
  ne_nil := by simp
  head := by
    rw [String.append_assoc, String.toList_append, List.head?_append_of_ne_nil _ hs.ne_nil]
    exact hs.head
  last := by
    rw [String.toList_append, List.getLast?_append_of_ne_nil _ ht.ne_nil]
    exact ht.last
  chain := by
    have hp : (s ++ "+" ++ t).toList = s.toList ++ '+' :: t.toList := by simp
    rw [hp, List.isChain_append]
    refine ⟨hs.chain, List.isChain_cons.mpr ⟨fun d hd => ?_, ht.chain⟩, fun c hc d _ => ?_⟩
    · rintro ⟨-, rfl⟩
      exact hm hd
    · rintro ⟨rfl, -⟩
      exact hs.last hc

theorem no_pair (h : IsMerged s) : ¬['+', '-'] <:+: s.toList := by
  intro hi
  have hp := List.IsChain.infix h.chain hi
  exact List.isChain_pair.mp hp ⟨rfl, rfl⟩

end IsMerged

/-! ## Operands -/

namespace Naming.Plusless

theorem standard (h : ∀ e ∈ labels.entries, IsPlusless e.2) :
    (Naming.standard labels).Plusless where
  register r := by
    refine ⟨r.isNameText_name.isPlusless, fun hm => ?_⟩
    have hc : Register.isNameChar '-' :=
      List.all_eq_true.mp r.isNameText_name.2 _ (List.mem_of_head? hm)
    exact absurd hc (by decide)
  label := h

theorem literal (h : names.Plusless) (v : Literal) : IsPlusless (names.literal v) := by
  rcases names.literal_eq_hex_or_label v with hv | ⟨e, he, hv⟩
  · exact hv ▸ v.isSolid_hex.isPlusless
  · exact hv ▸ h.label e he

end Naming.Plusless

namespace IndexedAddress

/-- The displacement brings its own sign, so it goes behind any text. -/
theorem isMerged_displacement (hs : IsMerged s) (d : Literal) :
    IsMerged (s ++ displacementText d) := by
  have hn (n : ℕ) : IsMerged (Hex.marked n) := (isSolid_marked n).isPlusless.isMerged
  unfold displacementText
  split
  · have hm : IsMerged "-" := IsPlusless.isMerged (by decide)
    exact hs.append (hm.append (hn _))
  · rw [← String.append_assoc]
    exact hs.plus (hn _) (by simp)

theorem isMerged_scale (hs : IsMerged s) (scale : Literal) : IsMerged (s ++ scaleText scale) := by
  have hf (n : ℕ) : IsPlusless ("*" ++ Hex.lower n) :=
    ⟨by simp, by simpa using Hex.not_mem_toDigits (by decide) n⟩
  unfold scaleText
  split
  · simpa using hs
  · exact hs.append (hf _).isMerged

theorem isMerged_text (h : names.Plusless) (i : IndexedAddress) :
    IsMerged (i.text names.register) := by
  have hb : IsMerged "[" ∧ IsMerged "]" := by
    constructor <;> exact IsPlusless.isMerged (by decide)
  obtain ⟨hbase, -⟩ := h.register i.base
  obtain ⟨hindex, hm⟩ := h.register i.index
  have hp := (hb.1.append hbase.isMerged).plus hindex.isMerged hm
  exact (isMerged_displacement (isMerged_scale hp i.scale) i.displacement).append hb.2

end IndexedAddress

namespace Expression

theorem isMerged_joinSum (hs : IsMerged s) (ht : IsMerged t) : IsMerged (joinSum s t) := by
  unfold joinSum
  split
  · exact hs.append ht
  · next hm => exact hs.plus ht hm

theorem isPlusless_slot (n : ℕ) : IsPlusless ("(" ++ toString n ++ ")") := by
  have ho : Register.IsNameText "(" := by decide
  exact ((ho.append (Register.all_toString n)).append (by decide)).isPlusless

theorem inherited_isMerged (h : names.Plusless) : Inherited names IsMerged := by
  have hp : ∀ mark ∈ ["-", "*", "[", "]", ":"], IsPlusless mark := by decide
  have hm : ∀ mark ∈ ["-", "*", "[", "]", ":"], IsMerged mark :=
    fun mark hm => (hp mark hm).isMerged
  simp only [List.forall_mem_cons] at hm
  obtain ⟨hminus, htimes, hopen, hclose, hcolon, -⟩ := hm
  exact {
    sum := isMerged_joinSum
    difference := fun hu hv => (hu.append hminus).append hv
    product := fun hu hv => (hu.append htimes).append hv
    address := fun hu => (hopen.append hu).append hclose
    tagged := fun r hu => ((h.register r).1.isMerged.append hcolon).append hu
    indexed := IndexedAddress.isMerged_text h
    register := fun r => (h.register r).1.isMerged
    slot := fun n => (isPlusless_slot n).isMerged
    literal := fun v => (h.literal v).isMerged }

/-- With names and labels without plus signs, and without a minus sign in front of a name, MASM text
is not empty, has no plus sign at either end and none before a minus sign. The standard names are
of this kind. -/
theorem masm_merges_signs (names : Naming) (h : names.Plusless) (e : Expression) (lea : Bool)
    (t : String) (ht : outcome (e.masm names lea) = .ok t) :
    (t ≠ "" ∧ t.toList.head? ≠ some '+' ∧ t.toList.getLast? ≠ some '+' ∧
      ¬['+', '-'] <:+: t.toList) ∧
    ∀ labels : Labels, (∀ e ∈ labels.entries, IsPlusless e.2) →
      (Naming.standard labels).Plusless := by
  have hm : IsMerged t := (inherited_isMerged h).masm ht
  have hn : t ≠ "" := mt String.toList_eq_nil_iff.mpr hm.ne_nil
  exact ⟨⟨hn, hm.head, hm.last, hm.no_pair⟩, fun _ => .standard⟩

def negativeProduct : Expression :=
  add
    (add
      (segmented (register (.segment Register.fsId))
        (add (register (.gpr32 0)) (integer (.ofNat .w32 0x401000))) (.integer 32))
      (multiply (integer (.ofInt .w8 (-2))) (indirect (.gpr32 0) 3)))
    (memory
      (add (multiply (register (.gpr32 1)) (integer (.ofNat .w8 4)))
        (add (integer (.ofInt .w8 (-8))) (register (.gpr32 0)))) (.integer 32))

theorem negativeProduct_merges_signs :
    (signedLabel.Plusless ∧ outcome (negativeProduct.masm signedLabel false) =
      .ok "fs:[eax-start]-0x2*(3)+[eax+ecx*4-0x8]") ∧
    ¬['+', '-'] <:+: "fs:[eax-start]-0x2*(3)+[eax+ecx*4-0x8]".toList := by
  have hn : signedLabel.Plusless := .standard (by decide +kernel)
  have ht : outcome (negativeProduct.masm signedLabel false) =
    .ok "fs:[eax-start]-0x2*(3)+[eax+ecx*4-0x8]" := rfl
  obtain ⟨⟨-, -, -, hi⟩, -⟩ := masm_merges_signs signedLabel hn negativeProduct false _ ht
  exact ⟨⟨hn, ht⟩, hi⟩

end Expression

end Disasm
