import Mathlib.Data.List.Basic
import Disasm.Block

/-! # The reasons of a block

Adding reasons keeps the first occurrence of each, in order. The text of the reasons splits at
its separators into their names, so that blocks show the same text only for the same reasons,
with their order and their repetitions.
-/

namespace Disasm

/-- The parts of some text between its separators, each a comma with a space behind it. -/
def partsOf : List Char → List (List Char)
  | [] => [[]]
  | ',' :: ' ' :: cs => [] :: partsOf cs
  | c :: cs => (partsOf cs).modifyHead (c :: ·)

def splitAtCommas (text : String) : List String := (partsOf text.toList).map String.ofList

variable {l cs : List Char} {ls : List (List Char)} {names : List String}

/-! ## Splitting a text -/

@[simp] theorem partsOf_separator (cs : List Char) : partsOf (',' :: ' ' :: cs) = [] :: partsOf cs :=
  rfl

theorem partsOf_cons {c : Char} (hc : c ≠ ',') :
    partsOf (c :: cs) = (partsOf cs).modifyHead (c :: ·) := by
  rw [partsOf]
  rintro rest rfl -
  exact hc rfl

theorem partsOf_append (h : ',' ∉ l) :
    partsOf (l ++ cs) = (partsOf cs).modifyHead (l ++ ·) := by
  induction l with
  | nil => cases hp : partsOf cs <;> simp [hp]
  | cons c l ih =>
    obtain ⟨hc, hl⟩ := not_or.mp (List.mem_cons.not.mp h)
    rw [List.cons_append, partsOf_cons (Ne.symm hc), ih hl, List.modifyHead_modifyHead]
    rfl

theorem partsOf_intercalate (hn : ls ≠ []) (h : ∀ l ∈ ls, ',' ∉ l) :
    partsOf ([',', ' '].intercalate ls) = ls := by
  induction ls with
  | nil => exact absurd rfl hn
  | cons l ls ih =>
    obtain ⟨hl, hls⟩ := List.forall_mem_cons.mp h
    cases ls with
    | nil =>
      have hlast : partsOf (l ++ []) = (partsOf []).modifyHead (l ++ ·) := partsOf_append hl
      simpa [partsOf] using hlast
    | cons m ls =>
      rw [List.intercalate_cons_cons, List.append_assoc, partsOf_append hl, List.cons_append,
        List.singleton_append, partsOf_separator, ih (List.cons_ne_nil m ls) hls,
        List.modifyHead_cons, List.append_nil]

theorem splitAtCommas_intercalate (hn : names ≠ []) (h : ∀ s ∈ names, ',' ∉ s.toList) :
    splitAtCommas (String.intercalate ", " names) = names := by
  have hparts : partsOf ([',', ' '].intercalate (names.map String.toList)) =
      names.map String.toList :=
    partsOf_intercalate (by simpa using hn) (List.forall_mem_map.mpr h)
  rw [splitAtCommas, String.toList_intercalate]
  change (partsOf ([',', ' '].intercalate (names.map String.toList))).map _ = _
  rw [hparts, List.map_map]
  simp

-- A comma with no space behind it is not a separator.
example : splitAtCommas "a,b, c,, d" = ["a,b", "c,", "d"] := by decide

/-! ## Names of reasons -/

namespace BlockReason

theorem name_injective : Function.Injective name := by
  intro q r
  cases q <;> cases r <;> decide

theorem comma_not_mem_name (r : BlockReason) : ',' ∉ r.name.toList := by
  cases r <;> decide

theorem name_ne_none (r : BlockReason) : r.name ≠ "none" := by
  cases r <;> decide

end BlockReason

namespace Block

variable {b c : Block}

theorem splitAtCommas_reasonText (hn : b.reasons ≠ []) :
    splitAtCommas b.reasonText = b.reasons.map BlockReason.name := by
  have htext : b.reasonText = String.intercalate ", " (b.reasons.map BlockReason.name) := by
    unfold reasonText
    split
    · next h => exact absurd h hn
    · rfl
  rw [htext]
  exact splitAtCommas_intercalate (by simpa using hn)
    (List.forall_mem_map.mpr fun r _ => r.comma_not_mem_name)

theorem reasonText_eq_none_iff : b.reasonText = "none" ↔ b.reasons = [] := by
  constructor
  · intro h
    by_contra hn
    have hsplit : b.reasons.map BlockReason.name = ["none"] := by
      rw [← splitAtCommas_reasonText hn, h]
      decide
    obtain ⟨r, -, hr⟩ := List.mem_map.mp (hsplit ▸ List.mem_singleton_self "none")
    exact r.name_ne_none hr
  · intro h
    rw [reasonText, h]

theorem reasonText_eq_iff : b.reasonText = c.reasonText ↔ b.reasons = c.reasons := by
  constructor
  · intro h
    by_cases hb : b.reasons = []
    · have hc : c.reasonText = "none" := h ▸ reasonText_eq_none_iff.mpr hb
      rw [hb, reasonText_eq_none_iff.mp hc]
    · have hc : c.reasons ≠ [] := fun hc =>
        hb (reasonText_eq_none_iff.mp (h.trans (reasonText_eq_none_iff.mpr hc)))
      have hmap : b.reasons.map BlockReason.name = c.reasons.map BlockReason.name := by
        rw [← splitAtCommas_reasonText hb, h, splitAtCommas_reasonText hc]
      exact List.map_injective_iff.mpr BlockReason.name_injective hmap
  · intro h
    rw [reasonText, reasonText, h]

/-! ## Adding reasons -/

theorem removeAll_concat {α : Type} [BEq α] [LawfulBEq α] (rs seen : List α) (r : α) :
    rs.removeAll (seen ++ [r]) = (rs.removeAll seen).filter (!· == r) := by
  rw [List.removeAll, List.removeAll, List.filter_filter]
  refine List.filter_congr fun q _ => ?_
  by_cases hq : q = r <;> simp [hq]

theorem foldl_withReason (b : Block) (rs : List BlockReason) :
    rs.foldl withReason b =
      { b with reasons := b.reasons ++ (rs.removeAll b.reasons).eraseDups } := by
  -- The block is left open, for after a step it holds the reasons that no later step repeats.
  induction rs generalizing b with
  | nil => simp
  | cons r rs ih =>
    rw [List.foldl_cons, ih, List.cons_removeAll, withReason]
    by_cases h : r ∈ b.reasons
    · simp [h]
    · simp [h, removeAll_concat, List.eraseDups_cons]

/-- A new block to which reasons are added has the first occurrence of each, in order, and is the
same otherwise. The text of any reasons is `none` if and only if there are none, and else splits
into their names, so that blocks have the same text if and only if they have the same reasons. -/
theorem reasons_of_history_and_text :
    (∀ (id : BlockId) (start : Address) (rs : List BlockReason),
      rs.foldl withReason { id, start } = { id, start, reasons := rs.eraseDups }) ∧
    (∀ b : Block, (b.reasonText = "none" ↔ b.reasons = []) ∧
      (b.reasons ≠ [] → splitAtCommas b.reasonText = b.reasons.map BlockReason.name)) ∧
    ∀ b c : Block, b.reasonText = c.reasonText ↔ b.reasons = c.reasons := by
  refine ⟨fun id start rs => ?_, fun b => ⟨reasonText_eq_none_iff, splitAtCommas_reasonText⟩,
    fun b c => reasonText_eq_iff⟩
  rw [foldl_withReason, List.removeAll_nil, List.nil_append]

/-- A block as it may be stored, with a reason given twice. -/
def padded : Block := { id := ⟨3⟩, start := 0x1010, reasons := [.padding, .jumpTable, .padding] }

theorem padded_reasons_of_text :
    padded.reasons ≠ [] ∧ padded.reasonText = "padding, jump table, padding" ∧
    splitAtCommas padded.reasonText = ["padding", "jump table", "padding"] := by
  have hn : padded.reasons ≠ [] := List.cons_ne_nil _ _
  exact ⟨hn, by decide, (reasons_of_history_and_text.2.1 padded).2 hn⟩

end Block

end Disasm
