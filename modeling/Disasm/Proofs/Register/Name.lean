import Mathlib.Data.Nat.Notation
import Mathlib.Tactic.SplitIfs
import Disasm.Register.Name

/-! # The characters of register names

A register name is not empty and consists of lower-case letters, digits and
parentheses, whatever the number and the size of the register.
-/

namespace Disasm.Register

def isNameChar (c : Char) : Bool := c.isLower || c.isDigit || c == '(' || c == ')'

def IsNameText (s : String) : Prop := s ≠ "" ∧ s.toList.all isNameChar

instance : DecidablePred IsNameText := fun _ => inferInstanceAs (Decidable (_ ∧ _))

variable {s t : String}

theorem IsNameText.append (hs : IsNameText s) (ht : t.toList.all isNameChar) :
    IsNameText (s ++ t) := by
  constructor
  · intro he
    exact hs.1 (by simp_all)
  · rw [String.toList_append, List.all_append, hs.2, ht]
    rfl

theorem all_toString (n : ℕ) : (toString n).toList.all isNameChar := by
  refine List.all_eq_true.mpr fun c hc => ?_
  have hm : c ∈ Nat.toDigits 10 n := by simpa using hc
  have hd : c.isDigit := Nat.isDigit_of_mem_toDigits (by decide) (by decide) hm
  simp [isNameChar, hd]

theorem IsNameText.of_getElem? (table : List String) (h : ∀ s ∈ table, IsNameText s) {i : ℕ}
    (hs : s ∈ table[i]?) : IsNameText s :=
  h s (List.mem_of_getElem? hs)

namespace X86

theorem isNameText_extended (id : ℕ) {mark : String} (hm : mark.toList.all isNameChar) :
    IsNameText (extended id mark) := by
  have hr : IsNameText "r" := by decide
  exact (hr.append (all_toString id)).append hm

theorem isNameText_narrow (table : List String) {mark : String} {id : ℕ}
    (ht : ∀ s ∈ table, IsNameText s) (hm : mark.toList.all isNameChar)
    (hs : s ∈ narrow? table mark id) : IsNameText s := by
  unfold narrow? at hs
  split at hs
  · exact .of_getElem? table ht hs
  · cases hs
    exact isNameText_extended id hm

theorem isNameText_general {id size : ℕ} (hs : s ∈ general? id size) : IsNameText s := by
  unfold general? at hs
  split at hs
  · exact .of_getElem? general64 (by decide) hs
  · exact isNameText_narrow legacy32 (by decide) (by decide) hs
  · exact isNameText_narrow legacy16 (by decide) (by decide) hs
  · exact isNameText_narrow legacy8 (by decide) (by decide) hs
  · cases hs
    decide

theorem isNameText_pointer (size : ℕ) : IsNameText (pointer size) := by
  unfold pointer
  split <;> decide

theorem isNameText_flags (size : ℕ) : IsNameText (flags size) := by
  unfold flags
  split <;> decide

theorem isNameText_vector (index size : ℕ) : IsNameText (vector index size) := by
  have hx : IsNameText "xmm" := by decide
  have hy : IsNameText "ymm" := by decide
  unfold vector
  split
  · exact hx.append (all_toString index)
  · exact hy.append (all_toString index)
  · decide

theorem isNameText_stack (index : ℕ) : IsNameText ("st(" ++ toString index ++ ")") := by
  have hs : IsNameText "st(" := by decide
  exact (hs.append (all_toString index)).append (by decide)

theorem isNameText_name? {id size : ℕ} (hs : s ∈ name? id size) : IsNameText s := by
  unfold name? at hs
  split_ifs at hs
  · exact isNameText_general hs
  · cases hs
    exact isNameText_pointer size
  · cases hs
    exact isNameText_flags size
  · exact .of_getElem? highBytes (by decide) hs
  · exact .of_getElem? segments (by decide) hs
  · cases hs
    exact isNameText_stack _
  · cases hs
    exact isNameText_vector _ size
  · cases hs
    decide

end X86

namespace Arm64

theorem isNameText_sized {at64 at32 : String} (h₆₄ : IsNameText at64) (h₃₂ : IsNameText at32)
    (size : ℕ) : IsNameText (sized at64 at32 size) := by
  unfold sized
  split
  · exact h₆₄
  · exact h₃₂
  · decide

theorem isNameText_vector (index size : ℕ) : IsNameText (vector index size) := by
  have hn : ∀ letter ∈ ["v", "d", "s", "h", "b"], IsNameText (letter ++ toString index) := by
    intro letter hl
    have ht : ∀ s ∈ ["v", "d", "s", "h", "b"], IsNameText s := by decide
    exact (ht letter hl).append (all_toString index)
  unfold vector
  split
  · exact hn "v" (by decide)
  · exact hn "d" (by decide)
  · exact hn "s" (by decide)
  · exact hn "h" (by decide)
  · exact hn "b" (by decide)
  · decide

theorem isNameText_name (id size : ℕ) : IsNameText (name id size) := by
  have hx : IsNameText "x" := by decide
  have hw : IsNameText "w" := by decide
  have hd := all_toString id
  unfold name
  split_ifs
  · exact isNameText_sized (hx.append hd) (hw.append hd) size
  · exact isNameText_sized (by decide) (by decide) size
  · exact isNameText_sized (by decide) (by decide) size
  · decide
  · exact isNameText_vector _ size
  · decide

end Arm64

theorem RiscV.isNameText_name? {id : ℕ} (hs : s ∈ RiscV.name? id) : IsNameText s := by
  unfold RiscV.name? at hs
  split_ifs at hs
  · exact .of_getElem? integers (by decide) hs
  · cases hs
    decide
  · cases hs
    decide

theorem isNameText_name? {r : Register} (hs : s ∈ r.name?) : IsNameText s := by
  unfold name? at hs
  split at hs
  · exact X86.isNameText_name? hs
  · exact X86.isNameText_name? hs
  · cases hs
    exact Arm64.isNameText_name ..
  · exact RiscV.isNameText_name? hs
  · exact RiscV.isNameText_name? hs
  · cases hs
    decide
  · cases hs
    decide

theorem isNameText_name (r : Register) : IsNameText r.name := by
  unfold name
  cases h : r.name? with
  | none => decide
  | some s => exact isNameText_name? h

end Disasm.Register
