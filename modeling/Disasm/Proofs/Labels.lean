import Mathlib.Data.List.Pairwise
import Mathlib.Data.List.Perm.Lattice
import Disasm.Labels

/-! # Bindings of label tables

The entries of a table are its bindings, one for each bound address, and a table is
determined by what it finds. Of several bindings of one address the last one counts.
-/

namespace Disasm

theorem lookup_eq_some_iff_mem {α β : Type} [BEq α] [LawfulBEq α] {l : List (α × β)}
    (h : (l.map Prod.fst).Nodup) {a : α} {b : β} : l.lookup a = some b ↔ (a, b) ∈ l := by
  induction l with
  | nil => simp
  | cons d l ih =>
    obtain ⟨c, e⟩ := d
    obtain ⟨hc, hl⟩ := List.nodup_cons.mp h
    rw [List.lookup_cons]
    by_cases ha : a = c
    · subst ha
      have hn : (a, b) ∉ l := fun hm => hc (List.mem_map.mpr ⟨_, hm, rfl⟩)
      simp [hn, eq_comm]
    · simp [beq_false_of_ne ha, ha, ih hl]

/-- What is found under distinct keys does not depend on their order. -/
theorem lookup_eq_of_perm {α β : Type} [BEq α] [LawfulBEq α] {l l' : List (α × β)} (h : l.Perm l')
    (hn : (l.map Prod.fst).Nodup) (a : α) : l.lookup a = l'.lookup a := by
  have hn' : (l'.map Prod.fst).Nodup := (h.map Prod.fst).nodup_iff.mp hn
  ext b
  rw [lookup_eq_some_iff_mem hn, lookup_eq_some_iff_mem hn', h.mem_iff]

namespace Labels

variable {s t : Labels} {a : Address} {name : String}

theorem nodup_addresses (t : Labels) : (t.entries.map Prod.fst).Nodup :=
  List.pairwise_map.mpr (t.ascending.imp UInt64.ne_of_lt)

theorem find?_eq_some_iff : t.find? a = some name ↔ (a, name) ∈ t.entries :=
  lookup_eq_some_iff_mem t.nodup_addresses

/-- Tables that find the same names are equal. -/
theorem ext_find? (h : ∀ a, s.find? a = t.find? a) : s = t := by
  have hm : ∀ e, e ∈ s.entries ↔ e ∈ t.entries := by
    intro e
    rw [← find?_eq_some_iff, ← find?_eq_some_iff, h]
  have hs : s.entries.Nodup := s.nodup_addresses.of_map
  have ht : t.entries.Nodup := t.nodup_addresses.of_map
  have he : s.entries = t.entries :=
    ((List.perm_ext_iff_of_nodup hs ht).mpr hm).eq_of_pairwise
      (fun a b _ _ hab hba => absurd hba (UInt64.lt_asymm hab)) s.ascending t.ascending
  cases s
  cases t
  cases he
  rfl

theorem find?_insertAll (t : Labels) (es : List (Address × String)) (a : Address) :
    (t.insertAll es).find? a = (es.reverse.lookup a).or (t.find? a) := by
  induction es generalizing t with
  | nil => rfl
  | cons e es ih =>
    have hi : t.insertAll (e :: es) = (t.insert e.1 e.2).insertAll es := rfl
    rw [hi, ih, find?_insert, List.reverse_cons, List.lookup_append, lookup_entry, Option.or_assoc]
    by_cases ha : a = e.1 <;> simp [ha]

theorem find?_ofList (es : List (Address × String)) (a : Address) :
    (ofList es).find? a = es.reverse.lookup a := by
  rw [ofList, find?_insertAll, find?_empty, Option.or_none]

end Labels

end Disasm
