import Disasm.Address
import Disasm.Literal

/-! # Label tables

A label table binds addresses to names. Its entries stand in ascending order of
address, so two tables with the same bindings are equal. Address zero may be
bound, but it never names anything.
-/

namespace Disasm

/-- Bindings of addresses to names, in ascending order of address. -/
structure Labels where
  entries : List (Address × String)
  ascending : entries.Pairwise fun a b => a.1 < b.1

namespace Labels

instance : DecidableEq Labels := fun s t =>
  decidable_of_iff (s.entries = t.entries)
    ⟨fun h => by cases s; cases t; cases h; rfl, fun h => by rw [h]⟩

def empty : Labels := ⟨[], .nil⟩

instance : Inhabited Labels := ⟨empty⟩

/-- Puts a binding in its place, over an old one of the same address. -/
def insertEntry (a : Address) (name : String) :
    List (Address × String) → List (Address × String)
  | [] => [(a, name)]
  | e :: es =>
    if a < e.1 then (a, name) :: e :: es
    else if a = e.1 then (a, name) :: es
    else e :: insertEntry a name es

theorem mem_insertEntry {a : Address} {name : String} {es : List (Address × String)}
    {e : Address × String} (h : e ∈ insertEntry a name es) : e = (a, name) ∨ e ∈ es := by
  induction es with
  | nil => simpa [insertEntry] using h
  | cons d ds ih =>
    unfold insertEntry at h
    split at h
    · simpa using h
    · split at h
      · rcases List.mem_cons.mp h with h | h
        · exact .inl h
        · exact .inr (List.mem_cons_of_mem _ h)
      · rcases List.mem_cons.mp h with rfl | h
        · exact .inr List.mem_cons_self
        · exact (ih h).imp id (List.mem_cons_of_mem _)

theorem pairwise_insertEntry (a : Address) (name : String) {es : List (Address × String)}
    (h : es.Pairwise fun a b => a.1 < b.1) :
    (insertEntry a name es).Pairwise fun a b => a.1 < b.1 := by
  induction es with
  | nil => simp [insertEntry]
  | cons d ds ih =>
    obtain ⟨hd, hds⟩ := List.pairwise_cons.mp h
    unfold insertEntry
    split
    · next ha =>
      refine List.pairwise_cons.mpr ⟨fun e he => ?_, h⟩
      rcases List.mem_cons.mp he with rfl | he
      · exact ha
      · exact UInt64.lt_trans ha (hd e he)
    · next ha =>
      split
      · next hb => exact List.pairwise_cons.mpr ⟨fun e he => hb ▸ hd e he, hds⟩
      · next hb =>
        refine List.pairwise_cons.mpr ⟨fun e he => ?_, ih hds⟩
        rcases mem_insertEntry he with rfl | he
        · exact (UInt64.lt_or_lt_of_ne hb).resolve_left ha
        · exact hd e he

def insert (t : Labels) (a : Address) (name : String) : Labels :=
  ⟨insertEntry a name t.entries, pairwise_insertEntry a name t.ascending⟩

/-- The name that an address is bound to, address zero included. -/
def find? (t : Labels) (a : Address) : Option String := t.entries.lookup a

/-- The name that stands for an address in text: none for address zero. -/
def get? (t : Labels) (a : Address) : Option String := if a = 0 then none else t.find? a

theorem lookup_entry (b : Address) (e : Address × String) (es : List (Address × String)) :
    (e :: es).lookup b = if b = e.1 then some e.2 else es.lookup b := by
  obtain ⟨a, name⟩ := e
  by_cases h : b = a
  · simp [h]
  · simp [List.lookup_cons, h, beq_false_of_ne h]

theorem lookup_insertEntry (a b : Address) (name : String) (es : List (Address × String)) :
    (insertEntry a name es).lookup b = if b = a then some name else es.lookup b := by
  induction es with
  | nil => exact lookup_entry b (a, name) []
  | cons d ds ih =>
    unfold insertEntry
    split
    · exact lookup_entry b (a, name) (d :: ds)
    · split
      · next ha =>
        rw [lookup_entry, lookup_entry, ← ha]
        split <;> simp_all
      · next ha =>
        rw [lookup_entry, lookup_entry, ih]
        by_cases hd : b = d.1 <;> by_cases hb : b = a <;> simp_all

theorem find?_insert (t : Labels) (a b : Address) (name : String) :
    (t.insert a name).find? b = if b = a then some name else t.find? b :=
  lookup_insertEntry a b name t.entries

@[simp] theorem find?_empty (a : Address) : empty.find? a = none := rfl

@[simp] theorem get?_zero (t : Labels) : t.get? 0 = none := rfl

theorem get?_of_ne_zero (t : Labels) {a : Address} (h : a ≠ 0) : t.get? a = t.find? a := if_neg h

theorem mem_entries_of_get? {t : Labels} {a : Address} {w : String} (h : t.get? a = some w) :
    (a, w) ∈ t.entries := by
  unfold get? at h
  split at h
  · cases h
  · obtain ⟨before, after, he, -⟩ := List.lookup_eq_some_iff.mp h
    simp [he]

def size (t : Labels) : Nat := t.entries.length

/-- Inserts bindings one after the other; a later one replaces an earlier one. -/
def insertAll (t : Labels) (es : List (Address × String)) : Labels :=
  es.foldl (fun t e => t.insert e.1 e.2) t

def ofList (es : List (Address × String)) : Labels := empty.insertAll es

/-- The bindings of two tables, those of the second over those of the first. -/
def override (t s : Labels) : Labels := t.insertAll s.entries

end Labels

/-- The label that an address-sized literal stands for, if it has one. -/
def Literal.label? (v : Literal) (t : Labels) : Option String :=
  if v.width.holdsAddress then t.get? (UInt64.ofNat v.unsigned) else none

/-- A literal prints as its label, or else in hexadecimal. -/
def Literal.text (v : Literal) (t : Labels) : String := (v.label? t).getD v.hex

end Disasm
