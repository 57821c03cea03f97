import Mathlib.Data.List.Forall2
import Disasm.Proofs.Attempt
import Disasm.Proofs.Json.ReadBack
import Disasm.Storage.FunctionFile

/-! # Decoding written values

A written text decodes as the value that was written. Lists decode item by item.
-/

namespace Disasm

open Attempt

variable {ε α β : Type}

theorem mapM_eq_ok_iff {f : α → Except ε β} {l : List α} {r : List β} :
    l.mapM f = .ok r ↔ List.Forall₂ (fun a b => f a = .ok b) l r := by
  induction l generalizing r with
  | nil => simp [pure, Except.pure, eq_comm]
  | cons a l ih =>
    rw [List.mapM_cons, bind_eq_ok_iff, List.forall₂_cons_left_iff]
    simp only [bind_eq_ok_iff, ih, pure, Except.pure, Except.ok.injEq]
    constructor
    · rintro ⟨b, hb, bs, hbs, rfl⟩
      exact ⟨b, bs, hb, hbs, rfl⟩
    · rintro ⟨b, bs, hb, hbs, rfl⟩
      exact ⟨b, hb, bs, hbs, rfl⟩

theorem exists_mapM_eq_ok_iff {f : α → Except ε β} {l : List α} :
    (∃ r, l.mapM f = .ok r) ↔ ∀ a ∈ l, ∃ b, f a = .ok b := by
  simp only [mapM_eq_ok_iff]
  induction l with
  | nil => simp
  | cons a l ih =>
    simp only [List.forall₂_cons_left_iff, List.forall_mem_cons, ← ih]
    constructor
    · rintro ⟨_, b, bs, hb, hbs, rfl⟩
      exact ⟨⟨b, hb⟩, bs, hbs⟩
    · rintro ⟨⟨b, hb⟩, bs, hbs⟩
      exact ⟨_, b, bs, hb, hbs, rfl⟩

/-! ## Texts -/

variable {decode : Decoder α} {text : String} {j : Json} {a : α}

theorem decodeText_of_read (h : Json.read text = ⟨j, true⟩) :
    decodeText decode text = decode nestingLimit j := by
  rw [decodeText, h]
  cases decode nestingLimit j <;> rfl

theorem decodeText_write (h : j.intact) :
    decodeText decode j.write = decode nestingLimit j :=
  decodeText_of_read (Json.read_write j h)

theorem decode_of_decodeText (h : decodeText decode text = .ok a) :
    decode nestingLimit (Json.read text).value = .ok a := by
  obtain ⟨b, hb, h⟩ := bind_eq_ok_iff.mp h
  split at h
  · cases h
    exact hb
  · cases h

/-! ## Values inside a value -/

namespace Json

/-- A value that is another one or stands somewhere inside it. -/
inductive Within : Json → Json → Prop where
  | refl (j : Json) : Within j j
  | item {s v : Json} {items : List Json} (hv : v ∈ items) (hs : Within s v) :
      Within s (array items)
  | member {s : Json} {m : Member} {members : List Member} (hm : m ∈ members)
      (hs : Within s m.2) : Within s (object members)

theorem Within.trans {s v j : Json} (hs : s.Within v) (hv : v.Within j) : s.Within j := by
  induction hv with
  | refl => exact hs
  | item hv _ ih => exact .item hv ih
  | member hm _ ih => exact .member hm ih

variable {names : List String} {slots filled : List (Option Json)} {v : Json}

theorem mem_or_eq_of_place {m : Member} (h : place names slots m = .ok filled)
    (hv : some v ∈ filled) : some v ∈ slots ∨ v = m.2 := by
  obtain ⟨_ | key, w⟩ := m
  · cases h
  · rw [place] at h
    split at h <;> split at h <;> cases h
    · exact .inl hv
    · rcases List.mem_or_eq_of_mem_set hv with hv | hv
      · exact .inl hv
      · exact .inr (Option.some.inj hv)

theorem mem_or_mem_of_place {members : List Member}
    (h : members.foldlM (place names) slots = .ok filled) (hv : some v ∈ filled) :
    some v ∈ slots ∨ ∃ m ∈ members, v = m.2 := by
  induction members generalizing slots with
  | nil =>
    cases h
    exact .inl hv
  | cons m members ih =>
    rw [List.foldlM_cons] at h
    obtain ⟨next, hn, h⟩ := bind_eq_ok_iff.mp h
    rcases ih h with hv | ⟨m', hm', rfl⟩
    · rcases mem_or_eq_of_place hn hv with hv | rfl
      · exact .inl hv
      · exact .inr ⟨m, List.mem_cons_self, rfl⟩
    · exact .inr ⟨m', List.mem_cons_of_mem m hm', rfl⟩

theorem Within.of_fields {j : Json} (h : j.fields names = .ok slots) (hv : some v ∈ slots) :
    v.Within j := by
  unfold fields at h
  split at h
  · rcases mem_or_mem_of_place h hv with hv | ⟨m, hm, rfl⟩
    · simp at hv
    · exact .member hm (.refl _)
  · split at h <;> cases h
    rcases List.mem_append.mp hv with hv | hv
    · obtain ⟨w, hw, hs⟩ := List.mem_map.mp hv
      cases hs
      exact .item hw (.refl _)
    · cases List.eq_of_mem_replicate hv
  · cases h

end Json

end Disasm
