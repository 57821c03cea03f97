import Disasm.Proofs.Json.Nesting
import Disasm.Proofs.Storage.Decode

/-! # Faithful stored forms

A stored form is faithful if every value reads back from it that is finite and nests within
the room, and if every value that can be read is such a value. Numbers, tags and lists have
faithful forms.
-/

namespace Disasm

open Attempt

variable {α : Type}

/-- Values of a type are stored and read back, as long as they are finite. -/
structure Faithful (encode : α → Json) (decode : Decoder α) (finite : α → Bool) : Prop where
  intact : ∀ a, (encode a).intact
  decode_encode : ∀ a room, finite a → (encode a).depth ≤ room → decode room (encode a) = .ok a
  of_decode : ∀ a room j, decode room j = .ok a → finite a ∧ (encode a).depth ≤ room

/-- No value of a type holds a number that is not finite. -/
def always : α → Bool := fun _ => true

@[simp] theorem malformed_ne_ok {a : α} : (malformed : Decoded α) ≠ .ok a := nofun

/-! ## Numbers -/

namespace Decoder

theorem natural_nat {n bound : ℕ} (h : n < bound) (room : ℕ) :
    natural bound room (.nat n) = .ok n := by
  simp [natural, Json.nat, Numeral.ofNat, Numeral.natural?, h]

end Decoder

theorem faithful_natural {ofNat : ℕ → α} {toNat : α → ℕ} {bound : ℕ} (hb : ∀ a, toNat a < bound)
    (ha : ∀ a, ofNat (toNat a) = a) :
    Faithful (fun a => .nat (toNat a)) (fun room j => (Decoder.natural bound room j).map ofNat)
      always where
  intact _ := rfl
  decode_encode a room _ _ := by rw [Decoder.natural_nat (hb a), Except.map, ha]
  of_decode a room _ _ := ⟨rfl, room.zero_le⟩

theorem faithful_uint8 : Faithful (fun n => .nat n.toNat) Decoder.uint8 always :=
  faithful_natural UInt8.toNat_lt fun _ => UInt8.ofNat_toNat

theorem faithful_uint16 : Faithful (fun n => .nat n.toNat) Decoder.uint16 always :=
  faithful_natural UInt16.toNat_lt fun _ => UInt16.ofNat_toNat

theorem faithful_uint32 : Faithful (fun n => .nat n.toNat) Decoder.uint32 always :=
  faithful_natural UInt32.toNat_lt fun _ => UInt32.ofNat_toNat

theorem faithful_uint64 : Faithful (fun n => .nat n.toNat) Decoder.uint64 always :=
  faithful_natural UInt64.toNat_lt fun _ => UInt64.ofNat_toNat

/-! ## Texts, tags and lists -/

theorem faithful_text : Faithful .text Decoder.text always where
  intact _ := rfl
  decode_encode _ _ _ _ := rfl
  of_decode _ room _ _ := ⟨rfl, room.zero_le⟩

theorem faithful_flag : Faithful .bool Decoder.flag always where
  intact _ := rfl
  decode_encode _ _ _ _ := rfl
  of_decode _ room _ _ := ⟨rfl, room.zero_le⟩

theorem Json.room_of_variant? {room : ℕ} {j body : Json} {tag : String}
    (h : j.variant? room = some (tag, some body)) : 1 ≤ room := by
  unfold Json.variant? at h
  split at h
  · cases h
  · exact Nat.le_add_left ..
  · cases h

theorem Json.exists_lookup_of_unitVariant {table : List (String × α)} {room : ℕ} {j : Json} {a : α}
    (h : Json.unitVariant table room j = .ok a) : ∃ tag, table.lookup tag = some a := by
  have ho : ∀ tag, Decoded.ofOption (table.lookup tag) = .ok a → table.lookup tag = some a := by
    intro tag h
    cases hl : table.lookup tag with
    | none => simp [hl, Decoded.ofOption] at h
    | some b =>
      rw [hl] at h
      cases h
      rfl
  unfold Json.unitVariant at h
  split at h
  · next tag _ => exact ⟨tag, ho tag h⟩
  · next tag _ => exact ⟨tag, ho tag h⟩
  · cases h

theorem faithful_unitVariant {encode : α → Json} {table : List (String × α)}
    (h : ∀ a, ∃ tag, encode a = .text tag ∧ table.lookup tag = some a) :
    Faithful encode (Json.unitVariant table) always where
  intact a := by
    obtain ⟨tag, he, -⟩ := h a
    rw [he, Json.intact_text]
  decode_encode a room _ _ := by
    obtain ⟨tag, he, ht⟩ := h a
    simp [he, Json.unitVariant, Json.text, Json.variant?, ht, Decoded.ofOption]
  of_decode a room _ _ := by
    obtain ⟨tag, he, -⟩ := h a
    rw [he]
    exact ⟨rfl, room.zero_le⟩

theorem Decoder.list_eq_ok_iff {decode : Decoder α} {room : ℕ} {j : Json} {l : List α} :
    list decode room j = .ok l ↔ ∃ room' items, room = room' + 1 ∧ j = .array items ∧
      List.Forall₂ (fun v a => decode room' v = .ok a) items l := by
  unfold list
  split
  · simp [mapM_eq_ok_iff]
  · next h =>
    simp only [malformed_ne_ok, false_iff]
    rintro ⟨room', items, rfl, rfl, -⟩
    exact h room' items rfl rfl

theorem Faithful.list {encode : α → Json} {decode : Decoder α} {finite : α → Bool}
    (h : Faithful encode decode finite) :
    Faithful (fun l => .array (l.map encode)) (Decoder.list decode) (fun l => l.all finite) where
  intact l := by simpa using fun a _ => h.intact a
  decode_encode l room hf hd := by
    obtain ⟨room, rfl, hi⟩ := Json.exists_of_depth_array_le hd
    rw [List.forall_mem_map] at hi
    rw [Decoder.list, mapM_eq_ok_iff, List.forall₂_map_left_iff, List.forall₂_same]
    exact fun a ha => h.decode_encode a room (List.all_eq_true.mp hf a ha) (hi a ha)
  of_decode l room j hl := by
    obtain ⟨room, items, rfl, rfl, hi⟩ := Decoder.list_eq_ok_iff.mp hl
    have ha : ∀ a ∈ l, finite a ∧ (encode a).depth ≤ room := by
      clear hl
      induction hi with
      | nil => simp
      | cons hv _ ih => exact List.forall_mem_cons.mpr ⟨h.of_decode _ _ _ hv, ih⟩
    rw [Json.depth_array_le, List.forall_mem_map, List.all_eq_true]
    exact ⟨fun a h => (ha a h).1, fun a h => (ha a h).2⟩

end Disasm
