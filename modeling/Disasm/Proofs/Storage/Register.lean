import Disasm.Proofs.Literal
import Disasm.Proofs.Storage.Faithful
import Disasm.Storage.Register

/-! # Stored registers and literals read back

The stored forms of architectures, registers and integer literals are faithful.
-/

namespace Disasm

open Attempt

theorem Architecture.lookup_tags_ne_unknown (tag : String) (machine : UInt16) :
    tags.lookup tag ≠ some (.unknown machine) := by
  intro h
  obtain ⟨before, after, hm, -⟩ := List.lookup_eq_some_iff.mp h
  have ht : (tag, Architecture.unknown machine) ∈ tags := by simp [hm]
  simp [tags] at ht

theorem faithful_architecture : Faithful Architecture.toJson Architecture.ofJson always where
  intact a := by cases a <;> rfl
  decode_encode a room _ hd := by
    cases a with
    | unknown machine =>
      obtain ⟨room, rfl⟩ : ∃ n, room = n + 1 := Nat.exists_eq_add_one.mpr hd
      exact congrArg (Except.map Architecture.unknown)
        (faithful_uint16.decode_encode machine room rfl (by simp))
    | _ => rfl
  of_decode a room j h := by
    refine ⟨rfl, ?_⟩
    unfold Architecture.ofJson at h
    split at h
    · next hv => cases a <;> simp [Architecture.toJson, Json.room_of_variant? hv]
    · obtain ⟨tag, ht⟩ := Json.exists_lookup_of_unitVariant h
      cases a with
      | unknown machine => exact absurd ht (Architecture.lookup_tags_ne_unknown tag machine)
      | _ => exact room.zero_le

theorem faithful_registerClass : Faithful RegisterClass.toJson RegisterClass.ofJson always :=
  faithful_unitVariant fun a => by cases a <;> exact ⟨_, rfl, by decide⟩

theorem faithful_width : Faithful Width.toJson Width.ofJson always :=
  faithful_unitVariant fun a => by cases a <;> exact ⟨_, rfl, by decide⟩

theorem Register.fields_toJson (r : Register) : r.toJson.fields ["arch", "class", "id", "size"] =
    .ok [some r.arch.toJson, some r.kind.toJson, some (.nat r.id.toNat), some (.nat r.size.toNat)] :=
  rfl

theorem faithful_register : Faithful Register.toJson Register.ofJson always where
  intact r := by
    simp [Register.toJson, faithful_architecture.intact, faithful_registerClass.intact]
  decode_encode r room _ hd := by
    obtain ⟨room, rfl, hr⟩ := Json.exists_of_depth_record_le hd
    simp only [List.forall_mem_cons] at hr
    obtain ⟨ha, hk, hi, hs, -⟩ := hr
    rw [Register.ofJson, Register.fields_toJson, ok_bind]
    dsimp only
    rw [faithful_architecture.decode_encode _ _ rfl ha, ok_bind,
      faithful_registerClass.decode_encode _ _ rfl hk, ok_bind,
      faithful_uint16.decode_encode _ _ rfl hi, ok_bind,
      faithful_uint16.decode_encode _ _ rfl hs, ok_bind]
    rfl
  of_decode r room j h := by
    cases room with
    | zero => cases h
    | succ room =>
      obtain ⟨slots, -, h⟩ := bind_eq_ok_iff.mp h
      split at h
      · simp only [bind_eq_ok_iff] at h
        obtain ⟨arch, ha, kind, hk, id, -, size, -, h⟩ := h
        cases h
        refine ⟨rfl, ?_⟩
        simp [Register.toJson, (faithful_architecture.of_decode _ _ _ ha).2,
          (faithful_registerClass.of_decode _ _ _ hk).2]
      · cases h

theorem Literal.fields_toJson (v : Literal) :
    v.toJson.fields ["width", "bits"] = .ok [some v.width.toJson, some (.nat v.unsigned)] := rfl

theorem Literal.ofJson_eq_ok_iff {v : Literal} {room : ℕ} {j : Json} :
    Literal.ofJson room j = .ok v ↔ ∃ room' width bits w n, room = room' + 1 ∧
      j.fields ["width", "bits"] = .ok [some width, some bits] ∧
      Width.ofJson room' width = .ok w ∧ Decoder.natural UInt64.size room' bits = .ok n ∧
      v = ofNat w n := by
  constructor
  · intro h
    cases room with
    | zero => cases h
    | succ room =>
      obtain ⟨slots, hs, h⟩ := bind_eq_ok_iff.mp h
      split at h
      · next width bits =>
        simp only [bind_eq_ok_iff] at h
        obtain ⟨w, hw, n, hn, h⟩ := h
        cases h
        exact ⟨room, width, bits, w, n, rfl, hs, hw, hn, rfl⟩
      · cases h
  · rintro ⟨room, width, bits, w, n, rfl, hs, hw, hn, rfl⟩
    rw [Literal.ofJson, hs, ok_bind]
    dsimp only
    rw [hw, ok_bind, hn]
    rfl

theorem faithful_literal : Faithful Literal.toJson Literal.ofJson always where
  intact v := by simp [Literal.toJson, faithful_width.intact]
  decode_encode v room _ hd := by
    obtain ⟨room, rfl, hr⟩ := Json.exists_of_depth_record_le hd
    exact Literal.ofJson_eq_ok_iff.mpr ⟨room, _, _, _, _, rfl, v.fields_toJson,
      faithful_width.decode_encode _ _ rfl (hr _ List.mem_cons_self),
      Decoder.natural_nat v.unsigned_lt_size _, v.ofNat_unsigned.symm⟩
  of_decode v room j h := by
    obtain ⟨room, width, bits, w, n, rfl, -, hw, -, rfl⟩ := Literal.ofJson_eq_ok_iff.mp h
    refine ⟨rfl, ?_⟩
    simp [Literal.toJson, (faithful_width.of_decode _ _ _ hw).2, Literal.ofNat]

end Disasm
