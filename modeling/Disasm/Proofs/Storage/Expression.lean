import Disasm.Proofs.Double.Reader
import Disasm.Proofs.Storage.Register
import Disasm.Storage.Expression

/-! # Stored expressions read back

The stored forms of operand types and expressions are faithful.
-/

namespace Disasm

open Attempt

/-! ## Operand types -/

namespace OperandType

theorem intact_toJson (t : OperandType) : t.toJson.intact := by
  induction t with
  | integer | float => simp [toJson]
  | vector count element ih => simp [toJson, ih]

theorem ofJson_toJson (t : OperandType) (room : ℕ) (h : t.toJson.depth ≤ room) :
    ofJson room t.toJson = .ok t := by
  induction t generalizing room with
  | integer bits =>
    obtain ⟨room, rfl, hb⟩ := Json.exists_of_depth_tagged_le h
    exact congrArg (Except.map integer) (faithful_uint16.decode_encode bits room rfl hb)
  | float bits =>
    obtain ⟨room, rfl, hb⟩ := Json.exists_of_depth_tagged_le h
    exact congrArg (Except.map float) (faithful_uint16.decode_encode bits room rfl hb)
  | vector count element ih =>
    obtain ⟨room, rfl, hb⟩ := Json.exists_of_depth_tagged_le h
    obtain ⟨room, rfl, hr⟩ := Json.exists_of_depth_record_le hb
    simp only [List.forall_mem_cons] at hr
    have hf : (Json.record [("count", .nat count.toNat), ("element", element.toJson)]).fields
        ["count", "element"] = .ok [some (.nat count.toNat), some element.toJson] := rfl
    rw [toJson, Json.tagged, ofJson, hf, ok_bind]
    dsimp only
    rw [faithful_uint16.decode_encode _ _ rfl hr.1, ok_bind, ih room hr.2.1, ok_bind]
    rfl

theorem depth_of_ofJson {t : OperandType} {room : ℕ} {j : Json} (h : ofJson room j = .ok t) :
    t.toJson.depth ≤ room := by
  induction room using Nat.strongRecOn generalizing t j with
  | _ room ih =>
    unfold ofJson at h
    split at h
    · obtain ⟨bits, -, rfl⟩ := map_eq_ok_iff.mp h
      simp [toJson]
    · obtain ⟨bits, -, rfl⟩ := map_eq_ok_iff.mp h
      simp [toJson]
    · next room body =>
      obtain ⟨slots, -, h⟩ := bind_eq_ok_iff.mp h
      split at h
      · simp only [bind_eq_ok_iff] at h
        obtain ⟨count, -, element, he, h⟩ := h
        cases h
        simpa [toJson] using ih room (by omega) he
      · cases h
    · cases h

end OperandType

theorem faithful_operandType : Faithful OperandType.toJson OperandType.ofJson always where
  intact := OperandType.intact_toJson
  decode_encode t room _ h := t.ofJson_toJson room h
  of_decode _ _ _ h := ⟨rfl, OperandType.depth_of_ofJson h⟩

/-! ## Numbers -/

theorem Double.intact_toJson (x : Double) : x.toJson.intact := rfl

theorem faithful_double [DoubleReader] [LawfulDoubleReader] :
    Faithful Double.toJson Double.ofJson Double.isFinite where
  intact := Double.intact_toJson
  decode_encode x room hf _ := by
    rw [Double.toJson, Double.ofJson, LawfulDoubleReader.read_stored x hf]
    rfl
  of_decode x room j h := by
    refine ⟨?_, room.zero_le⟩
    unfold Double.ofJson at h
    split at h
    · next n =>
      cases hn : DoubleReader.read n with
      | none => simp [hn, Decoded.ofOption] at h
      | some y =>
        rw [hn] at h
        cases h
        exact LawfulDoubleReader.isFinite_of_read n x hn
    · cases h

/-! ## Expressions -/

namespace Expression

/-- Whether all floating point literals of an expression are finite. -/
def isFinite : Expression → Bool
  | add l r | subtract l r | multiply l r | shiftLeft l r => l.isFinite && r.isFinite
  | negate e => e.isFinite
  | memory a _ => a.isFinite
  | segmented s a _ => s.isFinite && a.isFinite
  | float _ x => x.isFinite
  | register _ | indirect _ _ | integer _ | registerList _ => true

theorem intact_toJson (e : Expression) : e.toJson.intact := by
  induction e with
  | register r => simp [toJson, faithful_register.intact]
  | indirect r index => simp [toJson, faithful_register.intact]
  | integer v => simp [toJson, faithful_literal.intact]
  | float bits x => simp [toJson, Double.intact_toJson]
  | registerList rs => simpa [toJson] using faithful_register.list.intact rs
  | _ => simp [toJson, memoryFields, OperandType.intact_toJson, *]

theorem toJson_ne_null (e : Expression) : e.toJson ≠ .null := by
  cases e <;> nofun

/-! ### Memory references -/

theorem toJson_memoryReference (address : Expression) (segment : Option Expression)
    (type : OperandType) : (memoryReference address segment type).toJson =
      .tagged "MemoryReference"
        (memoryFields address.toJson ((segment.map toJson).getD .null) type) := by
  cases segment <;> rfl

theorem fields_memoryFields (address segment : Json) (type : OperandType) :
    (memoryFields address segment type).fields ["address", "segment", "ty"] =
      .ok [some address, some segment, some type.toJson] := rfl

theorem memoryOfJson_memoryFields {inner : Json → Decoded Expression} {room : ℕ}
    {address : Expression} (segment : Option Expression) {type : OperandType}
    (ha : inner address.toJson = .ok address) (hs : ∀ s ∈ segment, inner s.toJson = .ok s)
    (ht : type.toJson.depth ≤ room) :
    memoryOfJson inner room (memoryFields address.toJson ((segment.map toJson).getD .null) type) =
      .ok (memoryReference address segment type) := by
  rw [memoryOfJson, fields_memoryFields, ok_bind]
  dsimp only
  rw [ha, ok_bind]
  cases segment with
  | none =>
    rw [Option.map_none, Option.getD_none, faithful_operandType.decode_encode _ _ rfl ht]
    rfl
  | some s =>
    rw [Option.map_some, Option.getD_some]
    split
    · next h => cases h
    · next h => exact absurd (Option.some.inj h) s.toJson_ne_null
    · next h =>
      cases h
      rw [hs s rfl, faithful_operandType.decode_encode _ _ rfl ht]
      rfl

theorem of_memoryOfJson {inner : Json → Decoded Expression} {room : ℕ} {j : Json}
    {e : Expression} (h : memoryOfJson inner room j = .ok e) :
    ∃ address segment type, e = memoryReference address segment type ∧
      (∃ v, v.Within j ∧ inner v = .ok address) ∧
      (∀ s ∈ segment, ∃ v, v.Within j ∧ inner v = .ok s) ∧ type.toJson.depth ≤ room := by
  obtain ⟨slots, hf, h⟩ := bind_eq_ok_iff.mp h
  split at h
  · obtain ⟨address, ha, h⟩ := bind_eq_ok_iff.mp h
    split at h <;> simp only [bind_eq_ok_iff] at h <;> obtain ⟨segment, hs, type, ht, h⟩ := h <;>
      cases h <;>
      refine ⟨address, segment, type, rfl, ⟨_, .of_fields hf (by simp), ha⟩, ?_,
        OperandType.depth_of_ofJson ht⟩
    · cases hs
      nofun
    · cases hs
      nofun
    · obtain ⟨s, hi, rfl⟩ := map_eq_ok_iff.mp hs
      rintro _ ⟨⟩
      exact ⟨_, .of_fields hf (by simp), hi⟩
  · cases h

theorem of_binary? {tag : String} {op : Expression → Expression → Expression}
    (h : binary? tag = some op) (a b : Expression) :
    (op a b).isFinite = (a.isFinite && b.isFinite) ∧
      (op a b).toJson = .tagged tag (.array [a.toJson, b.toJson]) := by
  unfold binary? at h
  split at h <;> cases h <;> exact ⟨rfl, rfl⟩

/-! ### Whole expressions -/

variable [DoubleReader]

theorem ofJson_binary {room : ℕ} {tag : String} {op : Expression → Expression → Expression}
    (h : binary? tag = some op) {l r : Json} {a b : Expression} (hl : ofJson room l = .ok a)
    (hr : ofJson room r = .ok b) :
    ofJson (room + 2) (.tagged tag (.array [l, r])) = .ok (op a b) := by
  have hn : tag ≠ "Negate" := by
    rintro rfl
    cases h
  have hm : tag ≠ "MemoryReference" := by
    rintro rfl
    cases h
  rw [Json.tagged, ofJson]
  · simp only [h]
    rw [hl, hr]
    rfl
  · simp [hn]
  · simp [hm]

/-- What a leaf is read from. -/
theorem leafOfJson_cases {room : ℕ} {tag : String} {body : Json} {e : Expression}
    (h : leafOfJson room tag body = .ok e) :
    (∃ r, Register.ofJson room body = .ok r ∧ e = register r) ∨
    (∃ v, Literal.ofJson room body = .ok v ∧ e = integer v) ∨
    (∃ rs, Decoder.list Register.ofJson room body = .ok rs ∧ e = registerList rs) ∨
    (∃ room' j r index, room = room' + 1 ∧ Register.ofJson room' j = .ok r ∧
      e = indirect r index) ∨
    ∃ room' j bits x, room = room' + 1 ∧ Double.ofJson room' j = .ok x ∧ e = float bits x := by
  unfold leafOfJson at h
  split at h
  · obtain ⟨r, hr, rfl⟩ := map_eq_ok_iff.mp h
    exact .inl ⟨r, hr, rfl⟩
  · obtain ⟨v, hv, rfl⟩ := map_eq_ok_iff.mp h
    exact .inr (.inl ⟨v, hv, rfl⟩)
  · obtain ⟨rs, hr, rfl⟩ := map_eq_ok_iff.mp h
    exact .inr (.inr (.inl ⟨rs, hr, rfl⟩))
  · split at h
    · cases h
    · next room =>
      obtain ⟨slots, -, h⟩ := bind_eq_ok_iff.mp h
      split at h
      · simp only [bind_eq_ok_iff] at h
        obtain ⟨r, hr, index, -, h⟩ := h
        cases h
        exact .inr (.inr (.inr (.inl ⟨room, _, r, index, rfl, hr, rfl⟩)))
      · cases h
  · split at h
    · cases h
    · next room =>
      obtain ⟨slots, -, h⟩ := bind_eq_ok_iff.mp h
      split at h
      · simp only [bind_eq_ok_iff] at h
        obtain ⟨bits, -, x, hx, h⟩ := h
        cases h
        exact .inr (.inr (.inr (.inr ⟨room, _, bits, x, rfl, hx, rfl⟩)))
      · cases h
  · cases h

/-- What a tree is read from: its parts are read from what stands inside, with less room. -/
theorem ofJson_cases {room : ℕ} {j : Json} {e : Expression} (h : ofJson room j = .ok e) :
    ∃ room' tag body, j = .tagged tag body ∧
      ((room = room' + 1 ∧ leafOfJson room' tag body = .ok e) ∨
      (room = room' + 1 ∧ ∃ a, ofJson room' body = .ok a ∧ e = negate a) ∨
      (room = room' + 2 ∧ memoryOfJson (ofJson room') room' body = .ok e) ∨
      (room = room' + 2 ∧ ∃ op l r a b, binary? tag = some op ∧ body = .array [l, r] ∧
        ofJson room' l = .ok a ∧ ofJson room' r = .ok b ∧ e = op a b)) := by
  unfold ofJson at h
  split at h
  · next room body =>
    obtain ⟨a, ha, rfl⟩ := map_eq_ok_iff.mp h
    exact ⟨room, _, body, rfl, .inr (.inl ⟨rfl, a, ha, rfl⟩)⟩
  · next room body => exact ⟨room, _, body, rfl, .inr (.inr (.inl ⟨rfl, h⟩))⟩
  · next room tag body _ _ =>
    split at h
    · exact ⟨room, tag, body, rfl, .inl ⟨rfl, h⟩⟩
    · next op hb =>
      split at h
      · next room l r _ =>
        simp only [bind_eq_ok_iff] at h
        obtain ⟨a, ha, b, hb', h⟩ := h
        cases h
        exact ⟨room, tag, _, rfl, .inr (.inr (.inr ⟨rfl, op, l, r, a, b, hb, rfl, ha, hb', rfl⟩))⟩
      · cases h
  · cases h

variable [LawfulDoubleReader]

theorem ofJson_toJson (e : Expression) (hf : e.isFinite) (room : ℕ) (h : e.toJson.depth ≤ room) :
    ofJson room e.toJson = .ok e := by
  induction e generalizing room with
  | add a b iha ihb | subtract a b iha ihb | multiply a b iha ihb | shiftLeft a b iha ihb =>
    rw [isFinite, Bool.and_eq_true] at hf
    obtain ⟨room, rfl, ht⟩ := Json.exists_of_depth_tagged_le h
    obtain ⟨room, rfl, hi⟩ := Json.exists_of_depth_array_le ht
    simp only [List.forall_mem_cons] at hi
    exact ofJson_binary rfl (iha hf.1 room hi.1) (ihb hf.2 room hi.2.1)
  | negate e ih =>
    obtain ⟨room, rfl, hd⟩ := Json.exists_of_depth_tagged_le h
    exact congrArg (Except.map negate) (ih hf room hd)
  | memory a type ih =>
    obtain ⟨room, rfl, hd⟩ := Json.exists_of_depth_tagged_record_le h
    simp only [List.forall_mem_cons] at hd
    obtain ⟨ha, -, ht, -⟩ := hd
    exact memoryOfJson_memoryFields none (ih hf room ha) nofun ht
  | segmented s a type ihs iha =>
    rw [isFinite, Bool.and_eq_true] at hf
    obtain ⟨room, rfl, hd⟩ := Json.exists_of_depth_tagged_record_le h
    simp only [List.forall_mem_cons] at hd
    obtain ⟨ha, hs, ht, -⟩ := hd
    refine memoryOfJson_memoryFields (some s) (iha hf.2 room ha) ?_ ht
    rintro _ ⟨⟩
    exact ihs hf.1 room hs
  | register r =>
    obtain ⟨room, rfl, hd⟩ := Json.exists_of_depth_tagged_le h
    exact congrArg (Except.map register) (faithful_register.decode_encode r room rfl hd)
  | indirect r index =>
    obtain ⟨room, rfl, hd⟩ := Json.exists_of_depth_tagged_record_le h
    simp only [List.forall_mem_cons] at hd
    have hr := faithful_register.decode_encode r room rfl hd.1
    have hi := faithful_uint8.decode_encode index room rfl hd.2.1
    have hl : ofJson (room + 2) (indirect r index).toJson =
        (Register.ofJson room r.toJson).bind fun r =>
          (Decoder.uint8 room (.nat index.toNat)).map (indirect r) := rfl
    rw [hl, hr, hi]
    rfl
  | integer v =>
    obtain ⟨room, rfl, hd⟩ := Json.exists_of_depth_tagged_le h
    exact congrArg (Except.map integer) (faithful_literal.decode_encode v room rfl hd)
  | float bits x =>
    obtain ⟨room, rfl, hd⟩ := Json.exists_of_depth_tagged_record_le h
    simp only [List.forall_mem_cons] at hd
    have hb := faithful_uint16.decode_encode bits room rfl hd.1
    have hx := faithful_double.decode_encode x room hf hd.2.1
    have hl : ofJson (room + 2) (float bits x).toJson =
        (Decoder.uint16 room (.nat bits.toNat)).bind fun bits =>
          (Double.ofJson room x.toJson).map (float bits) := rfl
    rw [hl, hb, hx]
    rfl
  | registerList rs =>
    obtain ⟨room, rfl, hd⟩ := Json.exists_of_depth_tagged_le h
    have hr := faithful_register.list.decode_encode rs room (List.all_eq_true.mpr fun _ _ => rfl) hd
    exact congrArg (Except.map registerList) hr

theorem of_leafOfJson {room : ℕ} {tag : String} {body : Json} {e : Expression}
    (h : leafOfJson room tag body = .ok e) : e.isFinite ∧ e.toJson.depth ≤ room + 1 := by
  obtain ⟨r, hr, rfl⟩ | ⟨v, hv, rfl⟩ | ⟨rs, hr, rfl⟩ | ⟨room, j, r, index, rfl, hr, rfl⟩ |
    ⟨room, j, bits, x, rfl, hx, rfl⟩ := leafOfJson_cases h
  · simpa [isFinite, toJson] using (faithful_register.of_decode _ _ _ hr).2
  · simpa [isFinite, toJson] using (faithful_literal.of_decode _ _ _ hv).2
  · simpa [isFinite, toJson] using (faithful_register.list.of_decode _ _ _ hr).2
  · simpa [isFinite, toJson] using (faithful_register.of_decode _ _ _ hr).2
  · simpa [isFinite, toJson] using faithful_double.of_decode _ _ _ hx

theorem of_ofJson {room : ℕ} {j : Json} {e : Expression} (h : ofJson room j = .ok e) :
    e.isFinite ∧ e.toJson.depth ≤ room := by
  -- parts are read with less room, by one or by two, so the induction is on the room
  induction room using Nat.strongRecOn generalizing e j with
  | _ room ih =>
    obtain ⟨room, tag, body, rfl, hcase⟩ := ofJson_cases h
    obtain ⟨rfl, hleaf⟩ | ⟨rfl, a, ha, rfl⟩ | ⟨rfl, hmem⟩ |
      ⟨rfl, op, l, r, a, b, hop, -, hl, hr, rfl⟩ := hcase
    · exact of_leafOfJson hleaf
    · simpa [isFinite, toJson] using ih _ (by omega) ha
    · obtain ⟨address, segment, type, rfl, ⟨_, -, ha⟩, hs, ht⟩ := of_memoryOfJson hmem
      obtain ⟨hf, hd⟩ := ih _ (by omega) ha
      rw [toJson_memoryReference]
      cases segment with
      | none => simp [memoryReference, isFinite, memoryFields, hf, hd, ht]
      | some s =>
        obtain ⟨_, -, hs⟩ := hs s rfl
        obtain ⟨hfs, hds⟩ := ih _ (by omega) hs
        simp [memoryReference, isFinite, memoryFields, hf, hd, ht, hfs, hds]
    · obtain ⟨hfa, hda⟩ := ih _ (by omega) hl
      obtain ⟨hfb, hdb⟩ := ih _ (by omega) hr
      obtain ⟨hf, ht⟩ := of_binary? hop a b
      simp [hf, ht, hfa, hfb, hda, hdb]

end Expression

theorem faithful_expression [DoubleReader] [LawfulDoubleReader] :
    Faithful Expression.toJson Expression.ofJson Expression.isFinite where
  intact := Expression.intact_toJson
  decode_encode e room hf hd := e.ofJson_toJson hf room hd
  of_decode _ _ _ h := Expression.of_ofJson h

end Disasm
