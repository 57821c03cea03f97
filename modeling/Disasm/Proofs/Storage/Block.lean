import Disasm.Proofs.Storage.Expression
import Disasm.Storage.Block

/-! # Stored instructions and blocks read back

The stored forms of instructions, statements and blocks are faithful.
-/

namespace Disasm

open Attempt

theorem faithful_bytes :
    Faithful bytesToJson (Decoder.list Decoder.uint8) (fun l => l.all always) :=
  faithful_uint8.list

theorem all_always {α : Type} (l : List α) : l.all always := List.all_eq_true.mpr fun _ _ => rfl

namespace Instruction

def isFinite (i : Instruction) : Bool := i.operands.all Expression.isFinite

theorem fields_toJson (i : Instruction) :
    i.toJson.fields ["address", "arch", "mnemonic", "operands", "bytes"] =
      .ok [some (.nat i.address.toNat), some i.arch.toJson, some (.text i.mnemonic),
        some (.array (i.operands.map Expression.toJson)), some (bytesToJson i.bytes)] := rfl

end Instruction

theorem faithful_instruction [DoubleReader] [LawfulDoubleReader] :
    Faithful Instruction.toJson Instruction.ofJson Instruction.isFinite where
  intact i := by
    have ho := faithful_expression.list.intact i.operands
    have hb := faithful_bytes.intact i.bytes
    simp only [Instruction.toJson, Json.intact_record, List.forall_mem_cons]
    exact ⟨rfl, faithful_architecture.intact _, rfl, ho, hb, List.forall_mem_nil _⟩
  decode_encode i room hf hd := by
    obtain ⟨room, rfl, hr⟩ := Json.exists_of_depth_record_le hd
    simp only [List.forall_mem_cons] at hr
    obtain ⟨ha, hi, hm, ho, hb, -⟩ := hr
    rw [Instruction.ofJson, Instruction.fields_toJson, ok_bind]
    dsimp only
    rw [faithful_uint64.decode_encode _ _ rfl ha, ok_bind,
      faithful_architecture.decode_encode _ _ rfl hi, ok_bind,
      faithful_text.decode_encode _ _ rfl hm, ok_bind,
      faithful_expression.list.decode_encode _ _ hf ho, ok_bind,
      faithful_bytes.decode_encode _ _ (all_always _) hb, ok_bind]
    rfl
  of_decode i room j h := by
    cases room with
    | zero => cases h
    | succ room =>
      obtain ⟨slots, -, h⟩ := bind_eq_ok_iff.mp h
      split at h
      · simp only [bind_eq_ok_iff] at h
        obtain ⟨address, -, arch, ha, mnemonic, -, operands, ho, bytes, hb, h⟩ := h
        cases h
        obtain ⟨hf, hd⟩ := faithful_expression.list.of_decode _ _ _ ho
        refine ⟨hf, ?_⟩
        simp only [Instruction.toJson, Json.depth_record_le, List.forall_mem_cons]
        exact ⟨room.zero_le, (faithful_architecture.of_decode _ _ _ ha).2, room.zero_le, hd,
          (faithful_bytes.of_decode _ _ _ hb).2, List.forall_mem_nil _⟩
      · cases h

/-- Whether the instruction that a statement is, if it is one, is finite. -/
def Statement.isFinite : Statement → Bool
  | instruction i => i.isFinite
  | data _ _ => true

theorem faithful_statement [DoubleReader] [LawfulDoubleReader] :
    Faithful Statement.toJson Statement.ofJson Statement.isFinite where
  intact s := by
    cases s with
    | instruction i => simp [Statement.toJson, faithful_instruction.intact]
    | data address bytes => simp [Statement.toJson, faithful_bytes.intact]
  decode_encode s room hf hd := by
    cases s with
    | instruction i =>
      obtain ⟨room, rfl, hi⟩ := Json.exists_of_depth_tagged_le hd
      have hi := faithful_instruction.decode_encode i room hf hi
      exact congrArg (Except.map Statement.instruction) hi
    | data address bytes =>
      obtain ⟨room, rfl, hr⟩ := Json.exists_of_depth_tagged_record_le hd
      simp only [List.forall_mem_cons] at hr
      have ha := faithful_uint64.decode_encode address room rfl hr.1
      have hb := faithful_bytes.decode_encode bytes room (all_always _) hr.2.1
      have hs : Statement.ofJson (room + 2) (Statement.data address bytes).toJson =
          (Decoder.uint64 room (.nat address.toNat)).bind fun address =>
            (Decoder.list Decoder.uint8 room (bytesToJson bytes)).map (.data address) := rfl
      rw [hs, ha, hb]
      rfl
  of_decode s room j h := by
    unfold Statement.ofJson at h
    split at h
    · obtain ⟨i, hi, rfl⟩ := map_eq_ok_iff.mp h
      simpa [Statement.isFinite, Statement.toJson] using faithful_instruction.of_decode _ _ _ hi
    · obtain ⟨slots, -, h⟩ := bind_eq_ok_iff.mp h
      split at h
      · simp only [bind_eq_ok_iff] at h
        obtain ⟨address, -, bytes, hb, h⟩ := h
        cases h
        simpa [Statement.isFinite, Statement.toJson] using (faithful_bytes.of_decode _ _ _ hb).2
      · cases h
    · cases h

theorem faithful_blockId : Faithful BlockId.toJson BlockId.ofJson always where
  intact _ := rfl
  decode_encode b room _ hd :=
    congrArg (Except.map BlockId.mk) (faithful_uint32.decode_encode b.index room rfl hd)
  of_decode _ room _ _ := ⟨rfl, room.zero_le⟩

theorem faithful_blockReason : Faithful BlockReason.toJson BlockReason.ofJson always :=
  faithful_unitVariant fun r => by cases r <;> exact ⟨_, rfl, by decide⟩

namespace Block

def isFinite (b : Block) : Bool := b.statements.all Statement.isFinite

theorem fields_toJson (b : Block) :
    b.toJson.fields ["id", "start", "statements", "reasons", "static_data"] =
      .ok [some b.id.toJson, some (.nat b.start.toNat),
        some (.array (b.statements.map Statement.toJson)),
        some (.array (b.reasons.map BlockReason.toJson)), some (.bool b.staticData)] := rfl

end Block

theorem faithful_block [DoubleReader] [LawfulDoubleReader] :
    Faithful Block.toJson Block.ofJson Block.isFinite where
  intact b := by
    have hs := faithful_statement.list.intact b.statements
    have hr := faithful_blockReason.list.intact b.reasons
    simp only [Block.toJson, Json.intact_record, List.forall_mem_cons]
    exact ⟨rfl, rfl, hs, hr, rfl, List.forall_mem_nil _⟩
  decode_encode b room hf hd := by
    obtain ⟨room, rfl, hr⟩ := Json.exists_of_depth_record_le hd
    simp only [List.forall_mem_cons] at hr
    obtain ⟨hi, ha, hs, hr, hd, -⟩ := hr
    rw [Block.ofJson, Block.fields_toJson, ok_bind]
    dsimp only [Json.orElse]
    rw [faithful_blockId.decode_encode _ _ rfl hi, ok_bind,
      faithful_uint64.decode_encode _ _ rfl ha, ok_bind,
      faithful_statement.list.decode_encode _ _ hf hs, ok_bind,
      faithful_blockReason.list.decode_encode _ _ (all_always _) hr, ok_bind,
      faithful_flag.decode_encode _ _ rfl hd, ok_bind]
    rfl
  of_decode b room j h := by
    cases room with
    | zero => cases h
    | succ room =>
      obtain ⟨slots, -, h⟩ := bind_eq_ok_iff.mp h
      split at h
      · simp only [bind_eq_ok_iff] at h
        obtain ⟨id, -, start, -, statements, hs, reasons, hr, staticData, -, h⟩ := h
        cases h
        obtain ⟨hf, hd⟩ := faithful_statement.list.of_decode _ _ _ hs
        refine ⟨hf, ?_⟩
        simp only [Block.toJson, Json.depth_record_le, List.forall_mem_cons]
        refine ⟨room.zero_le, room.zero_le, hd, ?_, room.zero_le, List.forall_mem_nil _⟩
        unfold Json.orElse at hr
        split at hr
        · exact (faithful_blockReason.list.of_decode _ _ _ hr).2
        · cases hr
          -- missing reasons are written as an empty list, for which the statements left room
          obtain ⟨room, rfl, -⟩ := Json.exists_of_depth_array_le hd
          exact Json.depth_array_le.mpr (List.forall_mem_nil _)
      · cases h

end Disasm
