import Disasm.Proofs.Storage.Block

/-! # Stored values read back

Whatever is written reads back as itself, unless it nests too deep or holds a number that is
not finite. Whatever is read can be written, and what was left out or cut off in the text that
was read stays as it is from then on.
-/

namespace Disasm

variable {α : Type} {write? : α → Option Json} {decode : Decoder α} {finite : α → Bool}

/-- Values of a type, those that have a form of their own to be written in, read back from
their texts, and so does every value that was read from any text. -/
structure ReadsBack (write? : α → Option Json) (decode : Decoder α) (finite : α → Bool) :
    Prop where
  written : ∀ a j, write? a = some j → finite a → j.depth ≤ nestingLimit →
    decodeText decode j.write = .ok a
  read : ∀ text a, decodeText decode text = .ok a →
    ∃ j, write? a = some j ∧ decodeText decode j.write = .ok a

theorem Faithful.readsBack {encode : α → Json} (h : Faithful encode decode finite) :
    ReadsBack (fun a => some (encode a)) decode finite where
  written := by
    rintro a _ ⟨⟩ hf hd
    rw [decodeText_write (h.intact a)]
    exact h.decode_encode a nestingLimit hf hd
  read text a ha := by
    obtain ⟨hf, hd⟩ := h.of_decode a nestingLimit _ (decode_of_decodeText ha)
    refine ⟨_, rfl, ?_⟩
    rw [decodeText_write (h.intact a)]
    exact h.decode_encode a nestingLimit hf hd

namespace Expression

variable {e : Expression} {j : Json}

theorem toJson_of_memoryReferenceToJson (h : memoryReferenceToJson e = some j) :
    e.toJson = .tagged "MemoryReference" j := by
  cases e <;> cases h <;> rfl

variable [DoubleReader]

theorem memoryReferenceOfJson_eq (room : ℕ) (j : Json) :
    memoryReferenceOfJson room j = ofJson (room + 1) (.tagged "MemoryReference" j) := by
  cases room <;> rfl

theorem exists_memoryReferenceToJson {room : ℕ} (h : memoryReferenceOfJson room j = .ok e) :
    ∃ j, memoryReferenceToJson e = some j := by
  cases room with
  | zero => cases h
  | succ room =>
    obtain ⟨address, segment, type, rfl, -⟩ := of_memoryOfJson h
    cases segment <;> exact ⟨_, rfl⟩

/-- A memory reference on its own is stored as in an expression, without the tag. -/
theorem readsBack_memoryReference [LawfulDoubleReader] :
    ReadsBack memoryReferenceToJson memoryReferenceOfJson isFinite := by
  have hw : ∀ e j, memoryReferenceToJson e = some j → e.isFinite → j.depth ≤ nestingLimit →
      decodeText memoryReferenceOfJson j.write = .ok e := by
    intro e j hj hf hd
    have ht := toJson_of_memoryReferenceToJson hj
    have hi : j.intact := by simpa [ht] using e.intact_toJson
    rw [decodeText_write hi, memoryReferenceOfJson_eq, ← ht]
    exact e.ofJson_toJson hf _ (by simpa [ht] using hd)
  refine ⟨hw, fun text e he => ?_⟩
  have he := decode_of_decodeText he
  obtain ⟨j, hj⟩ := exists_memoryReferenceToJson he
  rw [memoryReferenceOfJson_eq] at he
  obtain ⟨hf, hd⟩ := of_ofJson he
  rw [toJson_of_memoryReferenceToJson hj, Json.depth_tagged] at hd
  exact ⟨j, hj, hw e j hj hf (Nat.le_of_succ_le_succ hd)⟩

end Expression

/-- Values of every type that is stored read back with every lawful reader of numbers. -/
theorem stored_values_read_back [DoubleReader] [LawfulDoubleReader] :
    ReadsBack (fun a => some (Architecture.toJson a)) Architecture.ofJson always ∧
      ReadsBack (fun r => some (Register.toJson r)) Register.ofJson always ∧
      ReadsBack (fun v => some (Literal.toJson v)) Literal.ofJson always ∧
      ReadsBack (fun t => some (OperandType.toJson t)) OperandType.ofJson always ∧
      ReadsBack Expression.memoryReferenceToJson Expression.memoryReferenceOfJson
        Expression.isFinite ∧
      ReadsBack (fun e => some (Expression.toJson e)) Expression.ofJson Expression.isFinite ∧
      ReadsBack (fun i => some (Instruction.toJson i)) Instruction.ofJson Instruction.isFinite ∧
      ReadsBack (fun s => some (Statement.toJson s)) Statement.ofJson Statement.isFinite ∧
      ReadsBack (fun b => some (Block.toJson b)) Block.ofJson Block.isFinite :=
  ⟨faithful_architecture.readsBack, faithful_register.readsBack, faithful_literal.readsBack,
    faithful_operandType.readsBack, Expression.readsBack_memoryReference,
    faithful_expression.readsBack, faithful_instruction.readsBack, faithful_statement.readsBack,
    faithful_block.readsBack⟩

/-- A reference without a segment, to an address with bits above its width. -/
def clippedText : String :=
  "\x7b\"address\": \x7b\"IntegerValue\": \x7b\"bits\": 300, \"width\": \"W8\"\x7d\x7d, " ++
    "\"ty\": \x7b\"Float\": 64\x7d\x7d"

def clipped : Expression := .memory (.integer ⟨.w8, 44⟩) (.float 64)

/-- The tenth, which no binary number is. -/
def tenth : Expression := .float 64 ⟨0x3fb999999999999a⟩

theorem clipped_and_tenth_read_back :
    @LawfulDoubleReader .nearest ∧
      decodeText (@Expression.memoryReferenceOfJson .nearest) clippedText = .ok clipped ∧
      (∃ j, Expression.memoryReferenceToJson clipped = some j ∧
        decodeText (@Expression.memoryReferenceOfJson .nearest) j.write = .ok clipped) ∧
      decodeText (@Expression.ofJson .nearest) tenth.toJson.write = .ok tenth ∧
      decodeText Expression.ofJson tenth.toJson.write = .ok tenth := by
  have hl := DoubleReader.lawful_nearest
  obtain ⟨-, -, -, -, hm, he, -⟩ := @stored_values_read_back .nearest hl
  have hc : decodeText (@Expression.memoryReferenceOfJson .nearest) clippedText = .ok clipped := rfl
  exact ⟨hl, hc, hm.read _ _ hc, he.written tenth _ rfl rfl (by decide), by decide +kernel⟩

end Disasm
