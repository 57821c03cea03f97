import Disasm.Proofs.Program

/-! # The place of an instruction in the listing

The line of one instruction stands in the listing of its file where that instruction
stands: behind the lines of the blocks that flow before its block, the lines above the
statements of its block, and the lines of the statements before it.
-/

namespace Disasm

open Attempt
open scoped List

variable {labels : Labels} {o : ListingOptions} {f : FunctionFile} {g : FlowGraph} {a : Address}
  {i : Instruction} {b : Block} {sts : List Statement}

/-! ## Files -/

/-- The first instruction at an address in a file is the one in this block behind these
statements. -/
structure FunctionFile.FirstPlace (f : FunctionFile) (a : Address) (i : Instruction) (b : Block)
    (sts : List Statement) : Prop where
  address : i.address = a
  statements : ∃ rest, b.statements = sts ++ .instruction i :: rest
  blocks : ∃ pre post, f.blocks = pre ++ b :: post ∧
    ∀ j, .instruction j ∈ pre.flatMap Block.statements ++ sts → j.address ≠ a

theorem FunctionFile.FirstAt.exists_place (h : f.FirstAt a i) : ∃ b sts, f.FirstPlace a i b sts := by
  rw [← instructionAt?_eq_some_iff, instructionAt?, instructions, List.find?_flatMap] at h
  obtain ⟨pre, b, post, hf, hb, hpre⟩ := List.findSome?_eq_some_iff.mp h
  rw [Block.instructions, List.find?_filterMap] at hb
  obtain ⟨st, hst, hi⟩ := Option.bind_eq_some_iff.mp hb
  obtain ⟨ha, sts, rest, hs, hsts⟩ := List.find?_eq_some_iff_append.mp hst
  obtain rfl := Statement.instruction?_eq_some_iff.mp hi
  refine ⟨b, sts, by simpa [Statement.instruction?] using ha, ⟨rest, hs⟩, pre, post, hf, ?_⟩
  intro j hj
  rcases List.mem_append.mp hj with hj | hj
  · obtain ⟨c, hc, hj⟩ := List.mem_flatMap.mp hj
    have hn := List.find?_eq_none.mp (hpre c hc) j (Block.mem_instructions.mpr hj)
    simpa using hn
  · simpa [Statement.instruction?] using hsts _ hj

/-! ## Lines -/

theorem forall₂_append_cons {α β : Type} {R : α → β → Prop} {l₁ l₂ : List α} {x : α} {m : List β}
    (h : List.Forall₂ R (l₁ ++ x :: l₂) m) :
    ∃ m₁ y m₂, m = m₁ ++ y :: m₂ ∧ List.Forall₂ R l₁ m₁ ∧ R x y ∧ List.Forall₂ R l₂ m₂ := by
  induction l₁ generalizing m with
  | nil =>
    obtain ⟨y, m₂, hy, hm, rfl⟩ := List.forall₂_cons_left_iff.mp h
    exact ⟨[], y, m₂, rfl, .nil, hy, hm⟩
  | cons z l₁ ih =>
    obtain ⟨w, m', hw, hm, rfl⟩ := List.forall₂_cons_left_iff.mp h
    obtain ⟨m₁, y, m₂, rfl, h₁, hy, h₂⟩ := ih hm
    exact ⟨w :: m₁, y, m₂, rfl, .cons hw h₁, hy, h₂⟩

theorem unlines_eq_empty_or_ends (lines : List String) :
    unlines lines = "" ∨ ∃ t, unlines lines = t ++ "\n" := by
  cases lines using List.reverseRecOn with
  | nil => exact .inl rfl
  | append_singleton lines line => exact .inr ⟨unlines lines ++ line, by simp [String.append_assoc]⟩

/-- The text of a listing in front of a statement: the lines of the blocks before, the lines
above the statements of its own block, and those of the statements before it. -/
def Listing.Front (labels : Labels) (o : ListingOptions) (before : List Block) (b : Block)
    (sts : List Statement) (front : String) : Prop :=
  ∃ pages body, List.Forall₂ (Block.HasLines labels o) before pages ∧
    List.Forall₂ (Statement.HasLine (.standard labels o.maxBytes)) sts body ∧
    front = unlines (pages.flatten ++ b.headLines o ++ body)

theorem Listing.Front.begins_line {before : List Block} {front : String}
    (h : Front labels o before b sts front) : front = "" ∨ ∃ t, front = t ++ "\n" := by
  obtain ⟨pages, body, -, -, rfl⟩ := h
  exact unlines_eq_empty_or_ends _

theorem Listing.line_of_outcome_ofBlocks {before after : List Block} {rest : List Statement}
    {text : String} (h : outcome (ofBlocks labels o (before ++ b :: after)) = .ok text)
    (hb : b.statements = sts ++ .instruction i :: rest) :
    ∃ front line back, Front labels o before b sts front ∧
      outcome (i.line (.standard labels o.maxBytes)) = .ok line ∧
      text = front ++ line ++ "\n" ++ back := by
  obtain ⟨pages, hp, rfl⟩ := outcome_ofBlocks_eq_ok_iff.mp h
  obtain ⟨pages₁, page, pages₂, rfl, hp₁, ⟨body, hbody, rfl⟩, -⟩ := forall₂_append_cons hp
  rw [hb] at hbody
  obtain ⟨body₁, line, body₂, rfl, hb₁, ⟨hl⟩, -⟩ := forall₂_append_cons hbody
  refine ⟨_, line, unlines (body₂ ++ Block.footLines o ++ pages₂.flatten),
    ⟨pages₁, body₁, hp₁, hb₁, rfl⟩, hl, ?_⟩
  simp [String.append_assoc]

/-- In a file that has a listing, an address leads to an instruction exactly if one of the
listed blocks holds one there. It leads to the first such instruction of the file, whose line is
the one that stands at its place in the listing. -/
theorem FunctionFile.line_stands_in_listing (f : FunctionFile) (labels : Labels)
    (o : ListingOptions) (g : FlowGraph) (text : String) (hg : f.graph = .ok g)
    (ht : outcome (Listing.ofBlocks labels o g.flowOrder) = .ok text) (a : Address) :
    ((∃ i, f.instructionAt? a = some i) ↔
      ∃ b ∈ g.flowOrder, ∃ i, .instruction i ∈ b.statements ∧ i.address = a) ∧
    ∀ i, f.instructionAt? a = some i →
      ∃ line b sts before after front back, f.FirstPlace a i b sts ∧
        g.flowOrder = before ++ b :: after ∧
        outcome (i.line (.standard labels o.maxBytes)) = .ok line ∧
        f.lineAt labels o.maxBytes a = .ok (line ++ "\n") ∧
        Listing.Front labels o before b sts front ∧
        (front = "" ∨ ∃ t, front = t ++ "\n") ∧ text = front ++ line ++ "\n" ++ back := by
  have hd : f.Describes g := describes_of_graph hg
  constructor
  · simp only [instructionAt?, Option.isSome_iff_exists.symm, List.find?_isSome, mem_instructions,
      hd.flowOrder_perm.mem_iff, beq_iff_eq]
    constructor
    · rintro ⟨i, ⟨b, hb, hi⟩, ha⟩
      exact ⟨b, hb, i, hi, ha⟩
    · rintro ⟨b, hb, i, hi, ha⟩
      exact ⟨i, ⟨b, hb, hi⟩, ha⟩
  · intro i hi
    have hf : f.FirstAt a i := instructionAt?_eq_some_iff.mp hi
    obtain ⟨b, sts, hp⟩ := hf.exists_place
    obtain ⟨rest, hs⟩ := hp.statements
    obtain ⟨pre, post, hb, -⟩ := hp.blocks
    have hm : b ∈ g.flowOrder := hd.flowOrder_perm.mem_iff.mpr (by simp [hb])
    obtain ⟨before, after, ho⟩ := List.append_of_mem hm
    obtain ⟨front, line, back, hfront, hl, htext⟩ :=
      Listing.line_of_outcome_ofBlocks (ho ▸ ht) hs
    exact ⟨line, b, sts, before, after, front, back, hp, ho, hl,
      lineAt_eq_ok_iff.mpr ⟨i, line, hf, hl, rfl⟩, hfront, hfront.begins_line, htext⟩

/-- Two instructions at one address, the first of the file in the block that flows last. -/
def overlapping : FunctionFile where
  entry := ⟨1⟩
  blocks := [
    { id := ⟨0⟩, start := 0xf, reasons := [.leftover],
      statements := [
        .instruction ⟨0xf, .x86, "push", [.register (.gpr32 0)], [0x50]⟩,
        .instruction ⟨0x10, .arm64, "nop", [], [0x1f, 0x20, 0x03, 0xd5]⟩] },
    { id := ⟨1⟩, start := 0x10, reasons := [.entryPoint],
      statements := [.instruction ⟨0x10, .x86, "ret", [], [0xc3]⟩] }]
  edges := [(⟨0⟩, ⟨1⟩)]

def overlappingGraph : FlowGraph where
  entry := ⟨1⟩
  blocks := overlapping.blocks.toArray
  edges := overlapping.edges.toArray
  distinct := by decide
  closed := by decide

def overlappingText : String :=
  "; block reason: entry point\n10: ret        ; BYTES: C3\n\n" ++
  "; block reason: leftover\nF: push      eax ; BYTES: 50\n" ++
  "0x00000010 nop ; BYTES: 1F20+\n\n"

theorem overlapping_line_stands_in_listing :
    (overlapping.graph = .ok overlappingGraph ∧
      outcome (Listing.ofBlocks .empty ⟨2, true, true⟩ overlappingGraph.flowOrder) =
        .ok overlappingText ∧
      overlapping.instructionAt? 0x10 =
        some ⟨0x10, .arm64, "nop", [], [0x1f, 0x20, 0x03, 0xd5]⟩) ∧
    (∃ b ∈ overlappingGraph.flowOrder, ∃ i, .instruction i ∈ b.statements ∧ i.address = 0x10) ∧
    ∃ line b sts before after front back,
      overlapping.FirstPlace 0x10 ⟨0x10, .arm64, "nop", [], [0x1f, 0x20, 0x03, 0xd5]⟩ b sts ∧
      overlappingGraph.flowOrder = before ++ b :: after ∧
      overlapping.lineAt .empty 2 0x10 = .ok (line ++ "\n") ∧
      Listing.Front .empty ⟨2, true, true⟩ before b sts front ∧
      overlappingText = front ++ line ++ "\n" ++ back := by
  have hg : overlapping.graph = .ok overlappingGraph := by with_unfolding_all rfl
  have ht : outcome (Listing.ofBlocks .empty ⟨2, true, true⟩ overlappingGraph.flowOrder) =
    .ok overlappingText := by decide +kernel
  have hi : overlapping.instructionAt? 0x10 =
    some ⟨0x10, .arm64, "nop", [], [0x1f, 0x20, 0x03, 0xd5]⟩ := by decide +kernel
  obtain ⟨he, hl⟩ :=
    FunctionFile.line_stands_in_listing overlapping .empty _ overlappingGraph _ hg ht 0x10
  obtain ⟨line, b, sts, before, after, front, back, hp, ho, -, hline, hf, -, htext⟩ := hl _ hi
  exact ⟨⟨hg, ht, hi⟩, he.mp ⟨_, hi⟩, line, b, sts, before, after, front, back, hp, ho, hline, hf,
    htext⟩

end Disasm
