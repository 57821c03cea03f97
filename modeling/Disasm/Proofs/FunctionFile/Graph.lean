import Disasm.FunctionFile
import Disasm.Proofs.Attempt
import Disasm.Proofs.FlowGraph.Order

/-! # The graph of a function file

The graph has the blocks and the edges of the file in their order, and all its
statements are instructions. Its flow order takes each block of the file once, the
entry first.
-/

namespace Disasm

open Attempt
open scoped List

theorem Statement.instruction?_eq_some_iff {st : Statement} {i : Instruction} :
    st.instruction? = some i ↔ st = .instruction i := by
  cases st <;> simp [instruction?]

theorem Block.mem_instructions {b : Block} {i : Instruction} :
    i ∈ b.instructions ↔ .instruction i ∈ b.statements := by
  simp [instructions, Statement.instruction?_eq_some_iff]

theorem Block.statements_of_firstData? {b : Block} (h : b.firstData? = none) :
    ∀ st ∈ b.statements, ∃ i, st = .instruction i := by
  intro st hst
  simp only [firstData?, Option.map_eq_none_iff, List.find?_eq_none] at h
  cases st with
  | instruction i => exact ⟨i, rfl⟩
  | data a bytes => exact absurd rfl (h _ hst)

namespace FunctionFile

/-- A graph with the blocks, the edges and the entry of a file that holds only instructions. -/
structure Describes (f : FunctionFile) (g : FlowGraph) : Prop where
  entry : g.entry = f.entry
  blocks : g.blocks.toList = f.blocks
  edges : g.edges.toList = f.edges
  instructions : ∀ b ∈ f.blocks, ∀ st ∈ b.statements, ∃ i, st = .instruction i
  contains_entry : f.blocks ≠ [] → g.contains f.entry

variable {f : FunctionFile} {g g' : FlowGraph} {bs : List Block} {es : List Edge}

theorem of_addBlocks_eq_ok (h : addBlocks g bs = .ok g') :
    g'.entry = g.entry ∧ g'.blocks.toList = g.blocks.toList ++ bs ∧ g'.edges = g.edges ∧
      ∀ b ∈ bs, ∀ st ∈ b.statements, ∃ i, st = .instruction i := by
  induction bs generalizing g with
  | nil =>
    cases h
    simp
  | cons b bs ih =>
    unfold addBlocks at h
    split at h
    · cases h
    · next hc =>
      split at h
      · cases h
      · next hd =>
        obtain ⟨hentry, hblocks, hedges, hi⟩ := ih h
        rw [FlowGraph.toList_blocks_addBlock (Bool.eq_false_iff.mpr hc)] at hblocks
        refine ⟨by simpa using hentry, by simpa using hblocks, by simpa using hedges, ?_⟩
        exact List.forall_mem_cons.mpr ⟨Block.statements_of_firstData? hd, hi⟩

theorem of_addEdges_eq_ok (h : addEdges g es = .ok g') :
    g'.entry = g.entry ∧ g'.blocks = g.blocks ∧ g'.edges.toList = g.edges.toList ++ es := by
  induction es generalizing g with
  | nil =>
    cases h
    simp
  | cons e es ih =>
    unfold addEdges at h
    split at h
    · next g₁ he =>
      obtain ⟨-, -, hentry₁, hblocks₁, hedges₁⟩ := FlowGraph.of_addEdge_eq_ok he
      obtain ⟨hentry, hblocks, hedges⟩ := ih h
      exact ⟨hentry.trans hentry₁, hblocks.trans hblocks₁, by simp [hedges, hedges₁]⟩
    · cases h

theorem describes_of_graph (h : f.graph = .ok g) : f.Describes g := by
  obtain ⟨g₁, hb, h⟩ := bind_eq_ok_iff.mp h
  split at h
  · cases h
  · next hc =>
    obtain ⟨hentry₁, hblocks₁, hedges₁, hi⟩ := of_addBlocks_eq_ok hb
    obtain ⟨hentry, hblocks, hedges⟩ := of_addEdges_eq_ok h
    refine ⟨hentry.trans hentry₁, ?_, ?_, hi, fun hn => ?_⟩
    · rw [hblocks, hblocks₁]
      rfl
    · rw [hedges, hedges₁]
      rfl
    · have hc₁ : g₁.contains f.entry := by simpa [hn] using hc
      rwa [FlowGraph.contains, hblocks]

theorem Describes.flowOrder_perm (h : f.Describes g) : g.flowOrder ~ f.blocks :=
  h.blocks ▸ g.flowOrder_perm

theorem Describes.flowOrder_of_entry (h : f.Describes g) (hn : f.blocks ≠ []) :
    ∃ first rest, g.flowOrder = first :: rest ∧ first.id = f.entry := by
  have he : g.contains g.entry := h.entry ▸ h.contains_entry hn
  exact h.entry ▸ g.flowOrder_of_entry he

theorem mem_instructions {i : Instruction} :
    i ∈ f.instructions ↔ ∃ b ∈ f.blocks, .instruction i ∈ b.statements := by
  simp [instructions, Block.mem_instructions]

end FunctionFile

end Disasm
