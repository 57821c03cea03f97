import Disasm.Proofs.FunctionFile.Graph
import Disasm.Proofs.Listing.Lines

/-! # The listing of a function file

The listing shows each block of the file once, the entry first. It never meets data,
and it succeeds if all x86 instructions of the file have a line.
-/

namespace Disasm.FunctionFile

open Attempt
open scoped List

variable {f : FunctionFile} {g : FlowGraph} {labels : Labels} {o : ListingOptions}

theorem Describes.outcome_ne_data (h : f.Describes g) (id : BlockId) (a : Address) :
    outcome (Listing.ofBlocks labels o g.flowOrder) ≠ .error (.data id a) := by
  intro hd
  rw [← failure?_eq_some_iff, Listing.failure?_ofBlocks] at hd
  obtain ⟨b, hb, hf⟩ := List.exists_of_findSome?_eq_some hd
  obtain ⟨st, hst, hf⟩ := List.exists_of_findSome?_eq_some hf
  obtain ⟨i, rfl⟩ := h.instructions b (h.flowOrder_perm.mem_iff.mp hb) st hst
  simp [Statement.fault?] at hf

theorem Describes.exists_pages_iff (h : f.Describes g) :
    (∃ pages, List.Forall₂ (Block.HasLines labels o) g.flowOrder pages) ↔
      ∀ i ∈ f.instructions, i.isX86 →
        ∃ line, outcome (i.line (.standard labels o.maxBytes)) = .ok line := by
  have hp : (∃ pages, List.Forall₂ (Block.HasLines labels o) g.flowOrder pages) ↔
      ∃ text, outcome (Listing.ofBlocks labels o g.flowOrder) = .ok text := by
    simp [Listing.outcome_ofBlocks_eq_ok_iff]
  rw [hp, ← failure?_eq_none_iff, Listing.failure?_ofBlocks, List.findSome?_eq_none_iff]
  constructor
  · intro hf i hi
    obtain ⟨b, hb, hst⟩ := mem_instructions.mp hi
    have hb := hf b (h.flowOrder_perm.mem_iff.mpr hb)
    have hs := List.findSome?_eq_none_iff.mp hb _ hst
    exact Instruction.rejection?_eq_none_iff.mp (Option.map_eq_none_iff.mp hs)
  · intro hi b hb
    have hb := h.flowOrder_perm.mem_iff.mp hb
    refine List.findSome?_eq_none_iff.mpr fun st hst => ?_
    obtain ⟨i, rfl⟩ := h.instructions b hb st hst
    have hl := hi i (mem_instructions.mpr ⟨b, hb, hst⟩)
    exact Option.map_eq_none_iff.mpr (Instruction.rejection?_eq_none_iff.mpr hl)

/-- A listing is made of the lines of each block of the file, taken once, with the entry first.
The lines of a block are its own: labels and options given, the block alone decides on them. -/
theorem listing_shows_each_block_once (f : FunctionFile) (labels : Labels) (o : ListingOptions)
    (g : FlowGraph) (text : String) (hg : f.graph = .ok g)
    (ht : outcome (Listing.ofBlocks labels o g.flowOrder) = .ok text) :
    (∃ order pages, order ~ f.blocks ∧
      (f.blocks ≠ [] → ∃ first rest, order = first :: rest ∧ first.id = f.entry) ∧
      List.Forall₂ (Block.HasLines labels o) order pages ∧ text = unlines pages.flatten) ∧
    ∀ b ∈ f.blocks, ∃! lines, b.HasLines labels o lines := by
  have hd : f.Describes g := describes_of_graph hg
  obtain ⟨pages, hp, rfl⟩ := Listing.outcome_ofBlocks_eq_ok_iff.mp ht
  refine ⟨⟨g.flowOrder, pages, hd.flowOrder_perm, hd.flowOrder_of_entry, hp, rfl⟩, ?_⟩
  intro b hb
  have hf : b.fault? (.standard labels) = none :=
    Listing.sound_of_outcome_ofBlocks ht b (hd.flowOrder_perm.mem_iff.mpr hb)
  obtain ⟨lines, hl, -⟩ := Listing.appendBlock_of_sound "" hf
  exact ⟨lines, hl, fun lines' hl' => hl'.unique hl⟩

def table : Block := { id := ⟨1⟩, start := 0x1004, staticData := true }

/-- Three blocks of a function whose entry stands last in the file. -/
def tangled : FunctionFile where
  entry := ⟨7⟩
  blocks := [
    table,
    { id := ⟨2⟩, start := 0x1002, reasons := [.jumpTarget, .fallthrough],
      statements := [
        .instruction ⟨0x1002, .x86, "dec", [.register (.gpr32 1)], [0x49]⟩,
        .instruction ⟨0x1003, .arm64, "neg", [.negate (.integer (.ofNat .w8 1))], []⟩] },
    { id := ⟨7⟩, start := 0x1000, reasons := [.entryPoint],
      statements := [.instruction ⟨0x1000, .x86, "call", [.integer (.ofNat .w32 0x1002)],
        [0xe8, 0, 0, 0, 0]⟩] }]
  edges := [(⟨7⟩, ⟨2⟩), (⟨2⟩, ⟨2⟩), (⟨2⟩, ⟨7⟩)]

def tangledGraph : FlowGraph where
  entry := ⟨7⟩
  blocks := tangled.blocks.toArray
  edges := tangled.edges.toArray
  distinct := by decide
  closed := by decide

def tangledLabels : Labels := .ofList [(0x1002, "inner")]

def fullOptions : ListingOptions := ⟨2, true, true⟩

def tangledText : String :=
  "; block reason: entry point\n1000: call      inner ; BYTES: E800+\n\n" ++
  "; block reason: jump target, fallthrough\n1002: dec       ecx ; BYTES: 49\n" ++
  "0x00001003 neg -0x1 ; BYTES: \n\n" ++
  "; block reason: none\n; hey, this block is static data!\n\n"

theorem tangled_shows_each_block_once :
    (tangled.graph = .ok tangledGraph ∧
      outcome (Listing.ofBlocks tangledLabels fullOptions tangledGraph.flowOrder) =
        .ok tangledText ∧ tangled.blocks ≠ [] ∧ table ∈ tangled.blocks) ∧
    (∃ order pages, order ~ tangled.blocks ∧
      (∃ first rest, order = first :: rest ∧ first.id = ⟨7⟩) ∧
      List.Forall₂ (Block.HasLines tangledLabels fullOptions) order pages ∧
      tangledText = unlines pages.flatten) ∧
    ∃! lines, table.HasLines tangledLabels fullOptions lines := by
  have hg : tangled.graph = .ok tangledGraph := by with_unfolding_all rfl
  have ht : outcome (Listing.ofBlocks tangledLabels fullOptions tangledGraph.flowOrder) =
    .ok tangledText := by decide +kernel
  have hn : tangled.blocks ≠ [] := by decide
  have hm : table ∈ tangled.blocks := by decide
  obtain ⟨⟨order, pages, ho, he, hp, htext⟩, hl⟩ :=
    listing_shows_each_block_once tangled tangledLabels fullOptions tangledGraph tangledText hg ht
  exact ⟨⟨hg, ht, hn, hm⟩, ⟨order, pages, ho, he hn, hp, htext⟩, hl table hm⟩

end Disasm.FunctionFile
