import Disasm.Proofs.FunctionFile.Graph
import Disasm.Proofs.FlowGraph.History

/-! # Valid function files

A function file gives a graph exactly if it is valid. An invalid one is rejected for
the first thing wrong with it: first its blocks are looked at, then its entry, then
its edges.
-/

namespace Disasm

open Attempt

def Block.dataAddresses (b : Block) : List Address :=
  b.statements.filterMap fun
    | .instruction _ => none
    | .data a _ => some a

theorem Block.firstData?_eq_head? (b : Block) : b.firstData? = b.dataAddresses.head? := by
  unfold firstData? dataAddresses
  induction b.statements with
  | nil => rfl
  | cons st sts ih =>
    cases st with
    | instruction i => simpa [Statement.instruction?] using ih
    | data a bytes => simp [Statement.instruction?, Statement.address]

theorem Block.dataAddresses_eq_nil_iff {b : Block} :
    b.dataAddresses = [] ↔ ∀ a bytes, .data a bytes ∉ b.statements := by
  rw [dataAddresses, List.filterMap_eq_nil_iff]
  constructor
  · intro h a bytes hm
    cases h _ hm
  · intro h st hst
    cases st with
    | instruction i => rfl
    | data a bytes => exact absurd hst (h a bytes)

namespace FunctionFile

def ids (f : FunctionFile) : List BlockId := f.blocks.map Block.id

/-- A file with distinct block numbers and without data, whose entry and edges name blocks. -/
structure Valid (f : FunctionFile) : Prop where
  distinct : f.ids.Nodup
  decoded : ∀ b ∈ f.blocks, ∀ a bytes, .data a bytes ∉ b.statements
  entry : f.blocks = [] ∨ f.entry ∈ f.ids
  edges : ∀ e ∈ f.edges, e.1 ∈ f.ids ∧ e.2 ∈ f.ids

/-- All that is wrong with blocks that stand after others. -/
def blockViolations (earlier : List BlockId) : List Block → List GraphError
  | [] => []
  | b :: bs =>
    (if b.id ∈ earlier then [.duplicateBlock b.id] else []) ++
      b.dataAddresses.map (.undecodedData b.id) ++ blockViolations (earlier ++ [b.id]) bs

def entryViolations (f : FunctionFile) : List GraphError :=
  if f.blocks = [] ∨ f.entry ∈ f.ids then [] else [.missingEntry f.entry]

def edgeViolations (ids : List BlockId) (e : Edge) : List GraphError :=
  ([e.1, e.2].filter fun id => id ∉ ids).map fun id => .badEdge e ⟨id⟩

/-- All that is wrong with a file, in the order of the file. -/
def violations (f : FunctionFile) : List GraphError :=
  blockViolations [] f.blocks ++ f.entryViolations ++ f.edges.flatMap (edgeViolations f.ids)

variable {f : FunctionFile} {g : FlowGraph} {e : GraphError} {earlier ids : List BlockId}

theorem blockViolations_eq_nil_iff {bs : List Block} (hn : earlier.Nodup) :
    blockViolations earlier bs = [] ↔
      (earlier ++ bs.map Block.id).Nodup ∧ ∀ b ∈ bs, b.dataAddresses = [] := by
  induction bs generalizing earlier with
  | nil => simp [blockViolations, hn]
  | cons b bs ih =>
    by_cases hb : b.id ∈ earlier
    · have hd : ¬ (earlier ++ b.id :: bs.map Block.id).Nodup := fun h =>
        (List.nodup_append.mp h).2.2 _ hb _ List.mem_cons_self rfl
      simp [blockViolations, hb, hd]
    · have hn' : (earlier ++ [b.id]).Nodup := by
        rw [← List.concat_eq_append]
        exact hn.concat hb
      simp only [blockViolations, if_neg hb, List.nil_append, List.append_eq_nil_iff,
        List.map_eq_nil_iff, ih hn', List.map_cons, List.forall_mem_cons, List.append_assoc,
        List.singleton_append]
      exact and_left_comm

theorem edgeViolations_eq_nil_iff {e : Edge} :
    edgeViolations ids e = [] ↔ e.1 ∈ ids ∧ e.2 ∈ ids := by simp [edgeViolations]

theorem violations_eq_nil_iff : f.violations = [] ↔ f.Valid := by
  have hentry : f.entryViolations = [] ↔ f.blocks = [] ∨ f.entry ∈ f.ids := by
    rw [entryViolations, ite_eq_left_iff, imp_iff_not_or, not_not]
    simp
  have hedges : f.edges.flatMap (edgeViolations f.ids) = [] ↔
      ∀ e ∈ f.edges, e.1 ∈ f.ids ∧ e.2 ∈ f.ids := by
    simp only [List.flatMap_eq_nil_iff, edgeViolations_eq_nil_iff]
  rw [violations, List.append_eq_nil_iff, List.append_eq_nil_iff, hentry, hedges,
    blockViolations_eq_nil_iff List.nodup_nil]
  simp only [List.nil_append, Block.dataAddresses_eq_nil_iff]
  constructor
  · rintro ⟨⟨⟨hd, hi⟩, he⟩, hes⟩
    exact ⟨hd, hi, he, hes⟩
  · rintro ⟨hd, hi, he, hes⟩
    exact ⟨⟨⟨hd, hi⟩, he⟩, hes⟩

theorem addBlocks_eq_error_iff {bs : List Block} :
    addBlocks g bs = .error e ↔ (blockViolations g.ids bs).head? = some e := by
  induction bs generalizing g with
  | nil => simp [addBlocks, blockViolations]
  | cons b bs ih =>
    rw [addBlocks, blockViolations, Block.firstData?_eq_head?]
    by_cases hb : b.id ∈ g.ids
    · simp [FlowGraph.contains_iff, hb]
    · cases hd : b.dataAddresses with
      | nil =>
        have hi : (g.addBlock b).ids = g.ids ++ [b.id] := by
          rw [FlowGraph.ids_addBlock, if_neg hb]
        simp [FlowGraph.contains_iff, hb, ih, hi]
      | cons a as => simp [FlowGraph.contains_iff, hb]

theorem addEdges_eq_error_iff {es : List Edge} :
    addEdges g es = .error e ↔ (es.flatMap (edgeViolations g.ids)).head? = some e := by
  induction es generalizing g with
  | nil => simp [addEdges]
  | cons x es ih =>
    rw [addEdges, List.flatMap_cons]
    by_cases hx : x.1 ∈ g.ids ∧ x.2 ∈ g.ids
    · -- The new edge leaves the numbers as they are, so the other edges meet the same ones.
      obtain ⟨g', ha, -, hb, -⟩ := FlowGraph.addEdge_of_mem hx.1 hx.2
      have hi : g'.ids = g.ids := FlowGraph.ids_of_blocks_eq hb
      rw [ha, edgeViolations_eq_nil_iff.mpr hx, List.nil_append, ← hi]
      exact ih
    · rw [FlowGraph.addEdge_of_not_mem hx]
      by_cases h₁ : x.1 ∈ g.ids
      · have h₂ : x.2 ∉ g.ids := fun h₂ => hx ⟨h₁, h₂⟩
        simp [edgeViolations, h₁, h₂]
      · simp [edgeViolations, h₁]

theorem ids_of_addBlocks (h : addBlocks (.empty f.entry) f.blocks = .ok g) : g.ids = f.ids := by
  obtain ⟨-, hblocks, -⟩ := of_addBlocks_eq_ok h
  have hb : g.blocks.toList = f.blocks := hblocks
  rw [FlowGraph.ids, hb, ids]

theorem graph_eq_error_iff : f.graph = .error e ↔ f.violations.head? = some e := by
  rw [graph, violations, List.append_assoc, List.head?_append]
  cases hb : addBlocks (.empty f.entry) f.blocks with
  | error e' =>
    have hv : (blockViolations [] f.blocks).head? = some e' := addBlocks_eq_error_iff.mp hb
    simp [hv, bind, Except.bind]
  | ok g =>
    have hv : blockViolations [] f.blocks = [] :=
      (exists_ok_iff_of_head? fun _ => addBlocks_eq_error_iff).mp ⟨g, hb⟩
    have hc : (!f.blocks.isEmpty && !g.contains f.entry) = true ↔
        ¬ (f.blocks = [] ∨ f.entry ∈ f.ids) := by
      simp [← ids_of_addBlocks hb, ← FlowGraph.contains_iff]
    rw [hv, List.head?_nil, Option.none_or, entryViolations]
    show (if _ then _ else addEdges g f.edges) = _ ↔ _
    by_cases he : f.blocks = [] ∨ f.entry ∈ f.ids
    · rw [if_neg (mt hc.mp (not_not_intro he)), if_pos he, addEdges_eq_error_iff,
        ids_of_addBlocks hb, List.nil_append]
    · simp [hc.mpr he, if_neg he]

theorem graph_eq_ok_iff : (∃ g, f.graph = .ok g) ↔ f.Valid :=
  (exists_ok_iff_of_head? fun _ => graph_eq_error_iff).trans violations_eq_nil_iff

/-- A file gives a graph exactly if it is valid. The graph then has the blocks and the edges of
the file and nothing else; otherwise the error is the first violation. -/
theorem graph_of_valid_else_first_violation (f : FunctionFile) :
    ((∃ g, f.graph = .ok g) ↔ f.Valid) ∧
    (∀ g, f.graph = .ok g → g.entry = f.entry ∧ g.ids = f.ids ∧ g.size = f.blocks.length ∧
      (∀ b ∈ f.blocks, g.block? b.id = some b) ∧
      ∀ id, g.successors id = FlowGraph.targets f.edges id) ∧
    ∀ e, f.graph = .error e ↔ f.violations.head? = some e := by
  refine ⟨graph_eq_ok_iff, fun g hg => ?_, fun e => graph_eq_error_iff⟩
  have hd := describes_of_graph hg
  have hids : g.ids = f.ids := by rw [FlowGraph.ids, hd.blocks, ids]
  refine ⟨hd.entry, hids, ?_, ?_, ?_⟩
  · rw [FlowGraph.size, ← Array.length_toList, hd.blocks]
  · intro b hb
    exact FlowGraph.block?_of_mem (hd.blocks ▸ hb)
  · intro id
    rw [FlowGraph.successors_eq_targets, hd.edges]

def linked : FunctionFile where
  entry := ⟨1⟩
  blocks := [{ id := ⟨4⟩, start := 16 }, { id := ⟨1⟩, start := 0 }]
  edges := [(⟨1⟩, ⟨4⟩), (⟨4⟩, ⟨1⟩), (⟨1⟩, ⟨4⟩)]

/-- A file with two faults of one block, no entry and an edge without ends. -/
def faulty : FunctionFile where
  blocks := [{ id := ⟨4⟩, start := 16 },
    { id := ⟨4⟩, start := 32, statements := [.data 32 [0xcc], .data 33 []] }]
  edges := [(⟨4⟩, ⟨4⟩), (⟨9⟩, ⟨8⟩)]

theorem linked_valid_and_faulty_rejected :
    (linked.Valid ∧ ∃ g, linked.graph = .ok g ∧ g.ids = [⟨4⟩, ⟨1⟩] ∧
      g.successors ⟨1⟩ = [⟨4⟩, ⟨4⟩]) ∧
    faulty.violations = [.duplicateBlock ⟨4⟩, .undecodedData ⟨4⟩ 32, .undecodedData ⟨4⟩ 33,
      .missingEntry ⟨0⟩, .badEdge (⟨9⟩, ⟨8⟩) ⟨⟨9⟩⟩, .badEdge (⟨9⟩, ⟨8⟩) ⟨⟨8⟩⟩] ∧
    faulty.graph = .error (.duplicateBlock ⟨4⟩) := by
  have hl : linked.Valid := violations_eq_nil_iff.mp (by decide +kernel)
  have hf : faulty.violations = [.duplicateBlock ⟨4⟩, .undecodedData ⟨4⟩ 32,
      .undecodedData ⟨4⟩ 33, .missingEntry ⟨0⟩, .badEdge (⟨9⟩, ⟨8⟩) ⟨⟨9⟩⟩,
      .badEdge (⟨9⟩, ⟨8⟩) ⟨⟨8⟩⟩] := by decide +kernel
  obtain ⟨hiff, hok, -⟩ := graph_of_valid_else_first_violation linked
  obtain ⟨-, -, herr⟩ := graph_of_valid_else_first_violation faulty
  obtain ⟨g, hg⟩ := hiff.mpr hl
  obtain ⟨-, hids, -, -, hsucc⟩ := hok g hg
  refine ⟨⟨hl, g, hg, hids.trans (by decide), (hsucc ⟨1⟩).trans (by decide)⟩, hf, ?_⟩
  rw [herr, hf, List.head?_cons]

end FunctionFile

end Disasm
