import Disasm.Proofs.DepthFirst.Paths
import Disasm.Proofs.FlowGraph.Reachable

/-! # Paths and dominators in the order

Each block is listed behind its root on a path that leads to it through the order,
never backwards. So a block that is no root has a predecessor before it, and what
lies on all paths to a block stands before it.
-/

namespace Disasm.FlowGraph

open DepthFirst
open scoped List

variable {g : FlowGraph}

/-- A path that stands in a list of blocks puts all dominators of its end before it. -/
theorem dominator_sublist {list path : List BlockId} {a b u : BlockId}
    (hp : IsPath g.successors a b path) (hs : path <+ list)
    (hd : Dominates g.successors a u b) (hn : u ≠ b) : [u, b] <+ list :=
  (hp.pair_sublist (hd path hp) hn).trans hs

/-- What the entry reaches is reached along a path that stands in the order. -/
theorem exists_path_of_entry (he : g.contains g.entry) {b : BlockId}
    (hr : g.Reaches g.entry b) :
    ∃ path, IsPath g.successors g.entry b path ∧ path <+ g.reversePostOrder := by
  obtain ⟨others, hsweep, hprefix, hmem⟩ := sweep_of_entry he
  have hgroup : Sweep g.successors [] [g.entry] (g.entry :: others) :=
    Sweep.single List.not_mem_nil hsweep
  obtain ⟨u, hu, path, hp, hs⟩ := hgroup.exists_path b ((hmem b).mpr hr)
  rw [List.mem_singleton.mp hu] at hp
  exact ⟨path, hp, hs.trans hprefix.sublist⟩

/-- To each block that the entry reaches leads a path from the entry whose blocks stand in the
order as on the path, and so it is in every group, with its root. A block behind the root of its
group has a predecessor before it, and each block has its dominators before it. -/
theorem paths_ascend_in_reversePostOrder (g : FlowGraph) :
    (g.contains g.entry → ∀ b, g.Reaches g.entry b →
      (∃ path, IsPath g.successors g.entry b path ∧ path <+ g.reversePostOrder) ∧
      ∀ u, Dominates g.successors g.entry u b → u ≠ b → [u, b] <+ g.reversePostOrder) ∧
    (∀ group ∈ g.groups, group <:+: g.reversePostOrder ∧ ∃ root, group.head? = some root ∧
      ∀ b ∈ group,
        (∃ path, IsPath g.successors root b path ∧ path <+ group) ∧
        (b ≠ root → ∃ u, b ∈ g.successors u ∧ [u, b] <+ group) ∧
        ∀ u, Dominates g.successors root u b → u ≠ b → [u, b] <+ group) := by
  constructor
  · intro he b hr
    obtain ⟨path, hp, hs⟩ := exists_path_of_entry he hr
    exact ⟨⟨path, hp, hs⟩, fun u hd hn => dominator_sublist hp hs hd hn⟩
  · intro group hg
    refine ⟨List.infix_of_mem_flatten hg, ?_⟩
    obtain ⟨root, hroot, hpaths⟩ := g.forest_groups.exists_path group hg
    refine ⟨root, hroot, fun b hb => ?_⟩
    obtain ⟨path, hp, hs⟩ := hpaths b hb
    refine ⟨⟨path, hp, hs⟩, fun hn => ?_, fun u hd hn => dominator_sublist hp hs hd hn⟩
    obtain ⟨u, hub, hlast⟩ := hp.last_edge hn
    exact ⟨u, hub, hlast.sublist.trans hs⟩

/-- Two branches meet in a loop, into which another block leads. -/
def rejoined : FlowGraph := build ⟨0⟩
  [.block { id := ⟨5⟩, start := 80 }, .block { id := ⟨0⟩, start := 0 },
    .block { id := ⟨1⟩, start := 16 }, .block { id := ⟨2⟩, start := 32 },
    .block { id := ⟨3⟩, start := 48 }, .block { id := ⟨4⟩, start := 64 }, .edge ⟨0⟩ ⟨1⟩,
    .edge ⟨0⟩ ⟨2⟩, .edge ⟨1⟩ ⟨3⟩, .edge ⟨2⟩ ⟨3⟩, .edge ⟨3⟩ ⟨4⟩, .edge ⟨4⟩ ⟨1⟩, .edge ⟨5⟩ ⟨2⟩]

theorem rejoined_dominates : Dominates rejoined.successors rejoined.entry ⟨3⟩ ⟨4⟩ := by
  intro path hp
  obtain ⟨u, hu, hlast⟩ := hp.last_edge (by decide +kernel)
  have hedge : (u, ⟨4⟩) ∈ rejoined.edges.toList := mem_successors.mp hu
  have honly : ∀ e ∈ rejoined.edges.toList, e.2 = ⟨4⟩ → e.1 = ⟨3⟩ := by decide +kernel
  obtain rfl : u = ⟨3⟩ := honly _ hedge rfl
  exact hlast.subset List.mem_cons_self

theorem rejoined_paths_ascend :
    ((rejoined.contains rejoined.entry ∧ rejoined.Reaches rejoined.entry ⟨4⟩ ∧
        Dominates rejoined.successors rejoined.entry ⟨3⟩ ⟨4⟩) ∧
      (∃ path, IsPath rejoined.successors rejoined.entry ⟨4⟩ path ∧
        path <+ rejoined.reversePostOrder) ∧
      [⟨3⟩, ⟨4⟩] <+ rejoined.reversePostOrder) ∧
    ([⟨0⟩, ⟨2⟩, ⟨1⟩, ⟨3⟩, ⟨4⟩] ∈ rejoined.groups ∧
      ∃ u, ⟨1⟩ ∈ rejoined.successors u ∧ [u, ⟨1⟩] <+ [⟨0⟩, ⟨2⟩, ⟨1⟩, ⟨3⟩, ⟨4⟩]) := by
  obtain ⟨hentry, hgroups⟩ := paths_ascend_in_reversePostOrder rejoined
  have he : rejoined.contains rejoined.entry := by decide +kernel
  have h₀₁ : ⟨1⟩ ∈ rejoined.successors rejoined.entry := by decide +kernel
  have h₁₃ : ⟨3⟩ ∈ rejoined.successors ⟨1⟩ := by decide +kernel
  have h₃₄ : ⟨4⟩ ∈ rejoined.successors ⟨3⟩ := by decide +kernel
  have hr : rejoined.Reaches rejoined.entry ⟨4⟩ := .head h₀₁ (.head h₁₃ (.single h₃₄))
  have hg : [⟨0⟩, ⟨2⟩, ⟨1⟩, ⟨3⟩, ⟨4⟩] ∈ rejoined.groups := by decide +kernel
  obtain ⟨hpath, hdom⟩ := hentry he ⟨4⟩ hr
  obtain ⟨-, root, hroot, hblocks⟩ := hgroups _ hg
  cases hroot
  exact ⟨⟨⟨he, hr, rejoined_dominates⟩, hpath, hdom ⟨3⟩ rejoined_dominates (by decide)⟩,
    hg, (hblocks ⟨1⟩ (by decide)).2.1 (by decide)⟩

end Disasm.FlowGraph
