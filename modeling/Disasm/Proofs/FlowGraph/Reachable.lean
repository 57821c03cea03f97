import Disasm.Proofs.FlowGraph.History

/-! # What the entry reaches

The order starts with the blocks that the entry reaches. Their order depends on the
entry and on their own successors alone: not on the order of addition, and not on
other blocks and edges.
-/

namespace Disasm.FlowGraph

open DepthFirst
open scoped List

variable {g : FlowGraph}

/-- The group of the entry holds what the entry reaches, and the order starts with it. -/
theorem sweep_of_entry (he : g.contains g.entry) : ∃ others,
    Sweep g.successors [g.entry] (g.successors g.entry) others ∧
      g.entry :: others <+: g.reversePostOrder ∧
      ∀ a, a ∈ g.entry :: others ↔ g.Reaches g.entry a := by
  obtain ⟨others, rest, hg, hs, -⟩ := groups_of_entry he
  refine ⟨others, hs, ?_, fun a => ?_⟩
  · rw [reversePostOrder, hg, List.flatten_cons]
    exact List.prefix_append _ _
  · rw [Sweep.mem_group_iff List.not_mem_nil hs (by simp [Closed])]
    exact and_iff_right List.not_mem_nil

/-- Two graphs with the same entry, in which the blocks that the entry reaches have the same
successors, list the same blocks first, in the same order. -/
theorem reachable_part_determined (g h : FlowGraph) (hentry : g.entry = h.entry)
    (hg : g.contains g.entry) (hh : h.contains h.entry)
    (hs : ∀ a, g.Reaches g.entry a → g.successors a = h.successors a) :
    ∃ part, part <+: g.reversePostOrder ∧ part <+: h.reversePostOrder ∧
      (∀ a, a ∈ part ↔ g.Reaches g.entry a) ∧ ∀ a, a ∈ part ↔ h.Reaches h.entry a := by
  obtain ⟨others, hsg, hpg, hmg⟩ := sweep_of_entry hg
  obtain ⟨others', hsh, hph, hmh⟩ := sweep_of_entry hh
  have hfirst : g.successors g.entry = h.successors h.entry := by
    rw [← hentry]
    exact hs g.entry .refl
  -- The sweep of the first graph is one of the second, which has no other.
  have hsg' : Sweep h.successors [h.entry] (h.successors h.entry) others := by
    rw [← hfirst, ← hentry]
    apply hsg.congr
    intro v hv a ha
    exact hs a (.head hv ha)
  obtain rfl : others = others' := hsg'.unique hsh
  rw [← hentry] at hph hmh
  refine ⟨g.entry :: others, hpg, hph, hmg, ?_⟩
  rw [← hentry]
  exact hmh

def branched : FlowGraph := build ⟨0⟩
  [.block { id := ⟨0⟩, start := 0 }, .block { id := ⟨1⟩, start := 16 },
    .block { id := ⟨2⟩, start := 32 }, .block { id := ⟨3⟩, start := 48 },
    .block { id := ⟨4⟩, start := 64 }, .edge ⟨0⟩ ⟨1⟩, .edge ⟨0⟩ ⟨2⟩, .edge ⟨1⟩ ⟨3⟩,
    .edge ⟨2⟩ ⟨3⟩, .edge ⟨3⟩ ⟨0⟩, .edge ⟨4⟩ ⟨1⟩]

/-- The same loop added in another order, with a replaced block and another one outside. -/
def branchedAgain : FlowGraph := build ⟨0⟩
  [.block { id := ⟨3⟩, start := 48 }, .block { id := ⟨2⟩, start := 32 },
    .block { id := ⟨9⟩, start := 144 }, .edge ⟨9⟩ ⟨3⟩, .edge ⟨2⟩ ⟨3⟩,
    .block { id := ⟨1⟩, start := 16 }, .block { id := ⟨0⟩, start := 1 }, .edge ⟨3⟩ ⟨0⟩,
    .edge ⟨1⟩ ⟨3⟩, .edge ⟨0⟩ ⟨1⟩, .block { id := ⟨0⟩, start := 0 }, .edge ⟨0⟩ ⟨2⟩]

def branchedLoop : List BlockId := [⟨0⟩, ⟨1⟩, ⟨2⟩, ⟨3⟩]

theorem branched_part_determined :
    (branched.entry = branchedAgain.entry ∧ branched.contains branched.entry ∧
      branchedAgain.contains branchedAgain.entry ∧
      ∀ a, branched.Reaches branched.entry a → branched.successors a = branchedAgain.successors a) ∧
    branched.ids ≠ branchedAgain.ids ∧
    ∃ part, part <+: branched.reversePostOrder ∧ part <+: branchedAgain.reversePostOrder ∧
      (∀ a, a ∈ part ↔ branched.Reaches branched.entry a) ∧
      ∀ a, a ∈ part ↔ branchedAgain.Reaches branchedAgain.entry a := by
  have hentry : branched.entry = branchedAgain.entry := by decide +kernel
  have hg : branched.contains branched.entry := by decide +kernel
  have hh : branchedAgain.contains branchedAgain.entry := by decide +kernel
  have hout : ∀ a ∈ branchedLoop, ∀ b ∈ branched.successors a, b ∈ branchedLoop := by
    decide +kernel
  have heq : ∀ a ∈ branchedLoop, branched.successors a = branchedAgain.successors a := by
    decide +kernel
  have hs : ∀ a, branched.Reaches branched.entry a →
      branched.successors a = branchedAgain.successors a := by
    intro a ha
    have hc : Closed branched.successors branchedLoop := hout
    exact heq a (hc.mem_of_reaches (by decide +kernel) ha)
  exact ⟨⟨hentry, hg, hh, hs⟩, by decide +kernel,
    reachable_part_determined branched branchedAgain hentry hg hh hs⟩

end Disasm.FlowGraph
