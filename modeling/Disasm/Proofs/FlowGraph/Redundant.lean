import Disasm.Proofs.FlowGraph.History

/-! # Redundant edges

An edge from a block to itself, or to a block that it already leads to, leaves the
order as it is. The order depends on the edges only through the other blocks that
each block leads to, in the order of the first edges to them.
-/

namespace Disasm.FlowGraph

open DepthFirst

variable {g g' h : FlowGraph} {a b : BlockId}

theorem successors_of_addEdge (hadd : g.addEdge a b = .ok g') (id : BlockId) :
    g'.successors id = if a = id then g.successors id ++ [b] else g.successors id := by
  obtain ⟨-, -, -, -, hedges⟩ := of_addEdge_eq_ok hadd
  rw [successors_eq_targets, successors_eq_targets, hedges, targets, targets, List.filter_append,
    List.map_append]
  split
  · next hid => simp [hid]
  · next hid => simp [hid]

/-- The other blocks that a block leads to, in the order of the first edges to them. -/
def essential (g : FlowGraph) : BlockId → List BlockId := DepthFirst.essential g.successors

theorem essential_of_addEdge (hadd : g.addEdge a b = .ok g') (hr : a = b ∨ b ∈ g.successors a) :
    g'.essential = g.essential := by
  funext id
  unfold essential DepthFirst.essential
  rw [successors_of_addEdge hadd]
  split
  · next hid =>
    subst hid
    rw [List.filter_append]
    rcases hr with rfl | hb
    · simp
    · by_cases hba : b = a
      · simp [hba]
      · have hm : b ∈ (g.successors a).filter (· ≠ a) := by simp [hb, hba]
        have hone : [b].filter (· ≠ a) = [b] := by simp [hba]
        rw [hone, eraseDups_concat, if_pos hm]
  · rfl

theorem groups_congr (hroots : g.roots = h.roots) (he : g.essential = h.essential) :
    g.groups = h.groups := by
  have hg : Forest g.essential [] g.roots g.groups := g.forest_groups.essential
  rw [hroots, he] at hg
  exact hg.unique h.forest_groups.essential

theorem roots_congr (hentry : g.entry = h.entry) (hids : g.ids = h.ids) : g.roots = h.roots := by
  unfold roots
  simp only [contains_iff, hentry, hids]

/-- An edge that joins a block to itself, or repeats another edge, changes neither the order nor
the blocks in it. Two graphs with the same entry and the same block numbers have the same order
if each block leads to the same other blocks in both, in the same order of first edges. -/
theorem redundant_edges_keep_order (g : FlowGraph) :
    (∀ a b g', g.addEdge a b = .ok g' → a = b ∨ b ∈ g.successors a →
      g'.reversePostOrder = g.reversePostOrder ∧ g'.flowOrder = g.flowOrder) ∧
    ∀ h : FlowGraph, g.entry = h.entry → g.ids = h.ids →
      (∀ a, g.essential a = h.essential a) → g.reversePostOrder = h.reversePostOrder := by
  constructor
  · intro a b g' hadd hr
    obtain ⟨-, -, hentry, hblocks, -⟩ := of_addEdge_eq_ok hadd
    have hgroups : g'.groups = g.groups :=
      groups_congr (roots_congr hentry (ids_of_blocks_eq hblocks)) (essential_of_addEdge hadd hr)
    have horder : g'.reversePostOrder = g.reversePostOrder := congrArg List.flatten hgroups
    refine ⟨horder, ?_⟩
    have hblock : g'.block? = g.block? := by
      funext id
      rw [block?, hblocks, block?]
    rw [flowOrder, horder, hblock, flowOrder]
  · intro h hentry hids he
    exact congrArg List.flatten (groups_congr (roots_congr hentry hids) (funext he))

def looping : List Addition :=
  [.block { id := ⟨0⟩, start := 0 }, .block { id := ⟨1⟩, start := 16 },
    .block { id := ⟨2⟩, start := 32 }, .block { id := ⟨3⟩, start := 48 }, .edge ⟨0⟩ ⟨1⟩,
    .edge ⟨0⟩ ⟨2⟩, .edge ⟨1⟩ ⟨3⟩, .edge ⟨2⟩ ⟨3⟩, .edge ⟨3⟩ ⟨0⟩]

/-- The same loop with repeated edges and with blocks that lead to themselves. -/
def loopingAgain : List Addition :=
  [.block { id := ⟨0⟩, start := 0 }, .block { id := ⟨1⟩, start := 16 },
    .block { id := ⟨2⟩, start := 32 }, .block { id := ⟨3⟩, start := 48 }, .edge ⟨3⟩ ⟨3⟩,
    .edge ⟨3⟩ ⟨0⟩, .edge ⟨2⟩ ⟨3⟩, .edge ⟨0⟩ ⟨1⟩, .edge ⟨0⟩ ⟨0⟩, .edge ⟨0⟩ ⟨2⟩, .edge ⟨0⟩ ⟨1⟩,
    .edge ⟨1⟩ ⟨3⟩, .edge ⟨3⟩ ⟨0⟩]

theorem essential_looping (a : BlockId) :
    (build ⟨0⟩ loopingAgain).essential a = (build ⟨0⟩ looping).essential a := by
  have hids : addedIds loopingAgain = addedIds looping := by decide
  by_cases ha : a ∈ addedIds looping
  · have hall : ∀ a ∈ addedIds looping,
        (build ⟨0⟩ loopingAgain).essential a = (build ⟨0⟩ looping).essential a := by
      decide +kernel
    exact hall a ha
  · unfold essential DepthFirst.essential
    rw [(records_build ⟨0⟩ looping).successors_of_not_mem ha,
      (records_build ⟨0⟩ loopingAgain).successors_of_not_mem (hids ▸ ha)]

theorem looping_edges_keep_order :
    (∃ g', (build ⟨0⟩ looping).addEdge ⟨0⟩ ⟨1⟩ = .ok g' ∧
      ⟨1⟩ ∈ (build ⟨0⟩ looping).successors ⟨0⟩ ∧
      g'.reversePostOrder = (build ⟨0⟩ looping).reversePostOrder) ∧
    (∃ g', (build ⟨0⟩ looping).addEdge ⟨2⟩ ⟨2⟩ = .ok g' ∧
      g'.reversePostOrder = (build ⟨0⟩ looping).reversePostOrder) ∧
    ((build ⟨0⟩ loopingAgain).entry = (build ⟨0⟩ looping).entry ∧
      (build ⟨0⟩ loopingAgain).ids = (build ⟨0⟩ looping).ids ∧
      (∀ a, (build ⟨0⟩ loopingAgain).essential a = (build ⟨0⟩ looping).essential a) ∧
      (build ⟨0⟩ loopingAgain).reversePostOrder = (build ⟨0⟩ looping).reversePostOrder) := by
  obtain ⟨hredundant, -⟩ := redundant_edges_keep_order (build ⟨0⟩ looping)
  have hids : (build ⟨0⟩ looping).ids = [⟨0⟩, ⟨1⟩, ⟨2⟩, ⟨3⟩] := by decide +kernel
  have hadd (a b : BlockId) (ha : a ∈ [⟨0⟩, ⟨1⟩, ⟨2⟩, ⟨3⟩]) (hb : b ∈ [⟨0⟩, ⟨1⟩, ⟨2⟩, ⟨3⟩]) :
      ∃ g', (build ⟨0⟩ looping).addEdge a b = .ok g' := by
    obtain ⟨g', hg', -⟩ := addEdge_of_mem (hids ▸ ha) (hids ▸ hb)
    exact ⟨g', hg'⟩
  have hmem : ⟨1⟩ ∈ (build ⟨0⟩ looping).successors ⟨0⟩ := by decide +kernel
  obtain ⟨g₁, h₁⟩ := hadd ⟨0⟩ ⟨1⟩ (by decide) (by decide)
  obtain ⟨g₂, h₂⟩ := hadd ⟨2⟩ ⟨2⟩ (by decide) (by decide)
  have hentry : (build ⟨0⟩ loopingAgain).entry = (build ⟨0⟩ looping).entry := by
    rw [entry_build, entry_build]
  have hsame : (build ⟨0⟩ loopingAgain).ids = (build ⟨0⟩ looping).ids := by decide +kernel
  refine ⟨⟨g₁, h₁, hmem, ?_⟩, ⟨g₂, h₂, ?_⟩, hentry, hsame, essential_looping, ?_⟩
  · exact (hredundant ⟨0⟩ ⟨1⟩ g₁ h₁ (.inr hmem)).1
  · exact (hredundant ⟨2⟩ ⟨2⟩ g₂ h₂ (.inl rfl)).1
  · exact (redundant_edges_keep_order _).2 _ hentry hsame essential_looping

end Disasm.FlowGraph
