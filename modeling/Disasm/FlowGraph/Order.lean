import Disasm.FlowGraph
import Disasm.FlowGraph.DepthFirst

/-! # Flow order

A listing shows the blocks that the entry reaches, then the groups that are
reached from the other blocks, each group in reverse post-order.
-/

namespace Disasm.FlowGraph

/-- Where the search starts: at the entry if it is a block, then at every block. -/
def roots (g : FlowGraph) : List BlockId :=
  if g.contains g.entry then g.entry :: g.ids else g.ids

/-- The groups of blocks found from each root. A search path never repeats a block, so it is
no longer than there are blocks. -/
def groups (g : FlowGraph) : List (List BlockId) :=
  DepthFirst.forest g.successors g.size [] g.roots

/-- All block numbers, the groups one after the other. -/
def reversePostOrder (g : FlowGraph) : List BlockId := g.groups.flatten

def flowOrder (g : FlowGraph) : List Block := g.reversePostOrder.filterMap g.block?

end Disasm.FlowGraph
