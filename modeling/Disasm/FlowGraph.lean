import Disasm.Block

/-! # Flow graphs

A flow graph holds blocks with distinct numbers, in the order in which they were
first added, and edges between them, in the order in which they were added. One
number is the entry; it need not belong to a block.
-/

namespace Disasm

abbrev Edge := BlockId × BlockId

/-- Blocks with distinct numbers and edges between them. -/
structure FlowGraph where
  entry : BlockId
  blocks : Array Block
  edges : Array Edge
  distinct : (blocks.toList.map Block.id).Nodup
  closed : ∀ e ∈ edges.toList,
    e.1 ∈ blocks.toList.map Block.id ∧ e.2 ∈ blocks.toList.map Block.id

namespace FlowGraph

def empty (entry : BlockId) : FlowGraph := ⟨entry, #[], #[], .nil, by simp⟩

instance : Inhabited FlowGraph := ⟨empty default⟩

/-- The numbers of the blocks, in order of first addition. -/
def ids (g : FlowGraph) : List BlockId := g.blocks.toList.map Block.id

def size (g : FlowGraph) : Nat := g.blocks.size

def contains (g : FlowGraph) (id : BlockId) : Bool := g.blocks.any fun b => b.id == id

def block? (g : FlowGraph) (id : BlockId) : Option Block := g.blocks.find? fun b => b.id == id

/-- The targets of the edges from a block, in order of addition, repetitions included. -/
def successors (g : FlowGraph) (id : BlockId) : List BlockId :=
  (g.edges.filterMap fun e => if e.1 = id then some e.2 else none).toList

theorem contains_iff {g : FlowGraph} {id : BlockId} : g.contains id = true ↔ id ∈ g.ids := by
  simp [contains, ids, ← Array.any_toList]

/-- A block put in the place of the one with the same number. -/
def replaceIn (blocks : Array Block) (b : Block) : Array Block :=
  blocks.map fun old => if old.id = b.id then b else old

theorem ids_replaceIn (blocks : Array Block) (b : Block) :
    (replaceIn blocks b).toList.map Block.id = blocks.toList.map Block.id := by
  simp only [replaceIn, Array.toList_map, List.map_map, List.map_inj_left, Function.comp_apply]
  intro old _
  split <;> simp_all

/-- Adds a block, in the place of the one with the same number if there is one. -/
def addBlock (g : FlowGraph) (b : Block) : FlowGraph :=
  if h : g.contains b.id then
    { g with
      blocks := replaceIn g.blocks b
      distinct := by rw [ids_replaceIn]; exact g.distinct
      closed := by rw [ids_replaceIn]; exact g.closed }
  else
    { g with
      blocks := g.blocks.push b
      distinct := by
        rw [contains_iff] at h
        simp only [Array.toList_push, List.map_append, List.map_cons, List.map_nil]
        refine List.nodup_append.mpr ⟨g.distinct, by simp, fun x hx y hy => ?_⟩
        rw [List.mem_singleton.mp hy]
        exact fun he => h (he ▸ hx)
      closed := fun e he => by
        have := g.closed e he
        simp only [Array.toList_push, List.map_append, List.mem_append]
        exact ⟨.inl this.1, .inl this.2⟩ }

theorem ids_addBlock (g : FlowGraph) (b : Block) :
    (g.addBlock b).ids = if b.id ∈ g.ids then g.ids else g.ids ++ [b.id] := by
  unfold addBlock
  split
  · next h => rw [if_pos (contains_iff.mp h)]; exact ids_replaceIn g.blocks b
  · next h => rw [if_neg (mt contains_iff.mpr h)]; simp [ids]

theorem toList_blocks_addBlock {g : FlowGraph} {b : Block} (h : g.contains b.id = false) :
    (g.addBlock b).blocks.toList = g.blocks.toList ++ [b] := by
  unfold addBlock
  rw [dif_neg (by simp [h])]
  exact Array.toList_push

@[simp] theorem entry_addBlock (g : FlowGraph) (b : Block) : (g.addBlock b).entry = g.entry := by
  unfold addBlock
  split <;> rfl

@[simp] theorem edges_addBlock (g : FlowGraph) (b : Block) : (g.addBlock b).edges = g.edges := by
  unfold addBlock
  split <;> rfl

@[simp] theorem successors_addBlock (g : FlowGraph) (b : Block) (id : BlockId) :
    (g.addBlock b).successors id = g.successors id := by simp [successors]

theorem mem_ids_of_mem_successors {g : FlowGraph} {a b : BlockId} (h : b ∈ g.successors a) :
    b ∈ g.ids := by
  simp only [successors, Array.toList_filterMap, List.mem_filterMap] at h
  obtain ⟨e, he, hb⟩ := h
  split at hb
  · exact Option.some.inj hb ▸ (g.closed e he).2
  · cases hb

structure MissingBlock where
  id : BlockId
  deriving DecidableEq, Repr

def MissingBlock.message (e : MissingBlock) : String :=
  "invalid basic block id: BasicBlockId(" ++ toString e.id.index.toNat ++ ")"

def addEdge (g : FlowGraph) (a b : BlockId) : Except MissingBlock FlowGraph :=
  if ha : g.contains a then
    if hb : g.contains b then
      .ok { g with
        edges := g.edges.push (a, b)
        closed := fun e he => by
          rcases List.mem_append.mp (Array.toList_push ▸ he) with he | he
          · exact g.closed e he
          · rw [List.mem_singleton.mp he]
            exact ⟨contains_iff.mp ha, contains_iff.mp hb⟩ }
    else .error ⟨b⟩
  else .error ⟨a⟩

/-- An edge that is added joins two blocks, and nothing else changes. -/
theorem of_addEdge_eq_ok {g g' : FlowGraph} {a b : BlockId} (h : g.addEdge a b = .ok g') :
    a ∈ g.ids ∧ b ∈ g.ids ∧ g'.entry = g.entry ∧ g'.blocks = g.blocks ∧
      g'.edges.toList = g.edges.toList ++ [(a, b)] := by
  unfold addEdge at h
  split at h
  · next ha =>
    split at h
    · next hb =>
      cases h
      exact ⟨contains_iff.mp ha, contains_iff.mp hb, rfl, rfl, Array.toList_push⟩
    · cases h
  · cases h

def withEntry (g : FlowGraph) (entry : BlockId) : FlowGraph := { g with entry }

end FlowGraph

end Disasm
