import Mathlib.Data.List.Induction
import Disasm.Proofs.FlowGraph.Order

/-! # The history of a graph

A graph is made by adding blocks and edges to an empty one. It holds the last block
added under each number, in the order of first addition, and the edges whose ends
were blocks when they were added. Any other edge is refused and leaves no trace.
-/

namespace Disasm.FlowGraph

inductive Addition where
  | block (b : Block)
  | edge (a b : BlockId)
  deriving DecidableEq

/-- The graph after an addition, and why an edge was refused. -/
def add (g : FlowGraph) : Addition → FlowGraph × Option MissingBlock
  | .block b => (g.addBlock b, none)
  | .edge a b =>
    match g.addEdge a b with
    | .ok g' => (g', none)
    | .error e => (g, some e)

def build (entry : BlockId) (history : List Addition) : FlowGraph :=
  history.foldl (fun g x => (g.add x).1) (empty entry)

def Addition.block? : Addition → Option Block
  | block b => some b
  | edge .. => none

def addedBlocks (history : List Addition) : List Block := history.filterMap Addition.block?

def addedIds (history : List Addition) : List BlockId := (addedBlocks history).map Block.id

def lastAdded? (history : List Addition) (id : BlockId) : Option Block :=
  ((addedBlocks history).filter fun b => b.id = id).getLast?

/-- The edges that find both ends among the numbers known before and those added before them. -/
def edgesAfter (known : List BlockId) : List Addition → List Edge
  | [] => []
  | .block b :: history => edgesAfter (known ++ [b.id]) history
  | .edge a b :: history =>
    if a ∈ known ∧ b ∈ known then (a, b) :: edgesAfter known history
    else edgesAfter known history

def acceptedEdges (history : List Addition) : List Edge := edgesAfter [] history

/-- Where the edges from a block lead, in order, repetitions included. -/
def targets (edges : List Edge) (id : BlockId) : List BlockId :=
  (edges.filter fun e => e.1 = id).map Prod.snd

variable {g : FlowGraph} {b x : Block} {a c id : BlockId} {history : List Addition}

theorem successors_eq_targets (g : FlowGraph) (id : BlockId) :
    g.successors id = targets g.edges.toList id := by
  simp only [successors, targets, Array.toList_filterMap]
  induction g.edges.toList with
  | nil => rfl
  | cons e es ih =>
    by_cases he : e.1 = id
    · simp [he, ih]
    · simp [he, ih]

/-! ## One addition -/

theorem ids_of_blocks_eq {g' : FlowGraph} (h : g'.blocks = g.blocks) : g'.ids = g.ids := by
  rw [ids, h, ids]

theorem block?_eq_some_iff : g.block? id = some b ↔ b ∈ g.blocks.toList ∧ b.id = id := by
  constructor
  · intro h
    have hm : b ∈ g.blocks := Array.mem_of_find?_eq_some h
    have hid : b.id = id := by simpa using Array.find?_some h
    exact ⟨Array.mem_toList_iff.mpr hm, hid⟩
  · rintro ⟨hm, rfl⟩
    exact block?_of_mem hm

theorem mem_blocks_addBlock : x ∈ (g.addBlock b).blocks.toList ↔
    x = b ∨ x ∈ g.blocks.toList ∧ x.id ≠ b.id := by
  by_cases hc : g.contains b.id
  · have hr : (g.addBlock b).blocks.toList =
        g.blocks.toList.map fun old => if old.id = b.id then b else old := by
      rw [addBlock, dif_pos hc]
      exact Array.toList_map
    rw [hr, List.mem_map]
    constructor
    · rintro ⟨old, ho, rfl⟩
      split
      · exact .inl rfl
      · next hn => exact .inr ⟨ho, hn⟩
    · rintro (rfl | ⟨hx, hn⟩)
      · obtain ⟨old, ho, hid⟩ := List.mem_map.mp (contains_iff.mp hc)
        exact ⟨old, ho, if_pos hid⟩
      · exact ⟨x, hx, if_neg hn⟩
  · rw [toList_blocks_addBlock (by simpa using hc), List.mem_append, List.mem_singleton]
    constructor
    · rintro (hx | rfl)
      · refine .inr ⟨hx, fun hid => hc ?_⟩
        exact contains_iff.mpr (hid ▸ List.mem_map_of_mem hx)
      · exact .inl rfl
    · rintro (rfl | ⟨hx, -⟩)
      · exact .inr rfl
      · exact .inl hx

theorem block?_addBlock (g : FlowGraph) (b : Block) (id : BlockId) :
    (g.addBlock b).block? id = if b.id = id then some b else g.block? id := by
  ext x
  rw [block?_eq_some_iff, mem_blocks_addBlock]
  split
  · next h =>
    subst h
    constructor
    · rintro ⟨rfl | ⟨-, hn⟩, hid⟩
      · rfl
      · exact absurd hid hn
    · rintro ⟨⟩
      exact ⟨.inl rfl, rfl⟩
  · next h =>
    rw [block?_eq_some_iff]
    constructor
    · rintro ⟨rfl | ⟨hx, -⟩, hid⟩
      · exact absurd hid h
      · exact ⟨hx, hid⟩
    · rintro ⟨hx, rfl⟩
      exact ⟨.inr ⟨hx, Ne.symm h⟩, rfl⟩

theorem addEdge_of_mem (ha : a ∈ g.ids) (hc : c ∈ g.ids) : ∃ g',
    g.addEdge a c = .ok g' ∧ g'.entry = g.entry ∧ g'.blocks = g.blocks ∧
      g'.edges.toList = g.edges.toList ++ [(a, c)] := by
  cases h : g.addEdge a c with
  | ok g' =>
    obtain ⟨-, -, hentry, hblocks, hedges⟩ := of_addEdge_eq_ok h
    exact ⟨g', rfl, hentry, hblocks, hedges⟩
  | error e => simp [addEdge, contains_iff.mpr ha, contains_iff.mpr hc] at h

theorem addEdge_of_not_mem (h : ¬ (a ∈ g.ids ∧ c ∈ g.ids)) :
    g.addEdge a c = .error ⟨if a ∈ g.ids then c else a⟩ := by
  by_cases ha : a ∈ g.ids
  · have hc : c ∉ g.ids := fun hc => h ⟨ha, hc⟩
    simp [addEdge, contains_iff, ha, hc]
  · simp [addEdge, contains_iff, ha]

theorem add_edge_of_mem (ha : a ∈ g.ids) (hc : c ∈ g.ids) : ∃ g',
    g.add (.edge a c) = (g', none) ∧ g'.entry = g.entry ∧ g'.blocks = g.blocks ∧
      g'.edges.toList = g.edges.toList ++ [(a, c)] := by
  obtain ⟨g', h, hg⟩ := addEdge_of_mem ha hc
  exact ⟨g', by rw [add, h], hg⟩

theorem add_edge_of_not_mem (h : ¬ (a ∈ g.ids ∧ c ∈ g.ids)) :
    g.add (.edge a c) = (g, some ⟨if a ∈ g.ids then c else a⟩) := by
  rw [add, addEdge_of_not_mem h]

/-! ## Many additions -/

@[simp] theorem addedBlocks_block (history : List Addition) (b : Block) :
    addedBlocks (history ++ [.block b]) = addedBlocks history ++ [b] := List.filterMap_append

@[simp] theorem addedBlocks_edge (history : List Addition) (a c : BlockId) :
    addedBlocks (history ++ [.edge a c]) = addedBlocks history := by
  rw [addedBlocks, List.filterMap_append]
  exact List.append_nil _

theorem edgesAfter_append (known : List BlockId) (history later : List Addition) :
    edgesAfter known (history ++ later) =
      edgesAfter known history ++ edgesAfter (known ++ addedIds history) later := by
  induction history generalizing known with
  | nil => simp [edgesAfter, addedIds, addedBlocks]
  | cons x history ih =>
    cases x with
    | block b =>
      have hi : addedIds (.block b :: history) = b.id :: addedIds history := rfl
      simp [edgesAfter, ih, hi]
    | edge a c =>
      have hi : addedIds (.edge a c :: history) = addedIds history := rfl
      by_cases h : a ∈ known ∧ c ∈ known
      · simp [edgesAfter, ih, hi, h]
      · simp [edgesAfter, ih, hi, h]

theorem eraseDups_concat (ids : List BlockId) (id : BlockId) :
    (ids ++ [id]).eraseDups = if id ∈ ids then ids.eraseDups else ids.eraseDups ++ [id] := by
  rw [List.eraseDups_append]
  by_cases h : id ∈ ids
  · simp [List.cons_removeAll, h]
  · simp [List.cons_removeAll, h, List.eraseDups_cons]

/-- What a graph shows of the additions that made it. -/
structure Records (g : FlowGraph) (history : List Addition) : Prop where
  ids : g.ids = (addedIds history).eraseDups
  block? : ∀ id, g.block? id = lastAdded? history id
  edges : g.edges.toList = acceptedEdges history

theorem Records.mem_ids (h : g.Records history) : id ∈ g.ids ↔ id ∈ addedIds history := by
  rw [h.ids, List.mem_eraseDups]

theorem Records.add_block (h : g.Records history) (b : Block) :
    (g.addBlock b).Records (history ++ [.block b]) where
  ids := by
    have hi : addedIds (history ++ [.block b]) = addedIds history ++ [b.id] := by simp [addedIds]
    rw [ids_addBlock, hi, eraseDups_concat, ← h.ids]
    simp only [h.mem_ids]
  block? id := by
    rw [block?_addBlock, h.block?]
    by_cases hid : b.id = id
    · simp [lastAdded?, hid]
    · simp [lastAdded?, hid]
  edges := by simp [h.edges, acceptedEdges, edgesAfter_append, edgesAfter]

theorem Records.of_blocks_eq {g' : FlowGraph} (h : g.Records history) (hb : g'.blocks = g.blocks)
    (he : g'.edges.toList = acceptedEdges (history ++ [.edge a c])) :
    g'.Records (history ++ [.edge a c]) where
  ids := by
    rw [ids_of_blocks_eq hb, h.ids, addedIds, addedIds, addedBlocks_edge]
  block? id := by
    have hi : g'.block? id = g.block? id := by rw [FlowGraph.block?, hb, FlowGraph.block?]
    rw [hi, h.block?, lastAdded?, lastAdded?, addedBlocks_edge]
  edges := he

theorem Records.add (h : g.Records history) (x : Addition) :
    (g.add x).1.Records (history ++ [x]) := by
  cases x with
  | block b => exact h.add_block b
  | edge a c =>
    have hk : acceptedEdges (history ++ [.edge a c]) = g.edges.toList ++
        if a ∈ g.ids ∧ c ∈ g.ids then [(a, c)] else [] := by
      simp [acceptedEdges, edgesAfter_append, edgesAfter, h.edges, h.mem_ids]
    by_cases hm : a ∈ g.ids ∧ c ∈ g.ids
    · obtain ⟨g', ha, -, hb, he⟩ := add_edge_of_mem hm.1 hm.2
      rw [ha]
      exact h.of_blocks_eq hb (by rw [he, hk, if_pos hm])
    · rw [add_edge_of_not_mem hm]
      exact h.of_blocks_eq rfl (by rw [hk, if_neg hm, List.append_nil])

theorem build_append (entry : BlockId) (history later : List Addition) :
    build entry (history ++ later) =
      later.foldl (fun g x => (g.add x).1) (build entry history) := by
  rw [build, List.foldl_append, build]

theorem records_build (entry : BlockId) (history : List Addition) :
    (build entry history).Records history := by
  induction history using List.reverseRecOn with
  | nil => exact ⟨rfl, fun _ => rfl, rfl⟩
  | append_singleton history x ih =>
    rw [build_append]
    exact ih.add x

theorem entry_build (entry : BlockId) (history : List Addition) :
    (build entry history).entry = entry := by
  induction history using List.reverseRecOn with
  | nil => rfl
  | append_singleton history x ih =>
    have hx : ∀ g : FlowGraph, (g.add x).1.entry = g.entry := by
      intro g
      cases x with
      | block b => exact g.entry_addBlock b
      | edge a c =>
        by_cases h : a ∈ g.ids ∧ c ∈ g.ids
        · obtain ⟨g', ha, hentry, -, -⟩ := add_edge_of_mem h.1 h.2
          rw [ha]
          exact hentry
        · rw [add_edge_of_not_mem h]
    rw [build_append]
    exact (hx _).trans ih

theorem Records.successors_of_not_mem (h : g.Records history) (hid : id ∉ addedIds history) :
    g.successors id = [] := by
  apply List.eq_nil_iff_forall_not_mem.mpr
  intro c hc
  have hm : id ∈ g.ids := (g.closed _ (mem_successors.mp hc)).1
  exact hid (h.mem_ids.mp hm)

theorem Records.size (h : g.Records history) : g.size = (addedIds history).toFinset.card := by
  have hf : (addedIds history).toFinset = g.ids.toFinset := by
    ext id
    rw [List.mem_toFinset, List.mem_toFinset, h.mem_ids]
  rw [hf, List.toFinset_card_of_nodup g.nodup_ids, g.length_ids]

theorem Records.refusal (h : g.Records history) (a c : BlockId) : (g.add (.edge a c)).2 =
    if a ∉ addedIds history then some ⟨a⟩
    else if c ∉ addedIds history then some ⟨c⟩ else none := by
  simp only [← h.mem_ids]
  by_cases hm : a ∈ g.ids ∧ c ∈ g.ids
  · obtain ⟨g', hadd, -⟩ := add_edge_of_mem hm.1 hm.2
    simp [hadd, hm]
  · rw [add_edge_of_not_mem hm]
    by_cases ha : a ∈ g.ids
    · have hc : c ∉ g.ids := fun hc => hm ⟨ha, hc⟩
      simp [ha, hc]
    · simp [ha]

/-- A graph built by any additions has the last block of each number at the place of the first,
and the edges that were accepted: those between numbers that had a block by then. Another block
of a known number changes neither the order nor the edges, and a refused edge changes nothing. -/
theorem build_follows_history (entry : BlockId) (history : List Addition) :
    ((build entry history).entry = entry ∧
      (build entry history).ids = (addedIds history).eraseDups ∧
      (build entry history).size = (addedIds history).toFinset.card) ∧
    (∀ id, (build entry history).block? id = lastAdded? history id) ∧
    (∀ id, (build entry history).successors id = targets (acceptedEdges history) id) ∧
    (∀ id, id ∉ addedIds history → (build entry history).successors id = []) ∧
    (∀ a, ∀ c ∈ (build entry history).successors a, c ∈ (build entry history).ids) ∧
    (∀ b, b.id ∈ addedIds history →
      (build entry (history ++ [.block b])).ids = (build entry history).ids ∧
      ∀ id, (build entry (history ++ [.block b])).successors id =
        (build entry history).successors id) ∧
    (∀ a c, ((build entry history).add (.edge a c)).2 =
      if a ∉ addedIds history then some ⟨a⟩
      else if c ∉ addedIds history then some ⟨c⟩ else none) ∧
    (∀ a c later, ¬ (a ∈ addedIds history ∧ c ∈ addedIds history) →
      build entry (history ++ .edge a c :: later) = build entry (history ++ later)) := by
  have h := records_build entry history
  refine ⟨⟨entry_build entry history, h.ids, h.size⟩, h.block?, ?_, ?_, ?_, ?_, h.refusal, ?_⟩
  · intro id
    rw [successors_eq_targets, h.edges]
  · intro id hid
    exact h.successors_of_not_mem hid
  · intro a c hc
    exact mem_ids_of_mem_successors hc
  · intro b hb
    have hadd : build entry (history ++ [.block b]) = (build entry history).addBlock b :=
      build_append entry history [.block b]
    rw [hadd]
    constructor
    · rw [ids_addBlock, if_pos (h.mem_ids.mpr hb)]
    · exact successors_addBlock _ b
  · intro a c later hm
    rw [← h.mem_ids, ← h.mem_ids] at hm
    rw [build_append, build_append, List.foldl_cons, add_edge_of_not_mem hm]

/-- Two blocks and a second version of the first; two of the edges come too early. -/
def revised : List Addition :=
  [.block { id := ⟨3⟩, start := 48 }, .edge ⟨3⟩ ⟨0⟩, .block { id := ⟨0⟩, start := 0 },
    .edge ⟨3⟩ ⟨0⟩, .edge ⟨9⟩ ⟨8⟩, .edge ⟨3⟩ ⟨0⟩,
    .block { id := ⟨3⟩, start := 50, staticData := true }, .edge ⟨3⟩ ⟨3⟩]

theorem revised_follows_history :
    ((build ⟨0⟩ revised).ids = [⟨3⟩, ⟨0⟩] ∧
      (build ⟨0⟩ revised).block? ⟨3⟩ = some { id := ⟨3⟩, start := 50, staticData := true } ∧
      (build ⟨0⟩ revised).successors ⟨3⟩ = [⟨0⟩, ⟨0⟩, ⟨3⟩]) ∧
    (⟨7⟩ ∉ addedIds revised ∧ (build ⟨0⟩ revised).successors ⟨7⟩ = []) ∧
    (⟨0⟩ ∈ (build ⟨0⟩ revised).successors ⟨3⟩ ∧ ⟨0⟩ ∈ (build ⟨0⟩ revised).ids) ∧
    (⟨3⟩ ∈ addedIds revised ∧
      (build ⟨0⟩ (revised ++ [.block { id := ⟨3⟩, start := 48 }])).ids =
        (build ⟨0⟩ revised).ids) ∧
    (¬ (⟨3⟩ ∈ addedIds revised ∧ ⟨9⟩ ∈ addedIds revised) ∧
      build ⟨0⟩ (revised ++ .edge ⟨3⟩ ⟨9⟩ :: [.edge ⟨0⟩ ⟨3⟩]) =
        build ⟨0⟩ (revised ++ [.edge ⟨0⟩ ⟨3⟩])) := by
  obtain ⟨⟨-, hids, -⟩, hblock, hsucc, hnone, hclosed, hagain, -, hrefused⟩ :=
    build_follows_history ⟨0⟩ revised
  have hs : (build ⟨0⟩ revised).successors ⟨3⟩ = [⟨0⟩, ⟨0⟩, ⟨3⟩] :=
    (hsucc ⟨3⟩).trans (by decide)
  have hn : (⟨7⟩ : BlockId) ∉ addedIds revised := by decide
  have hm : (⟨3⟩ : BlockId) ∈ addedIds revised := by decide
  have hr : ¬ ((⟨3⟩ : BlockId) ∈ addedIds revised ∧ (⟨9⟩ : BlockId) ∈ addedIds revised) := by
    decide
  have h0 : (⟨0⟩ : BlockId) ∈ (build ⟨0⟩ revised).successors ⟨3⟩ := by simp [hs]
  exact ⟨⟨hids.trans (by decide), (hblock ⟨3⟩).trans (by decide), hs⟩, ⟨hn, hnone ⟨7⟩ hn⟩,
    ⟨h0, hclosed ⟨3⟩ ⟨0⟩ h0⟩, ⟨hm, (hagain { id := ⟨3⟩, start := 48 } hm).1⟩,
    hr, hrefused ⟨3⟩ ⟨9⟩ _ hr⟩

end Disasm.FlowGraph
